import Libgs.Core.Base
import Libgs.Lib.Find

/-!
# String algorithms

`core/algorithm/base.h`, `core/algorithm/misc.cpp` and `core/string_list.h` for `char`. A `char` is
signed, so that a byte from 128 on is below zero.
-/

namespace Libgs

open Lib

/-- `std::tolower` of the C locale -/
def tolower (c : UInt8) : UInt8 := if 65 ≤ c ∧ c ≤ 90 then c + 32 else c

/-- `std::toupper` of the C locale -/
def toupper (c : UInt8) : UInt8 := if 97 ≤ c ∧ c ≤ 122 then c - 32 else c

def str_to_lower (str : Bytes) : Bytes := str.map tolower

def str_to_upper (str : Bytes) : Bytes := str.map toupper

theorem tolower_tolower (c : UInt8) : tolower (tolower c) = tolower c := by
  unfold tolower
  split
  · rename_i h
    have : ¬ (65 ≤ c + 32 ∧ c + 32 ≤ 90) := by
      simp only [UInt8.le_iff_toNat_le, UInt8.toNat_add] at *
      simp at *
      omega
    rw [if_neg this]
  · rfl

@[simp] theorem str_to_lower_idem (str : Bytes) : str_to_lower (str_to_lower str) = str_to_lower str := by
  simp [str_to_lower, tolower_tolower]

/-- The characters that `str_trimmed` takes away at both ends -/
def isBlank (c : UInt8) : Bool := 1 ≤ c ∧ c ≤ 32

/-- The `int` index of the loops is left out, which holds for texts of less than `2 ^ 31` bytes. -/
def str_trimmed (str : Bytes) : Bytes := ((str.dropWhile isBlank).reverse.dropWhile isBlank).reverse

/-! ## Percent encoding -/

/-- The value of a hexadecimal digit. Any other character stays what it is. -/
def hex_value (a : UInt8) : UInt8 :=
  if 0x30 ≤ a ∧ a ≤ 0x39 then a - 0x30
  else if 0x61 ≤ a ∧ a ≤ 0x66 then a - 0x61 + 10
  else if 0x41 ≤ a ∧ a ≤ 0x46 then a - 0x41 + 10
  else a

/-- A percent sign with two characters behind it is one byte, whatever these two are. -/
def from_percent_encoding : Bytes → Bytes
  | c :: a :: b :: rest =>
    if c = 0x25 then (hex_value a <<< 4 ||| hex_value b) :: from_percent_encoding rest
    else c :: from_percent_encoding (a :: b :: rest)
  | str => str

/-! ## Wildcards -/

/-- `dp[0]`: only stars match the empty string. -/
def wildcard_row_zero : Bytes → Bool → List Bool
  | [], last => [last]
  | r :: rule, last => last :: wildcard_row_zero rule (if r = 0x2A then last else false)

/-- One row of the table: `up` is the row above, from the column to the left on, and `left` is the
cell to the left. The second part is what the row adds to the weight. -/
def wildcard_row (c : UInt8) : Bytes → List Bool → Bool → List Bool × ℤ
  | r :: rule, u :: u' :: up, left =>
    let (cell, add) :=
      if r = 0x3F then (u, 1)
      else if r = c then (u, 0)
      else if r = 0x2A then (u' || left, 2)
      else (false, 0)
    let (row, weight) := wildcard_row c rule (u' :: up) cell
    (cell :: row, add + weight)
  | _, _, _ => ([], 0)

/-- The rows of the table, one for each character of the string, and the weight so far -/
def wildcard_rows (rule : Bytes) : Bytes → List Bool → ℤ → List Bool × ℤ
  | [], row, weight => (row, weight)
  | c :: str, row, weight =>
    let (next, add) := wildcard_row c rule row false
    wildcard_rows rule str (false :: next) (weight + add)

/-- The weight has the type `int32_t`. A sum that does not fit has no meaning in C++; it wraps around on x86-64. -/
def wildcard_match (rule str : Bytes) : ℤ :=
  let (row, weight) := wildcard_rows rule str (wildcard_row_zero rule true) 0
  if row.getLast? = some true then weight.bmod (2 ^ 32) else -1

/-! ## Lists of strings -/

/-- The loop of `from_string`. Every piece is cut off together with its separator. -/
def split_pieces (splits : Bytes) (ignore_empty : Bool) : ℕ → Bytes → List Bytes
  | 0, _ => []
  | n + 1, strs =>
    match cut splits strs with
    | none => []
    | some (tmp, rest) =>
      let more := split_pieces splits ignore_empty n rest
      if str_trimmed tmp ≠ [] ∨ ¬ ignore_empty then tmp :: more else more

/-- The pieces of the loop. A separator is put behind the text first. -/
def from_string (str splits : Bytes) (ignore_empty : Bool := true) : List Bytes :=
  if str = [] then []
  else split_pieces splits ignore_empty (str ++ splits).length (str ++ splits)

/-- Takes the last separator off again. With nothing joined there is none, and `erase` throws. -/
def erase_split (result splits : Bytes) : Except exception Bytes :=
  if result.length < splits.length then .error .out_of_range
  else .ok (result.take (result.length - splits.length))

/-- Every text with the separator behind it -/
def append_each (strs : List Bytes) (splits : Bytes) : Bytes := (strs.map (· ++ splits)).flatten

/-- `join` of the whole list: the last separator is erased again. -/
def join (strs : List Bytes) (splits : Bytes) : Except exception Bytes :=
  erase_split (append_each strs splits) splits

/-- `join` of `length` texts from `index` on -/
def join_range (strs : List Bytes) (index length : ℕ) (splits : Bytes) : Except exception Bytes :=
  if index + length > strs.length ∧ strs.length ≤ index then .ok []
  else erase_split (append_each ((strs.drop index).take length) splits) splits

end Libgs
