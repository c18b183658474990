import Libgs.Core.Algorithm
import Libgs.Lib.Digits
import Mathlib.Data.Int.Notation
import Mathlib.Data.List.TakeWhile

/-!
# Strings to numbers

`ston` and its helpers of `core/algorithm/detail/base.h`, over `std::stoul` and `std::stold` as glibc
has them on x86-64: an `unsigned long` has 64 bits and a `long double` has 64 bits of mantissa.
-/

namespace Libgs

open Lib

/-- `std::isspace` of the C locale -/
def isspace (c : UInt8) : Bool := (9 ≤ c ∧ c ≤ 13) ∨ c = 32

def scan_sign : Bytes → Bool × Bytes
  | c :: s => if c = 45 then (true, s) else if c = 43 then (false, s) else (false, c :: s)
  | [] => (false, [])

/-- What stands behind a `0x` that a digit follows. -/
def scan_hex_mark : Bytes → Option Bytes
  | z :: x :: d :: s => if z = 48 ∧ tolower x = 120 ∧ isDigit 16 d then some (d :: s) else none
  | _ => none

/-- The sign, the base that the digits have and where they begin. For base 0 the digits tell their base. -/
def scan_number (str : Bytes) (base : ℕ) : Bool × ℕ × Bytes :=
  let (neg, s) := scan_sign (str.dropWhile isspace)
  if base = 0 ∨ base = 16 then
    match scan_hex_mark s with
    | some digits => (neg, 16, digits)
    | none => (neg, if base = 16 then 16 else if s.head? = some 48 then 8 else 10, s)
  else (neg, base, s)

/-- What `std::stoul` and `std::stol` have in common: the sign, the absolute value and the index. The base is cast to
`int`. -/
def scan_integer (str : Bytes) (base : ℕ) : Except exception (Bool × ℕ × ℕ) :=
  let base := base % 2 ^ 32
  if base = 1 ∨ 36 < base then .error .invalid_argument
  else
    let (neg, base, s) := scan_number str base
    let digits := s.takeWhile (isDigit base)
    if digits = [] then .error .invalid_argument
    else .ok (neg, digitsVal base digits, str.length - (s.length - digits.length))

/-- `std::stoul`, with the number of the characters that were read -/
def stoul (str : Bytes) (base : ℕ) : Except exception (ℕ × ℕ) :=
  match scan_integer str base with
  | .error e => .error e
  | .ok (neg, value, index) =>
    if size_max ≤ value then .error .out_of_range
    else .ok (if neg then size_sub 0 value else value, index)

/-! ## Floating point -/

/-- A value of type `long double` -/
inductive long_double
  | finite (neg : Bool) (mantissa : ℕ) (exponent : ℤ)
  | inf (neg : Bool)
  | nan
  deriving DecidableEq, Repr

/-- A fraction divided by a power of two -/
def scale (num den : ℕ) (e : ℤ) : ℕ × ℕ :=
  if 0 ≤ e then (num, den * 2 ^ e.toNat) else (num * 2 ^ (-e).toNat, den)

/-- The quotient, rounded to the nearest number, and to the even one of two -/
def round_half_even (num den : ℕ) : ℕ :=
  let q := num / den
  let r := num % den
  if 2 * r < den ∨ (2 * r = den ∧ q % 2 = 0) then q else q + 1

/-- The nearest `long double`, as mantissa and exponent. `none` is `ERANGE`. -/
def round_mantissa (num den : ℕ) : Option (ℕ × ℤ) :=
  if num = 0 then some (0, 0)
  else
    let n : ℤ := (num.log2 : ℤ) - den.log2
    let top := if (scale num den n).2 ≤ (scale num den n).1 then n else n - 1
    let e := max (top - 63) (-16445)
    let (a, b) := scale num den e
    let m := round_half_even a b
    if top < -16382 ∧ a % b ≠ 0 then none
    else if 16384 ≤ top ∨ (m = size_max ∧ e = 16383 - 63) then none
    else some (m, e)

/-- The digits before and behind the point, how many stand behind it, and the rest -/
def scan_mantissa (base : ℕ) (s : Bytes) : Option (ℕ × ℕ × Bytes) :=
  let whole := s.takeWhile (isDigit base)
  let rest := s.drop whole.length
  let (part, rest) :=
    match rest with
    | c :: rest' => if c = 46 then (rest'.takeWhile (isDigit base), rest'.dropWhile (isDigit base)) else ([], rest)
    | [] => ([], rest)
  if whole = [] ∧ part = [] then none
  else some (digitsVal base (whole ++ part), part.length, rest)

/-- An exponent behind the letter `mark`, if there is a whole one. -/
def scan_exponent (mark : UInt8) : Bytes → ℤ × Bytes
  | c :: s =>
    let (neg, t) := scan_sign s
    let digits := t.takeWhile (isDigit 10)
    if tolower c = mark ∧ digits ≠ [] then
      (if neg then - (digitsVal 10 digits : ℤ) else digitsVal 10 digits, t.drop digits.length)
    else (0, c :: s)
  | [] => (0, [])

def make_finite (neg : Bool) (mantissa base : ℕ) (shift twos : ℤ) : Except exception long_double :=
  let num := mantissa * base ^ shift.toNat * 2 ^ twos.toNat
  let den := base ^ (-shift).toNat * 2 ^ (-twos).toNat
  match round_mantissa num den with
  | none => .error .out_of_range
  | some (m, e) => .ok (.finite neg m e)

/-- The text begins with the word, in any letter case. -/
def has_prefix_icase (word s : Bytes) : Bool := word.isPrefixOf (str_to_lower s)

def skip_nan_text (s : Bytes) : Bytes :=
  let inner := s.tail.takeWhile fun c => isDigit 36 c ∨ c = 95
  match s, s.tail.drop inner.length with
  | o :: _, c :: rest => if o = 40 ∧ c = 41 then rest else s
  | _, _ => s

/-- `std::stold`, with the number of the characters that were read -/
def stold (str : Bytes) : Except exception (long_double × ℕ) :=
  let (neg, s) := scan_sign (str.dropWhile isspace)
  let stop (rest : Bytes) (v : long_double) := (v, str.length - rest.length)
  if has_prefix_icase (ascii "infinity") s then .ok (stop (s.drop 8) (.inf neg))
  else if has_prefix_icase (ascii "inf") s then .ok (stop (s.drop 3) (.inf neg))
  else if has_prefix_icase (ascii "nan") s then .ok (stop (skip_nan_text (s.drop 3)) .nan)
  else
    let hex := (if has_prefix_icase (ascii "0x") s then scan_mantissa 16 (s.drop 2) else none)
    match hex with
    | some (v, k, rest) =>
      let (e, rest) := scan_exponent 112 rest
      (make_finite neg v 16 (-k) e).map (stop rest)
    | none =>
      match scan_mantissa 10 s with
      | none => .error .invalid_argument
      | some (v, k, rest) =>
        let (e, rest) := scan_exponent 101 rest
        (make_finite neg v 10 (e - k) 0).map (stop rest)

/-- A whole number as the `unsigned long` that a cast on x86-64 makes of it -/
def ulong_wrap (neg : Bool) (whole : ℕ) : ℕ :=
  if neg then (if 2 ^ 63 < whole then 2 ^ 63 else size_sub 0 whole)
  else if size_max ≤ whole then 0 else whole

/-- `static_cast<unsigned long>`. What does not fit has no meaning in C++; this is what the
`fistp` sequence of x86-64 leaves behind. -/
def ulong_cast : long_double → ℕ
  | .nan => 2 ^ 63
  | .inf neg => if neg then 2 ^ 63 else 0
  | .finite neg m e => ulong_wrap neg (if 0 ≤ e then m * 2 ^ e.toNat else m / 2 ^ (-e).toNat)

/-! ## The conversions of the library -/

def not_arithmetic : exception := .runtime_error (ascii "Cannot convert string to arithmetic.")

/-- `_sto_float`: a text that is a floating point number as a whole -/
def _sto_float (str : Bytes) : Except exception long_double :=
  match stold str with
  | .error e => .error e
  | .ok (res, index) => if index < str.length then .error not_arithmetic else .ok res

/-- `_sto_int`: a text that is an integer as a whole, or else a floating point number -/
def _sto_int (str : Bytes) (base : ℕ) : Except exception ℕ :=
  match stoul str base with
  | .error e => .error e
  | .ok (res, index) => if index < str.length then (_sto_float str).map ulong_cast else .ok res

/-- `_stob`: 1 or 0 for the two words in any letter case, -1 for anything else -/
def _stob (str : Bytes) : ℤ :=
  if str_to_lower str = ascii "true" then 1
  else if str_to_lower str = ascii "false" then 0
  else -1

/-- `ston<size_t>`. Whatever `_sto_int` throws is caught; then the text may be a truth value. -/
def ston (str : Bytes) (base : ℕ) : Except exception ℕ :=
  match _sto_int str base with
  | .ok res => .ok res
  | .error _ => if _stob str < 0 then .error not_arithmetic else .ok (if _stob str = 0 then 0 else 1)

/-- `ston_or<size_t>`, which throws nothing -/
def ston_or (str : Bytes) (base : ℕ := 10) (default_value : ℕ := 0) : ℕ :=
  match ston str base with
  | .ok res => res
  | .error _ => default_value

/-! ## What comes out -/

theorem ulong_wrap_lt (neg : Bool) (whole : ℕ) : ulong_wrap neg whole < size_max := by
  have h63 : 2 ^ 63 < size_max := by decide
  unfold ulong_wrap
  split_ifs
  · exact h63
  · exact size_sub_lt _ _
  · omega
  · omega

theorem ulong_cast_lt (v : long_double) : ulong_cast v < size_max := by
  cases v with
  | nan => exact show 2 ^ 63 < size_max by decide
  | inf neg => cases neg <;> exact (by decide)
  | finite neg m e => exact ulong_wrap_lt _ _

theorem stoul_lt (str : Bytes) (base : ℕ) (n i : ℕ) (h : stoul str base = .ok (n, i)) : n < size_max := by
  unfold stoul at h
  split at h
  · cases h
  · split_ifs at h with h1 h2 <;> simp only [Except.ok.injEq, Prod.mk.injEq] at h
    · rw [← h.1]
      exact size_sub_lt _ _
    · omega

theorem ston_lt (str : Bytes) (base n : ℕ) (h : ston str base = .ok n) : n < size_max := by
  unfold ston at h
  cases hi : _sto_int str base with
  | error e =>
    simp only [hi] at h
    have : (1 : ℕ) < size_max := by decide
    split at h
    · cases h
    · simp only [Except.ok.injEq] at h
      split at h <;> omega
  | ok res =>
    simp only [hi, Except.ok.injEq] at h
    subst h
    unfold _sto_int at hi
    split at hi
    · cases hi
    · rename_i v index hs
      split at hi
      · cases hf : _sto_float str with
        | error e => simp [hf, Except.map] at hi
        | ok v =>
          simp only [hf, Except.map, Except.ok.injEq] at hi
          rw [← hi]
          exact ulong_cast_lt v
      · simp only [Except.ok.injEq] at hi
        rw [← hi]
        exact stoul_lt str base _ _ hs

theorem hex_digit_plain (c : UInt8) : isDigit 16 c = true → isspace c = false ∧ c ≠ 45 ∧ c ≠ 43 ∧ tolower c ≠ 120 :=
  byte_forall (p := fun c => isDigit 16 c = true → isspace c = false ∧ c ≠ 45 ∧ c ≠ 43 ∧ tolower c ≠ 120)
    (by decide +kernel) c

theorem scan_integer_hex (str : Bytes) (hne : str ≠ []) (h : str.all (isDigit 16) = true) :
    scan_integer str 16 = .ok (false, digitsVal 16 str, str.length) := by
  obtain ⟨c, s, rfl⟩ := List.exists_cons_of_ne_nil hne
  have hc := hex_digit_plain c (by simp_all)
  have hspace : (c :: s).dropWhile isspace = c :: s := by simp [hc.1]
  have hsign : scan_sign (c :: s) = (false, c :: s) := by simp [scan_sign, hc.2.1, hc.2.2.1]
  have hmark : scan_hex_mark (c :: s) = none := by
    unfold scan_hex_mark
    split
    · rename_i z x d s' heq
      have hx : x ∈ c :: s := by simp [heq]
      rw [List.all_eq_true] at h
      simp [(hex_digit_plain x (h x hx)).2.2.2]
    · rfl
  have hnum : scan_number (c :: s) 16 = (false, 16, c :: s) := by simp [scan_number, hspace, hsign, hmark]
  have hdigits := List.takeWhile_eq_self_iff.mpr (List.all_eq_true.mp h)
  simp [scan_integer, hnum, hdigits]

theorem stoul_hex (str : Bytes) (hne : str ≠ []) (h : str.all (isDigit 16) = true) :
    stoul str 16 =
      if size_max ≤ digitsVal 16 str then .error .out_of_range else .ok (digitsVal 16 str, str.length) := by
  rw [stoul, scan_integer_hex str hne h]
  rfl

theorem ston_hex (str : Bytes) (hne : str ≠ []) (h : str.all (isDigit 16) = true) (hlen : str.length ≤ 16) :
    ston str 16 = .ok (digitsVal 16 str) := by
  have hlt : digitsVal 16 str < size_max := by
    calc digitsVal 16 str < 16 ^ str.length := digitsVal_lt 16 str h
      _ ≤ 16 ^ 16 := Nat.pow_le_pow_right (by omega) hlen
      _ = size_max := by decide
  simp [ston, _sto_int, stoul_hex str hne h, Nat.not_le.mpr hlt]

theorem decimal_digit_plain (c : UInt8) : isDigit 10 c = true → isspace c = false ∧ c ≠ 45 ∧ c ≠ 43 :=
  byte_forall (p := fun c => isDigit 10 c = true → isspace c = false ∧ c ≠ 45 ∧ c ≠ 43) (by decide +kernel) c

theorem scan_integer_decimal (str : Bytes) (hne : str ≠ []) (h : str.all (isDigit 10) = true) :
    scan_integer str 10 = .ok (false, digitsVal 10 str, str.length) := by
  obtain ⟨c, s, rfl⟩ := List.exists_cons_of_ne_nil hne
  have hc := decimal_digit_plain c (by simp_all)
  have hspace : (c :: s).dropWhile isspace = c :: s := by simp [hc.1]
  have hsign : scan_sign (c :: s) = (false, c :: s) := by simp [scan_sign, hc.2.1, hc.2.2]
  have hnum : scan_number (c :: s) 10 = (false, 10, c :: s) := by simp [scan_number, hspace, hsign]
  have hdigits := List.takeWhile_eq_self_iff.mpr (List.all_eq_true.mp h)
  simp [scan_integer, hnum, hdigits]

theorem ston_decimal (str : Bytes) (hne : str ≠ []) (h : str.all (isDigit 10) = true)
    (hlt : digitsVal 10 str < size_max) : ston str 10 = .ok (digitsVal 10 str) := by
  have hstoul : stoul str 10 = .ok (digitsVal 10 str, str.length) := by
    rw [stoul, scan_integer_decimal str hne h]
    exact if_neg (Nat.not_le.mpr hlt)
  simp [ston, _sto_int, hstoul]

theorem ston_or_decimal (str : Bytes) (hne : str ≠ []) (h : str.all (isDigit 10) = true)
    (hlt : digitsVal 10 str < size_max) : ston_or str = digitsVal 10 str := by
  unfold ston_or
  rw [ston_decimal str hne h hlt]

theorem ston_or_lt (str : Bytes) : ston_or str < size_max := by
  unfold ston_or
  cases hston : ston str 10 with
  | ok res => exact ston_lt str 10 res hston
  | error e => exact (by decide : 0 < size_max)

theorem ston_digits (n : ℕ) (h : n < size_max) : ston (digits 10 n) 10 = .ok n := by
  have hval : digitsVal 10 (digits 10 n) = n := digitsVal_digits 10 n (by omega) (by omega)
  rw [ston_decimal _ (digits_ne_nil 10 n) (digits_all 10 n (by omega) (by omega)) (by rwa [hval]), hval]

example : ston (ascii "5.7") 10 = .ok 5 := by rfl

end Libgs
