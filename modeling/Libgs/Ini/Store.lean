import Libgs.Core.PercentEncoding
import Libgs.Core.StringList
import Libgs.Lib.Digits
import Libgs.Lib.OrderedMap
import Mathlib.Data.List.Lex

/-!
# The INI store

`basic_ini` of `core/ini.h`: `load` and `sync` of `core/detail/ini.h`, for narrow characters.
-/

namespace Libgs

open Lib

/-! ## Kinds of text -/

def isdigit (c : UInt8) : Bool := 0x30 ≤ c ∧ c ≤ 0x39

/-- The loop of `is_rlnum`: digits, with one dot at most. -/
def rlnum_rest (dot : Bool) : Bytes → Bool
  | [] => true
  | c :: rest =>
    if isdigit c then rlnum_rest dot rest
    else if c = 0x2E ∧ ¬ dot then rlnum_rest true rest
    else false

/-- Behind a sign at the end of the text the terminator is read, which is no digit. -/
def rlnum_digits : Bytes → Bool
  | [] => false
  | c :: rest => isdigit c ∧ rlnum_rest false rest

/-- A number, which may have a sign and a point -/
def is_rlnum : Bytes → Bool
  | [] => false
  | c :: rest => rlnum_digits (if c = 0x2D ∨ c = 0x2B then rest else c :: rest)

/-- A `char` is signed, and so is never above `0x7F`. -/
def is_ascii (str : Bytes) : Bool := str.all fun c => c.toInt8 ≤ 0x7F

theorem is_ascii_true (str : Bytes) : is_ascii str = true := by
  have hall : ∀ c : UInt8, c.toInt8 ≤ 0x7F :=
    fun c => byte_forall (p := fun c => c.toInt8 ≤ 0x7F) (by decide +kernel) c
  simp [is_ascii, hall]

/-- The conversion of a `size_t` to `int`. -/
def int_cast (n : ℕ) : ℤ := (BitVec.ofNat 32 n).toInt

namespace basic_ini

namespace ini_keyword_char

def left_bracket : UInt8 := 0x5B

def right_bracket : UInt8 := 0x5D

def assigning : UInt8 := 0x3D

def single_quotes : UInt8 := 0x27

def double_quotes : UInt8 := 0x22

def sharp : UInt8 := 0x23

def semicolon : UInt8 := 0x3B

def line_break : UInt8 := 0x0A

end ini_keyword_char

open ini_keyword_char

/-! ## Groups and keys -/

/-- Strings are ordered by their bytes. -/
def string_rank (s : Bytes) : List ℕ := s.map (·.toNat)

theorem string_rank_injective : Function.Injective string_rank :=
  List.map_injective_iff.mpr fun _ _ => UInt8.toNat_inj.mp

/-- The keys of a group -/
abbrev ini_keys_t := OrderedMap string_rank Bytes

/-- The groups of a file -/
abbrev group_map_t := OrderedMap string_rank ini_keys_t

/-- What the object keeps of a file -/
structure impl where
  m_groups : group_map_t := .empty

/-! ## Errors -/

/-- The categories of the errors of `load` and `sync` -/
inductive ini_category
  | generic
  | operation
  | iostream
  | invalid_group
  | no_group_specified
  | invalid_key_value_line
  | key_is_empty
  | invalid_value
  deriving DecidableEq, Repr

structure ini_error where
  category : ini_category
  value : ℤ
  deriving DecidableEq, Repr

/-- What can be thrown inside the `try` block. Only the first is a `std::system_error`. -/
inductive thrown
  | system_error (code : ini_error)
  | no_element
  deriving DecidableEq, Repr

namespace errc

def no_such_file_or_directory : ini_error := ⟨.generic, 2⟩

def operation_aborted : ini_error := ⟨.operation, 125⟩

def stream : ini_error := ⟨.iostream, 1⟩

end errc

/-- A syntax error is thrown with its line as the value. -/
def syntax_error {α : Type} (category : ini_category) (line : ℕ) : Except thrown α :=
  .error (.system_error ⟨category, int_cast line⟩)

/-! ## Reading -/

/-- `m_groups[group]` creates the group that is missing. -/
def impl.create (p : impl) (group : Bytes) : impl := ⟨p.m_groups.emplace group .empty⟩

/-- `m_groups[group][key] = value` -/
def impl.store (p : impl) (group key value : Bytes) : impl :=
  ⟨p.m_groups.alter group fun keys => (keys.getD .empty).assign key value⟩

/-- The line of a group. The group is put into the store. -/
def parsing_group (p : impl) (str : Bytes) (line : ℕ) : impl × Except thrown Bytes :=
  if str.length < 3 ∨ str.getLast? ≠ some right_bracket then (p, syntax_error .invalid_group line)
  else
    let group := from_percent_encoding (str_trimmed ((str.drop 1).take (str.length - 2)))
    if group = [] then (p, syntax_error .invalid_group line) else (p.create group, .ok group)

/-- Of more than one `=` in front of the value only some are left, and nothing of the value. -/
def skip_assigning (value : Bytes) : Bytes :=
  let i := ((value.take (int_cast value.length).toNat).takeWhile (· = assigning)).length
  if i = 0 then value else value.take (i - 1)

/-- The text of the value, without its quotes. -/
def parsing_value (value : Bytes) (line : ℕ) : Except thrown Bytes :=
  if value.length = 1 then
    if value.head? = some assigning ∨ value.head? = some single_quotes ∨ value.head? = some double_quotes then
      syntax_error .invalid_value line
    else .ok value
  else if value.head? = some single_quotes ∨ value.head? = some double_quotes then
    if value.getLast? ≠ value.head? then syntax_error .invalid_value line
    else .ok ((value.drop 1).take (value.length - 2))
  else .ok value

/-- A line with a key and a value -/
def parsing_key_value (p : impl) (curr_group str : Bytes) (line : ℕ) : impl × Except thrown Unit :=
  if curr_group = [] then (p, syntax_error .no_group_specified line)
  else if str.length < 2 then (p, syntax_error .invalid_key_value_line line)
  else
    match find [assigning] str with
    | none => (p, syntax_error .invalid_key_value_line line)
    | some pos =>
      if pos = 0 then (p, syntax_error .key_is_empty line)
      else
        let key := from_percent_encoding (str_trimmed (str.take pos))
        if key = [] then (p, syntax_error .key_is_empty line)
        else
          match parsing_value (skip_assigning (str_trimmed (str.drop (pos + 1)))) line with
          | .error e => (p, .error e)
          | .ok value => (p.store curr_group key (from_percent_encoding value), .ok ())

/-- `list[0]` of the text split at `c`. -/
def first_piece (buf : Bytes) (c : UInt8) : Except thrown Bytes :=
  match from_string buf [c] with
  | [] => .error .no_element
  | piece :: _ => .ok (str_trimmed piece)

/-- The line as the two parsers get it; nothing where the loop goes on with the next line. -/
def load_text (buf : Bytes) : Except thrown (Option Bytes) :=
  let buf := str_trimmed buf
  if buf = [] ∨ buf.head? = some sharp ∨ buf.head? = some semicolon then .ok none
  else (first_piece buf sharp).bind fun buf => (first_piece buf semicolon).map some

/-- One line of the file; the value is the current group behind it. -/
def load_line (p : impl) (curr_group buf : Bytes) (line : ℕ) : impl × Except thrown Bytes :=
  match load_text buf with
  | .error e => (p, .error e)
  | .ok none => (p, .ok curr_group)
  | .ok (some buf) =>
    if buf.head? = some left_bracket then parsing_group p buf line
    else
      let r := parsing_key_value p curr_group buf line
      (r.1, r.2.map fun _ => curr_group)

/-- Where the loop of `load` is: the group, the number of the line, and what is left of the file -/
structure load_loop where
  obj : impl
  curr_group : Bytes
  line : ℕ
  file : Bytes

def loadBuffer : Buffer load_loop UInt8 where
  get s := s.file
  set s b := { s with file := b }
  get_set _ _ := rfl
  set_get _ := rfl
  set_set _ _ _ := rfl

/-- How a call of `load` ends: with the error it sets, or with an exception that nothing catches. -/
structure load_end where
  obj : impl
  result : Except thrown (Option ini_error)

/-- What is caught becomes the error of the call. -/
def caught (p : impl) : thrown → load_end
  | .system_error code => ⟨p, .ok (some code)⟩
  | e => ⟨p, .error e⟩

/-- A turn for a line -/
def load_turn (cancelled : ℕ → Bool) (buf : Bytes) (s : load_loop) : Turn load_loop load_end :=
  if cancelled s.line then .leave ⟨s.obj, .ok (some errc.operation_aborted)⟩
  else
    match load_line s.obj s.curr_group buf s.line with
    | (obj, .error e) => .leave (caught obj e)
    | (obj, .ok group) => .again { s with obj := obj, curr_group := group, line := s.line + 1 }

/-- Out of complete lines. Behind a last line without line break `peek` finds the stream at its end, which throws. -/
def load_tail (cancelled : ℕ → Bool) (s : load_loop) : load_end :=
  if s.file = [] then ⟨s.obj, .ok (if cancelled s.line then some errc.operation_aborted else none)⟩
  else
    match load_turn cancelled s.file s with
    | .leave r => r
    | .again s =>
      if cancelled s.line then ⟨s.obj, .ok (some errc.operation_aborted)⟩
      else ⟨s.obj, .ok (some errc.stream)⟩

/-- `file` is the text of the file, if there is one. `cancelled n` is what the call before line `n` returns. -/
def load (p : impl) (file : Option Bytes) (cancelled : ℕ → Bool) : load_end :=
  match file with
  | none => ⟨p, .ok (some errc.no_such_file_or_directory)⟩
  | some text =>
    match lines loadBuffer [line_break] (load_turn cancelled) ⟨p, [], 1, text⟩ with
    | .leave r => r
    | .again s => load_tail cancelled s

/-! ## Writing -/

/-- A text that is not of ASCII characters is encoded. -/
def encode_text (text : Bytes) : Bytes := if is_ascii text then text else to_percent_encoding text

/-- A key without name or value is passed over. -/
def skipped (key value : Bytes) : Bool := key = [] ∨ value = []

/-- The value that a number is left with in the store: the plus sign in front is gone. -/
def sync_value (key value : Bytes) : Bytes :=
  if ¬ skipped key value ∧ is_rlnum value ∧ value.head? = some 0x2B then value.drop 1 else value

/-- What is written for a key -/
def sync_key (key value : Bytes) : Bytes :=
  if skipped key value then []
  else
    encode_text key ++ [assigning] ++
      (if is_rlnum value then sync_value key value
        else [double_quotes] ++ encode_text value ++ [double_quotes]) ++ [line_break]

/-- What is written for a group -/
def sync_group (group : Bytes) (keys : ini_keys_t) : Bytes :=
  [left_bracket] ++ encode_text group ++ [right_bracket] ++ [line_break] ++
    keys.entries.flatMap (fun e => sync_key e.1 e.2) ++ [line_break]

structure sync_loop where
  file : Bytes
  groups : List (Bytes × ini_keys_t)
  error : Option ini_error

/-- The loop over the groups. `cancelled n` is what the call before group `n` returns. -/
def sync_groups (cancelled : ℕ → Bool) : ℕ → List (Bytes × ini_keys_t) → sync_loop
  | _, [] => ⟨[], [], none⟩
  | n, (group, keys) :: more =>
    if cancelled n then ⟨[], (group, keys) :: more, some errc.operation_aborted⟩
    else
      let rest := sync_groups cancelled (n + 1) more
      ⟨sync_group group keys ++ rest.file, (group, keys.mapValues sync_value) :: rest.groups, rest.error⟩

theorem sync_groups_keys (cancelled : ℕ → Bool) (n : ℕ) (l : List (Bytes × ini_keys_t)) :
    (sync_groups cancelled n l).groups.map (·.1) = l.map (·.1) := by
  induction l generalizing n with
  | nil => rfl
  | cons e l ih =>
    unfold sync_groups
    split
    · rfl
    · simp [ih]

structure sync_end where
  obj : impl
  file : Bytes
  error : Option ini_error

/-- The file is truncated first, so that what it held before does not matter. -/
def sync (p : impl) (cancelled : ℕ → Bool) : sync_end :=
  let r := sync_groups cancelled 0 p.m_groups.entries
  ⟨⟨p.m_groups.withEntries r.groups (sync_groups_keys cancelled 0 p.m_groups.entries)⟩, r.file, r.error⟩

end basic_ini

end Libgs
