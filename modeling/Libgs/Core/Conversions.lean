import Libgs.Core.Number

/-!
# The family of integer conversions

`stoi8` to `stou64`, `stob`, `ston` and their forms with a default, and `get` and `get_or` of a value, as
`core/algorithm/detail/base.h` and `core/detail/value.h` have them. A number is an integer of the range of its type;
a `long` has 64 bits, as a `long long` has, and a `char` is signed.
-/

namespace Libgs.arithmetic

open Lib

/-! ## Integral types -/

inductive integral
  | bool
  | char
  | signed_char
  | unsigned_char
  | short
  | unsigned_short
  | int
  | unsigned_int
  | long
  | unsigned_long
  | long_long
  | unsigned_long_long
  | wchar_t
  | char8_t
  | char16_t
  | char32_t
  deriving DecidableEq, Repr

namespace integral

/-- The width of the type on the platforms with a `long` of 64 bits -/
def bits : integral → ℕ
  | bool => 1
  | char | signed_char | unsigned_char | char8_t => 8
  | short | unsigned_short | char16_t => 16
  | int | unsigned_int | wchar_t | char32_t => 32
  | long | unsigned_long | long_long | unsigned_long_long => 64

def is_signed : integral → Bool
  | char | signed_char | short | int | long | long_long | wchar_t => true
  | _ => false

/-- `static_cast` of an integer to the type -/
def cast (T : integral) (x : ℤ) : ℤ :=
  if T = bool then (if x = 0 then 0 else 1)
  else if T.is_signed then (x + 2 ^ (T.bits - 1)) % 2 ^ T.bits - 2 ^ (T.bits - 1)
  else x % 2 ^ T.bits

def min (T : integral) : ℤ := if T.is_signed then -2 ^ (T.bits - 1) else 0

def max (T : integral) : ℤ := if T.is_signed then 2 ^ (T.bits - 1) - 1 else 2 ^ T.bits - 1

/-- A value of the type -/
def Holds (T : integral) (x : ℤ) : Prop := T.min ≤ x ∧ x ≤ T.max

instance (T : integral) (x : ℤ) : Decidable (T.Holds x) := inferInstanceAs (Decidable (_ ∧ _))

/-- The values of the type -/
abbrev value (T : integral) := { x : ℤ // T.Holds x }

theorem cast_holds (T : integral) (x : ℤ) : T.Holds (T.cast x) := by
  by_cases hbool : T = bool
  · subst hbool
    by_cases hx : x = 0 <;> simp [Holds, min, max, cast, is_signed, bits, hx]
  · cases T <;> simp [Holds, min, max, cast, is_signed, bits] at hbool ⊢ <;> omega

theorem cast_value (T : integral) (d : T.value) : T.cast d = d := by
  obtain ⟨x, hx⟩ := d
  cases T <;> simp [Holds, min, max, cast, is_signed, bits] at hx ⊢ <;> omega

/-- The value that a cast to the type gives -/
def of_int (T : integral) (x : ℤ) : T.value := ⟨T.cast x, T.cast_holds x⟩

end integral

/-! ## The texts -/

/-- The first number that a `long` does not have -/
def long_end : ℕ := 2 ^ 63

/-- No `long` is this number. -/
def BeyondLong (neg : Bool) (value : ℕ) : Prop := if neg then long_end < value else long_end ≤ value

instance (neg : Bool) (value : ℕ) : Decidable (BeyondLong neg value) :=
  inferInstanceAs (Decidable (if neg = true then long_end < value else long_end ≤ value))

/-- `std::stol`, with the number of the characters that were read -/
def stol (str : Bytes) (base : ℕ) : Except exception (ℤ × ℕ) :=
  match scan_integer str base with
  | .error e => .error e
  | .ok (neg, value, index) =>
    if BeyondLong neg value then .error .out_of_range
    else .ok (if neg then -value else value, index)

/-- What a finite `long double` is without its sign and its fraction -/
def whole (mantissa : ℕ) (exponent : ℤ) : ℕ :=
  if 0 ≤ exponent then mantissa * 2 ^ exponent.toNat else mantissa / 2 ^ (-exponent).toNat

/-- `static_cast<long>`. What does not fit has no meaning in C++; this is what `fistp` of x86-64 leaves behind. -/
def long_cast : long_double → ℤ
  | .finite neg m e =>
    if BeyondLong neg (whole m e) then -2 ^ 63
    else if neg then -whole m e
    else whole m e
  | _ => -2 ^ 63

/-- The functions of the standard library that the conversions are made with -/
inductive reader
  | stol
  | stoul

/-- `_sto_int` with the function that it is given -/
def reader._sto_int (func : reader) (str : Bytes) (base : ℕ) : Except exception ℤ :=
  match func with
  | .stol =>
    match arithmetic.stol str base with
    | .error e => .error e
    | .ok (res, index) => if index < str.length then (_sto_float str).map long_cast else .ok res
  | .stoul => (Libgs._sto_int str base).map Int.ofNat

/-- What is made of `true` and `false` where a number is expected -/
def try_stobtot {T : integral} (str : Bytes) (odv : Option T.value) : Except exception ℤ :=
  if _stob str < 0 then
    match odv with
    | some d => .ok d
    | none => .error not_arithmetic
  else .ok (if _stob str = 0 then 0 else 1)

/-! ## The conversions -/

/-- What the members of the family have in common. Whatever `_sto_int` throws is caught. The type `D` of the default
need not be that of the result. -/
def convert (func : reader) (T : integral) {D : integral} (str : Bytes) (base : ℕ) (odv : Option D.value) :
    Except exception ℤ :=
  match func._sto_int str base with
  | .ok res => .ok (T.cast res)
  | .error _ => try_stobtot str odv

namespace detail

def stoi8 (str : Bytes) (base : ℕ) (odv : Option (integral.value .signed_char)) :=
  convert .stol .signed_char str base odv

def stou8 (str : Bytes) (base : ℕ) (odv : Option (integral.value .unsigned_char)) :=
  convert .stoul .unsigned_char str base odv

def stoi16 (str : Bytes) (base : ℕ) (odv : Option (integral.value .short)) := convert .stol .short str base odv

/-- The default has eight bits. -/
def stou16 (str : Bytes) (base : ℕ) (odv : Option (integral.value .unsigned_char)) :=
  convert .stoul .unsigned_short str base odv

def stoi32 (str : Bytes) (base : ℕ) (odv : Option (integral.value .int)) := convert .stol .int str base odv

def stou32 (str : Bytes) (base : ℕ) (odv : Option (integral.value .unsigned_int)) :=
  convert .stoul .unsigned_int str base odv

def stoi64 (str : Bytes) (base : ℕ) (odv : Option (integral.value .long)) := convert .stol .long str base odv

def stou64 (str : Bytes) (base : ℕ) (odv : Option (integral.value .unsigned_long)) :=
  convert .stoul .unsigned_long str base odv

def stob (str : Bytes) (base : ℕ) (odv : Option (integral.value .bool)) : Except exception ℤ :=
  if _stob str < 0 then
    match reader.stol._sto_int str base with
    | .ok res => .ok (integral.bool.cast res)
    | .error _ =>
      match odv with
      | some d => .ok d
      | none => .error not_arithmetic
  else .ok (if 0 < _stob str then 1 else 0)

/-- A `bool` loses its default; for the types that have no branch nothing is tried. -/
def ston (T : integral) (str : Bytes) (base : ℕ) (odv : Option T.value) : Except exception ℤ :=
  match T with
  | .bool => stob str base none
  | .char | .short | .int | .long | .long_long => convert .stol T str base odv
  | .unsigned_char | .unsigned_short | .unsigned_int | .unsigned_long | .unsigned_long_long =>
    convert .stoul T str base odv
  | .signed_char | .wchar_t | .char8_t | .char16_t | .char32_t => try_stobtot str odv

end detail

/-! ## The forms

The form with a default is declared `noexcept`: an exception that leaves it ends the program. -/

def stoi8 (str : Bytes) (base : ℕ) := detail.stoi8 str base none
def stoi8_or (str : Bytes) (base : ℕ) (default_value : integral.value .signed_char) :=
  detail.stoi8 str base (some default_value)

def stou8 (str : Bytes) (base : ℕ) := detail.stou8 str base none

/-- It goes through `stoi8`. -/
def stou8_or (str : Bytes) (base : ℕ) (default_value : integral.value .unsigned_char) :=
  (detail.stoi8 str base (some (integral.of_int .signed_char default_value))).map (integral.cast .unsigned_char)

def stoi16 (str : Bytes) (base : ℕ) := detail.stoi16 str base none
def stoi16_or (str : Bytes) (base : ℕ) (default_value : integral.value .short) :=
  detail.stoi16 str base (some default_value)

def stou16 (str : Bytes) (base : ℕ) := detail.stou16 str base none
def stou16_or (str : Bytes) (base : ℕ) (default_value : integral.value .unsigned_short) :=
  detail.stou16 str base (some (integral.of_int .unsigned_char default_value))

def stoi32 (str : Bytes) (base : ℕ) := detail.stoi32 str base none
def stoi32_or (str : Bytes) (base : ℕ) (default_value : integral.value .int) :=
  detail.stoi32 str base (some default_value)

def stou32 (str : Bytes) (base : ℕ) := detail.stou32 str base none
def stou32_or (str : Bytes) (base : ℕ) (default_value : integral.value .unsigned_int) :=
  detail.stou32 str base (some default_value)

def stoi64 (str : Bytes) (base : ℕ) := detail.stoi64 str base none
def stoi64_or (str : Bytes) (base : ℕ) (default_value : integral.value .long) :=
  detail.stoi64 str base (some default_value)

def stou64 (str : Bytes) (base : ℕ) := detail.stou64 str base none
def stou64_or (str : Bytes) (base : ℕ) (default_value : integral.value .unsigned_long) :=
  detail.stou64 str base (some default_value)

def stob (str : Bytes) (base : ℕ) := detail.stob str base none
def stob_or (str : Bytes) (base : ℕ) (default_value : integral.value .bool) := detail.stob str base (some default_value)

def ston (T : integral) (str : Bytes) (base : ℕ) := detail.ston T str base none
def ston_or (T : integral) (str : Bytes) (base : ℕ) (default_value : T.value) :=
  detail.ston T str base (some default_value)

def get (T : integral) (m_str : Bytes) (base : ℕ) := ston T m_str base
def get_or (T : integral) (m_str : Bytes) (base : ℕ) (def_value : T.value) := ston_or T m_str base def_value

/-- The forms of a conversion: with its own name, by its type, or as a member of a value -/
inductive form
  | stoi8
  | stou8
  | stoi16
  | stou16
  | stoi32
  | stou32
  | stoi64
  | stou64
  | stob
  | ston (T : integral)
  | get (T : integral)
  deriving DecidableEq, Repr

namespace form

/-- The type that the form converts to -/
def target : form → integral
  | stoi8 => .signed_char
  | stou8 => .unsigned_char
  | stoi16 => .short
  | stou16 => .unsigned_short
  | stoi32 => .int
  | stou32 => .unsigned_int
  | stoi64 => .long
  | stou64 => .unsigned_long
  | stob => .bool
  | ston T | get T => T

/-- The form without a default -/
def throwing : form → Bytes → ℕ → Except exception ℤ
  | stoi8 => arithmetic.stoi8
  | stou8 => arithmetic.stou8
  | stoi16 => arithmetic.stoi16
  | stou16 => arithmetic.stou16
  | stoi32 => arithmetic.stoi32
  | stou32 => arithmetic.stou32
  | stoi64 => arithmetic.stoi64
  | stou64 => arithmetic.stou64
  | stob => arithmetic.stob
  | ston T => arithmetic.ston T
  | get T => arithmetic.get T

/-- The form with a default -/
def defaulting : (f : form) → Bytes → ℕ → f.target.value → Except exception ℤ
  | stoi8 => stoi8_or
  | stou8 => stou8_or
  | stoi16 => stoi16_or
  | stou16 => stou16_or
  | stoi32 => stoi32_or
  | stou32 => stou32_or
  | stoi64 => stoi64_or
  | stou64 => stou64_or
  | stob => stob_or
  | ston T => ston_or T
  | get T => get_or T

end form

/-! ## Digits -/

theorem stob_decimal (str : Bytes) (hne : str ≠ []) (h : str.all (isDigit 10) = true) : _stob str < 0 := by
  obtain ⟨c, s, rfl⟩ := List.exists_cons_of_ne_nil hne
  have hc : isDigit 10 c = true := by simp_all
  have hletter : tolower c ≠ 116 ∧ tolower c ≠ 102 :=
    byte_forall (p := fun c => isDigit 10 c = true → tolower c ≠ 116 ∧ tolower c ≠ 102) (by decide +kernel) c hc
  simp [_stob, str_to_lower, ascii, hletter]

theorem sto_int_stoul_decimal (str : Bytes) (hne : str ≠ []) (h : str.all (isDigit 10) = true) :
    reader.stoul._sto_int str 10 =
      if size_max ≤ digitsVal 10 str then .error .out_of_range else .ok (digitsVal 10 str) := by
  unfold reader._sto_int
  simp only [Libgs._sto_int, stoul, scan_integer_decimal str hne h]
  by_cases hlarge : size_max ≤ digitsVal 10 str <;> simp [Except.map, hlarge]

theorem sto_int_stol_decimal (str : Bytes) (hne : str ≠ []) (h : str.all (isDigit 10) = true) :
    reader.stol._sto_int str 10 =
      if long_end ≤ digitsVal 10 str then .error .out_of_range else .ok (digitsVal 10 str) := by
  unfold reader._sto_int
  simp only [stol, scan_integer_decimal str hne h, BeyondLong]
  by_cases hlarge : long_end ≤ digitsVal 10 str <;> simp [hlarge]

theorem try_decimal (T : integral) (str : Bytes) (hne : str ≠ []) (h : str.all (isDigit 10) = true) :
    try_stobtot str (none : Option T.value) = .error not_arithmetic := by
  rw [try_stobtot, if_pos (stob_decimal str hne h)]

theorem convert_decimal (T D : integral) (str : Bytes) (hne : str ≠ []) (h : str.all (isDigit 10) = true) :
    convert .stoul T str 10 (none : Option D.value) =
      if size_max ≤ digitsVal 10 str then .error not_arithmetic else .ok (T.cast (digitsVal 10 str)) := by
  unfold convert
  rw [sto_int_stoul_decimal str hne h]
  by_cases hlarge : size_max ≤ digitsVal 10 str
  · simp only [if_pos hlarge]
    exact try_decimal D str hne h
  · simp only [if_neg hlarge]

theorem stob_decimal_eq (str : Bytes) (hne : str ≠ []) (h : str.all (isDigit 10) = true) :
    detail.stob str 10 none =
      if long_end ≤ digitsVal 10 str then .error not_arithmetic else .ok (integral.bool.cast (digitsVal 10 str)) := by
  unfold detail.stob
  rw [if_pos (stob_decimal str hne h), sto_int_stol_decimal str hne h]
  by_cases hlarge : long_end ≤ digitsVal 10 str
  · simp only [if_pos hlarge]
  · simp only [if_neg hlarge]

/-! ## Exact conversions -/

/-- The result is the number, or an error where the type does not have it. -/
def ExactResult (T : integral) (v : ℕ) (result : Except exception ℤ) : Prop :=
  if v < 2 ^ T.bits then result = .ok v else ∃ e, result = .error e

/-- The conversions to the unsigned types of at most 32 bits -/
def form.Narrow : form → Prop
  | stou8 | stou16 | stou32 => True
  | ston T | get T => T.is_signed = false ∧ T.bits ≤ 32
  | _ => False

/-- What the function of the standard library rejects is an error, and so is everything for a type that has no branch.
Everything else is cast. -/
def ExactWhen (T : integral) (v : ℕ) : Prop :=
  match T with
  | .bool => v < 2 ^ T.bits ∨ long_end ≤ v
  | .char8_t | .char16_t | .char32_t => 2 ^ T.bits ≤ v
  | _ => v < 2 ^ T.bits ∨ size_max ≤ v

theorem exactResult_iff (T : integral) (v stop : ℕ) (e : exception) (hstop : 2 ^ T.bits ≤ stop)
    (hcast : v < 2 ^ T.bits → T.cast v = v) :
    ExactResult T v (if stop ≤ v then .error e else .ok (T.cast v)) ↔ v < 2 ^ T.bits ∨ stop ≤ v := by
  unfold ExactResult
  by_cases hfits : v < 2 ^ T.bits
  · have hsmall : ¬ stop ≤ v := by omega
    simp [hfits, hsmall, hcast hfits]
  · by_cases hlarge : stop ≤ v <;> simp [hfits, hlarge]

theorem exact_convert_iff (T D : integral) (hT : T = .unsigned_char ∨ T = .unsigned_short ∨ T = .unsigned_int)
    (str : Bytes) (hne : str ≠ []) (h : str.all (isDigit 10) = true) :
    ExactResult T (digitsVal 10 str) (convert .stoul T str 10 (none : Option D.value)) ↔
      ExactWhen T (digitsVal 10 str) := by
  rw [convert_decimal T D str hne h, exactResult_iff]
  · rcases hT with rfl | rfl | rfl <;> rfl
  · rcases hT with rfl | rfl | rfl <;> decide
  · intro hlt
    rcases hT with rfl | rfl | rfl <;> simp [integral.cast, integral.is_signed, integral.bits] at hlt ⊢ <;> omega

theorem exact_try_iff (T D : integral) (hT : T = .char8_t ∨ T = .char16_t ∨ T = .char32_t) (str : Bytes)
    (hne : str ≠ []) (h : str.all (isDigit 10) = true) :
    ExactResult T (digitsVal 10 str) (try_stobtot str (none : Option D.value)) ↔ ExactWhen T (digitsVal 10 str) := by
  have hwhen (v : ℕ) : ExactWhen T v ↔ 2 ^ T.bits ≤ v := by rcases hT with rfl | rfl | rfl <;> rfl
  rw [try_decimal D str hne h, hwhen, ExactResult]
  by_cases hfits : digitsVal 10 str < 2 ^ T.bits
  · simp [hfits]
  · simp [hfits, Nat.le_of_not_lt hfits]

theorem exact_ston_iff (T : integral) (hsigned : T.is_signed = false) (hbits : T.bits ≤ 32) (str : Bytes)
    (hne : str ≠ []) (h : str.all (isDigit 10) = true) :
    ExactResult T (digitsVal 10 str) (ston T str 10) ↔ ExactWhen T (digitsVal 10 str) := by
  cases T with
  | bool =>
    have heq : ston .bool str 10 = detail.stob str 10 none := rfl
    rw [heq, stob_decimal_eq str hne h, exactResult_iff]
    · rfl
    · decide
    · intro hlt
      simp [integral.cast, integral.bits] at hlt ⊢
      omega
  | unsigned_char => exact exact_convert_iff _ _ (.inl rfl) str hne h
  | unsigned_short => exact exact_convert_iff _ _ (.inr (.inl rfl)) str hne h
  | unsigned_int => exact exact_convert_iff _ _ (.inr (.inr rfl)) str hne h
  | char8_t => exact exact_try_iff _ .char8_t (.inl rfl) str hne h
  | char16_t => exact exact_try_iff _ .char16_t (.inr (.inl rfl)) str hne h
  | char32_t => exact exact_try_iff _ .char32_t (.inr (.inr rfl)) str hne h
  | unsigned_long | unsigned_long_long => exact absurd hbits (by decide)
  | char | signed_char | short | int | long | long_long | wchar_t => cases hsigned

/-- **When a narrow conversion is exact.** -/
theorem narrow_exact_iff (f : form) (str : Bytes) (hf : f.Narrow) (hne : str ≠ [])
    (hdigits : str.all (isDigit 10) = true) :
    ExactResult f.target (digitsVal 10 str) (f.throwing str 10) ↔ ExactWhen f.target (digitsVal 10 str) := by
  cases f with
  | stou8 => exact exact_convert_iff _ _ (.inl rfl) str hne hdigits
  | stou16 => exact exact_convert_iff _ _ (.inr (.inl rfl)) str hne hdigits
  | stou32 => exact exact_convert_iff _ _ (.inr (.inr rfl)) str hne hdigits
  | ston T | get T => exact exact_ston_iff T hf.1 hf.2 str hne hdigits
  | stoi8 | stoi16 | stoi32 | stoi64 | stou64 | stob => exact hf.elim

theorem narrow_exact_port : ExactResult .unsigned_short (digitsVal 10 (ascii "8080")) (stou16 (ascii "8080") 10) :=
  (narrow_exact_iff .stou16 (ascii "8080") trivial (by decide) (by decide)).mpr (.inl (by decide))

theorem narrow_wraps :
    ¬ ExactResult .unsigned_short (digitsVal 10 (ascii "65616")) (stou16 (ascii "65616") 10) ∧
      ¬ ExactResult .char16_t (digitsVal 10 (ascii "7")) (ston .char16_t (ascii "7") 10) := by
  constructor
  · have hport : stou16 (ascii "65616") 10 = .ok 80 := by rfl
    have hlarge : ¬ digitsVal 10 (ascii "65616") < 2 ^ integral.unsigned_short.bits := by decide
    rw [ExactResult, if_neg hlarge, hport]
    simp
  · have herror : ston .char16_t (ascii "7") 10 = .error not_arithmetic := by rfl
    have hsmall : digitsVal 10 (ascii "7") < 2 ^ integral.char16_t.bits := by decide
    rw [ExactResult, if_pos hsmall, herror]
    simp

/-! ## Agreement -/

/-- The form with a default gives what the throwing one gives, and the default where that throws. -/
def Agrees (throwing : Except exception ℤ) (default_value : ℤ) (defaulting : Except exception ℤ) : Prop :=
  defaulting = .ok (match throwing with | .ok v => v | .error _ => default_value)

/-- The number is one that the function of the standard library takes. -/
def reader.Takes : reader → Bool → ℕ → Prop
  | stol, neg, value => ¬ BeyondLong neg value
  | stoul, _, value => value < size_max

/-- The text starts with such a number, and if it goes on it is a floating point number. -/
def reader.Reads (func : reader) (str : Bytes) (base : ℕ) : Prop :=
  ∃ neg value index, scan_integer str base = .ok (neg, value, index) ∧ func.Takes neg value ∧
    (index < str.length → ∃ f, _sto_float str = .ok f)

/-- The text is a number or a truth value. -/
def Converts (func : reader) (str : Bytes) (base : ℕ) : Prop := func.Reads str base ∨ 0 ≤ _stob str

/-- `std::stol` stands for `std::stoul` as far as a byte goes. They differ on the numbers that only an unsigned `long`
has: `std::stol` rejects the digits, and the cast of a floating point number loses its last byte. -/
structure SameByte (str : Bytes) (base : ℕ) (default_value : ℤ) : Prop where
  digits : ∀ neg value index, scan_integer str base = .ok (neg, value, index) → ¬ index < str.length →
    value < size_max → BeyondLong neg value →
      default_value = integral.unsigned_char.cast (if neg then -value else value)
  rejected : ∀ neg value index f, scan_integer str base = .ok (neg, value, index) → index < str.length →
    value < size_max → BeyondLong neg value → _sto_float str = .ok f →
      default_value = integral.unsigned_char.cast (ulong_cast f)
  float : ∀ neg value index m e, scan_integer str base = .ok (neg, value, index) → index < str.length →
    ¬ BeyondLong neg value → _sto_float str = .ok (.finite false m e) → long_end ≤ whole m e → whole m e < size_max →
      whole m e % 256 = 0

/-- When the form with a default gives what the form without one gives -/
def form.AgreesWhen : (f : form) → Bytes → ℕ → f.target.value → Prop
  | stou8, str, base, default_value => SameByte str base default_value
  | stou16, str, base, default_value => Converts .stoul str base ∨ default_value.val < 256
  | ston .bool, str, base, _ | get .bool, str, base, _ => Converts .stol str base
  | _, _, _, _ => True

theorem try_agrees {T : integral} (str : Bytes) (d : T.value) :
    Agrees (try_stobtot str (none : Option T.value)) d (try_stobtot str (some d)) := by
  unfold Agrees try_stobtot
  split <;> rfl

theorem convert_agrees (func : reader) (T : integral) {D : integral} (str : Bytes) (base : ℕ) (d : D.value) :
    Agrees (convert func T str base (none : Option D.value)) d (convert func T str base (some d)) := by
  unfold convert
  cases func._sto_int str base with
  | ok res => rfl
  | error e => exact try_agrees str d

theorem stob_agrees (str : Bytes) (base : ℕ) (d : integral.value .bool) :
    Agrees (detail.stob str base none) d (detail.stob str base (some d)) := by
  unfold Agrees detail.stob
  split
  · cases reader.stol._sto_int str base <;> rfl
  · rfl

theorem stoul_read {str : Bytes} {base : ℕ} {neg : Bool} {value index : ℕ}
    (hscan : scan_integer str base = .ok (neg, value, index)) :
    reader.stoul._sto_int str base =
      if size_max ≤ value then .error .out_of_range
      else if index < str.length then (_sto_float str).map fun f => (ulong_cast f : ℤ)
      else .ok (if neg then size_sub 0 value else value : ℕ) := by
  unfold reader._sto_int
  simp only [Libgs._sto_int, stoul, hscan]
  by_cases hlarge : size_max ≤ value
  · simp [hlarge, Except.map]
  · by_cases hmore : index < str.length
    · cases _sto_float str <;> simp [hlarge, hmore, Except.map]
    · simp [hlarge, hmore, Except.map]

theorem stol_read {str : Bytes} {base : ℕ} {neg : Bool} {value index : ℕ}
    (hscan : scan_integer str base = .ok (neg, value, index)) :
    reader.stol._sto_int str base =
      if BeyondLong neg value then .error .out_of_range
      else if index < str.length then (_sto_float str).map long_cast
      else .ok (if neg then -value else value) := by
  unfold reader._sto_int
  simp only [stol, hscan]
  by_cases hbeyond : BeyondLong neg value
  · simp [hbeyond]
  · simp [hbeyond]

theorem sto_int_scan_error (func : reader) {str : Bytes} {base : ℕ} {e : exception}
    (hscan : scan_integer str base = .error e) : func._sto_int str base = .error e := by
  cases func with
  | stol => simp [reader._sto_int, stol, hscan]
  | stoul => simp [reader._sto_int, Libgs._sto_int, stoul, hscan, Except.map]

theorem reads_iff (func : reader) {str : Bytes} {base : ℕ} {neg : Bool} {value index : ℕ}
    (hscan : scan_integer str base = .ok (neg, value, index)) :
    func.Reads str base ↔ func.Takes neg value ∧ (index < str.length → ∃ f, _sto_float str = .ok f) := by
  constructor
  · rintro ⟨neg', value', index', hscan', h⟩
    obtain ⟨rfl, rfl, rfl⟩ : neg = neg' ∧ value = value' ∧ index = index' := by simpa using hscan.symm.trans hscan'
    exact h
  · intro h
    exact ⟨neg, value, index, hscan, h⟩

/-- **What is read.** -/
theorem sto_int_ok_iff (func : reader) (str : Bytes) (base : ℕ) :
    (∃ v, func._sto_int str base = .ok v) ↔ func.Reads str base := by
  cases hscan : scan_integer str base with
  | error e =>
    rw [sto_int_scan_error func hscan]
    simp [reader.Reads, hscan]
  | ok scanned =>
    obtain ⟨neg, value, index⟩ := scanned
    rw [reads_iff func hscan]
    cases func with
    | stol =>
      rw [stol_read hscan, reader.Takes]
      by_cases hbeyond : BeyondLong neg value
      · simp [hbeyond]
      · by_cases hmore : index < str.length
        · cases _sto_float str <;> simp [hbeyond, hmore, Except.map]
        · simp [hbeyond, hmore]
    | stoul =>
      rw [stoul_read hscan, reader.Takes]
      by_cases hlarge : size_max ≤ value
      · simp [hlarge, Nat.not_lt.mpr hlarge]
      · by_cases hmore : index < str.length
        · cases _sto_float str <;> simp [hlarge, hmore, Nat.lt_of_not_le hlarge, Except.map]
        · simp [hlarge, hmore, Nat.lt_of_not_le hlarge]

theorem bool_agrees_iff (str : Bytes) (base : ℕ) (d : integral.value .bool) :
    Agrees (ston .bool str base) d (ston_or .bool str base d) ↔ Converts .stol str base := by
  have hlost : ston_or .bool str base d = detail.stob str base none := rfl
  have hthrows : ston .bool str base = detail.stob str base none := rfl
  rw [hlost, hthrows]
  unfold detail.stob Agrees Converts
  rw [← sto_int_ok_iff]
  by_cases htruth : _stob str < 0
  · simp only [if_pos htruth]
    cases reader.stol._sto_int str base with
    | ok res => simp
    | error e => simp [htruth]
  · simp [if_neg htruth, Int.not_lt.mp htruth]

theorem stou16_agrees_iff (str : Bytes) (base : ℕ) (d : integral.value .unsigned_short) :
    Agrees (stou16 str base) d (stou16_or str base d) ↔ Converts .stoul str base ∨ d.val < 256 := by
  have hbyte : (integral.of_int .unsigned_char d).val = d.val ↔ d.val < 256 := by
    obtain ⟨x, hx⟩ := d
    simp [integral.of_int, integral.cast, integral.Holds, integral.min, integral.max, integral.is_signed,
      integral.bits] at hx ⊢
    omega
  unfold stou16 stou16_or detail.stou16 convert Agrees Converts
  rw [← sto_int_ok_iff]
  cases reader.stoul._sto_int str base with
  | ok res => simp
  | error e =>
    by_cases htruth : _stob str < 0
    · simp [try_stobtot, htruth, hbyte]
    · simp [try_stobtot, htruth, Int.not_lt.mp htruth]

/-! ## The byte that goes through `stoi8` -/

theorem scan_number_spec (str : Bytes) (base : ℕ) (hbase : base ≤ 36) :
    (scan_number str base).2.1 ≤ 36 ∧ (scan_number str base).2.2.length ≤ str.length := by
  have hspace : (str.dropWhile isspace).length ≤ str.length := (List.dropWhile_sublist _).length_le
  have hsign (s : Bytes) : (scan_sign s).2.length ≤ s.length := by
    unfold scan_sign
    split
    · split_ifs <;> simp
    · simp
  have hmark (s digits : Bytes) (h : scan_hex_mark s = some digits) : digits.length ≤ s.length := by
    unfold scan_hex_mark at h
    split at h
    · split at h
      · obtain rfl := Option.some.inj h
        simp
      · cases h
    · cases h
  have hs := hsign (str.dropWhile isspace)
  unfold scan_number
  generalize scan_sign (str.dropWhile isspace) = signed at hs
  obtain ⟨neg, s⟩ := signed
  simp only at hs ⊢
  split
  · cases hhex : scan_hex_mark s with
    | some digits =>
      have := hmark s digits hhex
      exact ⟨by simp, by simp only; omega⟩
    | none =>
      refine ⟨?_, by simp only; omega⟩
      simp only
      split_ifs <;> omega
  · exact ⟨hbase, by simp only; omega⟩

theorem scan_integer_lt (str : Bytes) (base : ℕ) (neg : Bool) (value index : ℕ)
    (h : scan_integer str base = .ok (neg, value, index)) : value < 36 ^ str.length := by
  unfold scan_integer at h
  simp only at h
  split at h
  · cases h
  · rename_i hbase
    obtain ⟨hle, hlen⟩ := scan_number_spec str (base % 2 ^ 32) (by omega)
    generalize scan_number str (base % 2 ^ 32) = scanned at hle hlen h
    obtain ⟨neg', base', s⟩ := scanned
    simp only at hle hlen h
    split at h
    · cases h
    · simp only [Except.ok.injEq, Prod.mk.injEq] at h
      obtain ⟨-, rfl, -⟩ := h
      have hall : (s.takeWhile (isDigit base')).all (isDigit base') = true :=
        List.all_eq_true.mpr fun c hc => List.mem_takeWhile_imp hc
      have htake : (s.takeWhile (isDigit base')).length ≤ s.length := (List.takeWhile_sublist _).length_le
      calc digitsVal base' (s.takeWhile (isDigit base'))
          < base' ^ (s.takeWhile (isDigit base')).length := digitsVal_lt base' _ hall
        _ ≤ 36 ^ (s.takeWhile (isDigit base')).length := Nat.pow_le_pow_left hle _
        _ ≤ 36 ^ str.length := Nat.pow_le_pow_right (by decide) (by omega)

theorem stob_beyond (str : Bytes) (base : ℕ) (neg : Bool) (value index : ℕ)
    (h : scan_integer str base = .ok (neg, value, index)) (hbeyond : BeyondLong neg value) : _stob str < 0 := by
  have hlarge : long_end ≤ value := by
    unfold BeyondLong at hbeyond
    split at hbeyond <;> omega
  have hlt := scan_integer_lt str base neg value index h
  have hlong : 5 < str.length := by
    by_contra hshort
    have hpow : 36 ^ str.length ≤ 36 ^ 5 := Nat.pow_le_pow_right (by decide) (by omega)
    have hend : 36 ^ 5 < long_end := by decide
    omega
  have hword (word : Bytes) (hw : word.length ≤ 5) : str_to_lower str ≠ word := by
    rintro rfl
    simp only [str_to_lower, List.length_map] at hw
    omega
  rw [_stob, if_neg (hword _ (by decide)), if_neg (hword _ (by decide))]
  decide

theorem cast_byte (x : ℤ) :
    integral.unsigned_char.cast (integral.signed_char.cast x) = integral.unsigned_char.cast x := by
  simp [integral.cast, integral.is_signed, integral.bits]

theorem cast_float_iff (f : long_double) :
    integral.unsigned_char.cast (long_cast f) = integral.unsigned_char.cast (ulong_cast f) ↔
      ∀ m e, f = .finite false m e → long_end ≤ whole m e → whole m e < size_max → whole m e % 256 = 0 := by
  have hcast (x : ℤ) : integral.unsigned_char.cast x = x % 256 := rfl
  have hend : long_end = 2 ^ 63 := rfl
  have hmax : size_max = 2 ^ 64 := rfl
  simp only [hcast]
  cases f with
  | nan => simp [long_cast, ulong_cast]
  | inf neg => cases neg <;> simp [long_cast, ulong_cast]
  | finite neg m e =>
    have hwhole : ulong_cast (.finite neg m e) = ulong_wrap neg (whole m e) := rfl
    rw [hwhole, long_cast]
    generalize hw : whole m e = w
    cases neg with
    | true =>
      simp only [BeyondLong, ulong_wrap, size_sub, if_true, long_double.finite.injEq, Bool.true_eq_false, false_and,
        false_implies, implies_true, iff_true, hend, hmax]
      split_ifs <;> omega
    | false =>
      simp only [BeyondLong, ulong_wrap, Bool.false_eq_true, if_false, long_double.finite.injEq, true_and, and_imp]
      constructor
      · rintro h _ _ rfl rfl hlarge hsmall
        rw [hw] at hlarge hsmall ⊢
        rw [if_pos hlarge, if_neg (by omega)] at h
        omega
      · intro h
        have hbyte := h m e rfl rfl
        rw [hw] at hbyte
        split_ifs <;> omega

theorem try_stoi8 (str : Bytes) (d : integral.value .unsigned_char) :
    (try_stobtot str (some (integral.of_int .signed_char d))).map (integral.cast .unsigned_char) =
      try_stobtot str (some d) := by
  have hd := integral.cast_value .unsigned_char d
  unfold try_stobtot
  split_ifs
  · simp [Except.map, integral.of_int, cast_byte, hd]
  · rfl
  · rfl

section

variable {str : Bytes} {base : ℕ} (d : integral.value .unsigned_char)

theorem stou8_agrees_ok {u l : ℤ} (hu : reader.stoul._sto_int str base = .ok u)
    (hl : reader.stol._sto_int str base = .ok l) :
    Agrees (stou8 str base) d (stou8_or str base d) ↔
      integral.unsigned_char.cast l = integral.unsigned_char.cast u := by
  unfold stou8 stou8_or detail.stou8 detail.stoi8 convert Agrees
  simp [hu, hl, Except.map, cast_byte]

theorem stou8_agrees_rejected {u : ℤ} {e : exception} (hu : reader.stoul._sto_int str base = .ok u)
    (hl : reader.stol._sto_int str base = .error e) (htruth : _stob str < 0) :
    Agrees (stou8 str base) d (stou8_or str base d) ↔ d = integral.unsigned_char.cast u := by
  unfold stou8 stou8_or detail.stou8 detail.stoi8 convert Agrees
  simp only [hu, hl, try_stoi8]
  simp [try_stobtot, htruth]

theorem stou8_agrees_error {e e' : exception} (hu : reader.stoul._sto_int str base = .error e)
    (hl : reader.stol._sto_int str base = .error e') : Agrees (stou8 str base) d (stou8_or str base d) := by
  unfold stou8 stou8_or detail.stou8 detail.stoi8 convert
  simp only [hu, hl, try_stoi8]
  exact try_agrees str d

end

theorem cast_size_sub (neg : Bool) (value : ℕ) (h : value < size_max) :
    integral.unsigned_char.cast (if neg then size_sub 0 value else value : ℕ) =
      integral.unsigned_char.cast (if neg then -(value : ℤ) else value) := by
  have hcast (x : ℤ) : integral.unsigned_char.cast x = x % 256 := rfl
  have hmax : size_max = 2 ^ 64 := rfl
  rw [hcast, hcast]
  cases neg
  · rfl
  · simp only [size_sub, if_true, hmax] at h ⊢
    omega

theorem sameByte_iff {str : Bytes} {base : ℕ} {neg : Bool} {value index : ℕ}
    (hscan : scan_integer str base = .ok (neg, value, index)) (d : ℤ) :
    SameByte str base d ↔
      (¬ index < str.length → value < size_max → BeyondLong neg value →
        d = integral.unsigned_char.cast (if neg then -value else value)) ∧
      (∀ f, index < str.length → value < size_max → BeyondLong neg value → _sto_float str = .ok f →
        d = integral.unsigned_char.cast (ulong_cast f)) ∧
      (∀ m e, index < str.length → ¬ BeyondLong neg value → _sto_float str = .ok (.finite false m e) →
        long_end ≤ whole m e → whole m e < size_max → whole m e % 256 = 0) := by
  constructor
  · intro h
    exact ⟨h.digits neg value index hscan, fun f => h.rejected neg value index f hscan,
      fun m e => h.float neg value index m e hscan⟩
  · rintro ⟨hdigits, hrejected, hfloat⟩
    refine ⟨?_, ?_, ?_⟩
    · intro neg' value' index' hscan'
      obtain ⟨rfl, rfl, rfl⟩ : neg = neg' ∧ value = value' ∧ index = index' := by simpa using hscan.symm.trans hscan'
      exact hdigits
    · intro neg' value' index' f hscan'
      obtain ⟨rfl, rfl, rfl⟩ : neg = neg' ∧ value = value' ∧ index = index' := by simpa using hscan.symm.trans hscan'
      exact hrejected f
    · intro neg' value' index' m e hscan'
      obtain ⟨rfl, rfl, rfl⟩ : neg = neg' ∧ value = value' ∧ index = index' := by simpa using hscan.symm.trans hscan'
      exact hfloat m e

theorem beyond_of_large {neg : Bool} {value : ℕ} (h : size_max ≤ value) : BeyondLong neg value := by
  have hend : long_end < size_max := by decide
  unfold BeyondLong
  split <;> omega

/-- **When `stou8_or` agrees with `stou8`.** -/
theorem stou8_agrees_iff (str : Bytes) (base : ℕ) (d : integral.value .unsigned_char) :
    Agrees (stou8 str base) d (stou8_or str base d) ↔ SameByte str base d := by
  cases hscan : scan_integer str base with
  | error e =>
    have hagrees := stou8_agrees_error d (sto_int_scan_error .stoul hscan) (sto_int_scan_error .stol hscan)
    refine iff_of_true hagrees ⟨?_, ?_, ?_⟩ <;> simp [hscan]
  | ok scanned =>
    obtain ⟨neg, value, index⟩ := scanned
    have hu := stoul_read hscan
    have hl := stol_read hscan
    rw [sameByte_iff hscan]
    by_cases hlarge : size_max ≤ value
    · -- neither function takes the digits
      have hbeyond : BeyondLong neg value := beyond_of_large hlarge
      rw [if_pos hlarge] at hu
      rw [if_pos hbeyond] at hl
      simp [stou8_agrees_error d hu hl, hbeyond, Nat.not_lt.mpr hlarge]
    · rw [if_neg hlarge] at hu
      by_cases hbeyond : BeyondLong neg value
      · -- only `std::stoul` takes them
        have htruth := stob_beyond str base neg value index hscan hbeyond
        rw [if_pos hbeyond] at hl
        by_cases hmore : index < str.length
        · rw [if_pos hmore] at hu
          cases hfloat : _sto_float str with
          | error e =>
            rw [hfloat] at hu
            simp [stou8_agrees_error d hu hl, hbeyond, hmore]
          | ok f =>
            rw [hfloat] at hu
            simp [stou8_agrees_rejected d hu hl htruth, hbeyond, hmore, Nat.lt_of_not_le hlarge]
        · rw [if_neg hmore] at hu
          rw [stou8_agrees_rejected d hu hl htruth, cast_size_sub neg value (Nat.lt_of_not_le hlarge)]
          simp [hbeyond, hmore, Nat.lt_of_not_le hlarge]
      · -- both do, and both go on to the floating point number if there is more
        rw [if_neg hbeyond] at hl
        by_cases hmore : index < str.length
        · rw [if_pos hmore] at hu hl
          cases hfloat : _sto_float str with
          | error e =>
            rw [hfloat] at hu hl
            simp [stou8_agrees_error d hu hl, hbeyond, hmore]
          | ok f =>
            rw [hfloat] at hu hl
            simp [stou8_agrees_ok d hu hl, hbeyond, hmore, cast_float_iff]
        · rw [if_neg hmore] at hu hl
          rw [stou8_agrees_ok d hu hl, cast_size_sub neg value (Nat.lt_of_not_le hlarge)]
          simp [hbeyond, hmore]

theorem ston_agrees_iff (T : integral) (str : Bytes) (base : ℕ) (d : T.value) :
    Agrees (ston T str base) d (ston_or T str base d) ↔ (form.ston T).AgreesWhen str base d := by
  cases T with
  | bool => exact bool_agrees_iff str base d
  | char => exact iff_of_true (convert_agrees .stol .char str base d) trivial
  | short => exact iff_of_true (convert_agrees .stol .short str base d) trivial
  | int => exact iff_of_true (convert_agrees .stol .int str base d) trivial
  | long => exact iff_of_true (convert_agrees .stol .long str base d) trivial
  | long_long => exact iff_of_true (convert_agrees .stol .long_long str base d) trivial
  | unsigned_char => exact iff_of_true (convert_agrees .stoul .unsigned_char str base d) trivial
  | unsigned_short => exact iff_of_true (convert_agrees .stoul .unsigned_short str base d) trivial
  | unsigned_int => exact iff_of_true (convert_agrees .stoul .unsigned_int str base d) trivial
  | unsigned_long => exact iff_of_true (convert_agrees .stoul .unsigned_long str base d) trivial
  | unsigned_long_long => exact iff_of_true (convert_agrees .stoul .unsigned_long_long str base d) trivial
  | signed_char | wchar_t | char8_t | char16_t | char32_t => exact iff_of_true (try_agrees str d) trivial

/-- **When the form with a default agrees with the throwing one.** -/
theorem forms_agree_iff (f : form) (str : Bytes) (base : ℕ) (d : f.target.value) :
    Agrees (f.throwing str base) d (f.defaulting str base d) ↔ f.AgreesWhen str base d := by
  cases f with
  | stoi8 => exact iff_of_true (convert_agrees .stol .signed_char str base d) trivial
  | stou8 => exact stou8_agrees_iff str base d
  | stoi16 => exact iff_of_true (convert_agrees .stol .short str base d) trivial
  | stou16 => exact stou16_agrees_iff str base d
  | stoi32 => exact iff_of_true (convert_agrees .stol .int str base d) trivial
  | stou32 => exact iff_of_true (convert_agrees .stoul .unsigned_int str base d) trivial
  | stoi64 => exact iff_of_true (convert_agrees .stol .long str base d) trivial
  | stou64 => exact iff_of_true (convert_agrees .stoul .unsigned_long str base d) trivial
  | stob => exact iff_of_true (stob_agrees str base d) trivial
  | ston T => exact ston_agrees_iff T str base d
  | get T => cases T <;> exact ston_agrees_iff _ str base d

theorem defaults_differ :
    ¬ Agrees (stou16 (ascii "x") 10) 300 (stou16_or (ascii "x") 10 ⟨300, by decide⟩) ∧
      ¬ Agrees (ston .bool (ascii "x") 10) 1 (ston_or .bool (ascii "x") 10 ⟨1, by decide⟩) ∧
      ¬ Agrees (stou8 (ascii "9223372036854775809") 10) 0
        (stou8_or (ascii "9223372036854775809") 10 ⟨0, by decide⟩) := by
  refine ⟨?_, ?_, ?_⟩
  · have hport : stou16_or (ascii "x") 10 ⟨300, by decide⟩ = .ok 44 := by rfl
    have hthrows : stou16 (ascii "x") 10 = .error not_arithmetic := by rfl
    simp [Agrees, hport, hthrows]
  · have hlost : ston_or .bool (ascii "x") 10 ⟨1, by decide⟩ = .error not_arithmetic := by rfl
    simp [Agrees, hlost]
  · have hbyte : stou8 (ascii "9223372036854775809") 10 = .ok 1 := by rfl
    have hdefault : stou8_or (ascii "9223372036854775809") 10 ⟨0, by decide⟩ = .ok 0 := by rfl
    simp [Agrees, hbyte, hdefault]

end Libgs.arithmetic
