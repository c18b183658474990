import Libgs.Core.Conversions

/-!
# Integers in values

`set` of `core/detail/value.h` for the integral types, and what `get` makes of the text that it leaves.
-/

namespace Libgs.arithmetic

open Lib

namespace integral

/-- `std::format` has no formatter for the other character types. -/
def Formats (T : integral) : Prop := T ≠ .wchar_t ∧ T ≠ .char8_t ∧ T ≠ .char16_t ∧ T ≠ .char32_t

instance (T : integral) : Decidable T.Formats := inferInstanceAs (Decidable (_ ∧ _))

/-- What `ston` reads a number of the type with, if it has a branch for it -/
def read_with : integral → Option reader
  | bool | char | short | int | long | long_long => some .stol
  | unsigned_char | unsigned_short | unsigned_int | unsigned_long | unsigned_long_long => some .stoul
  | signed_char | wchar_t | char8_t | char16_t | char32_t => none

end integral

/-- `std::to_string` of an integer -/
def decimal_text (x : ℤ) : Bytes := (if x < 0 then ascii "-" else []) ++ digits 10 x.natAbs

/-- `std::format("{}", arg)`. A `char` stands for itself, but a `signed char` for its number. -/
def default_format (T : integral) (arg : ℤ) : Bytes :=
  match T with
  | .bool => if arg = 0 then ascii "false" else ascii "true"
  | .char => [(arg % 256).toNat.toUInt8]
  | _ => decimal_text arg

/-- `set`; the value is its text. -/
def set {T : integral} (arg : T.value) : Bytes := default_format T arg

/-! ## Numbers -/

theorem decimal_digits (n : ℕ) :
    digits 10 n ≠ [] ∧ (digits 10 n).all (isDigit 10) = true ∧ digitsVal 10 (digits 10 n) = n :=
  ⟨digits_ne_nil 10 n, digits_all 10 n (by omega) (by omega), digitsVal_digits 10 n (by omega) (by omega)⟩

theorem scan_integer_text (x : ℤ) :
    scan_integer (decimal_text x) 10 = .ok (decide (x < 0), x.natAbs, (decimal_text x).length) := by
  obtain ⟨hne, hall, hval⟩ := decimal_digits x.natAbs
  unfold decimal_text
  by_cases hneg : x < 0
  · rw [if_pos hneg, show ascii "-" = [45] from rfl, List.singleton_append]
    have hnum : scan_number (45 :: digits 10 x.natAbs) 10 = (true, 10, digits 10 x.natAbs) := by
      simp [scan_number, scan_sign, isspace]
    have hdigits := List.takeWhile_eq_self_iff.mpr (List.all_eq_true.mp hall)
    simp [scan_integer, hnum, hdigits, hne, hval, hneg]
  · rw [if_neg hneg, List.nil_append, scan_integer_decimal _ hne hall, hval, decide_eq_false hneg]

theorem stob_text (x : ℤ) : _stob (decimal_text x) < 0 := by
  obtain ⟨hne, hall, -⟩ := decimal_digits x.natAbs
  unfold decimal_text
  by_cases hneg : x < 0
  · rw [if_pos hneg]
    simp [_stob, str_to_lower, ascii, tolower]
  · rw [if_neg hneg]
    exact stob_decimal _ hne hall

theorem beyond_long_iff (x : ℤ) (hlow : -2 ^ 63 ≤ x) : BeyondLong (decide (x < 0)) x.natAbs ↔ 2 ^ 63 ≤ x := by
  unfold BeyondLong long_end
  by_cases hneg : x < 0
  · rw [if_pos (decide_eq_true hneg)]
    omega
  · rw [if_neg (by simpa using hneg)]
    omega

theorem sto_int_stol_text (x : ℤ) (hlow : -2 ^ 63 ≤ x) :
    reader.stol._sto_int (decimal_text x) 10 = if 2 ^ 63 ≤ x then .error .out_of_range else .ok x := by
  have hvalue : (if decide (x < 0) = true then -(x.natAbs : ℤ) else x.natAbs) = x := by
    by_cases hneg : x < 0
    · rw [if_pos (decide_eq_true hneg)]
      omega
    · rw [if_neg (by simpa using hneg)]
      omega
  unfold reader._sto_int
  simp only [stol, scan_integer_text, beyond_long_iff x hlow, hvalue]
  by_cases hlarge : 2 ^ 63 ≤ x
  · simp only [if_pos hlarge]
  · simp only [if_neg hlarge, lt_irrefl, if_false]

theorem sto_int_stoul_text (x : ℤ) (hlow : -2 ^ 63 ≤ x) (hhigh : x < 2 ^ 64) :
    reader.stoul._sto_int (decimal_text x) 10 = .ok (if x < 0 then x + 2 ^ 64 else x) := by
  have hsmall : ¬ size_max ≤ x.natAbs := by
    have : size_max = 2 ^ 64 := rfl
    omega
  unfold reader._sto_int
  simp only [Libgs._sto_int, stoul, scan_integer_text, if_neg hsmall, lt_irrefl, if_false, Except.map]
  by_cases hneg : x < 0
  · have hsub : (size_sub 0 x.natAbs : ℤ) = x + 2 ^ 64 := by
      unfold size_sub size_max
      omega
    simp [hneg, hsub]
  · have hvalue : (x.natAbs : ℤ) = x := by omega
    simp [hneg, hvalue]

theorem get_text (T : integral) (x : ℤ) (hlow : -2 ^ 63 ≤ x) (hhigh : x < 2 ^ 64) :
    get T (decimal_text x) 10 =
      match T.read_with with
      | none => .error not_arithmetic
      | some .stol => if 2 ^ 63 ≤ x then .error not_arithmetic else .ok (T.cast x)
      | some .stoul => .ok (T.cast x) := by
  have htry (D : integral) : try_stobtot (decimal_text x) (none : Option D.value) = .error not_arithmetic := by
    rw [try_stobtot, if_pos (stob_text x)]
  have hstol : ∀ D : integral, convert .stol T (decimal_text x) 10 (none : Option D.value) =
      if 2 ^ 63 ≤ x then .error not_arithmetic else .ok (T.cast x) := fun D => by
    unfold convert
    rw [sto_int_stol_text x hlow, htry]
    by_cases hlarge : 2 ^ 63 ≤ x
    · simp only [if_pos hlarge]
    · simp only [if_neg hlarge]
  have hstoul : ∀ D : integral, convert .stoul T (decimal_text x) 10 (none : Option D.value) =
      .ok (T.cast (if x < 0 then x + 2 ^ 64 else x)) := fun D => by
    unfold convert
    rw [sto_int_stoul_text x hlow hhigh]
  unfold get ston detail.ston
  cases T with
  | bool =>
    simp only [integral.read_with, detail.stob, if_pos (stob_text x), sto_int_stol_text x hlow]
    by_cases hlarge : 2 ^ 63 ≤ x
    · simp only [if_pos hlarge]
    · simp only [if_neg hlarge]
  | char | short | int | long | long_long => exact hstol _
  | unsigned_char | unsigned_short | unsigned_int | unsigned_long | unsigned_long_long =>
    refine (hstoul _).trans (congrArg Except.ok ?_)
    unfold integral.cast integral.is_signed integral.bits
    split <;> simp <;> omega
  | signed_char | wchar_t | char8_t | char16_t | char32_t => exact htry _

/-! ## Truth values and characters -/

theorem get_bool (T : integral) (arg : integral.value .bool) : get T (set arg) 10 = .ok (T.cast arg) := by
  obtain ⟨x, hx⟩ := arg
  obtain rfl | rfl : x = 0 ∨ x = 1 := by
    simp [integral.Holds, integral.min, integral.max, integral.is_signed, integral.bits] at hx
    omega
  · cases T <;> rfl
  · cases T <;> rfl

theorem digit_text (c : UInt8) : isDigit 10 c = true → [c] = decimal_text (c.toNat - 48) :=
  byte_forall (p := fun c => isDigit 10 c = true → [c] = decimal_text (c.toNat - 48)) (by decide +kernel) c

theorem get_letter (T : integral) (c : UInt8) (h : isDigit 10 c = false) : get T [c] 10 = .error not_arithmetic := by
  have hscan : scan_integer [c] 10 = .error .invalid_argument := by
    obtain ⟨neg, s, hnumber, hs⟩ : ∃ neg s, scan_number [c] 10 = (neg, 10, s) ∧ (s = [] ∨ s = [c]) := by
      by_cases hspace : isspace c = true
      · exact ⟨false, [], by simp [scan_number, scan_sign, hspace], .inl rfl⟩
      · by_cases hminus : c = 45
        · obtain rfl := hminus
          exact ⟨true, [], by rfl, .inl rfl⟩
        · by_cases hplus : c = 43
          · obtain rfl := hplus
            exact ⟨false, [], by rfl, .inl rfl⟩
          · exact ⟨false, [c], by simp [scan_number, scan_sign, hspace, hminus, hplus], .inr rfl⟩
    rcases hs with rfl | rfl <;> simp [scan_integer, hnumber, h]
  have hstob : _stob [c] < 0 := by simp [_stob, str_to_lower, ascii]
  have hstol : reader.stol._sto_int [c] 10 = .error .invalid_argument := by
    simp only [reader._sto_int, stol, hscan]
  have hstoul : reader.stoul._sto_int [c] 10 = .error .invalid_argument := by
    simp only [reader._sto_int, Libgs._sto_int, stoul, hscan, Except.map]
  unfold get ston detail.ston
  cases T with
  | bool => simp only [detail.stob, if_pos hstob, hstol]
  | char | short | int | long | long_long => simp only [convert, hstol, try_stobtot, if_pos hstob]
  | unsigned_char | unsigned_short | unsigned_int | unsigned_long | unsigned_long_long =>
    simp only [convert, hstoul, try_stobtot, if_pos hstob]
  | signed_char | wchar_t | char8_t | char16_t | char32_t => simp only [try_stobtot, if_pos hstob]

/-! ## What is read back -/

/-- A truth value is read as any type. A `char` is its character, and a digit is no number of its own. What reads a
`long` does not read beyond it. -/
def ReadsBack (S T : integral) (arg : ℤ) : Prop :=
  match S with
  | .bool => True
  | .char => T = .bool ∧ 49 ≤ arg ∧ arg ≤ 57
  | _ => T.read_with = some .stoul ∨ (T.read_with = some .stol ∧ arg < 2 ^ 63)

theorem cast_digit_iff (T : integral) (x : ℤ) (hlow : 48 ≤ x) (hhigh : x ≤ 57) :
    T.cast (x - 48) = T.cast x ↔ T = .bool ∧ 49 ≤ x := by
  cases T with
  | bool =>
    unfold integral.cast
    simp
    omega
  | _ =>
    refine iff_of_false ?_ (by simp)
    simp [integral.cast, integral.is_signed, integral.bits]
    omega

theorem get_char_iff (T : integral) (arg : integral.value .char) :
    get T (set arg) 10 = .ok (T.cast arg) ↔ T = .bool ∧ 49 ≤ arg.val ∧ arg.val ≤ 57 := by
  obtain ⟨x, hx⟩ := arg
  simp [integral.Holds, integral.min, integral.max, integral.is_signed, integral.bits] at hx
  show get T [(x % 256).toNat.toUInt8] 10 = .ok (T.cast x) ↔ T = .bool ∧ 49 ≤ x ∧ x ≤ 57
  have hbyte : (x % 256).toNat.toUInt8.toNat = (x % 256).toNat := by
    simp
    omega
  have hrange : isDigit 10 (x % 256).toNat.toUInt8 = true ↔ 48 ≤ x ∧ x ≤ 57 := by
    have hdigit : ∀ c : UInt8, isDigit 10 c = true ↔ 48 ≤ c.toNat ∧ c.toNat ≤ 57 := fun c =>
      byte_forall (p := fun c => isDigit 10 c = true ↔ 48 ≤ c.toNat ∧ c.toNat ≤ 57) (by decide +kernel) c
    rw [hdigit, hbyte]
    omega
  by_cases hdigit : isDigit 10 (x % 256).toNat.toUInt8 = true
  · obtain ⟨hlow, hhigh⟩ := hrange.mp hdigit
    rw [digit_text _ hdigit, hbyte, show (((x % 256).toNat : ℕ) : ℤ) - 48 = x - 48 by omega,
      get_text T (x - 48) (by omega) (by omega)]
    have hcast := cast_digit_iff T x hlow hhigh
    cases hread : T.read_with with
    | none =>
      refine iff_of_false (by simp) fun h => ?_
      rw [h.1] at hread
      cases hread
    | some func =>
      cases func with
      | stol => rw [if_neg (show ¬ (2 ^ 63 : ℤ) ≤ x - 48 by omega), Except.ok.injEq, hcast, and_iff_left hhigh]
      | stoul =>
        dsimp only
        rw [Except.ok.injEq, hcast, and_iff_left hhigh]
  · rw [get_letter T _ (by simpa using hdigit)]
    refine iff_of_false (by simp) fun h => hdigit (hrange.mpr ⟨?_, h.2.2⟩)
    omega

theorem get_number_iff (T : integral) (x : ℤ) (hlow : -2 ^ 63 ≤ x) (hhigh : x < 2 ^ 64) :
    get T (decimal_text x) 10 = .ok (T.cast x) ↔
      T.read_with = some .stoul ∨ (T.read_with = some .stol ∧ x < 2 ^ 63) := by
  rw [get_text T x hlow hhigh]
  cases hread : T.read_with with
  | none => exact iff_of_false (by simp) (by simp)
  | some func =>
    cases func with
    | stol => simp
    | stoul => simp

theorem holds_range (S : integral) (arg : S.value) : -2 ^ 63 ≤ arg.val ∧ arg.val < 2 ^ 64 := by
  obtain ⟨x, hx⟩ := arg
  cases S <;> simp [integral.Holds, integral.min, integral.max, integral.is_signed, integral.bits] at hx ⊢ <;> omega

theorem get_set_iff (S T : integral) (hS : S.Formats) (arg : S.value) :
    get T (set arg) 10 = .ok (T.cast arg) ↔ ReadsBack S T arg := by
  cases S with
  | bool => exact iff_of_true (get_bool T arg) trivial
  | char => exact get_char_iff T arg
  | wchar_t => exact absurd rfl hS.1
  | char8_t => exact absurd rfl hS.2.1
  | char16_t => exact absurd rfl hS.2.2.1
  | char32_t => exact absurd rfl hS.2.2.2
  | _ => exact get_number_iff T arg.val (holds_range _ arg).1 (holds_range _ arg).2

theorem reads_back_self (S : integral) (hS : S.Formats) (arg : S.value) :
    ReadsBack S S arg ↔ S ≠ .char ∧ S ≠ .signed_char := by
  obtain ⟨x, hx⟩ := arg
  cases S <;>
    simp [ReadsBack, integral.read_with, integral.Formats, integral.Holds, integral.min, integral.max,
      integral.is_signed, integral.bits] at hS hx ⊢ <;> omega

example : get .unsigned_short (set (T := .int) ⟨-1, by decide⟩) 10 = .ok 65535 := by rfl

end Libgs.arithmetic
