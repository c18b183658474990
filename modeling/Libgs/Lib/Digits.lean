import Mathlib.Data.List.Induction
import Mathlib.Tactic.Ring

/-!
# Numbers as text

Digits are the decimal digits and, above nine, the letters of either case. `digits` writes upper
case letters and no leading zero.
-/

namespace Lib

/-- The value of a digit or a letter, up to 35 -/
def digitVal (c : UInt8) : Option ℕ :=
  if 48 ≤ c ∧ c ≤ 57 then some (c.toNat - 48)
  else if 97 ≤ c ∧ c ≤ 122 then some (c.toNat - 87)
  else if 65 ≤ c ∧ c ≤ 90 then some (c.toNat - 55)
  else none

/-- A digit of the base -/
def isDigit (base : ℕ) (c : UInt8) : Bool := (digitVal c).any (· < base)

/-- The number that the digits say -/
def digitsVal (base : ℕ) (l : List UInt8) : ℕ := l.foldl (fun v c => v * base + (digitVal c).getD 0) 0

/-- The digit of a value, with upper-case letters -/
def digit (d : ℕ) : UInt8 := (if d < 10 then 48 + d else 55 + d).toUInt8

/-- The digits of a number, as many as there is fuel for -/
def digitsCore (base : ℕ) : ℕ → ℕ → List UInt8
  | 0, _ => []
  | fuel + 1, n => (if n < base then [] else digitsCore base fuel (n / base)) ++ [digit (n % base)]

/-- The digit string of a number. A number of `k + 1` bits has at most `k + 1` digits. -/
def digits (base n : ℕ) : List UInt8 := digitsCore base (n.log2 + 1) n

theorem digitVal_digit (d : ℕ) (h : d < 36) : digitVal (digit d) = some d := by
  have : ∀ d : Fin 36, digitVal (digit d.val) = some d.val := by decide
  exact this ⟨d, h⟩

theorem isDigit_digit (base d : ℕ) (hb : base ≤ 36) (h : d < base) : isDigit base (digit d) = true := by
  simp [isDigit, digitVal_digit d (by omega), h]

theorem digitVal_lt (base : ℕ) (c : UInt8) (h : isDigit base c = true) : (digitVal c).getD 0 < base := by
  cases hc : digitVal c with
  | none => simp [isDigit, hc] at h
  | some v => simpa [isDigit, hc] using h

theorem digitsVal_nil (base : ℕ) : digitsVal base [] = 0 := rfl

theorem digitsVal_append_one (base : ℕ) (l : List UInt8) (c : UInt8) :
    digitsVal base (l ++ [c]) = digitsVal base l * base + (digitVal c).getD 0 := by
  simp [digitsVal, List.foldl_append]

theorem digitsVal_lt (base : ℕ) (l : List UInt8) (h : l.all (isDigit base) = true) :
    digitsVal base l < base ^ l.length := by
  induction l using List.reverseRecOn with
  | nil => simp [digitsVal_nil]
  | append_singleton l c ih =>
    rw [List.all_append, Bool.and_eq_true] at h
    have hl := ih h.1
    have hc := digitVal_lt base c (by simpa using h.2)
    rw [digitsVal_append_one, List.length_append, List.length_singleton, pow_succ]
    calc digitsVal base l * base + (digitVal c).getD 0
        < digitsVal base l * base + base := by omega
      _ = (digitsVal base l + 1) * base := by ring
      _ ≤ base ^ l.length * base := Nat.mul_le_mul_right _ hl

theorem digitsVal_digitsCore (base fuel n : ℕ) (hb : 2 ≤ base) (hb' : base ≤ 36) (h : n < base ^ fuel) :
    digitsVal base (digitsCore base fuel n) = n := by
  induction fuel generalizing n with
  | zero =>
    have h0 : n = 0 := by simpa using h
    rw [h0]
    rfl
  | succ fuel ih =>
    have hmod := Nat.mod_lt n (show base > 0 by omega)
    unfold digitsCore
    rw [digitsVal_append_one, digitVal_digit _ (by omega), Option.getD_some]
    split
    · rename_i hlt
      rw [digitsVal_nil, Nat.zero_mul, Nat.zero_add, Nat.mod_eq_of_lt hlt]
    · rw [ih (n / base) (Nat.div_lt_of_lt_mul (by rwa [pow_succ, Nat.mul_comm] at h))]
      rw [Nat.mul_comm]
      exact Nat.div_add_mod n base

theorem lt_pow_log2 (base n : ℕ) (hb : 2 ≤ base) : n < base ^ (n.log2 + 1) :=
  lt_of_lt_of_le Nat.lt_log2_self (Nat.pow_le_pow_left hb _)

theorem digitsVal_digits (base n : ℕ) (hb : 2 ≤ base) (hb' : base ≤ 36) : digitsVal base (digits base n) = n :=
  digitsVal_digitsCore base _ n hb hb' (lt_pow_log2 base n hb)

theorem digitsCore_all (base fuel n : ℕ) (hb : 2 ≤ base) (hb' : base ≤ 36) :
    (digitsCore base fuel n).all (isDigit base) = true := by
  induction fuel generalizing n with
  | zero => rfl
  | succ fuel ih =>
    have hd := isDigit_digit base (n % base) hb' (Nat.mod_lt n (by omega))
    unfold digitsCore
    rw [List.all_append, Bool.and_eq_true]
    refine ⟨?_, by simpa using hd⟩
    split
    · rfl
    · exact ih _

theorem digits_all (base n : ℕ) (hb : 2 ≤ base) (hb' : base ≤ 36) :
    (digits base n).all (isDigit base) = true :=
  digitsCore_all base _ n hb hb'

theorem digits_ne_nil (base n : ℕ) : digits base n ≠ [] := by
  simp [digits, digitsCore]

example : digits 16 0xC0FFEE = [67, 48, 70, 70, 69, 69] := by decide

end Lib
