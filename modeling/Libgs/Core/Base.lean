import Mathlib.Algebra.Group.Nat.Defs
import Mathlib.Data.List.Basic

/-!
# Strings, errors and exceptions

A `std::string` is a list of bytes and a `size_t` is a number below `2 ^ 64`.
-/

namespace Libgs

/-- A `std::string` -/
abbrev Bytes := List UInt8

/-- The bytes of an ASCII literal. -/
def ascii (s : String) : Bytes := s.toList.map fun c => c.toNat.toUInt8

def crlf : Bytes := [13, 10]

/-- What can be checked for all 256 bytes holds of every byte. -/
theorem byte_forall {p : UInt8 → Prop} (h : ∀ i : Fin 256, p (UInt8.ofNat i.val)) (c : UInt8) : p c := by
  simpa using h ⟨c.toNat, c.toNat_lt⟩

/-- `size_t` has 64 bits. -/
def size_max : ℕ := 2 ^ 64

/-- `a - b` for two values of type `size_t`. -/
def size_sub (a b : ℕ) : ℕ := (a + size_max - b) % size_max

theorem size_sub_lt (a b : ℕ) : size_sub a b < size_max := Nat.mod_lt _ (by decide)

theorem size_sub_of_le (a b : ℕ) (ha : a < size_max) (h : b ≤ a) : size_sub a b = a - b := by
  unfold size_sub
  rw [show a + size_max - b = (a - b) + size_max by omega, Nat.add_mod_right]
  exact Nat.mod_eq_of_lt (by omega)

/-! ## Error codes -/

/-- The categories of the error codes that the library meets -/
inductive error_category
  | system
  | generic
  | misc
  | parser
  deriving DecidableEq, Repr

structure error_value where
  category : error_category
  value : ℕ
  deriving DecidableEq, Repr

/-- `none` is the default error code, which converts to false. -/
abbrev error_code := Option error_value

namespace errc

/-- `std::make_error_code` of a value that is taken for a `std::errc` -/
def make_error_code (errc : ℕ) : error_value := ⟨.generic, errc⟩

def bad_descriptor : error_value := ⟨.system, 9⟩

def timed_out : error_value := ⟨.system, 110⟩

def invalid_seek : error_value := make_error_code 29

def eof : error_value := ⟨.misc, 2⟩

end errc

/-! ## Exceptions -/

/-- The exceptions that are thrown, with what their handlers read -/
inductive exception
  | runtime_error (what : Bytes)
  | system_error (code : error_value) (what : Bytes)
  | invalid_argument
  | out_of_range
  deriving DecidableEq, Repr

/-- The end of a call that works on the object `obj` and on an error code it was given. -/
structure Call (O α : Type) where
  obj : O
  error : error_code
  value : Except exception α

namespace Call

variable {O α : Type}

/-- The call returns. -/
def ok (obj : O) (error : error_code) (value : α) : Call O α := ⟨obj, error, .ok value⟩

/-- The call throws. -/
def fail (obj : O) (error : error_code) (e : exception) : Call O α := ⟨obj, error, .error e⟩

/-- The call returns this value, and sets no error. -/
def Clean (c : Call O α) (value : α) : Prop := c.error = none ∧ c.value = .ok value

theorem clean_of_map {β : Type} (c : Call O α) (f : α → β) (v : β)
    (h : (⟨c.obj, c.error, c.value.map f⟩ : Call O β).Clean v) : ∃ w, c.Clean w := by
  obtain ⟨herror, hvalue⟩ := h
  cases hw : c.value with
  | ok w => exact ⟨w, herror, hw⟩
  | error e => simp [hw, Except.map] at hvalue

end Call

end Libgs
