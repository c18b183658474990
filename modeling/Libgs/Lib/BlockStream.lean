import Mathlib.Data.List.Basic

/-!
# Streams cut into blocks

A block function is applied to every `n` items of a stream. Items may arrive one by one, with those of a block
that is not full yet kept in a buffer.
-/

namespace Lib

variable {S A : Type} (f : S → List A → S) (n : ℕ)

/-- The state after the first `k` blocks of a list. -/
def foldBlocks : ℕ → S → List A → S
  | 0, s, _ => s
  | k + 1, s, l => foldBlocks k (f s (l.take n)) (l.drop n)

/-- An item for the buffer. The last one that a block needs empties it. -/
def absorb (s : S × List A) (x : A) : S × List A :=
  if n ≤ s.2.length + 1 then (f s.1 (s.2 ++ [x]), []) else (s.1, s.2 ++ [x])

/-- One item after another -/
def absorbAll (s : S × List A) (l : List A) : S × List A := l.foldl (absorb f n) s

variable {f n}

@[simp] theorem absorbAll_nil (s : S × List A) : absorbAll f n s [] = s := rfl

@[simp] theorem absorbAll_cons (s : S × List A) (x : A) (l : List A) :
    absorbAll f n s (x :: l) = absorbAll f n (absorb f n s x) l := rfl

theorem absorbAll_append (s : S × List A) (l l' : List A) :
    absorbAll f n s (l ++ l') = absorbAll f n (absorbAll f n s l) l' := by
  simp [absorbAll]

theorem absorbAll_short (s : S) (buf l : List A) (h : buf.length + l.length < n) :
    absorbAll f n (s, buf) l = (s, buf ++ l) := by
  induction l generalizing buf with
  | nil => simp
  | cons x l ih =>
    simp only [List.length_cons] at h
    have hstep : absorb f n (s, buf) x = (s, buf ++ [x]) := if_neg (by simp only; omega)
    rw [absorbAll_cons, hstep, ih (buf ++ [x]) (by simp; omega)]
    simp

theorem absorbAll_full (s : S) (buf l : List A) (hl : l ≠ []) (h : buf.length + l.length = n) :
    absorbAll f n (s, buf) l = (f s (buf ++ l), []) := by
  obtain ⟨front, x, rfl⟩ := List.eq_nil_or_concat' l |>.resolve_left hl
  simp only [List.length_append, List.length_cons, List.length_nil] at h
  have hlast : absorb f n (s, buf ++ front) x = (f s (buf ++ front ++ [x]), []) := if_pos (by simp; omega)
  rw [absorbAll_append, absorbAll_short s buf front (by omega), absorbAll_cons, hlast]
  simp

theorem absorbAll_block (s : S) (l : List A) (hn : 0 < n) (h : l.length = n) :
    absorbAll f n (s, []) l = (f s l, []) := by
  have hl : l ≠ [] := by
    rintro rfl
    simp at h
    omega
  simpa using absorbAll_full s [] l hl (by simpa using h)

theorem absorbAll_blocks (k : ℕ) (s : S) (l : List A) (hn : 0 < n) (h : l.length = k * n) :
    absorbAll f n (s, []) l = (foldBlocks f n k s l, []) := by
  induction k generalizing s l with
  | zero =>
    obtain rfl : l = [] := List.eq_nil_of_length_eq_zero (by simpa using h)
    rfl
  | succ k ih =>
    rw [Nat.succ_mul] at h
    have hblock : absorbAll f n (s, []) (l.take n) = (f s (l.take n), []) :=
      absorbAll_block s (l.take n) hn (by rw [List.length_take]; omega)
    have hrest := ih (f s (l.take n)) (l.drop n) (by rw [List.length_drop]; omega)
    calc absorbAll f n (s, []) l
        = absorbAll f n (s, []) (l.take n ++ l.drop n) := by rw [List.take_append_drop]
      _ = absorbAll f n (f s (l.take n), []) (l.drop n) := by rw [absorbAll_append, hblock]
      _ = (foldBlocks f n (k + 1) s l, []) := hrest

theorem absorb_buffer (s : S × List A) (x : A) (hs : s.2.length < n) :
    (absorb f n s x).2.length = (s.2.length + 1) % n := by
  unfold absorb
  split
  · rename_i hfull
    rw [show s.2.length + 1 = n by omega, Nat.mod_self]
    rfl
  · rename_i hshort
    rw [Nat.mod_eq_of_lt (by omega)]
    simp

theorem absorbAll_buffer (s : S × List A) (l : List A) (hs : s.2.length < n) :
    (absorbAll f n s l).2.length = (s.2.length + l.length) % n := by
  induction l generalizing s with
  | nil => simp [Nat.mod_eq_of_lt hs]
  | cons x l ih =>
    have hx : (absorb f n s x).2.length = (s.2.length + 1) % n := absorb_buffer s x hs
    have hlt : (absorb f n s x).2.length < n := by
      rw [hx]
      exact Nat.mod_lt _ (by omega)
    rw [absorbAll_cons, ih _ hlt, hx, Nat.mod_add_mod, List.length_cons]
    congr 1
    omega

end Lib
