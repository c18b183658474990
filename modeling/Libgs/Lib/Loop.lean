import Mathlib.Computability.StateTransition

/-!
# A loop that ends when its turn says so

`loop turn fuel s` takes turn after turn from `s` on and gives the state in which no further turn is
taken. Without enough fuel it gives nothing.
-/

namespace Lib

open StateTransition

variable {S : Type} {turn : S → Option S}

/-- Turns until there is none left to take, or `none` when the fuel does not reach -/
def loop (turn : S → Option S) : ℕ → S → Option S
  | 0, _ => none
  | n + 1, s =>
    match turn s with
    | none => some s
    | some t => loop turn n t

theorem loop_done {s : S} (h : turn s = none) (n : ℕ) : loop turn (n + 1) s = some s := by
  simp [loop, h]

theorem loop_again {s t : S} (h : turn s = some t) (n : ℕ) : loop turn (n + 1) s = loop turn n t := by
  simp [loop, h]

/-- **What the loop gives** is the state it reaches in which no further turn is taken. -/
theorem loop_iff (s t : S) : (∃ n, loop turn n s = some t) ↔ Reaches turn s t ∧ turn t = none := by
  constructor
  · rintro ⟨n, h⟩
    induction n generalizing s with
    | zero => cases h
    | succ n ih =>
      cases hturn : turn s with
      | none =>
        rw [loop_done hturn] at h
        obtain rfl := Option.some.inj h
        exact ⟨.refl, hturn⟩
      | some u =>
        rw [loop_again hturn] at h
        obtain ⟨hreach, hend⟩ := ih u h
        exact ⟨.head hturn hreach, hend⟩
  · rintro ⟨hreach, hend⟩
    induction hreach using Relation.ReflTransGen.head_induction_on with
    | refl => exact ⟨1, loop_done hend 0⟩
    | head hturn _ ih =>
      obtain ⟨n, hn⟩ := ih
      exact ⟨n + 1, by rw [loop_again hturn, hn]⟩

theorem loop_more {s t : S} {n m : ℕ} (h : loop turn n s = some t) (hnm : n ≤ m) : loop turn m s = some t := by
  induction n generalizing s m with
  | zero => cases h
  | succ n ih =>
    obtain ⟨m, rfl⟩ : ∃ k, m = k + 1 := ⟨m - 1, by omega⟩
    cases hturn : turn s with
    | none => rwa [loop_done hturn] at h ⊢
    | some u =>
      rw [loop_again hturn] at h ⊢
      exact ih h (by omega)

theorem reaches_inv {I : S → Prop} (hI : ∀ s t, I s → turn s = some t → I t) {s t : S} (h : Reaches turn s t)
    (hs : I s) : I t := by
  induction h with
  | refl => exact hs
  | tail _ hturn ih => exact hI _ _ ih hturn

/-- **A measure that every turn lowers** brings the loop to its end. -/
theorem loop_ends {I : S → Prop} (m : S → ℕ) (hI : ∀ s t, I s → turn s = some t → I t ∧ m t < m s) (s : S)
    (hs : I s) : ∃ n t, loop turn n s = some t := by
  induction hm : m s using Nat.strong_induction_on generalizing s with
  | _ k ih =>
    cases hturn : turn s with
    | none => exact ⟨1, s, loop_done hturn 0⟩
    | some t =>
      obtain ⟨ht, hlt⟩ := hI s t hs hturn
      obtain ⟨n, u, hn⟩ := ih (m t) (by omega) t ht rfl
      exact ⟨n + 1, u, by rw [loop_again hturn, hn]⟩

/-- **An invariant under which there is always a further turn** keeps the loop from ending. -/
theorem loop_never_ends {I : S → Prop} (hI : ∀ s, I s → ∃ t, turn s = some t ∧ I t) (s : S) (hs : I s) (n : ℕ) :
    loop turn n s = none := by
  induction n generalizing s with
  | zero => rfl
  | succ n ih =>
    obtain ⟨t, hturn, ht⟩ := hI s hs
    rw [loop_again hturn]
    exact ih t ht

end Lib
