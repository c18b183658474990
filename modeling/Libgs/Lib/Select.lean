import Mathlib.Order.Lattice

/-!
# The best element of a list, in one pass

The pass keeps the element of least weight. Where ties go to the later element, an element of the
same weight replaces the one that is kept.
-/

namespace Lib

variable {ι ω : Type} [LinearOrder ω]

/-- The later of two takes the place of the earlier. -/
def Replaces (ties : Bool) (a b : ω) : Prop := a < b ∨ a = b ∧ ties = true

instance (ties : Bool) (a b : ω) : Decidable (Replaces ties a b) := inferInstanceAs (Decidable (_ ∨ _))

/-- The pass, with the element it keeps and the weight to beat. -/
def pick (ties : Bool) (w : ι → ω) : Option ι → ω → List ι → Option ι
  | kept, _, [] => kept
  | kept, limit, e :: es =>
    if Replaces ties (w e) limit then pick ties w (some e) (w e) es else pick ties w kept limit es

/-- The first of the best elements or, where ties go to the later one, the last of them. -/
structure Best (ties : Bool) (w : ι → ω) (limit : ω) (l : List ι) (e : ι) : Prop where
  limit : Replaces ties (w e) limit
  split : ∃ before after, l = before ++ e :: after ∧ (∀ d ∈ before, Replaces ties (w e) (w d)) ∧
    ∀ d ∈ after, ¬ Replaces ties (w d) (w e)

theorem Replaces.trans {ties : Bool} {a b c : ω} (hab : Replaces ties a b) (hbc : Replaces ties b c) :
    Replaces ties a c := by
  rcases hab with hab | ⟨rfl, -⟩
  · rcases hbc with hbc | ⟨rfl, -⟩
    · exact .inl (hab.trans hbc)
    · exact .inl hab
  · exact hbc

theorem Replaces.of_not {ties : Bool} {a b c : ω} (hab : Replaces ties a b) (hcb : ¬ Replaces ties c b) :
    Replaces ties a c := by
  simp only [Replaces, not_or, not_lt, not_and] at hcb
  obtain ⟨hbc, hties⟩ := hcb
  rcases hab with hab | ⟨rfl, ht⟩
  · exact .inl (lt_of_lt_of_le hab hbc)
  · exact .inl (lt_of_le_of_ne hbc fun h => hties h.symm ht)

theorem pick_spec (ties : Bool) (w : ι → ω) (kept : Option ι) (limit : ω) (l : List ι) :
    (∃ e, pick ties w kept limit l = some e ∧ Best ties w limit l e) ∨
      pick ties w kept limit l = kept ∧ ∀ e ∈ l, ¬ Replaces ties (w e) limit := by
  induction l generalizing kept limit with
  | nil => exact .inr ⟨rfl, by simp⟩
  | cons d l ih =>
    unfold pick
    split
    · rename_i hd
      left
      rcases ih (some d) (w d) with ⟨e, he, hlimit, before, after, rfl, hbefore, hafter⟩ | ⟨he, hnone⟩
      · refine ⟨e, he, hlimit.trans hd, d :: before, after, rfl, ?_, hafter⟩
        exact List.forall_mem_cons.mpr ⟨hlimit, hbefore⟩
      · exact ⟨d, he, hd, [], l, rfl, by simp, hnone⟩
    · rename_i hd
      rcases ih kept limit with ⟨e, he, hlimit, before, after, rfl, hbefore, hafter⟩ | ⟨he, hnone⟩
      · refine .inl ⟨e, he, hlimit, d :: before, after, rfl, ?_, hafter⟩
        exact List.forall_mem_cons.mpr ⟨hlimit.of_not hd, hbefore⟩
      · exact .inr ⟨he, List.forall_mem_cons.mpr ⟨hd, hnone⟩⟩

end Lib
