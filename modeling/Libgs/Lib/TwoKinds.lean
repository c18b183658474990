import Mathlib.Data.List.Nodup

/-!
# Keys of two kinds in one set

Two kinds of things share a set by the keys that they are given. The keys differ when the things of each kind differ,
and no key is given to things of both kinds.
-/

namespace Lib

variable {α β γ : Type}

def lefts (l : List (α ⊕ β)) : List α := l.filterMap Sum.getLeft?

def rights (l : List (α ⊕ β)) : List β := l.filterMap Sum.getRight?

@[simp] theorem lefts_cons_inl (a : α) (l : List (α ⊕ β)) : lefts (.inl a :: l) = a :: lefts l := rfl

@[simp] theorem lefts_cons_inr (b : β) (l : List (α ⊕ β)) : lefts (.inr b :: l) = lefts l := rfl

@[simp] theorem rights_cons_inl (a : α) (l : List (α ⊕ β)) : rights (.inl a :: l) = rights l := rfl

@[simp] theorem rights_cons_inr (b : β) (l : List (α ⊕ β)) : rights (.inr b :: l) = b :: rights l := rfl

theorem mem_map_elim (f : α → γ) (g : β → γ) (l : List (α ⊕ β)) (c : γ) :
    c ∈ l.map (Sum.elim f g) ↔ (∃ a ∈ lefts l, f a = c) ∨ ∃ b ∈ rights l, g b = c := by
  induction l with
  | nil => simp [lefts, rights]
  | cons x l ih =>
    cases x with
    | inl a =>
      rw [List.map_cons, List.mem_cons, ih, lefts_cons_inl, rights_cons_inl, List.exists_mem_cons_iff, or_assoc,
        Sum.elim_inl, eq_comm]
    | inr b =>
      rw [List.map_cons, List.mem_cons, ih, lefts_cons_inr, rights_cons_inr, List.exists_mem_cons_iff, or_left_comm,
        Sum.elim_inr, eq_comm]

/-- **Keys of two kinds.** -/
theorem nodup_two_kinds (f : α → γ) (g : β → γ) (l : List (α ⊕ β))
    (hf : ∀ a ∈ lefts l, ∀ a' ∈ lefts l, f a = f a' → a = a') (hg : Function.Injective g) :
    (l.map (Sum.elim f g)).Nodup ↔
      (lefts l).Nodup ∧ (rights l).Nodup ∧ ∀ a ∈ lefts l, ∀ b ∈ rights l, f a ≠ g b := by
  induction l with
  | nil => simp [lefts, rights]
  | cons x l ih =>
    cases x with
    | inl a =>
      rw [lefts_cons_inl] at hf
      have hl := ih fun a ha a' ha' => hf a (List.mem_cons_of_mem _ ha) a' (List.mem_cons_of_mem _ ha')
      have hmem : (∃ a' ∈ lefts l, f a' = f a) ↔ a ∈ lefts l := by
        constructor
        · rintro ⟨a', ha', heq⟩
          rwa [hf a' (List.mem_cons_of_mem _ ha') a List.mem_cons_self heq] at ha'
        · exact fun ha => ⟨a, ha, rfl⟩
      rw [List.map_cons, List.nodup_cons, mem_map_elim, hl, lefts_cons_inl, rights_cons_inl, List.nodup_cons,
        List.forall_mem_cons, Sum.elim_inl, hmem]
      constructor
      · rintro ⟨hnot, hlefts, hrights, hno⟩
        rw [not_or] at hnot
        exact ⟨⟨hnot.1, hlefts⟩, hrights, fun b hb heq => hnot.2 ⟨b, hb, heq.symm⟩, hno⟩
      · rintro ⟨⟨hnot, hlefts⟩, hrights, hhead, hno⟩
        refine ⟨not_or.mpr ⟨hnot, ?_⟩, hlefts, hrights, hno⟩
        rintro ⟨b, hb, heq⟩
        exact hhead b hb heq.symm
    | inr b =>
      have hl := ih hf
      have hmem : (∃ b' ∈ rights l, g b' = g b) ↔ b ∈ rights l := by
        simp [hg.eq_iff]
      rw [List.map_cons, List.nodup_cons, mem_map_elim, hl, lefts_cons_inr, rights_cons_inr, List.nodup_cons,
        Sum.elim_inr, hmem]
      simp only [List.forall_mem_cons]
      constructor
      · rintro ⟨hnot, hlefts, hrights, hno⟩
        rw [not_or] at hnot
        exact ⟨hlefts, ⟨hnot.2, hrights⟩, fun a ha => ⟨fun heq => hnot.1 ⟨a, ha, heq⟩, hno a ha⟩⟩
      · rintro ⟨hlefts, ⟨hnot, hrights⟩, hno⟩
        refine ⟨not_or.mpr ⟨?_, hnot⟩, hlefts, hrights, fun a ha => (hno a ha).2⟩
        rintro ⟨a, ha, heq⟩
        exact (hno a ha).1 heq

end Lib
