import Mathlib.Data.List.Nodup
import Mathlib.Logic.Function.Basic
import Mathlib.Logic.Relation

/-!
# Linked lists

Nodes with a link to the next one each. A list grows where its last node gets a link.
-/

namespace Lib

variable {α : Type} {next : α → Option α}

/-- From one node, link by link, to the other -/
def Leads (next : α → Option α) : α → α → Prop := Relation.ReflTransGen fun x y => next x = some y

/-- The nodes behind a node, to the end -/
def Path (next : α → Option α) : α → List α → Prop
  | a, [] => next a = none
  | a, b :: l => next a = some b ∧ Path next b l

theorem Leads.refl (a : α) : Leads next a a := Relation.ReflTransGen.refl

theorem Leads.trans {a b c : α} (h : Leads next a b) (h' : Leads next b c) : Leads next a c :=
  Relation.ReflTransGen.trans h h'

theorem Leads.link {a b c : α} (h : Leads next a b) (hc : next b = some c) : Leads next a c := h.tail hc

theorem Leads.of_link {a b : α} (h : next a = some b) : Leads next a b := (Leads.refl a).link h

theorem Leads.total {a b c : α} (h : Leads next a b) (h' : Leads next a c) : Leads next b c ∨ Leads next c b :=
  Relation.ReflTransGen.total_of_right_unique (fun _ _ _ hy hz => Option.some.inj (hy.symm.trans hz)) h h'

theorem Leads.of_end {a b : α} (h : Leads next a b) (ha : next a = none) : b = a := by
  rcases Relation.ReflTransGen.cases_head h with rfl | ⟨c, hc, -⟩
  · rfl
  · rw [ha] at hc
    cases hc

theorem Leads.of_next {a b c : α} (h : Leads next a b) (hne : a ≠ b) (ha : next a = some c) : Leads next c b := by
  rcases Relation.ReflTransGen.cases_head h with rfl | ⟨d, hd, hrest⟩
  · exact absurd rfl hne
  · obtain rfl : d = c := Option.some.inj (hd.symm.trans ha)
    exact hrest

theorem Leads.last {a b : α} (h : Leads next a b) : b = a ∨ ∃ c, Leads next a c ∧ next c = some b := by
  rcases Relation.ReflTransGen.cases_tail h with h | ⟨c, hc, hb⟩
  · exact .inl h
  · exact .inr ⟨c, hc, hb⟩

/-- Links that are there stay there. -/
def Extends (next next' : α → Option α) : Prop := ∀ a b, next a = some b → next' a = some b

theorem Leads.mono {next' : α → Option α} {a b : α} (h : Leads next a b) (hext : Extends next next') :
    Leads next' a b :=
  Relation.ReflTransGen.mono (fun a b hab => hext a b hab) a b h

theorem path_unique {a : α} {l l' : List α} (h : Path next a l) (h' : Path next a l') : l = l' := by
  induction l generalizing a l' with
  | nil =>
    cases l' with
    | nil => rfl
    | cons b l' =>
      have hsome := h'.1
      rw [show next a = none from h] at hsome
      cases hsome
  | cons b l ih =>
    cases l' with
    | nil =>
      have hsome := h.1
      rw [show next a = none from h'] at hsome
      cases hsome
    | cons c l' =>
      obtain rfl : b = c := Option.some.inj (h.1.symm.trans h'.1)
      rw [ih h.2 h'.2]

theorem Path.linked {a b : α} {l : List α} (h : Path next a l) (hb : b ∈ l) : ∃ c, next c = some b := by
  induction l generalizing a with
  | nil => cases hb
  | cons c l ih =>
    rcases List.mem_cons.mp hb with rfl | hb
    · exact ⟨a, h.1⟩
    · exact ih h.2 hb

theorem Path.ahead {a b : α} {l : List α} (h : Path next a l) (hab : Leads next a b) :
    ∃ l', Path next b l' ∧ l'.length ≤ l.length ∧ (a ≠ b → l'.length < l.length) := by
  induction l generalizing a with
  | nil =>
    obtain rfl : b = a := hab.of_end h
    exact ⟨[], h, Nat.le_refl _, fun hne => absurd rfl hne⟩
  | cons c l ih =>
    by_cases hne : a = b
    · subst hne
      exact ⟨c :: l, h, Nat.le_refl _, fun hne => absurd rfl hne⟩
    · obtain ⟨l', hl', hle, -⟩ := ih h.2 (hab.of_next hne h.1)
      exact ⟨l', hl', Nat.le_succ_of_le hle, fun _ => Nat.lt_succ_of_le hle⟩

theorem Leads.antisymm {a b : α} {l : List α} (h : Path next a l) (hab : Leads next a b) (hba : Leads next b a) :
    a = b := by
  by_contra hne
  obtain ⟨l', hl', -, hlt⟩ := h.ahead hab
  obtain ⟨l'', hl'', hle, -⟩ := hl'.ahead hba
  have hlen := hlt hne
  rw [path_unique h hl''] at hlen
  omega

theorem Path.mem {a b : α} {l : List α} (h : Path next a l) (hab : Leads next a b) : b ∈ a :: l := by
  induction l generalizing a with
  | nil => exact List.mem_singleton.mpr (hab.of_end h)
  | cons c l ih =>
    by_cases hne : a = b
    · exact hne ▸ List.mem_cons_self
    · exact List.mem_cons_of_mem a (ih h.2 (hab.of_next hne h.1))

theorem Path.leads {a b : α} {l : List α} (h : Path next a l) (hb : b ∈ a :: l) : Leads next a b := by
  induction l generalizing a with
  | nil =>
    obtain rfl := List.mem_singleton.mp hb
    exact .refl _
  | cons c l ih =>
    rcases List.mem_cons.mp hb with rfl | hb
    · exact .refl _
    · exact (Leads.of_link h.1).trans (ih h.2 hb)

theorem Path.nodup {a : α} {l : List α} (h : Path next a l) : (a :: l).Nodup := by
  induction l generalizing a with
  | nil => exact List.nodup_singleton a
  | cons b l ih =>
    refine List.nodup_cons.mpr ⟨fun ha => ?_, ih h.2⟩
    -- A path from `b` back to `a` would be shorter than itself.
    obtain ⟨l', hl', hle, -⟩ := h.2.ahead (h.2.leads ha)
    rw [path_unique hl' h] at hle
    exact absurd hle (Nat.not_succ_le_self _)

theorem Path.end_leads {a : α} {l : List α} (h : Path next a l) : ∃ b, Leads next a b ∧ next b = none := by
  induction l generalizing a with
  | nil => exact ⟨a, .refl a, h⟩
  | cons c l ih =>
    obtain ⟨b, hb, hend⟩ := ih h.2
    exact ⟨b, (Leads.of_link h.1).trans hb, hend⟩

theorem Leads.end_unique {a b c : α} (hb : Leads next a b) (hc : Leads next a c) (hbend : next b = none)
    (hcend : next c = none) : b = c := by
  rcases hb.total hc with hbc | hcb
  · exact (hbc.of_end hbend).symm
  · exact hcb.of_end hcend

variable [DecidableEq α]

theorem Leads.of_update {a b t n : α} (hn : next n = none)
    (h : Leads (Function.update next t (some n)) a b) : Leads next a b ∨ b = n := by
  induction h with
  | refl => exact .inl (.refl a)
  | @tail c b _ hcb ih =>
    by_cases hct : c = t
    · rw [hct, Function.update_self] at hcb
      exact .inr (Option.some.inj hcb).symm
    · rw [Function.update_of_ne hct] at hcb
      rcases ih with hac | rfl
      · exact .inl (hac.link hcb)
      · rw [hn] at hcb
        cases hcb

theorem extends_link (t n : α) (ht : next t = none) : Extends next (Function.update next t (some n)) := by
  intro a b hab
  have hat : a ≠ t := by
    rintro rfl
    rw [ht] at hab
    cases hab
  rw [Function.update_of_ne hat, hab]

theorem path_link (a t n : α) (l : List α) (h : Path next a l) (hat : Leads next a t) (ht : next t = none)
    (hn : next n = none) (hnt : n ≠ t) : Path (Function.update next t (some n)) a (l ++ [n]) := by
  have hend : Function.update next t (some n) n = none := by rw [Function.update_of_ne hnt, hn]
  induction l generalizing a with
  | nil =>
    obtain rfl : t = a := hat.of_end h
    exact ⟨Function.update_self _ _ _, hend⟩
  | cons b l ih =>
    have hne : a ≠ t := by
      rintro rfl
      have := h.1
      rw [ht] at this
      cases this
    refine ⟨?_, ih b h.2 (hat.of_next hne h.1)⟩
    rw [Function.update_of_ne hne, h.1]

end Lib
