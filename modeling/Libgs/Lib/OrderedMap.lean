import Mathlib.Algebra.BigOperators.Group.List.Basic
import Mathlib.Algebra.GroupWithZero.Nat
import Mathlib.Data.List.Basic
import Mathlib.Logic.Function.Basic
import Mathlib.Order.Lattice
import Mathlib.Tactic.SplitIfs

/-!
# Ordered maps

A map keeps its entries in strict order of the rank of their keys. Keys of one rank are one key,
and the spelling that came first stays.
-/

namespace Lib

variable {κ ρ β : Type} [LinearOrder ρ] {rank : κ → ρ}

/-- A finite map, by its entries in the order of their ranks. Two keys with one rank are one key. -/
structure OrderedMap (rank : κ → ρ) (β : Type) where
  entries : List (κ × β)
  sorted : entries.Pairwise fun a b => rank a.1 < rank b.1

/-- Sets the value of `k` to `f` of the value that is there, if any. -/
def alterEntry (rank : κ → ρ) (k : κ) (f : Option β → β) : List (κ × β) → List (κ × β)
  | [] => [(k, f none)]
  | e :: es =>
    if rank k < rank e.1 then (k, f none) :: e :: es
    else if rank e.1 < rank k then e :: alterEntry rank k f es
    else (e.1, f (some e.2)) :: es

theorem alterEntry_above (k : κ) (f : Option β → β) (l : List (κ × β)) (h : ∀ a ∈ l, rank a.1 < rank k) :
    alterEntry rank k f l = l ++ [(k, f none)] := by
  induction l with
  | nil => rfl
  | cons e es ih =>
    have he := h e List.mem_cons_self
    unfold alterEntry
    rw [if_neg (lt_asymm he), if_pos he, ih fun a ha => h a (List.mem_cons_of_mem _ ha), List.cons_append]

theorem alterEntry_at (k : κ) (v : β) (f : Option β → β) (l r : List (κ × β)) (h : ∀ a ∈ l, rank a.1 < rank k) :
    alterEntry rank k f (l ++ (k, v) :: r) = l ++ (k, f (some v)) :: r := by
  induction l with
  | nil => simp [alterEntry]
  | cons e es ih =>
    have he := h e List.mem_cons_self
    rw [List.cons_append, alterEntry, if_neg (lt_asymm he), if_pos he,
      ih fun a ha => h a (List.mem_cons_of_mem _ ha), List.cons_append]

theorem alterEntry_last (k : κ) (v : β) (f : Option β → β) (l : List (κ × β)) (h : ∀ a ∈ l, rank a.1 < rank k) :
    alterEntry rank k f (l ++ [(k, v)]) = l ++ [(k, f (some v))] :=
  alterEntry_at k v f l [] h

theorem alterEntry_fresh (k : κ) (f : Option β → β) (l : List (κ × β)) (h : ∀ a ∈ l, rank a.1 ≠ rank k) :
    (alterEntry rank k f l).Perm ((k, f none) :: l) := by
  induction l with
  | nil => exact .refl _
  | cons e es ih =>
    obtain ⟨he, hes⟩ := List.forall_mem_cons.mp h
    unfold alterEntry
    split_ifs with h1 h2
    · exact .refl _
    · exact ((ih hes).cons e).trans (.swap _ _ _)
    · exact absurd (le_antisymm (not_lt.mp h1) (not_lt.mp h2)) he

theorem alterEntry_twice (k : κ) (f g : Option β → β) (l : List (κ × β)) :
    alterEntry rank k f (alterEntry rank k g l) = alterEntry rank k (fun o => f (some (g o))) l := by
  induction l with
  | nil => simp [alterEntry]
  | cons e es ih =>
    rw [alterEntry, alterEntry]
    split_ifs with h1 h2
    · simp [alterEntry]
    · rw [alterEntry, if_neg h1, if_pos h2, ih]
    · rw [alterEntry, if_neg h1, if_neg h2]

theorem sum_alterEntry_le (w : κ × β → ℕ) (k : κ) (f : Option β → β) (n : ℕ) (l : List (κ × β))
    (h : l.Pairwise fun a b => rank a.1 < rank b.1)
    (hnew : (∀ e ∈ l, rank e.1 ≠ rank k) → w (k, f none) ≤ n)
    (hold : ∀ e ∈ l, rank e.1 = rank k → w (e.1, f (some e.2)) ≤ w e + n) :
    ((alterEntry rank k f l).map w).sum ≤ (l.map w).sum + n := by
  induction l with
  | nil => simpa [alterEntry] using hnew
  | cons e es ih =>
    obtain ⟨he, hes⟩ := List.pairwise_cons.mp h
    unfold alterEntry
    split_ifs with h1 h2
    · have := hnew fun a ha => by
        rcases List.mem_cons.mp ha with rfl | ha
        · exact (ne_of_gt h1)
        · exact (ne_of_gt (h1.trans (he a ha)))
      simp only [List.map_cons, List.sum_cons]
      omega
    · have := ih hes (fun hne => hnew fun a ha => by
        rcases List.mem_cons.mp ha with rfl | ha
        · exact ne_of_lt h2
        · exact hne a ha) fun a ha => hold a (List.mem_cons_of_mem _ ha)
      simp only [List.map_cons, List.sum_cons]
      omega
    · have := hold e List.mem_cons_self (le_antisymm (not_lt.mp h1) (not_lt.mp h2))
      simp only [List.map_cons, List.sum_cons]
      omega

theorem alterEntry_self (k : κ) (f : Option β → β) (l : List (κ × β)) :
    ∃ a ∈ alterEntry rank k f l, rank a.1 = rank k := by
  induction l with
  | nil => exact ⟨(k, f none), List.mem_cons_self, rfl⟩
  | cons e es ih =>
    unfold alterEntry
    split_ifs with h1 h2
    · exact ⟨(k, f none), List.mem_cons_self, rfl⟩
    · obtain ⟨a, ha, hrank⟩ := ih
      exact ⟨a, List.mem_cons_of_mem _ ha, hrank⟩
    · exact ⟨(e.1, f (some e.2)), List.mem_cons_self, le_antisymm (not_lt.mp h1) (not_lt.mp h2)⟩

theorem alterEntry_keeps (k : κ) (f : Option β → β) (l : List (κ × β)) (a : κ × β) (ha : a ∈ l) :
    ∃ b ∈ alterEntry rank k f l, b.1 = a.1 := by
  induction l with
  | nil => cases ha
  | cons e es ih =>
    unfold alterEntry
    split_ifs with h1 h2
    · exact ⟨a, List.mem_cons_of_mem _ ha, rfl⟩
    · rcases List.mem_cons.mp ha with rfl | ha
      · exact ⟨a, List.mem_cons_self, rfl⟩
      · obtain ⟨b, hb, hkey⟩ := ih ha
        exact ⟨b, List.mem_cons_of_mem _ hb, hkey⟩
    · rcases List.mem_cons.mp ha with rfl | ha
      · exact ⟨(a.1, f (some a.2)), List.mem_cons_self, rfl⟩
      · exact ⟨a, List.mem_cons_of_mem _ ha, rfl⟩

theorem alterEntry_mem_ne (k : κ) (f : Option β → β) (l : List (κ × β)) (a : κ × β) (ha : a ∈ l)
    (hne : rank a.1 ≠ rank k) : a ∈ alterEntry rank k f l := by
  induction l with
  | nil => cases ha
  | cons e es ih =>
    unfold alterEntry
    split_ifs with h1 h2
    · exact List.mem_cons_of_mem _ ha
    · rcases List.mem_cons.mp ha with rfl | ha
      · exact List.mem_cons_self
      · exact List.mem_cons_of_mem _ (ih ha)
    · rcases List.mem_cons.mp ha with rfl | ha
      · exact absurd (le_antisymm (not_lt.mp h1) (not_lt.mp h2)) hne
      · exact List.mem_cons_of_mem _ ha

theorem mem_alterEntry_cases (k : κ) (f : Option β → β) (l : List (κ × β)) (a : κ × β)
    (h : a ∈ alterEntry rank k f l) :
    a = (k, f none) ∨ (∃ b ∈ l, rank b.1 = rank k ∧ a = (b.1, f (some b.2))) ∨ a ∈ l := by
  induction l with
  | nil => exact .inl (List.mem_singleton.mp h)
  | cons e es ih =>
    unfold alterEntry at h
    split_ifs at h with h1 h2
    · exact (List.mem_cons.mp h).imp_right .inr
    · rcases List.mem_cons.mp h with rfl | h
      · exact .inr (.inr List.mem_cons_self)
      · rcases ih h with hnew | ⟨b, hb, haltered⟩ | hold
        · exact .inl hnew
        · exact .inr (.inl ⟨b, List.mem_cons_of_mem _ hb, haltered⟩)
        · exact .inr (.inr (List.mem_cons_of_mem _ hold))
    · rcases List.mem_cons.mp h with rfl | h
      · exact .inr (.inl ⟨e, List.mem_cons_self, le_antisymm (not_lt.mp h1) (not_lt.mp h2), rfl⟩)
      · exact .inr (.inr (List.mem_cons_of_mem _ h))

theorem mem_alterEntry (k : κ) (f : Option β → β) (l : List (κ × β)) (a : κ × β)
    (h : a ∈ alterEntry rank k f l) : rank a.1 = rank k ∨ a ∈ l := by
  rcases mem_alterEntry_cases k f l a h with rfl | ⟨b, -, hrank, rfl⟩ | hold
  · exact .inl rfl
  · exact .inl hrank
  · exact .inr hold

theorem alterEntry_sorted (k : κ) (f : Option β → β) (l : List (κ × β))
    (h : l.Pairwise fun a b => rank a.1 < rank b.1) :
    (alterEntry rank k f l).Pairwise fun a b => rank a.1 < rank b.1 := by
  induction l with
  | nil => simp [alterEntry]
  | cons e es ih =>
    obtain ⟨he, hes⟩ := List.pairwise_cons.mp h
    unfold alterEntry
    split_ifs with h1 h2
    · refine List.pairwise_cons.mpr ⟨?_, h⟩
      intro a ha
      rcases List.mem_cons.mp ha with rfl | ha
      · exact h1
      · exact h1.trans (he a ha)
    · refine List.pairwise_cons.mpr ⟨?_, ih hes⟩
      intro a ha
      rcases mem_alterEntry k f es a ha with ha | ha
      · rw [ha]; exact h2
      · exact he a ha
    · exact List.pairwise_cons.mpr ⟨he, hes⟩

namespace OrderedMap

def empty : OrderedMap rank β := ⟨[], .nil⟩

/-- The value under a key -/
def find (m : OrderedMap rank β) (k : κ) : Option β :=
  (m.entries.find? fun e => rank e.1 = rank k).map (·.2)

/-- A value for the key, from the one that stands there -/
def alter (m : OrderedMap rank β) (k : κ) (f : Option β → β) : OrderedMap rank β :=
  ⟨alterEntry rank k f m.entries, alterEntry_sorted k f m.entries m.sorted⟩

/-- `map[k] = v` -/
def assign (m : OrderedMap rank β) (k : κ) (v : β) : OrderedMap rank β := m.alter k fun _ => v

/-- `map.emplace(k, v)`: a key that is there keeps its value. -/
def emplace (m : OrderedMap rank β) (k : κ) (v : β) : OrderedMap rank β := m.alter k fun o => o.getD v

/-- The map without the key -/
def erase (m : OrderedMap rank β) (k : κ) : OrderedMap rank β :=
  ⟨m.entries.filter fun e => rank e.1 ≠ rank k, m.sorted.filter _⟩

/-- The map with other values in its entries. -/
def mapValues {γ : Type} (m : OrderedMap rank β) (f : κ → β → γ) : OrderedMap rank γ :=
  ⟨m.entries.map fun e => (e.1, f e.1 e.2), List.pairwise_map.mpr m.sorted⟩

/-- The map with other entries under the same keys. -/
def withEntries {γ : Type} (m : OrderedMap rank β) (l : List (κ × γ)) (h : l.map (·.1) = m.entries.map (·.1)) :
    OrderedMap rank γ where
  entries := l
  sorted := by
    have hkeys : (l.map (·.1)).Pairwise fun a b => rank a < rank b := by
      rw [h]
      exact List.pairwise_map.mpr m.sorted
    simpa [List.pairwise_map] using hkeys

theorem ext_entries {m m' : OrderedMap rank β} (h : m.entries = m'.entries) : m = m' := by
  cases m
  cases m'
  cases h
  rfl

instance [DecidableEq κ] [DecidableEq β] : DecidableEq (OrderedMap rank β) := fun m m' =>
  decidable_of_iff (m.entries = m'.entries) ⟨ext_entries, congrArg _⟩

theorem find_of_rank_eq (m : OrderedMap rank β) (k k' : κ) (h : rank k = rank k') :
    m.find k = m.find k' := by
  simp [find, h]

theorem find_alter_self (m : OrderedMap rank β) (k : κ) (f : Option β → β) :
    (m.alter k f).find k = some (f (m.find k)) := by
  obtain ⟨l, hl⟩ := m
  simp only [find, alter]
  induction l with
  | nil => simp [alterEntry]
  | cons e es ih =>
    obtain ⟨he, hes⟩ := List.pairwise_cons.mp hl
    unfold alterEntry
    split_ifs with h1 h2
    · -- `k` is below every entry, so it was not there.
      have hnone : (e :: es).find? (fun e => rank e.1 = rank k) = none := by
        rw [List.find?_eq_none]
        intro a ha
        rcases List.mem_cons.mp ha with rfl | ha
        · simpa using (ne_of_gt h1)
        · simpa using (ne_of_gt (lt_trans h1 (he a ha)))
      simp [hnone]
    · have hne : rank e.1 ≠ rank k := ne_of_lt h2
      simpa [hne] using ih hes
    · have heq : rank e.1 = rank k := le_antisymm (not_lt.mp h1) (not_lt.mp h2)
      simp [heq]

theorem find_alter_ne (m : OrderedMap rank β) (k k' : κ) (f : Option β → β) (h : rank k' ≠ rank k) :
    (m.alter k f).find k' = m.find k' := by
  obtain ⟨l, hl⟩ := m
  simp only [find, alter]
  induction l with
  | nil => simp [alterEntry, h.symm]
  | cons e es ih =>
    obtain ⟨he, hes⟩ := List.pairwise_cons.mp hl
    unfold alterEntry
    split_ifs with h1 h2
    · simp [h.symm]
    · by_cases hk : rank e.1 = rank k'
      · simp [hk]
      · simpa [hk] using ih hes
    · have heq : rank e.1 = rank k := le_antisymm (not_lt.mp h1) (not_lt.mp h2)
      simp [heq, h.symm]

theorem find_alter [DecidableEq κ] (hrank : Function.Injective rank) (m : OrderedMap rank β) (k : κ)
    (f : Option β → β) : (m.alter k f).find = Function.update m.find k (some (f (m.find k))) := by
  funext k'
  by_cases h : k' = k
  · rw [h, find_alter_self, Function.update_self]
  · rw [find_alter_ne m k k' f (hrank.ne h), Function.update_of_ne h]

theorem find_assign_self (m : OrderedMap rank β) (k k' : κ) (v : β) (h : rank k' = rank k) :
    (m.assign k v).find k' = some v := by
  rw [find_of_rank_eq _ k' k h, assign, find_alter_self]

theorem find_assign_ne (m : OrderedMap rank β) (k k' : κ) (v : β) (h : rank k' ≠ rank k) :
    (m.assign k v).find k' = m.find k' :=
  find_alter_ne m k k' _ h

theorem find_erase_ne (m : OrderedMap rank β) (k k' : κ) (h : rank k' ≠ rank k) : (m.erase k).find k' = m.find k' := by
  have hkept : ∀ e : κ × β, (rank e.1 ≠ rank k ∧ rank e.1 = rank k') ↔ rank e.1 = rank k' :=
    fun e => ⟨fun hk => hk.2, fun hk => ⟨hk ▸ h, hk⟩⟩
  unfold find erase
  rw [List.find?_filter]
  simp only [decide_eq_true_eq, hkept]

/-! ## Entries put in one after another -/

theorem find_erase_self (m : OrderedMap rank β) (k : κ) : (m.erase k).find k = none := by
  unfold find erase
  simp

theorem mem_emplace (m : OrderedMap rank β) (k : κ) (v : β) (a : κ × β) (h : a ∈ (m.emplace k v).entries) :
    a = (k, v) ∨ a ∈ m.entries := by
  rcases mem_alterEntry_cases k (fun o => o.getD v) m.entries a h with hnew | ⟨b, hb, -, rfl⟩ | hold
  · exact .inl hnew
  · exact .inr hb
  · exact .inr hold

theorem mem_assign (m : OrderedMap rank β) (k : κ) (v : β) (a : κ × β) (h : a ∈ (m.assign k v).entries) :
    (a.2 = v ∧ (a.1 = k ∨ ∃ b ∈ m.entries, b.1 = a.1)) ∨ a ∈ m.entries := by
  rcases mem_alterEntry_cases k (fun _ => v) m.entries a h with rfl | ⟨b, hb, -, rfl⟩ | hold
  · exact .inl ⟨rfl, .inl rfl⟩
  · exact .inl ⟨rfl, .inr ⟨b, hb, rfl⟩⟩
  · exact .inr hold

theorem forall_alter {P : κ × β → Prop} (m : OrderedMap rank β) (k : κ) (f : Option β → β) (h : ∀ e ∈ m.entries, P e)
    (hnew : P (k, f none)) (haltered : ∀ b ∈ m.entries, P b → P (b.1, f (some b.2))) :
    ∀ e ∈ (m.alter k f).entries, P e := by
  intro e he
  rcases mem_alterEntry_cases k f m.entries e he with rfl | ⟨b, hb, -, rfl⟩ | hold
  · exact hnew
  · exact haltered b hb (h b hb)
  · exact h e hold

/-- Entries that are put in one by one, where their keys are not there yet -/
def emplaceAll (m : OrderedMap rank β) (es : List (κ × β)) : OrderedMap rank β :=
  es.foldl (fun m e => m.emplace e.1 e.2) m

theorem alterAll_entries (f : β → Option β → β) (hf : ∀ v, f v none = v) (m : OrderedMap rank β) (es : List (κ × β))
    (h : (m.entries ++ es).Pairwise fun a b => rank a.1 < rank b.1) :
    (es.foldl (fun m e => m.alter e.1 (f e.2)) m).entries = m.entries ++ es := by
  induction es generalizing m with
  | nil => simp
  | cons e es ih =>
    have hbelow : ∀ a ∈ m.entries, rank a.1 < rank e.1 := fun a ha =>
      (List.pairwise_append.mp h).2.2 a ha e List.mem_cons_self
    have hfirst : (m.alter e.1 (f e.2)).entries = m.entries ++ [e] := by
      have := alterEntry_above e.1 (f e.2) m.entries hbelow
      rwa [hf] at this
    have hrest := ih (m.alter e.1 (f e.2)) (by rw [hfirst]; simpa using h)
    rw [hfirst] at hrest
    simpa using hrest

theorem emplaceAll_entries (m : OrderedMap rank β) (es : List (κ × β))
    (h : (m.entries ++ es).Pairwise fun a b => rank a.1 < rank b.1) : (m.emplaceAll es).entries = m.entries ++ es :=
  alterAll_entries (fun v o => o.getD v) (fun _ => rfl) m es h

theorem emplaceAll_perm (m : OrderedMap rank β) (es : List (κ × β))
    (h : (m.entries ++ es).Pairwise fun a b => rank a.1 ≠ rank b.1) :
    (m.emplaceAll es).entries.Perm (m.entries ++ es) := by
  induction es generalizing m with
  | nil => simp [emplaceAll]
  | cons e es ih =>
    have hfresh : ∀ a ∈ m.entries, rank a.1 ≠ rank e.1 := fun a ha =>
      (List.pairwise_append.mp h).2.2 a ha e List.mem_cons_self
    have hfirst : (m.emplace e.1 e.2).entries.Perm (m.entries ++ [e]) :=
      (alterEntry_fresh e.1 (fun o => o.getD e.2) m.entries hfresh).trans (List.perm_append_singleton _ _).symm
    have hrest := ih (m.emplace e.1 e.2) (by
      refine ((hfirst.append_right es).pairwise_iff fun hab => hab.symm).mpr ?_
      simpa using h)
    exact hrest.trans (by simpa using hfirst.append_right es)

theorem find_emplaceAll (m : OrderedMap rank β) (es : List (κ × β)) (k : κ) :
    (m.emplaceAll es).find k = (m.find k).or ((es.find? fun e => rank e.1 = rank k).map (·.2)) := by
  induction es generalizing m with
  | nil => exact (Option.or_none).symm
  | cons e es ih =>
    have hstep : (m.emplaceAll (e :: es)).find k = ((m.emplace e.1 e.2).emplaceAll es).find k := rfl
    rw [hstep, ih]
    by_cases hrank : rank e.1 = rank k
    · rw [find_of_rank_eq _ k e.1 hrank.symm, find_of_rank_eq m k e.1 hrank.symm, emplace, find_alter_self,
        List.find?_cons_of_pos (by simpa using hrank)]
      cases m.find e.1 <;> rfl
    · rw [emplace, find_alter_ne m e.1 k _ (Ne.symm hrank), List.find?_cons_of_neg (by simpa using hrank)]

/-- Entries that are put in one by one, over those that are there -/
def assignAll (m : OrderedMap rank β) (es : List (κ × β)) : OrderedMap rank β :=
  es.foldl (fun m e => m.assign e.1 e.2) m

theorem assignAll_entries (m : OrderedMap rank β) (es : List (κ × β))
    (h : (m.entries ++ es).Pairwise fun a b => rank a.1 < rank b.1) : (m.assignAll es).entries = m.entries ++ es :=
  alterAll_entries (fun v _ => v) (fun _ => rfl) m es h

theorem find_assignAll_map (m : OrderedMap rank β) (g : κ → κ) (f : β → β) (hg : ∀ k, rank (g k) = rank k) (k : κ) :
    (assignAll (.empty : OrderedMap rank β) (m.entries.map fun e => (g e.1, f e.2))).find k = (m.find k).map f := by
  have hentries : (assignAll (.empty : OrderedMap rank β) (m.entries.map fun e => (g e.1, f e.2))).entries =
      m.entries.map fun e => (g e.1, f e.2) := by
    rw [assignAll_entries]
    · rfl
    · simp only [empty, List.nil_append, List.pairwise_map, hg]
      exact m.sorted
  unfold find
  rw [hentries, List.find?_map, Option.map_map, Option.map_map]
  simp only [Function.comp_def, hg]

theorem find_assignAll_ne (m : OrderedMap rank β) (es : List (κ × β)) (k : κ) (h : ∀ e ∈ es, rank k ≠ rank e.1) :
    (m.assignAll es).find k = m.find k := by
  induction es generalizing m with
  | nil => rfl
  | cons e es ih =>
    obtain ⟨he, hes⟩ := List.forall_mem_cons.mp h
    exact (ih (m.assign e.1 e.2) hes).trans (find_assign_ne _ _ _ _ he)

theorem find_assignAll_of_mem (m : OrderedMap rank β) (es : List (κ × β))
    (h : es.Pairwise fun a b => rank a.1 ≠ rank b.1) (e : κ × β) (he : e ∈ es) :
    (m.assignAll es).find e.1 = some e.2 := by
  induction es generalizing m with
  | nil => cases he
  | cons a es ih =>
    obtain ⟨ha, hes⟩ := List.pairwise_cons.mp h
    rcases List.mem_cons.mp he with rfl | he
    · exact (find_assignAll_ne (m.assign e.1 e.2) es e.1 ha).trans (find_assign_self _ _ _ _ rfl)
    · exact ih (m.assign a.1 a.2) hes he

theorem emplaceAll_self (m : OrderedMap rank β) : emplaceAll .empty m.entries = m := by
  apply ext_entries
  rw [emplaceAll_entries .empty m.entries (by simpa [empty] using m.sorted)]
  rfl

theorem assignAll_self (m : OrderedMap rank β) : assignAll .empty m.entries = m := by
  apply ext_entries
  rw [assignAll_entries .empty m.entries (by simpa [empty] using m.sorted)]
  rfl

theorem find_of_mem (m : OrderedMap rank β) (e : κ × β) (he : e ∈ m.entries) : m.find e.1 = some e.2 := by
  have := find_assignAll_of_mem .empty m.entries (m.sorted.imp ne_of_lt) e he
  rwa [assignAll_self] at this

theorem mem_assign_iff_ne (m : OrderedMap rank β) (k : κ) (v : β) (a : κ × β) (h : rank a.1 ≠ rank k) :
    a ∈ (m.assign k v).entries ↔ a ∈ m.entries := by
  constructor
  · intro ha
    exact (mem_alterEntry k _ m.entries a ha).resolve_left h
  · intro ha
    exact alterEntry_mem_ne k _ m.entries a ha h

theorem mem_assign_eq (m : OrderedMap rank β) (k : κ) (v : β) (a : κ × β) (h : rank a.1 = rank k)
    (ha : a ∈ (m.assign k v).entries) : a.2 = v :=
  Option.some.inj ((find_of_mem _ a ha).symm.trans (find_assign_self m k a.1 v h))

/-! ## The entries as a set -/

theorem ext_mem {m m' : OrderedMap rank β} (h : ∀ a, a ∈ m.entries ↔ a ∈ m'.entries) : m = m' := by
  have hnodup : ∀ m : OrderedMap rank β, m.entries.Nodup := by
    intro m
    refine m.sorted.imp fun hab heq => ?_
    rw [heq] at hab
    exact lt_irrefl _ hab
  have hperm : m.entries.Perm m'.entries := (List.perm_ext_iff_of_nodup (hnodup m) (hnodup m')).mpr h
  refine ext_entries (hperm.eq_of_pairwise (fun a b _ _ hab hba => ?_) m.sorted m'.sorted)
  exact absurd hba (lt_asymm hab)

theorem emplace_of_mem (m : OrderedMap rank β) (k : κ) (v : β) (h : ∃ b ∈ m.entries, rank b.1 = rank k) :
    m.emplace k v = m := by
  refine ext_entries ?_
  have hsorted := m.sorted
  show alterEntry rank k (fun o => o.getD v) m.entries = m.entries
  generalize m.entries = l at h hsorted
  induction l with
  | nil =>
    obtain ⟨b, hb, -⟩ := h
    cases hb
  | cons e es ih =>
    obtain ⟨he, hes⟩ := List.pairwise_cons.mp hsorted
    obtain ⟨b, hb, hrank⟩ := h
    unfold alterEntry
    rcases List.mem_cons.mp hb with rfl | hb
    · rw [if_neg (by simp [hrank]), if_neg (by simp [hrank])]
      rfl
    · have hlt : rank e.1 < rank k := hrank ▸ he b hb
      rw [if_neg (lt_asymm hlt), if_pos hlt, ih ⟨b, hb, hrank⟩ hes]

theorem mem_emplace_iff (m : OrderedMap rank β) (k : κ) (v : β) (a : κ × β) :
    a ∈ (m.emplace k v).entries ↔ a ∈ m.entries ∨ (∀ b ∈ m.entries, rank b.1 ≠ rank k) ∧ a = (k, v) := by
  by_cases h : ∃ b ∈ m.entries, rank b.1 = rank k
  · have hnot : ¬ ∀ b ∈ m.entries, rank b.1 ≠ rank k := by
      obtain ⟨b, hb, hrank⟩ := h
      exact fun hall => hall b hb hrank
    rw [emplace_of_mem m k v h]
    simp only [hnot, false_and, or_false]
  · have hall : ∀ b ∈ m.entries, rank b.1 ≠ rank k := fun b hb hrank => h ⟨b, hb, hrank⟩
    have hperm := alterEntry_fresh k (fun o => o.getD v) m.entries hall
    rw [show (m.emplace k v).entries = alterEntry rank k (fun o => o.getD v) m.entries from rfl, hperm.mem_iff,
      List.mem_cons, or_comm]
    exact or_congr_right (and_iff_right hall).symm

theorem mem_emplaceAll (m : OrderedMap rank β) (es : List (κ × β)) (a : κ × β) :
    a ∈ (m.emplaceAll es).entries ↔ a ∈ m.entries ∨
      (∀ b ∈ m.entries, rank b.1 ≠ rank a.1) ∧ es.find? (fun e => rank e.1 = rank a.1) = some a := by
  induction es generalizing m with
  | nil => simp [emplaceAll]
  | cons e es ih =>
    have hstep : (m.emplaceAll (e :: es)).entries = ((m.emplace e.1 e.2).emplaceAll es).entries := rfl
    rw [hstep, ih]
    by_cases hrank : rank e.1 = rank a.1
    · have hthere : ¬ ∀ b ∈ (m.emplace e.1 e.2).entries, rank b.1 ≠ rank a.1 := by
        obtain ⟨b, hb, hbrank⟩ : ∃ b ∈ (m.emplace e.1 e.2).entries, rank b.1 = rank e.1 :=
          alterEntry_self e.1 (fun o => o.getD e.2) m.entries
        exact fun hall => hall b hb (hbrank.trans hrank)
      rw [List.find?_cons_of_pos (by simpa using hrank), mem_emplace_iff, hrank]
      simp only [hthere, false_and, or_false, Option.some.injEq, eq_comm]
    · have hmem : ∀ b, rank b.1 = rank a.1 → (b ∈ (m.emplace e.1 e.2).entries ↔ b ∈ m.entries) := by
        intro b hb
        rw [mem_emplace_iff, or_iff_left]
        rintro ⟨-, rfl⟩
        exact hrank hb
      have hfresh : (∀ b ∈ (m.emplace e.1 e.2).entries, rank b.1 ≠ rank a.1) ↔
          ∀ b ∈ m.entries, rank b.1 ≠ rank a.1 :=
        ⟨fun h b hb hb' => h b ((hmem b hb').mpr hb) hb', fun h b hb hb' => h b ((hmem b hb').mp hb) hb'⟩
      rw [List.find?_cons_of_neg (by simpa using hrank), hmem a rfl, hfresh]

theorem emplaceAll_forgets_iff (m : OrderedMap rank β) (es : List (κ × β)) :
    m.emplaceAll es = (empty : OrderedMap rank β).emplaceAll es ↔
      ∀ a ∈ m.entries, es.find? (fun e => rank e.1 = rank a.1) = some a := by
  have hempty : ∀ a, a ∈ ((empty : OrderedMap rank β).emplaceAll es).entries ↔
      es.find? (fun e => rank e.1 = rank a.1) = some a := by
    intro a
    rw [mem_emplaceAll]
    simp [empty]
  constructor
  · intro h a ha
    rw [← hempty, ← h, mem_emplaceAll]
    exact .inl ha
  · intro h
    refine ext_mem fun a => ?_
    rw [mem_emplaceAll, hempty]
    constructor
    · rintro (ha | ⟨-, hfind⟩)
      · exact h a ha
      · exact hfind
    · intro hfind
      by_cases hthere : ∃ b ∈ m.entries, rank b.1 = rank a.1
      · obtain ⟨b, hb, hrank⟩ := hthere
        have hb' := h b hb
        rw [hrank, hfind] at hb'
        exact .inl (Option.some.inj hb' ▸ hb)
      · exact .inr ⟨fun b hb hrank => hthere ⟨b, hb, hrank⟩, hfind⟩

theorem emplaceAll_keeps_iff (m : OrderedMap rank β) (es : List (κ × β)) :
    m.emplaceAll es = m ↔ ∀ e ∈ es, ∃ a ∈ m.entries, rank a.1 = rank e.1 := by
  constructor
  · intro h e he
    by_contra hno
    have hfresh : ∀ a ∈ m.entries, rank a.1 ≠ rank e.1 := fun a ha hrank => hno ⟨a, ha, hrank⟩
    obtain ⟨x, hx⟩ : ∃ x, es.find? (fun a => rank a.1 = rank e.1) = some x := by
      rw [← Option.isSome_iff_exists, List.find?_isSome]
      exact ⟨e, he, decide_eq_true rfl⟩
    have hrank : rank x.1 = rank e.1 := by simpa using List.find?_some hx
    have hin : x ∈ (m.emplaceAll es).entries := by
      rw [mem_emplaceAll, hrank]
      exact .inr ⟨hfresh, hx⟩
    rw [h] at hin
    exact hfresh x hin hrank
  · intro h
    induction es with
    | nil => rfl
    | cons e es ih =>
      have hfirst := emplace_of_mem m e.1 e.2 (h e List.mem_cons_self)
      have hstep : m.emplaceAll (e :: es) = (m.emplace e.1 e.2).emplaceAll es := rfl
      rw [hstep, hfirst]
      exact ih fun a ha => h a (List.mem_cons_of_mem _ ha)

theorem find_eq_none_iff (m : OrderedMap rank β) (k : κ) : m.find k = none ↔ ∀ b ∈ m.entries, rank b.1 ≠ rank k := by
  simp [find, List.find?_eq_none]

theorem mem_assign_emplace (m : OrderedMap rank β) (k : κ) (u v : β) (h : m.find k = none) (a : κ × β) :
    a ∈ ((m.emplace k u).assign k v).entries ↔ a = (k, v) ∨ a ∈ m.entries := by
  have hentries : ((m.emplace k u).assign k v).entries = alterEntry rank k (fun _ => v) m.entries :=
    alterEntry_twice k _ _ m.entries
  rw [hentries, (alterEntry_fresh k (fun _ => v) m.entries ((find_eq_none_iff m k).mp h)).mem_iff, List.mem_cons]

end OrderedMap

end Lib
