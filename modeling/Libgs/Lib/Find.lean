import Mathlib.Data.List.Infix
import Mathlib.Tactic.Linarith

/-!
# The first occurrence of a pattern

`find pat s` is where `pat` starts for the first time in `s`, counted from 0, and
`cut pat s` is what stands before that occurrence and behind it.
-/

namespace Lib

variable {α : Type}

theorem prefix_left (pat l t : List α) (h : pat <+: l ++ t) (hl : pat.length ≤ l.length) : pat <+: l :=
  List.prefix_of_prefix_length_le h (List.prefix_append l t) hl

theorem dropLast_length_lt (pat : List α) (hp : pat ≠ []) : pat.length = pat.dropLast.length + 1 := by
  have := List.length_pos_iff.mpr hp
  simp
  omega

theorem prefix_append_cons (pat a b : List α) (c : α) (hc : c ∉ pat) : pat <+: a ++ c :: b ↔ pat <+: a := by
  constructor
  · intro h
    rcases Nat.lt_or_ge a.length pat.length with hlt | hle
    · have hmem : a ++ [c] <+: pat := by
        refine List.prefix_of_prefix_length_le ?_ h (by rw [List.length_append]; exact hlt)
        exact ⟨b, by simp⟩
      exact absurd (hmem.subset (by simp)) hc
    · exact prefix_left pat a (c :: b) h hle
  · exact fun h => h.trans (List.prefix_append a (c :: b))

theorem infix_append_cons (pat a b : List α) (c : α) (hpat : pat ≠ []) (hc : c ∉ pat) :
    pat <:+: a ++ c :: b ↔ pat <:+: a ∨ pat <:+: b := by
  induction a with
  | nil =>
    have hhead := prefix_append_cons pat [] b c hc
    simp only [List.nil_append, List.prefix_nil] at hhead
    simp [List.infix_cons_iff, hhead, hpat]
  | cons x a ih =>
    rw [List.cons_append, List.infix_cons_iff, List.infix_cons_iff, ih, ← List.cons_append,
      prefix_append_cons pat (x :: a) b c hc, or_assoc]

theorem infix_iff_prefix_drop (pat s : List α) : pat <:+: s ↔ ∃ q, pat <+: s.drop q := by
  rw [List.infix_iff_prefix_suffix]
  constructor
  · rintro ⟨t, hpre, hsuf⟩
    obtain ⟨u, rfl⟩ := hsuf
    exact ⟨u.length, by rwa [List.drop_left]⟩
  · rintro ⟨q, hpre⟩
    exact ⟨s.drop q, hpre, List.drop_suffix q s⟩

theorem prefix_drop_append (pat a b c : List α) (q : Nat) (h : pat <+: (a ++ b).drop q)
    (hle : q + pat.length ≤ a.length) : pat <+: (a ++ c).drop q := by
  rw [List.drop_append_of_le_length (by omega)] at h ⊢
  have ha : pat <+: a.drop q := prefix_left pat _ _ h (by rw [List.length_drop]; omega)
  exact ha.trans (List.prefix_append _ _)

variable [DecidableEq α]

/-- The place of the first occurrence -/
def find (pat : List α) : List α → Option Nat
  | [] => if pat = [] then some 0 else none
  | x :: xs => if pat <+: x :: xs then some 0 else (find pat xs).map (· + 1)

/-- What stands before and behind the first occurrence -/
def cut (pat s : List α) : Option (List α × List α) :=
  (find pat s).map fun i => (s.take i, s.drop (i + pat.length))

theorem find_eq_none (pat s : List α) : find pat s = none ↔ ¬ pat <:+: s := by
  induction s with
  | nil => by_cases h : pat = [] <;> simp [find, h]
  | cons x xs ih =>
    by_cases h : pat <+: x :: xs
    · simp [find, h, List.infix_cons_iff]
    · simp [find, h, List.infix_cons_iff, ih]

theorem find_first_le (pat s : List α) (q : Nat) (h : pat <+: s.drop q) : ∃ i, find pat s = some i ∧ i ≤ q := by
  induction s generalizing q with
  | nil =>
    rw [List.drop_nil, List.prefix_nil] at h
    exact ⟨0, by simp [find, h], Nat.zero_le q⟩
  | cons x xs ih =>
    by_cases hp : pat <+: x :: xs
    · exact ⟨0, by simp [find, hp], Nat.zero_le q⟩
    · cases q with
      | zero => exact absurd h hp
      | succ q =>
        obtain ⟨i, hi, hle⟩ := ih q h
        exact ⟨i + 1, by simp [find, hp, hi], by omega⟩

theorem find_le (pat s : List α) (i : Nat) (h : find pat s = some i) : i + pat.length ≤ s.length := by
  induction s generalizing i with
  | nil =>
    by_cases hp : pat = []
    · simp [find, hp] at h ⊢; omega
    · simp [find, hp] at h
  | cons x xs ih =>
    by_cases hp : pat <+: x :: xs
    · have h0 : i = 0 := by simpa [find, hp] using h.symm
      have := hp.length_le
      omega
    · simp only [find, hp, if_false, Option.map_eq_some_iff] at h
      obtain ⟨j, hj, rfl⟩ := h
      have := ih j hj
      simp only [List.length_cons]
      omega

theorem find_split (pat s : List α) (i : Nat) (h : find pat s = some i) :
    s.take i ++ pat ++ s.drop (i + pat.length) = s := by
  induction s generalizing i with
  | nil =>
    by_cases hp : pat = []
    · simp [hp]
    · simp [find, hp] at h
  | cons x xs ih =>
    by_cases hp : pat <+: x :: xs
    · have h0 : i = 0 := by simpa [find, hp] using h.symm
      obtain ⟨t, ht⟩ := hp
      simp [h0, ← ht]
    · simp only [find, hp, if_false, Option.map_eq_some_iff] at h
      obtain ⟨j, hj, rfl⟩ := h
      rw [show j + 1 + pat.length = (j + pat.length) + 1 by omega]
      simpa using ih j hj

theorem find_append_pat (pat l r : List α) (hp : pat ≠ []) (h : ¬ pat <:+: l ++ pat.dropLast) :
    find pat (l ++ (pat ++ r)) = some l.length := by
  induction l with
  | nil =>
    obtain ⟨c, cs, rfl⟩ := List.exists_cons_of_ne_nil hp
    have : c :: cs <+: c :: (cs ++ r) := List.prefix_append (c :: cs) r
    simp [find, this]
  | cons x l ih =>
    have hn : ¬ pat <+: x :: (l ++ (pat ++ r)) := by
      intro hpre
      have e : x :: (l ++ (pat ++ r)) = (x :: l ++ pat.dropLast) ++ ([pat.getLast hp] ++ r) := by
        conv => lhs; rw [← List.dropLast_append_getLast hp]
        simp
      rw [e] at hpre
      have hlen := dropLast_length_lt pat hp
      exact h (prefix_left pat _ _ hpre (by simp at hlen ⊢; omega)).isInfix
    have hi : ¬ pat <:+: l ++ pat.dropLast := fun hc => h (hc.trans (List.suffix_cons x _).isInfix)
    simp only [List.cons_append, find, hn, if_false, ih hi, Option.map_some, List.length_cons]

theorem find_first (pat s : List α) (i : Nat) (hp : pat ≠ []) (h : find pat s = some i) :
    ¬ pat <:+: s.take i ++ pat.dropLast := by
  induction s generalizing i with
  | nil => simp [find, hp] at h
  | cons x xs ih =>
    by_cases hpre : pat <+: x :: xs
    · have h0 : i = 0 := by simpa [find, hpre] using h.symm
      intro hc
      have := hc.length_le
      have := dropLast_length_lt pat hp
      simp [h0] at *
      omega
    · have hsplit := find_split pat (x :: xs) i h
      simp only [find, hpre, if_false, Option.map_eq_some_iff] at h
      obtain ⟨j, hj, rfl⟩ := h
      rw [List.take_succ_cons, List.cons_append, List.infix_cons_iff]
      rintro (hc | hc)
      · apply hpre
        rw [← hsplit, List.take_succ_cons]
        have hrest : pat <+: x :: (List.take j xs ++ pat) := by
          refine hc.trans ⟨[pat.getLast hp], ?_⟩
          simp [List.dropLast_append_getLast hp]
        exact hrest.trans (by simp)
      · exact ih j hj hc

theorem cut_eq_none (pat s : List α) : cut pat s = none ↔ ¬ pat <:+: s := by
  simp [cut, find_eq_none]

theorem cut_append_pat (pat l r : List α) (hp : pat ≠ []) (h : ¬ pat <:+: l ++ pat.dropLast) :
    cut pat (l ++ (pat ++ r)) = some (l, r) := by
  rw [cut, find_append_pat pat l r hp h, Option.map_some, List.take_left, ← List.drop_drop,
    List.drop_left, List.drop_left]

theorem cut_eq_some (pat s l r : List α) (hp : pat ≠ []) (h : cut pat s = some (l, r)) :
    s = l ++ (pat ++ r) ∧ ¬ pat <:+: l ++ pat.dropLast := by
  simp only [cut, Option.map_eq_some_iff, Prod.mk.injEq] at h
  obtain ⟨i, hi, rfl, rfl⟩ := h
  rw [← List.append_assoc]
  exact ⟨(find_split pat s i hi).symm, find_first pat s i hp hi⟩

theorem cut_append (pat a b l r : List α) (hp : pat ≠ []) (h : cut pat a = some (l, r)) :
    cut pat (a ++ b) = some (l, r ++ b) := by
  obtain ⟨rfl, hf⟩ := cut_eq_some pat a l r hp h
  rw [List.append_assoc, List.append_assoc]
  exact cut_append_pat pat l (r ++ b) hp hf

end Lib
