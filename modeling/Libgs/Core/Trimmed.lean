import Libgs.Core.Algorithm
import Mathlib.Data.List.DropRight

/-!
# What `str_trimmed` takes off
-/

namespace Libgs

theorem str_trimmed_eq (str : Bytes) : str_trimmed str = (str.dropWhile isBlank).rdropWhile isBlank := rfl

/-- There is no blank at either end. -/
def unpadded (str : Bytes) : Bool := str.head?.all (! isBlank ·) ∧ str.getLast?.all (! isBlank ·)

theorem str_trimmed_split (str : Bytes) :
    ∃ a b, str = a ++ (str_trimmed str ++ b) ∧ (∀ c ∈ a, isBlank c = true) ∧ ∀ c ∈ b, isBlank c = true := by
  refine ⟨str.takeWhile isBlank, (str.dropWhile isBlank).rtakeWhile isBlank, ?_, ?_, ?_⟩
  · rw [str_trimmed_eq, List.rdropWhile_append_rtakeWhile, List.takeWhile_append_dropWhile]
  · intro c hc
    exact List.mem_takeWhile_imp hc
  · intro c hc
    exact List.mem_takeWhile_imp (List.mem_reverse.mp hc)

theorem str_trimmed_within (str : Bytes) : str_trimmed str <:+: str := by
  obtain ⟨a, b, h, -, -⟩ := str_trimmed_split str
  exact ⟨a, b, by rw [List.append_assoc]; exact h.symm⟩

theorem mem_str_trimmed (str : Bytes) (c : UInt8) (hc : c ∈ str) (hblank : isBlank c = false) :
    c ∈ str_trimmed str := by
  obtain ⟨a, b, h, ha, hb⟩ := str_trimmed_split str
  rw [h, List.mem_append, List.mem_append] at hc
  rcases hc with hc | hc | hc
  · simp [ha c hc] at hblank
  · exact hc
  · simp [hb c hc] at hblank

theorem str_trimmed_head (str : Bytes) (c : UInt8) (hc : str.head? = some c) (hblank : isBlank c = false) :
    (str_trimmed str).head? = some c := by
  obtain ⟨rest, rfl⟩ : ∃ rest, str = c :: rest := by
    cases str with
    | nil => simp at hc
    | cons d rest => exact ⟨rest, by simpa using hc⟩
  have hdrop : (c :: rest).dropWhile isBlank = c :: rest := by simp [hblank]
  have hstart := List.rdropWhile_prefix isBlank (l := c :: rest)
  have hmem := mem_str_trimmed (c :: rest) c List.mem_cons_self hblank
  rw [str_trimmed_eq, hdrop] at hmem ⊢
  obtain ⟨d, more, hd⟩ := List.exists_cons_of_ne_nil (List.ne_nil_of_mem hmem)
  rw [hd] at hstart ⊢
  rw [List.cons_prefix_cons] at hstart
  rw [hstart.1, List.head?_cons]

theorem str_trimmed_last (str : Bytes) (c : UInt8) (hc : str.getLast? = some c) (hblank : isBlank c = false) :
    (str_trimmed str).getLast? = some c := by
  obtain ⟨a, b, h, ha, hb⟩ := str_trimmed_split str
  have hmem : ∀ l : Bytes, (∀ d ∈ l, isBlank d = true) → l.getLast? ≠ some c := by
    intro l hl hlast
    simp [hl c (List.mem_of_getLast? hlast)] at hblank
  rw [h, List.getLast?_append, List.getLast?_append] at hc
  cases hlast : b.getLast? with
  | some d =>
    rw [hlast, Option.some_or, Option.some_or] at hc
    exact absurd (hlast.trans hc) (hmem b hb)
  | none =>
    rw [hlast, Option.none_or] at hc
    cases hkept : (str_trimmed str).getLast? with
    | some d => rwa [hkept, Option.some_or] at hc
    | none =>
      rw [hkept, Option.none_or] at hc
      exact absurd hc (hmem a ha)

theorem unpadded_str_trimmed (str : Bytes) : unpadded (str_trimmed str) = true := by
  unfold unpadded
  rw [decide_eq_true_iff]
  constructor
  · cases hhead : (str_trimmed str).head? with
    | none => rfl
    | some c =>
      cases hdrop : str.dropWhile isBlank with
      | nil => simp [str_trimmed_eq, hdrop] at hhead
      | cons d rest =>
        have hstart := List.rdropWhile_prefix isBlank (l := str.dropWhile isBlank)
        have hd := List.head?_dropWhile_not isBlank str
        rw [hdrop] at hstart hd
        rw [str_trimmed_eq, hdrop] at hhead
        obtain ⟨more, hmore⟩ := List.head?_eq_some_iff.mp hhead
        rw [hmore, List.cons_prefix_cons] at hstart
        rw [hstart.1]
        simpa using hd
  · cases hlast : (str_trimmed str).getLast? with
    | none => rfl
    | some c =>
      have hne : str_trimmed str ≠ [] := by rintro h; simp [h] at hlast
      have := List.rdropWhile_last_not isBlank (str.dropWhile isBlank) hne
      rw [List.getLast?_eq_getLast_of_ne_nil hne] at hlast
      simpa [← Option.some.inj hlast, str_trimmed_eq] using this

theorem str_trimmed_of_unpadded (str : Bytes) (h : unpadded str = true) : str_trimmed str = str := by
  unfold unpadded at h
  rw [decide_eq_true_iff] at h
  have hdrop : str.dropWhile isBlank = str := by
    cases str with
    | nil => rfl
    | cons c rest => simpa using h.1
  rw [str_trimmed_eq, hdrop, List.rdropWhile_eq_self_iff]
  intro hne
  rw [List.getLast?_eq_getLast_of_ne_nil hne] at h
  simpa using h.2

theorem unpadded_of_not_blank (text : Bytes) (h : ∀ c ∈ text, isBlank c = false) : unpadded text = true := by
  unfold unpadded
  rw [decide_eq_true_iff, Option.all_eq_true, Option.all_eq_true]
  constructor
  · intro c hc
    rw [h c (List.mem_of_head? hc)]
    rfl
  · intro c hc
    rw [h c (List.mem_of_getLast? hc)]
    rfl

end Libgs
