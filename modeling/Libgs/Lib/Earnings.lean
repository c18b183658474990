import Libgs.Lib.LineLoop
import Mathlib.Algebra.BigOperators.Group.List.Basic

/-!
# What a text of lines can be worth

Every line is worth a number, and a loop over the lines of a text gains no more than the text is worth.
-/

namespace Lib

variable {α S R : Type} {sep : List α} {worth : List α → ℕ → Prop}

/-- The lines of the text are worth `n` in all. -/
inductive Earns (sep : List α) (worth : List α → ℕ → Prop) : List α → ℕ → Prop
  | nil : Earns sep worth [] 0
  | line {l t : List α} {n m : ℕ} (hl : IsLine sep l) (hw : worth l n) (h : Earns sep worth t m) :
      Earns sep worth (l ++ (sep ++ t)) (n + m)

namespace Earns

theorem one {l : List α} {n : ℕ} (hl : IsLine sep l) (hw : worth l n) : Earns sep worth (l ++ sep) n := by
  simpa using line hl hw .nil

theorem append {t t' : List α} {n n' : ℕ} (h : Earns sep worth t n) (h' : Earns sep worth t' n') :
    Earns sep worth (t ++ t') (n + n') := by
  induction h with
  | nil => simpa using h'
  | line hl hw _ ih =>
    rw [List.append_assoc, List.append_assoc, Nat.add_assoc]
    exact line hl hw ih

theorem flatMap {β : Type} (l : List β) (f : β → List α) (n : β → ℕ) (h : ∀ b ∈ l, Earns sep worth (f b) (n b)) :
    Earns sep worth (l.flatMap f) (l.map n).sum := by
  induction l with
  | nil => exact .nil
  | cons b l ih =>
    rw [List.flatMap_cons, List.map_cons, List.sum_cons]
    exact (h b List.mem_cons_self).append (ih fun a ha => h a (List.mem_cons_of_mem _ ha))

end Earns

/-! ## Lines worth their length -/

variable [DecidableEq α]

theorem earns_length (c : α) (hw : ∀ l, IsLine [c] l → worth l l.length) (t : List α) :
    ∃ n, Earns [c] worth (t ++ [c]) n ∧ n + t.count c = t.length := by
  have hgo : ∀ l t, IsLine [c] l →
      ∃ n, Earns [c] worth (l ++ (t ++ [c])) n ∧ n + t.count c = l.length + t.length := by
    intro l t
    induction t generalizing l with
    | nil => exact fun hl => ⟨l.length, .one hl (hw l hl), by simp⟩
    | cons d t ih =>
      intro hl
      by_cases hd : d = c
      · obtain ⟨n, hn, hlen⟩ := ih [] (by simp [IsLine])
        refine ⟨l.length + n, ?_, ?_⟩
        · rw [hd]
          exact .line hl (hw l hl) hn
        · rw [hd, List.count_cons_self, List.length_cons]
          rw [List.length_nil, Nat.zero_add] at hlen
          omega
      · have hcons : IsLine [c] (l ++ [d]) := by
          simp only [IsLine, List.singleton_infix_iff, List.dropLast_singleton, List.append_nil] at hl ⊢
          simp [hl, Ne.symm hd]
        obtain ⟨n, hn, hlen⟩ := ih (l ++ [d]) hcons
        refine ⟨n, by simpa using hn, ?_⟩
        rw [List.count_cons_of_ne hd, List.length_cons]
        rw [List.length_append, List.length_singleton] at hlen
        omega
  obtain ⟨n, hn, hlen⟩ := hgo [] t (by simp [IsLine])
  exact ⟨n, by simpa using hn, by simpa using hlen⟩

/-! ## The loop -/

/-- The loop has gained at most `n`, and where it has not left its buffer is empty. -/
inductive Turn.Gained (B : Buffer S α) (μ : S → ℕ) (ν : R → ℕ) (Inv : S → Prop) (n : ℕ) : Turn S R → Prop
  | again {s : S} (hget : B.get s = []) (hs : Inv s) (h : μ s ≤ n) : Gained B μ ν Inv n (.again s)
  | leave {r : R} (h : ν r ≤ n) : Gained B μ ν Inv n (.leave r)

/-- **The rule of earnings.** Where no turn gains more than its line is worth, no run gains more than the text is. -/
theorem lines_earn {B : Buffer S α} {body : List α → S → Turn S R} (hF : Framed B body) (hsep : sep ≠ [])
    (μ : S → ℕ) (ν : R → ℕ) (Inv : S → Prop)
    (hset : ∀ s b, Inv s → Inv (B.set s b) ∧ μ (B.set s b) = μ s)
    (hagain : ∀ l s s' n, worth l n → Inv s → body l s = .again s' → Inv s' ∧ μ s' ≤ μ s + n)
    (hleave : ∀ l s r n, worth l n → Inv s → body l s = .leave r → ν r ≤ μ s + n)
    {t : List α} {n : ℕ} (h : Earns sep worth t n) (s : S) (hs : Inv s) :
    (lines B sep body (B.set s t)).Gained B μ ν Inv (μ s + n) := by
  induction h generalizing s with
  | nil =>
    have hnone : cut sep (B.get (B.set s [])) = none := by rw [B.get_set]; simp [cut, find, hsep]
    rw [lines_none _ hnone]
    exact .again (B.get_set s []) (hset s [] hs).1 (hset s [] hs).2.le
  | @line l t n m hl hw _ ih =>
    have hrest := hset s t hs
    have hcut : cut sep (B.get (B.set s (l ++ (sep ++ t)))) = some (l, t) := by
      rw [B.get_set]
      exact cut_append_pat sep l t hsep hl
    have hbuf : B.set (B.set s (l ++ (sep ++ t))) t = B.set s t := B.set_set s _ t
    cases hb : body l (B.set s t) with
    | leave r =>
      rw [lines_leave _ l t r hsep hcut (by rw [hbuf, hb])]
      have := hleave l _ r n hw hrest.1 hb
      exact .leave (by omega)
    | again s' =>
      obtain ⟨hs', hle⟩ := hagain l _ s' n hw hrest.1 hb
      have hkeep : B.set s' t = s' := by
        have := hF.keeps _ _ _ hb
        rw [B.get_set] at this
        rw [← this, B.set_get]
      have := ih s' hs'
      rw [hkeep] at this
      rw [lines_again hF _ s' l t hsep hcut (by rw [hbuf, hb])]
      generalize lines B sep body s' = out at this
      cases this with
      | again hget hinv h => exact .again hget hinv (by omega)
      | leave h => exact .leave (by omega)

end Lib
