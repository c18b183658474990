import Libgs.Lib.LineLoop
import Libgs.Lib.Loop

/-!
# Replacing one text by another

The search may go on at the place of the replacement, which then is searched itself: the loop need not
end, and an occurrence that begins in front of that place is not looked for.
-/

namespace Libgs

open Lib StateTransition

variable {char_t : Type}

/-- What is replaced by what. With `step` the search goes on behind a replacement, without it at its start. -/
structure str_replace_condition (char_t : Type) where
  find : List char_t
  repl : List char_t
  step : Bool

/-- What the loop keeps: the string, where the search goes on and how often it has replaced. -/
structure replacing (char_t : Type) where
  str : List char_t
  find_pos : ℕ
  sum : ℕ

variable [DecidableEq char_t]

/-- `std::string::find` from a position on -/
def str_find (str pat : List char_t) (pos : ℕ) : Option ℕ :=
  if pos ≤ str.length then (find pat (str.drop pos)).map (pos + ·) else none

/-- A turn of the loop. `none` when nothing is found any more. -/
def replace_turn (cond : str_replace_condition char_t) (s : replacing char_t) : Option (replacing char_t) :=
  match str_find s.str cond.find s.find_pos with
  | none => none
  | some start =>
    some
      { str := s.str.take start ++ (cond.repl ++ s.str.drop (start + cond.find.length))
        find_pos := if cond.step then start + cond.repl.length else start
        sum := s.sum + 1 }

/-- The result and the number of replacements, or `none` when the fuel does not reach -/
def str_replace (fuel : ℕ) (str : List char_t) (cond : str_replace_condition char_t) : Option (List char_t × ℕ) :=
  if cond.find = cond.repl then
    some (str, 0)
  else
    (loop (replace_turn cond) fuel ⟨str, 0, 0⟩).map fun s => (s.str, s.sum)

/-! ## What one turn does -/

/-- The loop with `front` behind it, where it does not search any more. -/
def searching (front rest : List char_t) (sum : ℕ) : replacing char_t := ⟨front ++ rest, front.length, sum⟩

variable {cond : str_replace_condition char_t}

theorem replace_turn_none (front rest : List char_t) (k : ℕ) :
    replace_turn cond (searching front rest k) = none ↔ ¬ cond.find <:+: rest := by
  rw [← find_eq_none cond.find rest]
  unfold replace_turn str_find searching
  rw [if_pos (by simp), List.drop_left]
  cases find cond.find rest <;> simp

theorem replace_turn_cut (hfind : cond.find ≠ []) (front rest l r : List char_t) (k : ℕ)
    (hcut : cut cond.find rest = some (l, r)) :
    replace_turn cond (searching front rest k) =
      some (if cond.step then searching (front ++ l ++ cond.repl) r (k + 1)
        else searching (front ++ l) (cond.repl ++ r) (k + 1)) := by
  obtain ⟨rfl, hfirst⟩ := cut_eq_some cond.find rest l r hfind hcut
  have hpos : find cond.find (l ++ (cond.find ++ r)) = some l.length := find_append_pat cond.find l r hfind hfirst
  have htake : (front ++ (l ++ (cond.find ++ r))).take (front.length + l.length) = front ++ l := by
    rw [← List.append_assoc, ← List.length_append, List.take_left]
  have hdrop : (front ++ (l ++ (cond.find ++ r))).drop (front.length + l.length + cond.find.length) = r := by
    rw [← List.append_assoc, ← List.append_assoc, ← List.length_append, ← List.length_append, List.drop_left]
  unfold replace_turn str_find searching
  rw [if_pos (by simp), List.drop_left, hpos]
  simp only [Option.map_some, htake, hdrop, Option.some.injEq]
  split <;> simp [Nat.add_assoc]

theorem replace_turn_some (hfind : cond.find ≠ []) (front rest : List char_t) (k : ℕ) (t : replacing char_t)
    (h : replace_turn cond (searching front rest k) = some t) :
    ∃ l r, cut cond.find rest = some (l, r) ∧
      t = if cond.step then searching (front ++ l ++ cond.repl) r (k + 1)
        else searching (front ++ l) (cond.repl ++ r) (k + 1) := by
  cases hcut : cut cond.find rest with
  | none =>
    rw [(replace_turn_none front rest k).mpr ((cut_eq_none _ _).mp hcut)] at h
    cases h
  | some cutting =>
    obtain ⟨l, r⟩ := cutting
    rw [replace_turn_cut hfind front rest l r k hcut] at h
    exact ⟨l, r, rfl, (Option.some.inj h).symm⟩

theorem str_replace_eq (hrepl : cond.find ≠ cond.repl) (fuel : ℕ) (str : List char_t) :
    str_replace fuel str cond =
      (loop (replace_turn cond) fuel (searching [] str 0)).map fun s => (s.str, s.sum) := by
  rw [str_replace, if_neg hrepl]
  rfl

/-! ## Going on behind the replacement -/

theorem step_ends (hfind : cond.find ≠ []) (hstep : cond.step = true) (front rest : List char_t) (k : ℕ) :
    ∃ n t, loop (replace_turn cond) n (searching front rest k) = some t := by
  refine loop_ends (I := fun s => ∃ front rest k, s = searching front rest k)
    (fun s => s.str.length - s.find_pos) ?_ _ ⟨front, rest, k, rfl⟩
  rintro _ t ⟨front, rest, k, rfl⟩ h
  obtain ⟨l, r, hcut, rfl⟩ := replace_turn_some hfind front rest k t h
  rw [if_pos hstep]
  refine ⟨⟨_, _, _, rfl⟩, ?_⟩
  obtain ⟨rfl, -⟩ := cut_eq_some _ _ _ _ hfind hcut
  have := List.length_pos_iff.mpr hfind
  simp only [searching, List.length_append]
  omega

/-- **Line after line is replaced**, each occurrence ending its line. -/
theorem step_replaces (hfind : cond.find ≠ []) (hstep : cond.step = true) (n : ℕ) (front rest : List char_t) (k : ℕ)
    (t : replacing char_t) (h : loop (replace_turn cond) n (searching front rest k) = some t) :
    ∃ ls r, rest = unlines cond.find ls ++ r ∧ (∀ l ∈ ls, IsLine cond.find l) ∧ ¬ cond.find <:+: r ∧
      t.str = front ++ (unlines cond.repl ls ++ r) ∧ t.sum = k + ls.length := by
  induction n generalizing front rest k with
  | zero => cases h
  | succ n ih =>
    cases hcut : cut cond.find rest with
    | none =>
      have hnone := (cut_eq_none _ _).mp hcut
      rw [loop_done ((replace_turn_none front rest k).mpr hnone)] at h
      obtain rfl := Option.some.inj h
      exact ⟨[], rest, by simp, by simp, hnone, by simp [searching], rfl⟩
    | some cutting =>
      obtain ⟨l, r⟩ := cutting
      rw [loop_again (replace_turn_cut hfind front rest l r k hcut), if_pos hstep] at h
      obtain ⟨rfl, hl⟩ := cut_eq_some _ _ _ _ hfind hcut
      obtain ⟨ls, more, rfl, hls, hmore, hstr, hsum⟩ := ih _ r _ h
      refine ⟨l :: ls, more, by simp, ?_, hmore, by simp [hstr], by simp [hsum]; omega⟩
      intro k hk
      rcases List.mem_cons.mp hk with rfl | hk
      · exact hl
      · exact hls k hk

/-! ## Going on at the place of the replacement -/

/-- Every occurrence that begins in `front` reaches into the first one in `rest`, which the next turn replaces. -/
def Mended (cond : str_replace_condition char_t) (front rest : List char_t) : Prop :=
  ∀ q < front.length, cond.find <+: (front ++ rest).drop q →
    ∃ i, find cond.find rest = some i ∧ front.length + i < q + cond.find.length

/-- If the next turn completes an occurrence with what stands in front of its replacement, the turn behind it breaks
that occurrence again. -/
def LosesNone (cond : str_replace_condition char_t) (s : replacing char_t) : Prop :=
  ∀ l r, cut cond.find (s.str.drop s.find_pos) = some (l, r) →
    Mended cond (s.str.take s.find_pos ++ l) (cond.repl ++ r)

theorem losesNone_searching (front rest l r : List char_t) (k : ℕ) (hcut : cut cond.find rest = some (l, r)) :
    LosesNone cond (searching front rest k) ↔ Mended cond (front ++ l) (cond.repl ++ r) := by
  simp only [LosesNone, searching, List.drop_left, List.take_left, hcut, Option.some.injEq, Prod.mk.injEq]
  constructor
  · intro h
    exact h l r ⟨rfl, rfl⟩
  · rintro h _ _ ⟨rfl, rfl⟩
    exact h

theorem mended_iff_of_none (front rest : List char_t) (h : ¬ cond.find <:+: rest) :
    Mended cond front rest ↔ ¬ cond.find <:+: front ++ rest := by
  rw [infix_iff_prefix_drop]
  constructor
  · rintro hm ⟨q, hq⟩
    rcases Nat.lt_or_ge q front.length with hlt | hge
    · obtain ⟨i, hi, -⟩ := hm q hlt hq
      rw [(find_eq_none _ _).mpr h] at hi
      cases hi
    · rw [List.drop_append, List.drop_eq_nil_of_le hge, List.nil_append] at hq
      exact h ((infix_iff_prefix_drop _ _).mpr ⟨_, hq⟩)
  · intro hno q _ hq
    exact absurd ⟨q, hq⟩ hno

theorem mended_of_next (hfind : cond.find ≠ []) (front rest l r : List char_t) (hcut : cut cond.find rest = some (l, r))
    (h : Mended cond (front ++ l) (cond.repl ++ r)) : Mended cond front rest := by
  intro q hq hpre
  obtain ⟨rfl, hfirst⟩ := cut_eq_some _ _ _ _ hfind hcut
  refine ⟨l.length, find_append_pat cond.find l r hfind hfirst, ?_⟩
  by_contra hge
  have hle : q + cond.find.length ≤ (front ++ l).length := by rw [List.length_append]; omega
  rw [← List.append_assoc] at hpre
  obtain ⟨i, -, hlt⟩ := h q (by rw [List.length_append]; omega) (prefix_drop_append _ _ _ _ q hpre hle)
  omega

/-- **Nothing is left if and only if no turn loses an occurrence.** -/
theorem clean_iff (hfind : cond.find ≠ []) (hstep : cond.step = false) (n : ℕ) (front rest : List char_t) (k : ℕ)
    (t : replacing char_t) (h : loop (replace_turn cond) n (searching front rest k) = some t) :
    ¬ cond.find <:+: t.str ↔
      Mended cond front rest ∧ ∀ s, Reaches (replace_turn cond) (searching front rest k) s → LosesNone cond s := by
  induction n generalizing front rest k with
  | zero => cases h
  | succ n ih =>
    cases hcut : cut cond.find rest with
    | none =>
      have hnone := (cut_eq_none _ _).mp hcut
      have hend := (replace_turn_none front rest k).mpr hnone
      rw [loop_done hend] at h
      obtain rfl := Option.some.inj h
      have hstuck : ∀ s, Reaches (replace_turn cond) (searching front rest k) s → LosesNone cond s := by
        intro s hs l r hl
        obtain rfl : s = searching front rest k := by
          rcases hs.cases_head with heq | ⟨u, hu, -⟩
          · exact heq.symm
          · rw [Option.mem_def, hend] at hu
            cases hu
        simp [searching, hcut] at hl
      rw [and_iff_left hstuck, mended_iff_of_none front rest hnone]
      rfl
    | some cutting =>
      obtain ⟨l, r⟩ := cutting
      have hturn := replace_turn_cut hfind front rest l r k hcut
      rw [hstep, if_neg (by simp)] at hturn
      rw [loop_again hturn] at h
      rw [ih (front ++ l) (cond.repl ++ r) (k + 1) h]
      constructor
      · rintro ⟨hnext, hlater⟩
        refine ⟨mended_of_next hfind front rest l r hcut hnext, ?_⟩
        intro s hs
        rcases hs.cases_head with rfl | ⟨u, hu, hreach⟩
        · exact (losesNone_searching front rest l r k hcut).mpr hnext
        · rw [Option.mem_def, hturn] at hu
          obtain rfl := Option.some.inj hu
          exact hlater s hreach
      · rintro ⟨-, hall⟩
        exact ⟨(losesNone_searching front rest l r k hcut).mp (hall _ .refl), fun s hs => hall s (.head hturn hs)⟩

/-! ## When the loop ends -/

theorem ends_of_not_infix (hfind : cond.find ≠ []) (hstep : cond.step = false) (hrepl : ¬ cond.find <:+: cond.repl)
    (front b : List char_t) (k : ℕ) :
    ∃ n t, loop (replace_turn cond) n (searching front (cond.repl ++ b) k) = some t := by
  refine loop_ends (I := fun s => ∃ front b k, s = searching front (cond.repl ++ b) k)
    (fun s => s.str.length - s.find_pos) ?_ _ ⟨front, b, k, rfl⟩
  rintro _ t ⟨front, b, k, rfl⟩ h
  obtain ⟨l, r, hcut, rfl⟩ := replace_turn_some hfind front _ k t h
  rw [hstep, if_neg (by simp)]
  refine ⟨⟨_, _, _, rfl⟩, ?_⟩
  obtain ⟨hsplit, -⟩ := cut_eq_some _ _ _ _ hfind hcut
  have hbeyond : cond.repl.length < (l ++ cond.find).length := by
    by_contra hle
    rw [← List.append_assoc] at hsplit
    have hpre : l ++ cond.find <+: cond.repl ++ b := ⟨r, hsplit.symm⟩
    exact hrepl ((List.suffix_append l cond.find).isInfix.trans (prefix_left _ _ _ hpre (by omega)).isInfix)
  have hlen := congrArg List.length hsplit
  simp only [searching, List.length_append] at hlen hbeyond ⊢
  omega

theorem infix_never_ends (hfind : cond.find ≠ []) (hstep : cond.step = false) (hrepl : cond.find <:+: cond.repl)
    (str : List char_t) (hstr : cond.find <:+: str) (n : ℕ) :
    loop (replace_turn cond) n (searching [] str 0) = none := by
  refine loop_never_ends (I := fun s => ∃ front rest k, s = searching front rest k ∧ cond.find <:+: rest) ?_ _
    ⟨[], str, 0, rfl, hstr⟩ n
  rintro _ ⟨front, rest, k, rfl, hrest⟩
  obtain ⟨⟨l, r⟩, hcut⟩ := Option.ne_none_iff_exists'.mp (mt (cut_eq_none cond.find rest).mp (not_not.mpr hrest))
  have hturn := replace_turn_cut hfind front rest l r k hcut
  rw [hstep, if_neg (by simp)] at hturn
  exact ⟨_, hturn, _, _, _, rfl, hrepl.trans (List.prefix_append _ _).isInfix⟩

/-! ## Where no turn can lose one -/

/-- No occurrence begins in what lies in front. -/
def Uncrossed (cond : str_replace_condition char_t) (front rest : List char_t) : Prop :=
  ∀ q < front.length, ¬ cond.find <+: (front ++ rest).drop q

/-- `repl` begins `find` and stands nowhere in the middle of it: no occurrence is completed over both ends of `repl`. -/
structure AtTheEdge (cond : str_replace_condition char_t) : Prop where
  begins : cond.repl <+: cond.find
  edge : ∀ x y, cond.find = x ++ (cond.repl ++ y) → x = [] ∨ y = []

theorem uncrossed_next (hfind : cond.find ≠ []) (hedge : AtTheEdge cond) (front rest l r : List char_t)
    (hcut : cut cond.find rest = some (l, r)) (h : Uncrossed cond front rest) :
    Uncrossed cond (front ++ l) (cond.repl ++ r) := by
  intro q hq hpre
  obtain ⟨hsplit, hfirst⟩ := cut_eq_some _ _ _ _ hfind hcut
  obtain ⟨z, hz⟩ := hedge.begins
  rcases Nat.lt_or_ge (front ++ l ++ cond.repl).length (q + cond.find.length) with hlong | hshort
  · -- it reaches from the text in front over the replacement into what stands behind
    rw [List.drop_append_of_le_length hq.le, ← List.append_assoc] at hpre
    have hlen : ((front ++ l).drop q ++ cond.repl).length < cond.find.length := by
      simp only [List.length_append, List.length_drop] at hlong hq ⊢
      omega
    obtain ⟨y, hy⟩ := List.prefix_of_prefix_length_le (List.prefix_append _ r) hpre hlen.le
    rcases hedge.edge _ y (by rw [← hy, List.append_assoc]) with hx | rfl
    · have := congrArg List.length hx
      simp only [List.length_drop, List.length_nil] at this
      omega
    · rw [← hy, List.append_nil] at hlen
      omega
  · -- it was there before the turn
    have hold : cond.find <+: (front ++ rest).drop q := by
      have heq : front ++ rest = front ++ l ++ cond.repl ++ (z ++ r) := by
        rw [hsplit]
        nth_rewrite 1 [← hz]
        simp only [List.append_assoc]
      rw [heq]
      rw [← List.append_assoc] at hpre
      exact prefix_drop_append _ _ _ _ q hpre hshort
    rcases Nat.lt_or_ge q front.length with hlt | hge
    · exact h q hlt hold
    · rw [List.drop_append, List.drop_eq_nil_of_le hge, List.nil_append] at hold
      obtain ⟨i, hi, hle⟩ := find_first_le _ _ _ hold
      rw [hsplit, find_append_pat _ _ _ hfind hfirst] at hi
      obtain rfl := Option.some.inj hi
      simp only [List.length_append] at hq
      omega

theorem losesNone_of_edge (hfind : cond.find ≠ []) (hstep : cond.step = false) (hedge : AtTheEdge cond)
    (str : List char_t) (s : replacing char_t) (hs : Reaches (replace_turn cond) (searching [] str 0) s) :
    LosesNone cond s := by
  have hinv : ∃ front rest k, s = searching front rest k ∧ Uncrossed cond front rest := by
    refine reaches_inv (I := fun s => ∃ front rest k, s = searching front rest k ∧ Uncrossed cond front rest) ?_ hs
      ⟨[], str, 0, rfl, fun q hq => absurd hq (Nat.not_lt_zero q)⟩
    rintro _ t ⟨front, rest, k, rfl, h⟩ hturn
    obtain ⟨l, r, hcut, rfl⟩ := replace_turn_some hfind front rest k t hturn
    rw [hstep, if_neg (by simp)]
    exact ⟨_, _, _, rfl, uncrossed_next hfind hedge front rest l r hcut h⟩
  obtain ⟨front, rest, k, rfl, h⟩ := hinv
  intro l r hcut
  have hcut' : cut cond.find rest = some (l, r) := by simpa [searching] using hcut
  have hnext := uncrossed_next hfind hedge front rest l r hcut' h
  intro q hq hpre
  simp only [searching, List.take_left] at hq hpre
  exact absurd hpre (hnext q hq)

theorem ends_iff (hfind : cond.find ≠ []) (hstep : cond.step = false) (str : List char_t) :
    (∃ n t, loop (replace_turn cond) n (searching [] str 0) = some t) ↔
      ¬ cond.find <:+: str ∨ ¬ cond.find <:+: cond.repl := by
  constructor
  · rintro ⟨n, t, h⟩
    by_contra hboth
    obtain ⟨hstr, hrepl⟩ := not_or.mp hboth
    rw [infix_never_ends hfind hstep (not_not.mp hrepl) str (not_not.mp hstr) n] at h
    cases h
  · intro h
    cases hcut : cut cond.find str with
    | none => exact ⟨1, _, loop_done ((replace_turn_none [] str 0).mpr ((cut_eq_none _ _).mp hcut)) 0⟩
    | some cutting =>
      obtain ⟨l, r⟩ := cutting
      have hinside : cond.find <:+: str := by
        rw [(cut_eq_some _ _ _ _ hfind hcut).1]
        exact ⟨l, r, by simp⟩
      have hrepl := h.resolve_left (not_not.mpr hinside)
      have hturn := replace_turn_cut hfind [] str l r 0 hcut
      rw [hstep, if_neg (by simp)] at hturn
      obtain ⟨n, t, hn⟩ := ends_of_not_infix hfind hstep hrepl ([] ++ l) r 1
      exact ⟨n + 1, t, by rw [loop_again hturn]; exact hn⟩

/-! ## What comes out -/

/-- With `step` the occurrences are replaced from left to right, none of them in another one or in a replacement;
without it there is none left. -/
def Replaced (cond : str_replace_condition char_t) (str result : List char_t) (count : ℕ) : Prop :=
  if cond.step then
    ∃ ls r, str = unlines cond.find ls ++ r ∧ (∀ l ∈ ls, IsLine cond.find l) ∧ ¬ cond.find <:+: r ∧
      result = unlines cond.repl ls ++ r ∧ count = ls.length
  else
    ¬ cond.find <:+: result

/-- `str_replace` terminates, and what it gives is what it says. -/
def TerminatesAndReplaces (cond : str_replace_condition char_t) (str : List char_t) : Prop :=
  ∃ fuel result count, str_replace fuel str cond = some (result, count) ∧ Replaced cond str result count

theorem str_replace_eq_some (hrepl : cond.find ≠ cond.repl) (fuel : ℕ) (str result : List char_t) (count : ℕ) :
    str_replace fuel str cond = some (result, count) ↔
      ∃ t, loop (replace_turn cond) fuel (searching [] str 0) = some t ∧ t.str = result ∧ t.sum = count := by
  rw [str_replace_eq hrepl, Option.map_eq_some_iff]
  simp only [Prod.mk.injEq]

theorem str_replace_more (str : List char_t) {n m : ℕ} {a : List char_t × ℕ} (h : str_replace n str cond = some a)
    (hnm : n ≤ m) : str_replace m str cond = some a := by
  by_cases hrepl : cond.find = cond.repl
  · rwa [str_replace, if_pos hrepl] at h ⊢
  · rw [str_replace_eq hrepl] at h ⊢
    obtain ⟨t, ht, rfl⟩ := Option.map_eq_some_iff.mp h
    rw [loop_more ht hnm, Option.map_some]

theorem str_replace_unique (str : List char_t) {n m : ℕ} {a b : List char_t × ℕ} (ha : str_replace n str cond = some a)
    (hb : str_replace m str cond = some b) : a = b := by
  have h := str_replace_more str hb (Nat.le_max_right n m)
  rw [str_replace_more str ha (Nat.le_max_left n m)] at h
  exact Option.some.inj h

theorem str_replace_not_infix (hrepl : cond.find ≠ cond.repl) (str : List char_t) (h : ¬ cond.find <:+: str) (n : ℕ) :
    str_replace (n + 1) str cond = some (str, 0) := by
  rw [str_replace_eq hrepl, loop_done ((replace_turn_none [] str 0).mpr h) n]
  rfl

theorem str_replace_keeps (hfind : cond.find ≠ []) (hrepl : cond.find ≠ cond.repl) {I : List char_t → Prop}
    (hI : ∀ l r, I (l ++ (cond.find ++ r)) → I (l ++ (cond.repl ++ r))) (fuel : ℕ) (str result : List char_t)
    (count : ℕ) (h : str_replace fuel str cond = some (result, count)) (hstr : I str) : I result := by
  obtain ⟨t, ht, rfl, -⟩ := (str_replace_eq_some hrepl fuel str result count).mp h
  have hinv : ∃ front rest k, t = searching front rest k ∧ I (front ++ rest) := by
    refine reaches_inv (I := fun s => ∃ front rest k, s = searching front rest k ∧ I (front ++ rest)) ?_
      ((loop_iff _ _).mp ⟨fuel, ht⟩).1 ⟨[], str, 0, rfl, hstr⟩
    rintro _ u ⟨front, rest, k, rfl, hold⟩ hturn
    obtain ⟨l, r, hcut, rfl⟩ := replace_turn_some hfind front rest k u hturn
    obtain ⟨rfl, -⟩ := cut_eq_some _ _ _ _ hfind hcut
    rw [← List.append_assoc] at hold
    have hnew := hI (front ++ l) r hold
    split
    · exact ⟨_, _, _, rfl, by rwa [List.append_assoc]⟩
    · exact ⟨_, _, _, rfl, hnew⟩
  obtain ⟨front, rest, k, rfl, hresult⟩ := hinv
  exact hresult

theorem terminates_step (hfind : cond.find ≠ []) (hrepl : cond.find ≠ cond.repl) (hstep : cond.step = true)
    (str : List char_t) : TerminatesAndReplaces cond str := by
  obtain ⟨n, t, hn⟩ := step_ends hfind hstep [] str 0
  obtain ⟨ls, r, hstr, hls, hr, hresult, hsum⟩ := step_replaces hfind hstep n [] str 0 t hn
  refine ⟨n, t.str, t.sum, (str_replace_eq_some hrepl n str _ _).mpr ⟨t, hn, rfl, rfl⟩, ?_⟩
  rw [Replaced, if_pos hstep]
  exact ⟨ls, r, hstr, hls, hr, by simpa using hresult, by simpa using hsum⟩

theorem terminates_no_step_iff (hfind : cond.find ≠ []) (hrepl : cond.find ≠ cond.repl) (hstep : cond.step = false)
    (str : List char_t) :
    TerminatesAndReplaces cond str ↔
      (¬ cond.find <:+: str ∨ ¬ cond.find <:+: cond.repl) ∧
        ∀ s, Reaches (replace_turn cond) (searching [] str 0) s → LosesNone cond s := by
  have hmended : Mended cond [] str := fun q hq => absurd hq (Nat.not_lt_zero q)
  rw [← ends_iff hfind hstep str]
  constructor
  · rintro ⟨n, result, count, hresult, hclean⟩
    obtain ⟨t, hn, rfl, -⟩ := (str_replace_eq_some hrepl n str result count).mp hresult
    rw [Replaced, hstep, if_neg (by simp)] at hclean
    exact ⟨⟨n, t, hn⟩, ((clean_iff hfind hstep n [] str 0 t hn).mp hclean).2⟩
  · rintro ⟨⟨n, t, hn⟩, hall⟩
    refine ⟨n, t.str, t.sum, (str_replace_eq_some hrepl n str _ _).mpr ⟨t, hn, rfl, rfl⟩, ?_⟩
    rw [Replaced, hstep, if_neg (by simp)]
    exact (clean_iff hfind hstep n [] str 0 t hn).mpr ⟨hmended, hall⟩

theorem clean_of_edge (hfind : cond.find ≠ []) (hrepl : cond.find ≠ cond.repl) (hstep : cond.step = false)
    (hedge : AtTheEdge cond) (str : List char_t) :
    ∃ fuel result count, str_replace fuel str cond = some (result, count) ∧ ¬ cond.find <:+: result := by
  have hnot : ¬ cond.find <:+: cond.repl := by
    intro hinside
    exact hrepl (hinside.eq_of_length_le hedge.begins.length_le)
  obtain ⟨fuel, result, count, h, hclean⟩ := (terminates_no_step_iff hfind hrepl hstep str).mpr
    ⟨.inr hnot, losesNone_of_edge hfind hstep hedge str⟩
  rw [Replaced, hstep, if_neg (by simp)] at hclean
  exact ⟨fuel, result, count, h, hclean⟩

/-- **When `str_replace` does what it says.** Going on behind the replacement it always does. Going on at its place it
does if there is nothing to replace, or if `repl` has no `find` in it and no turn loses an occurrence. -/
theorem terminates_and_replaces_iff (cond : str_replace_condition char_t) (str : List char_t) (hfind : cond.find ≠ [])
    (hrepl : cond.find ≠ cond.repl) :
    TerminatesAndReplaces cond str ↔
      cond.step = true ∨ ¬ cond.find <:+: str ∨
        (¬ cond.find <:+: cond.repl ∧ ∀ s, Reaches (replace_turn cond) ⟨str, 0, 0⟩ s → LosesNone cond s) := by
  cases hstep : cond.step with
  | true =>
    rw [iff_true_right (.inl rfl)]
    exact terminates_step hfind hrepl hstep str
  | false =>
    rw [terminates_no_step_iff hfind hrepl hstep str]
    have hnone : ¬ cond.find <:+: str →
        ∀ s, Reaches (replace_turn cond) (searching [] str 0) s → LosesNone cond s := by
      intro hno
      have hend := (replace_turn_none [] str 0).mpr hno
      have hclean : ¬ cond.find <:+: (searching [] str 0).str := hno
      exact ((clean_iff hfind hstep 1 [] str 0 _ (loop_done hend 0)).mp hclean).2
    have hstart : searching [] str 0 = ⟨str, 0, 0⟩ := rfl
    rw [hstart] at hnone ⊢
    tauto

theorem terminates_and_replaces_slashes :
    TerminatesAndReplaces ⟨['/', '/'], ['/'], false⟩ ['a', '/', '/', '/', 'b'] := by
  have hedge : AtTheEdge ⟨['/', '/'], ['/'], false⟩ := by
    refine ⟨by decide, fun x y h => ?_⟩
    have hlen := congrArg List.length h
    simp only [List.length_cons, List.length_nil, List.length_append] at hlen
    simp only [← List.length_eq_zero_iff]
    omega
  exact (terminates_and_replaces_iff _ _ (by decide) (by decide)).mpr
    (.inr (.inr ⟨by decide, losesNone_of_edge (by decide) rfl hedge _⟩))

/-- Taking every `"ab"` out of `"aabb"` leaves one, and making every `"a"` an `"aa"` never ends. -/
theorem not_replaced :
    ¬ TerminatesAndReplaces ⟨['a', 'b'], [], false⟩ ['a', 'a', 'b', 'b'] ∧
      ¬ TerminatesAndReplaces ⟨['a'], ['a', 'a'], false⟩ ['a'] := by
  constructor
  · rintro ⟨n, result, count, hresult, hclean⟩
    have hab : str_replace 2 ['a', 'a', 'b', 'b'] ⟨['a', 'b'], [], false⟩ = some (['a', 'b'], 1) := by decide
    obtain ⟨rfl, rfl⟩ : result = ['a', 'b'] ∧ count = 1 := by simpa using str_replace_unique _ hresult hab
    exact hclean (by decide)
  · rintro ⟨n, result, count, hresult, -⟩
    rw [str_replace_eq (by decide)] at hresult
    rw [infix_never_ends (by decide) rfl (by decide) ['a'] (by decide) n] at hresult
    cases hresult

end Libgs
