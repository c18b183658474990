import Libgs.Lib.Find

/-!
# A loop that takes one line at a time from a buffer

The buffer is part of the state. Each turn cuts off the input up to the first separator and
hands it to the body; a line that has no separator yet stays in the buffer for the next call.
-/

namespace Lib

variable {α S R : Type}

/-- A state that holds an input buffer. -/
structure Buffer (S α : Type) where
  get : S → List α
  set : S → List α → S
  get_set : ∀ s b, get (set s b) = b
  set_get : ∀ s, set s (get s) = s
  set_set : ∀ s a b, set (set s a) b = set s b

/-- The end of a turn: go on in a new state, or leave the loop with a result. -/
inductive Turn (S R : Type)
  | again (s : S)
  | leave (r : R)

/-- A body that goes on has only looked at its line: it has not touched the buffer. -/
structure Framed (B : Buffer S α) (body : List α → S → Turn S R) : Prop where
  keeps : ∀ l s s', body l s = .again s' → B.get s' = B.get s
  moves : ∀ l s s' b, body l s = .again s' → body l (B.set s b) = .again (B.set s' b)

/-! ## Input given as its lines -/

/-- The lines, each with the separator behind it -/
def unlines (sep : List α) (ls : List (List α)) : List α := (ls.map (· ++ sep)).flatten

@[simp] theorem unlines_nil (sep : List α) : unlines sep [] = [] := rfl

@[simp] theorem unlines_cons (sep l : List α) (ls : List (List α)) :
    unlines sep (l :: ls) = l ++ (sep ++ unlines sep ls) := by
  simp [unlines]

@[simp] theorem unlines_append (sep : List α) (ls ms : List (List α)) :
    unlines sep (ls ++ ms) = unlines sep ls ++ unlines sep ms := by
  simp [unlines]

/-- The body on line after line. `none` when it leaves at one of them. -/
def turns (body : List α → S → Turn S R) : List (List α) → S → Option S
  | [], s => some s
  | l :: ls, s =>
    match body l s with
    | .leave _ => none
    | .again s' => turns body ls s'

theorem turns_again (body : List α → S → Turn S R) (l : List α) (ls : List (List α)) (s s' : S)
    (h : body l s = .again s') : turns body (l :: ls) s = turns body ls s' := by
  simp [turns, h]

theorem turns_cons {body : List α → S → Turn S R} {l : List α} {ls : List (List α)} {s s' : S}
    (h : turns body (l :: ls) s = some s') : ∃ t, body l s = .again t ∧ turns body ls t = some s' := by
  unfold turns at h
  cases hb : body l s with
  | leave r => simp [hb] at h
  | again t => exact ⟨t, rfl, by simpa [hb] using h⟩

theorem turns_append (body : List α → S → Turn S R) (ls ms : List (List α)) (s : S) :
    turns body (ls ++ ms) s = (turns body ls s).bind (turns body ms) := by
  induction ls generalizing s with
  | nil => rfl
  | cons l ls ih =>
    simp only [List.cons_append, turns]
    cases body l s with
    | leave r => rfl
    | again s' => exact ih s'

theorem turns_moves {B : Buffer S α} {body : List α → S → Turn S R} (hF : Framed B body) (ls : List (List α))
    (s s' : S) (b : List α)
    (h : turns body ls s = some s') : turns body ls (B.set s b) = some (B.set s' b) := by
  induction ls generalizing s with
  | nil =>
    obtain rfl : s = s' := by simpa [turns] using h
    rfl
  | cons l ls ih =>
    obtain ⟨t, hb, hrest⟩ := turns_cons h
    rw [turns_again _ _ _ _ _ (hF.moves l s t b hb)]
    exact ih t hrest

theorem prefix_of_lt (sep l x : List α) (hsep : sep ≠ []) (h : x <+: l ++ sep)
    (hlt : x.length < (l ++ sep).length) : x <+: l ++ sep.dropLast := by
  have hlen := dropLast_length_lt sep hsep
  have e : l ++ sep = (l ++ sep.dropLast) ++ [sep.getLast hsep] := by
    rw [List.append_assoc, List.dropLast_append_getLast hsep]
  rw [e] at h
  apply prefix_left x _ _ h
  simp only [List.length_append] at hlt ⊢
  omega

theorem prefix_cons (sep l x : List α) (ls : List (List α)) (h : x <+: unlines sep (l :: ls))
    (hge : (l ++ sep).length ≤ x.length) : ∃ y, x = l ++ (sep ++ y) ∧ y <+: unlines sep ls := by
  rw [unlines_cons, ← List.append_assoc] at h
  obtain ⟨y, rfl⟩ := List.prefix_of_prefix_length_le (List.prefix_append _ _) h hge
  exact ⟨y, by rw [List.append_assoc], (List.prefix_append_right_inj _).mp h⟩

/-! ## The loop -/

variable [DecidableEq α]

/-- The loop with fuel: each turn takes the first line that has its separator. -/
def runLines (B : Buffer S α) (sep : List α) (body : List α → S → Turn S R) : Nat → S → Turn S R
  | 0, s => .again s
  | n + 1, s =>
    match find sep (B.get s) with
    | none => .again s
    | some pos =>
      match body ((B.get s).take pos) (B.set s ((B.get s).drop (pos + sep.length))) with
      | .leave r => .leave r
      | .again s' => if B.get s' = [] then .again s' else runLines B sep body n s'

/-- `again s` as the result: the loop is out of lines in state `s`. -/
def lines (B : Buffer S α) (sep : List α) (body : List α → S → Turn S R) (s : S) : Turn S R :=
  runLines B sep body (B.get s).length s

section

variable {B : Buffer S α} {sep : List α} {body : List α → S → Turn S R}

theorem runLines_none (n : Nat) (s : S) (h : find sep (B.get s) = none) :
    runLines B sep body n s = .again s := by
  cases n <;> simp [runLines, h]

theorem runLines_enough (hF : Framed B body) (hsep : sep ≠ []) (n m : Nat) (s : S)
    (hn : (B.get s).length ≤ n) (hm : (B.get s).length ≤ m) :
    runLines B sep body n s = runLines B sep body m s := by
  induction n generalizing m s with
  | zero =>
    have h0 : B.get s = [] := List.eq_nil_of_length_eq_zero (by omega)
    rw [runLines_none _ _ (by simp [h0, find, hsep]), runLines_none _ _ (by simp [h0, find, hsep])]
  | succ n ih =>
    cases hf : find sep (B.get s) with
    | none => rw [runLines_none _ _ hf, runLines_none _ _ hf]
    | some pos =>
      have hle := find_le sep (B.get s) pos hf
      have hpos := List.length_pos_iff.mpr hsep
      cases m with
      | zero => omega
      | succ m =>
        simp only [runLines, hf]
        cases hb : body ((B.get s).take pos) (B.set s ((B.get s).drop (pos + sep.length))) with
        | leave r => rfl
        | again s' =>
          have hk := hF.keeps _ _ _ hb
          rw [B.get_set] at hk
          have hl : (B.get s').length = (B.get s).length - (pos + sep.length) := by rw [hk]; simp
          simp only
          split
          · rfl
          · exact ih m s' (by omega) (by omega)

theorem lines_none (s : S) (h : cut sep (B.get s) = none) : lines B sep body s = .again s :=
  runLines_none _ _ (by simpa [cut] using h)

theorem cut_turn {t l r : List α} (hsep : sep ≠ []) (h : cut sep t = some (l, r)) :
    ∃ pos n, find sep t = some pos ∧ t.take pos = l ∧ t.drop (pos + sep.length) = r ∧
      t.length = n + 1 ∧ t.length - (pos + sep.length) ≤ n := by
  simp only [cut, Option.map_eq_some_iff, Prod.mk.injEq] at h
  obtain ⟨pos, hpos, hl, hr⟩ := h
  have hle := find_le sep t pos hpos
  have := List.length_pos_iff.mpr hsep
  exact ⟨pos, t.length - 1, hpos, hl, hr, by omega, by omega⟩

theorem lines_leave (s : S) (l r : List α) (q : R) (hsep : sep ≠ [])
    (h : cut sep (B.get s) = some (l, r)) (hb : body l (B.set s r) = .leave q) :
    lines B sep body s = .leave q := by
  obtain ⟨pos, n, hpos, rfl, rfl, hn, -⟩ := cut_turn hsep h
  simp only [lines, hn, runLines, hpos, hb]

theorem lines_again (hF : Framed B body) (s s' : S) (l r : List α) (hsep : sep ≠ [])
    (h : cut sep (B.get s) = some (l, r)) (hb : body l (B.set s r) = .again s') :
    lines B sep body s = lines B sep body s' := by
  obtain ⟨pos, n, hpos, rfl, rfl, hn, hrest⟩ := cut_turn hsep h
  have hk := hF.keeps _ _ _ hb
  rw [B.get_set] at hk
  have hl : (B.get s').length = (B.get s).length - (pos + sep.length) := by rw [hk]; simp
  have hstep : lines B sep body s = if B.get s' = [] then .again s' else runLines B sep body n s' := by
    simp only [lines, hn, runLines, hpos, hb]
  rw [hstep]
  split
  · rename_i h0
    exact (lines_none s' (by simp [h0, cut, find, hsep])).symm
  · exact runLines_enough hF hsep _ _ s' (by omega) (le_refl _)

/-- **The rule of the loop.** What holds when no line is left, and carries back over a turn, holds. -/
theorem lines_rule (hF : Framed B body) (hsep : sep ≠ []) (P : S → Turn S R → Prop)
    (pending : ∀ s, ¬ sep <:+: B.get s → P s (.again s))
    (leave : ∀ s l r q, cut sep (B.get s) = some (l, r) → body l (B.set s r) = .leave q → P s (.leave q))
    (again : ∀ s s' l r, cut sep (B.get s) = some (l, r) → body l (B.set s r) = .again s' →
      P s' (lines B sep body s') → P s (lines B sep body s')) (s : S) :
    P s (lines B sep body s) := by
  induction hn : (B.get s).length using Nat.strong_induction_on generalizing s with
  | _ n ih =>
    cases hc : cut sep (B.get s) with
    | none =>
      rw [lines_none s hc]
      exact pending s ((cut_eq_none _ _).mp hc)
    | some lr =>
      obtain ⟨l, r⟩ := lr
      cases hb : body l (B.set s r) with
      | leave q =>
        rw [lines_leave s l r q hsep hc hb]
        exact leave s l r q hc hb
      | again s' =>
        rw [lines_again hF s s' l r hsep hc hb]
        refine again s s' l r hc hb (ih _ ?_ s' rfl)
        have hk := hF.keeps _ _ _ hb
        have hs := congrArg List.length (cut_eq_some sep _ l r hsep hc).1
        have := List.length_pos_iff.mpr hsep
        rw [B.get_set] at hk
        simp only [List.length_append] at hs
        rw [hk]
        omega

/-- **Feeding in pieces.** What comes later may as well have been in the buffer from the start. -/
theorem lines_feed (hF : Framed B body) (hsep : sep ≠ []) (s s' : S) (x : List α)
    (h : lines B sep body s = .again s') :
    lines B sep body (B.set s (B.get s ++ x)) = lines B sep body (B.set s' (B.get s' ++ x)) := by
  revert h
  refine lines_rule hF hsep (fun s t => t = .again s' →
    lines B sep body (B.set s (B.get s ++ x)) = lines B sep body (B.set s' (B.get s' ++ x))) ?_ ?_ ?_ s
  · rintro s - ⟨⟩
    rfl
  · rintro s l r q - - ⟨⟩
  · intro s t l r hc hb ih h
    rw [← ih h]
    have hk := hF.keeps _ _ _ hb
    rw [B.get_set] at hk
    have hm := hF.moves _ _ _ (r ++ x) hb
    rw [B.set_set] at hm
    refine lines_again hF _ _ l (r ++ x) hsep ?_ (by rw [B.set_set, hm, hk])
    rw [B.get_set]
    exact cut_append sep _ x l r hsep hc

/-! ## The lines that are handed to the body -/

/-- The loop that starts in `s` comes to hand the line `l` to its body in the state `t`. -/
inductive Handed (B : Buffer S α) (sep : List α) (body : List α → S → Turn S R) : S → List α → S → Prop
  | now {s : S} {l r : List α} (h : cut sep (B.get s) = some (l, r)) : Handed B sep body s l (B.set s r)
  | later {s s' t : S} {l r k : List α} (h : cut sep (B.get s) = some (l, r)) (hb : body l (B.set s r) = .again s')
      (ht : Handed B sep body s' k t) : Handed B sep body s k t

theorem Handed.inv {P : S → Prop} (hset : ∀ s b, P s → P (B.set s b))
    (hbody : ∀ l s s', P s → body l s = .again s' → P s') {s t : S} {l : List α} (h : Handed B sep body s l t)
    (hs : P s) : P t := by
  induction h with
  | now _ => exact hset _ _ hs
  | later _ hb _ ih => exact ih (hbody _ _ _ (hset _ _ hs) hb)

theorem handed_iff {s t : S} {l k r : List α} (h : cut sep (B.get s) = some (l, r)) :
    Handed B sep body s k t ↔
      k = l ∧ t = B.set s r ∨ ∃ s', body l (B.set s r) = .again s' ∧ Handed B sep body s' k t := by
  constructor
  · intro hk
    cases hk with
    | now hc =>
      obtain ⟨rfl, rfl⟩ : l = k ∧ r = _ := by simpa using h.symm.trans hc
      exact .inl ⟨rfl, rfl⟩
    | later hc hb ht =>
      obtain ⟨rfl, rfl⟩ : l = _ ∧ r = _ := by simpa using h.symm.trans hc
      exact .inr ⟨_, hb, ht⟩
  · rintro (⟨rfl, rfl⟩ | ⟨s', hb, ht⟩)
    · exact .now h
    · exact .later h hb ht

theorem not_handed {s t : S} {k : List α} (h : cut sep (B.get s) = none) : ¬ Handed B sep body s k t := by
  intro hk
  cases hk with
  | now hc => simp [h] at hc
  | later hc _ _ => simp [h] at hc

theorem Handed.leave (hF : Framed B body) (hsep : sep ≠ []) {s t : S} {l : List α} {q : R}
    (h : Handed B sep body s l t) (hb : body l t = .leave q) : lines B sep body s = .leave q := by
  induction h with
  | now hc => exact lines_leave _ _ _ q hsep hc hb
  | later hc hturn _ ih =>
    rw [lines_again hF _ _ _ _ hsep hc hturn]
    exact ih hb

theorem lines_leave_iff (hF : Framed B body) (hsep : sep ≠ []) (s : S) (q : R) :
    lines B sep body s = .leave q ↔ ∃ l t, Handed B sep body s l t ∧ body l t = .leave q := by
  constructor
  · refine lines_rule hF hsep (fun s u => u = .leave q → ∃ l t, Handed B sep body s l t ∧ body l t = .leave q)
      ?_ ?_ ?_ s
    · rintro s - ⟨⟩
    · rintro s l r q' hc hb ⟨⟩
      exact ⟨l, _, .now hc, hb⟩
    · intro s s' l r hc hb ih h
      obtain ⟨k, t, ht, hk⟩ := ih h
      exact ⟨k, t, .later hc hb ht, hk⟩
  · rintro ⟨l, t, ht, hb⟩
    exact ht.leave hF hsep hb

theorem lines_again_inv (hF : Framed B body) (hsep : sep ≠ []) {P : S → Prop} (hset : ∀ s b, P s → P (B.set s b))
    (hbody : ∀ l s s', P s → body l s = .again s' → P s') (s s' : S) (hs : P s)
    (h : lines B sep body s = .again s') : P s' := by
  revert hs h
  refine lines_rule hF hsep (fun s u => P s → u = .again s' → P s') ?_ ?_ ?_ s
  · rintro s - hs ⟨⟩
    exact hs
  · rintro s l r q - - - ⟨⟩
  · intro s t l r _ hb ih hs h
    exact ih (hbody _ _ _ (hset _ _ hs) hb) h

/-! ## Two loops side by side -/

/-- Two turns end in the same way, in related states or with related results. -/
inductive Turn.Rel (RS : S → S → Prop) (RR : R → R → Prop) : Turn S R → Turn S R → Prop
  | again {s s' : S} (h : RS s s') : Rel RS RR (.again s) (.again s')
  | leave {r r' : R} (h : RR r r') : Rel RS RR (.leave r) (.leave r')

/-- **The relational rule.** Loops with the same buffer whose turns are related are related. -/
theorem lines_rel {RS : S → S → Prop} {RR : R → R → Prop} (hget : ∀ s s', RS s s' → B.get s' = B.get s)
    (hset : ∀ s s' b, RS s s' → RS (B.set s b) (B.set s' b))
    (hbody : ∀ l s s', RS s s' → Turn.Rel RS RR (body l s) (body l s')) (s s' : S) (h : RS s s') :
    Turn.Rel RS RR (lines B sep body s) (lines B sep body s') := by
  have hrun : ∀ n s s', RS s s' → Turn.Rel RS RR (runLines B sep body n s) (runLines B sep body n s') := by
    intro n
    induction n with
    | zero => exact fun s s' h => .again h
    | succ n ih =>
      intro s s' h
      simp only [runLines, hget s s' h]
      cases find sep (B.get s) with
      | none => exact .again h
      | some pos =>
        have hturn := hbody ((B.get s).take pos) _ _ (hset s s' ((B.get s).drop (pos + sep.length)) h)
        dsimp only
        generalize body _ (B.set s _) = t at hturn
        generalize body _ (B.set s' _) = t' at hturn
        cases hturn with
        | leave hr => exact .leave hr
        | @again u u' hu =>
          simp only [hget u u' hu]
          split
          · exact .again hu
          · exact ih u u' hu
  unfold lines
  rw [hget s s' h]
  exact hrun _ s s' h

/-! ## The loop on input given as its lines -/

/-- The first separator in `l ++ sep` is the one at the end. -/
def IsLine (sep l : List α) : Prop := ¬ sep <:+: l ++ sep.dropLast

instance (sep l : List α) : Decidable (IsLine sep l) := inferInstanceAs (Decidable (¬ _))

theorem exists_unlines_append (hsep : sep ≠ []) (text : List α) :
    ∃ ls r, text = unlines sep ls ++ r ∧ (∀ l ∈ ls, IsLine sep l) ∧ ¬ sep <:+: r := by
  induction hn : text.length using Nat.strong_induction_on generalizing text with
  | _ n ih =>
    cases hc : cut sep text with
    | none => exact ⟨[], text, rfl, by simp, (cut_eq_none _ _).mp hc⟩
    | some lr =>
      obtain ⟨l, rest⟩ := lr
      obtain ⟨heq, hl⟩ := cut_eq_some sep text l rest hsep hc
      have hlen := congrArg List.length heq
      have := List.length_pos_iff.mpr hsep
      simp only [List.length_append] at hlen
      obtain ⟨ls, r, hrest, hls, hr⟩ := ih rest.length (by omega) rest rfl
      refine ⟨l :: ls, r, ?_, List.forall_mem_cons.mpr ⟨hl, hls⟩, hr⟩
      rw [heq, hrest, unlines_cons, List.append_assoc, List.append_assoc]

/-- The text is these lines, each one ended, and has no others. -/
structure Lines (sep text : List α) (ls : List (List α)) : Prop where
  text_eq : text = unlines sep ls
  isLine : ∀ l ∈ ls, IsLine sep l

theorem unlines_append_inj (hsep : sep ≠ []) {ls ks : List (List α)} {r t : List α} (hls : ∀ l ∈ ls, IsLine sep l)
    (hks : ∀ k ∈ ks, IsLine sep k) (hr : ¬ sep <:+: r) (ht : ¬ sep <:+: t)
    (h : unlines sep ls ++ r = unlines sep ks ++ t) : ls = ks ∧ r = t := by
  induction ls generalizing ks with
  | nil =>
    cases ks with
    | nil => exact ⟨rfl, h⟩
    | cons k ks =>
      refine absurd ⟨k, unlines sep ks ++ t, ?_⟩ hr
      rw [unlines_nil, unlines_cons, List.nil_append, List.append_assoc, List.append_assoc] at h
      rw [h, List.append_assoc]
  | cons l ls ih =>
    cases ks with
    | nil =>
      refine absurd ⟨l, unlines sep ls ++ r, ?_⟩ ht
      rw [unlines_nil, unlines_cons, List.nil_append, List.append_assoc, List.append_assoc] at h
      rw [← h, List.append_assoc]
    | cons k ks =>
      obtain ⟨hl, hls⟩ := List.forall_mem_cons.mp hls
      obtain ⟨hk, hks⟩ := List.forall_mem_cons.mp hks
      simp only [unlines_cons, List.append_assoc] at h
      have hcut := congrArg (cut sep) h
      rw [cut_append_pat sep l _ hsep hl, cut_append_pat sep k _ hsep hk, Option.some.injEq, Prod.mk.injEq] at hcut
      obtain ⟨rfl, rfl⟩ := ih hls hks hcut.2
      exact ⟨by rw [hcut.1], rfl⟩

theorem Lines.unique (hsep : sep ≠ []) {text : List α} {ls ks : List (List α)} (hls : Lines sep text ls)
    (hks : Lines sep text ks) : ls = ks := by
  have hnil : ¬ sep <:+: [] := fun h => hsep (List.infix_nil.mp h)
  have htext : unlines sep ls ++ [] = unlines sep ks ++ [] := by
    rw [List.append_nil, List.append_nil, ← hls.text_eq, hks.text_eq]
  exact (unlines_append_inj hsep hls.isLine hks.isLine hnil hnil htext).1


theorem lines_line (hF : Framed B body) (hsep : sep ≠ []) (s s' : S) (l r : List α) (hl : IsLine sep l)
    (hb : body l s = .again s') :
    lines B sep body (B.set s (l ++ (sep ++ r))) = lines B sep body (B.set s' r) := by
  refine lines_again hF _ _ l r hsep ?_ ?_
  · rw [B.get_set]
    exact cut_append_pat sep l r hsep hl
  · rw [B.set_set]
    exact hF.moves l s s' r hb

theorem lines_unlines (hF : Framed B body) (hsep : sep ≠ []) (ls : List (List α)) (s s' : S) (r : List α)
    (hl : ∀ l ∈ ls, IsLine sep l) (h : turns body ls s = some s') :
    lines B sep body (B.set s (unlines sep ls ++ r)) = lines B sep body (B.set s' r) := by
  induction ls generalizing s with
  | nil =>
    obtain rfl : s = s' := by simpa [turns] using h
    rfl
  | cons l ls ih =>
    obtain ⟨t, hb, hrest⟩ := turns_cons h
    rw [unlines_cons, List.append_assoc, List.append_assoc, lines_line hF hsep s t l _ (hl l List.mem_cons_self) hb]
    exact ih t (fun k hk => hl k (List.mem_cons_of_mem _ hk)) hrest

theorem lines_unlines_rest (hF : Framed B body) (hsep : sep ≠ []) (ls : List (List α)) (s s' : S) (r : List α)
    (hl : ∀ l ∈ ls, IsLine sep l) (h : turns body ls s = some s') (hr : ¬ sep <:+: r) :
    lines B sep body (B.set s (unlines sep ls ++ r)) = .again (B.set s' r) := by
  rw [lines_unlines hF hsep ls s s' r hl h]
  exact lines_none _ (by rwa [B.get_set, cut_eq_none])

theorem lines_unlines_leave (hF : Framed B body) (hsep : sep ≠ []) (ls : List (List α)) (s s' : S) (l r : List α)
    (q : R) (hls : ∀ k ∈ ls, IsLine sep k) (hl : IsLine sep l) (h : turns body ls s = some s')
    (hb : body l (B.set s' r) = .leave q) :
    lines B sep body (B.set s (unlines sep ls ++ (l ++ (sep ++ r)))) = .leave q := by
  rw [lines_unlines hF hsep ls s s' _ hls h]
  refine lines_leave _ l r q hsep ?_ ?_
  · rw [B.get_set]
    exact cut_append_pat sep l r hsep hl
  · rwa [B.set_set]

theorem lines_unlines_cases (hF : Framed B body) (hsep : sep ≠ []) (ls : List (List α)) (s : S) (r : List α)
    (hls : ∀ k ∈ ls, IsLine sep k) :
    (∃ s', turns body ls s = some s') ∨
      ∃ done l more s' q, ls = done ++ l :: more ∧ turns body done s = some s' ∧
        body l (B.set s' (unlines sep more ++ r)) = .leave q ∧
        lines B sep body (B.set s (unlines sep ls ++ r)) = .leave q := by
  induction ls generalizing s with
  | nil => exact .inl ⟨s, rfl⟩
  | cons l ls ih =>
    have hl := hls l List.mem_cons_self
    cases hb : body l (B.set s (unlines sep ls ++ r)) with
    | leave q =>
      have hcut : cut sep (B.get (B.set s (unlines sep (l :: ls) ++ r))) = some (l, unlines sep ls ++ r) := by
        rw [B.get_set, unlines_cons, List.append_assoc, List.append_assoc]
        exact cut_append_pat sep l _ hsep hl
      exact .inr ⟨[], l, ls, s, q, rfl, rfl, hb, lines_leave _ l _ q hsep hcut (by rwa [B.set_set])⟩
    | again t =>
      have hb' : body l s = .again (B.set t (B.get s)) := by
        have := hF.moves _ _ _ (B.get s) hb
        rwa [B.set_set, B.set_get] at this
      have hline : ∀ r', lines B sep body (B.set s (l ++ (sep ++ r'))) = lines B sep body (B.set t r') := by
        intro r'
        rw [lines_line hF hsep s _ l r' hl hb', B.set_set]
      rcases ih t (fun k hk => hls k (List.mem_cons_of_mem _ hk)) with
        ⟨s', hs'⟩ | ⟨done, k, more, s', q, hsplit, hturns, hleave, hlines⟩
      · exact .inl ⟨B.set s' (B.get s), by simpa [turns, hb'] using turns_moves hF ls t s' (B.get s) hs'⟩
      · refine .inr ⟨l :: done, k, more, B.set s' (B.get s), q, by simp [hsplit], ?_, by rwa [B.set_set], ?_⟩
        · simpa [turns, hb'] using turns_moves hF done t s' (B.get s) hturns
        · rw [unlines_cons, List.append_assoc, List.append_assoc, hline, hlines]

theorem lines_prefix (hF : Framed B body) (hsep : sep ≠ []) (ls : List (List α)) (last x : List α) (s s' : S)
    (hl : ∀ k ∈ ls ++ [last], IsLine sep k) (h : turns body ls s = some s')
    (hx : x <+: unlines sep (ls ++ [last])) (hlt : x.length < (unlines sep (ls ++ [last])).length) :
    ∃ done l more t s₁, ls ++ [last] = done ++ l :: more ∧ x = unlines sep done ++ t ∧ t <+: l ++ sep.dropLast ∧
      turns body done s = some s₁ ∧ lines B sep body (B.set s x) = .again (B.set s₁ t) := by
  have pending : ∀ l t : List α, IsLine sep l → t <+: l ++ sep.dropLast →
      ∀ s, lines B sep body (B.set s t) = .again (B.set s t) := by
    intro l t hline ht s
    apply lines_none _
    rw [B.get_set, cut_eq_none]
    exact fun hc => hline (hc.trans ht.isInfix)
  induction ls generalizing s x with
  | nil =>
    have ht := prefix_of_lt sep last x hsep (by simpa using hx) (by simpa using hlt)
    exact ⟨[], last, [], x, s, rfl, rfl, ht, rfl, pending last x (hl last (by simp)) ht s⟩
  | cons l ls ih =>
    obtain ⟨t, hb, hrest⟩ := turns_cons h
    by_cases hge : (l ++ sep).length ≤ x.length
    · obtain ⟨y, rfl, hy⟩ := prefix_cons sep l x (ls ++ [last]) hx hge
      obtain ⟨done, k, more, u, s₁, hsplit, rfl, hu, hturns, hlines⟩ :=
        ih y t (fun k hk => hl k (List.mem_cons_of_mem _ hk)) hrest hy (by simp at hlt ⊢; omega)
      refine ⟨l :: done, k, more, u, s₁, by simp [hsplit], by simp, hu, ?_, ?_⟩
      · rw [turns_again _ _ _ _ _ hb, hturns]
      · rw [lines_line hF hsep s t l _ (hl l (by simp)) hb, hlines]
    · have hx' : x <+: l ++ sep := by
        rw [List.cons_append, unlines_cons, ← List.append_assoc] at hx
        exact prefix_left x _ _ hx (by omega)
      have ht := prefix_of_lt sep l x hsep hx' (by omega)
      exact ⟨[], l, ls ++ [last], x, s, rfl, rfl, ht, rfl, pending l x (hl l (by simp)) ht s⟩

end

end Lib
