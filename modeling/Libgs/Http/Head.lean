import Libgs.Http.Turns

/-!
# Feeding a head

A head is the first line, the header lines and a blank line. Until the blank line is there, an
`append` does what one `append` of everything so far would have done.
-/

namespace Libgs.Http

open Lib

variable {σ : Type} {hs : handlers σ}

/-- A head as its lines. Only the blank line, which ends it, is empty. -/
structure Head where
  first : Bytes
  fields : List Bytes
  first_line : IsLine crlf first
  field_line : ∀ l ∈ fields, IsLine crlf l ∧ l ≠ []

namespace Head

/-- The lines of the head without the blank one -/
def lines (h : Head) : List Bytes := h.first :: h.fields

/-- The bytes of the head, up to the end of its blank line -/
def text (h : Head) : Bytes := unlines crlf (h.lines ++ [[]])

/-- The parser behind the last line but the blank one. `none` when it does not accept a line. -/
def read (hs : handlers σ) (h : Head) (p : impl σ) : Option (impl σ) := turns (header_turn hs) h.lines p

theorem isLine (h : Head) : ∀ l ∈ h.lines, IsLine crlf l := by
  intro l hl
  rcases List.mem_cons.mp hl with rfl | hl
  · exact h.first_line
  · exact (h.field_line l hl).1

theorem isLine_blank : IsLine crlf ([] : Bytes) := by decide

theorem isLine_all (h : Head) : ∀ l ∈ h.lines ++ [[]], IsLine crlf l := by
  intro l hl
  rcases List.mem_append.mp hl with hl | hl
  · exact h.isLine l hl
  · rw [List.mem_singleton.mp hl]
    exact isLine_blank

theorem text_behind (h : Head) {ys x b : Bytes} (hb : ys ++ x = h.text ++ b) (hle : h.text.length ≤ ys.length) :
    ∃ c, h.text ++ c = ys ∧ b = c ++ x := by
  obtain ⟨c, hc⟩ : h.text <+: ys := List.prefix_of_prefix_length_le (List.prefix_append _ _) ⟨x, hb⟩ hle
  refine ⟨c, hc, ?_⟩
  rw [← hc, List.append_assoc] at hb
  exact (List.append_cancel_left hb).symm

theorem text_append (h : Head) (r : Bytes) : h.text ++ r = unlines crlf h.lines ++ ([] ++ (crlf ++ r)) := by
  simp [text]

end Head

/-- The parser waits for a request, and holds nothing of one. -/
structure Fresh (p : impl σ) : Prop where
  waiting : p.m_state = .waiting_request
  src : p.m_src_buf = []
  body : p.m_partial_body = []

theorem fresh_init (version : version_t) (captured : σ) : Fresh (impl.init version captured) := ⟨rfl, rfl, rfl⟩

theorem fresh_reset (p : impl σ) : Fresh (reset p) := ⟨rfl, rfl, rfl⟩

/-- The parser behind one append after another -/
def fed (hs : handlers σ) (p : impl σ) (xs : List Bytes) : impl σ := xs.foldl (fun p x => (append hs p x).obj) p

theorem fed_append_one (p : impl σ) (xs : List Bytes) (x : Bytes) :
    fed hs p (xs ++ [x]) = (append hs (fed hs p xs) x).obj := by
  simp [fed]

/-! ## Lines of a head -/

/-- The head is not complete. -/
def InHead (p : impl σ) : Prop := p.m_state = .waiting_request ∨ p.m_state = .reading_headers

theorem header_turn_again_spec (l : Bytes) (p q : impl σ) (hp : InHead p) (h : header_turn hs l p = .again q) :
    q.m_state = .reading_headers ∧ q.m_partial_body = p.m_partial_body ∧ q.m_src_buf = p.m_src_buf := by
  unfold header_turn at h
  rcases hp with hp | hp <;> simp only [hp] at h
  · obtain ⟨_, _, -, -, rfl⟩ := begin_turn_again l p q h
    exact ⟨rfl, rfl, rfl⟩
  · obtain ⟨-, c, hi, -, rfl⟩ := field_turn_again l p q h
    have hsame := insert_line_same l p none c hi
    exact ⟨hsame.state.trans hp, hsame.body, hsame.src⟩

theorem turns_header_spec (ls : List Bytes) (p q : impl σ) (hp : InHead p) (h : turns (header_turn hs) ls p = some q) :
    InHead q ∧ q.m_partial_body = p.m_partial_body ∧ q.m_src_buf = p.m_src_buf ∧
      (ls ≠ [] → q.m_state = .reading_headers) := by
  induction ls generalizing p with
  | nil =>
    obtain rfl : p = q := by simpa [turns] using h
    exact ⟨hp, rfl, rfl, fun hne => absurd rfl hne⟩
  | cons l ls ih =>
    obtain ⟨t, hb, hrest⟩ := turns_cons h
    obtain ⟨hst, hbody, hsrc⟩ := header_turn_again_spec l p t hp hb
    obtain ⟨hin, hb2, hs2, hr⟩ := ih t (.inr hst) hrest
    refine ⟨hin, hb2.trans hbody, hs2.trans hsrc, fun _ => ?_⟩
    by_cases hne : ls = []
    · obtain rfl : t = q := by simpa [hne, turns] using hrest
      exact hst
    · exact hr hne

theorem Head.read_spec (h : Head) (p q : impl σ) (hp : InHead p) (hread : h.read hs p = some q) :
    q.m_state = .reading_headers ∧ q.m_partial_body = p.m_partial_body ∧ q.m_src_buf = p.m_src_buf := by
  obtain ⟨-, hb, hsrc, hst⟩ := turns_header_spec h.lines p q hp hread
  exact ⟨hst (by simp [Head.lines]), hb, hsrc⟩

/-! ## The blank line -/

theorem field_turn_blank (q : impl σ) : field_turn hs [] q = .leave (set_read_body_state hs q) := by
  cases ht : field_turn hs [] q with
  | again t => exact absurd rfl (field_turn_again [] q t ht).1
  | leave c =>
    rw [field_turn_leave_eq ht]
    rfl

/-- What `parse_header` returns when the loop ends so -/
def header_end : Turn (impl σ) (Call (impl σ) Bool) → Call (impl σ) Bool
  | .leave c => c
  | .again p => header_pending p

theorem parse_header_eq (p : impl σ) :
    parse_header hs p = header_end (Lib.lines srcBuffer crlf (header_turn hs) p) := rfl

theorem parse_header_again (p q : impl σ) (h : Lib.lines srcBuffer crlf (header_turn hs) p = .again q) :
    parse_header hs p = header_pending q := by
  unfold parse_header
  rw [h]

theorem parse_header_leave (p : impl σ) (c : Call (impl σ) Bool)
    (h : Lib.lines srcBuffer crlf (header_turn hs) p = .leave c) : parse_header hs p = c := by
  unfold parse_header
  rw [h]

theorem parse_header_head (h : Head) (p q : impl σ) (r : Bytes) (hp : InHead p) (hread : h.read hs p = some q) :
    parse_header hs (p.withSrc (h.text ++ r)) = set_read_body_state hs (q.withSrc r) := by
  have hst := (h.read_spec p q hp hread).1
  have hturn : header_turn hs [] (q.withSrc r) = .leave (set_read_body_state hs (q.withSrc r)) := by
    unfold header_turn
    rw [withSrc_state, hst]
    exact field_turn_blank _
  have := lines_unlines_leave (B := srcBuffer) header_turn_framed crlf_ne_nil h.lines p q [] r _ h.isLine
    Head.isLine_blank hread hturn
  rw [h.text_append]
  exact parse_header_leave _ _ this

/-! ## Rejected lines -/

theorem begin_turn_leave_unclean (l : Bytes) (p : impl σ) (c : Call (impl σ) Bool) (v : Bool)
    (h : begin_turn hs l p = .leave c) : ¬ c.Clean v := by
  rintro ⟨he, hv⟩
  cases begin_turn_leave l p c h with
  | null => cases hv
  | thrown => cases hv
  | rejected hne => exact hne he

theorem field_turn_leave (l : Bytes) (p : impl σ) (c : Call (impl σ) Bool) (v : Bool) (hl : l ≠ [])
    (h : field_turn hs l p = .leave c) : ¬ c.Clean v := by
  rintro ⟨he, hv⟩
  unfold field_turn at h
  dsimp only at h
  split at h
  · cases h
  · rename_i hno
    simp only [Turn.leave.injEq] at h
    rw [← h] at hv he
    cases v with
    | false => exact hno hv he
    | true =>
      simp only [state_handler_reading_headers, hl, if_false] at hv
      split at hv
      · simp [Call.ok] at hv
      · rename_i c' _
        cases hcv : c'.value <;> simp [hcv, Except.map] at hv

theorem read_of_accepted (h : Head) (p : impl σ) (r : Bytes) (v : Bool) (hp : p.m_state = .waiting_request)
    (hc : (parse_header hs (p.withSrc (h.text ++ r))).Clean v) : ∃ q, h.read hs p = some q := by
  rcases lines_unlines_cases (B := srcBuffer) header_turn_framed crlf_ne_nil h.lines p
    (crlf ++ r) h.isLine with hq | ⟨done, l, more, s', c, hsplit, hturns, hleave, hlines⟩
  · exact hq
  · exfalso
    have hcall : parse_header hs (p.withSrc (h.text ++ r)) = c := by
      rw [h.text_append, List.nil_append]
      exact parse_header_leave _ _ hlines
    rw [hcall] at hc
    obtain ⟨hin, -, -, hread⟩ := turns_header_spec done p s' (.inl hp) hturns
    cases done with
    | nil =>
      obtain rfl : p = s' := by simpa [turns] using hturns
      simp only [header_turn, srcBuffer_set, withSrc_state, hp] at hleave
      exact begin_turn_leave_unclean l _ c v hleave hc
    | cons k done =>
      have hst := hread (by simp)
      have hl : l ≠ [] := by
        have hmem : l ∈ h.fields := by
          have := congrArg List.tail hsplit
          simp only [Head.lines, List.tail_cons, List.cons_append] at this
          simp [this]
        exact (h.field_line l hmem).2
      simp only [header_turn, srcBuffer_set, withSrc_state, hst] at hleave
      exact field_turn_leave l _ c v hl hleave hc

/-! ## Feeding in pieces -/

theorem append_inHead (p : impl σ) (x : Bytes) (hx : x ≠ []) (hp : InHead p) :
    append hs p x = parse_header hs (p.withSrc (p.m_src_buf ++ x)) := by
  have hne : p.m_state ≠ .finished := by rcases hp with hp | hp <;> simp [hp]
  unfold append
  rw [if_neg hx, if_neg hne]
  rcases hp with hp | hp <;> simp [hp, impl.withSrc]

theorem append_inLength (p : impl σ) (x : Bytes) (hx : x ≠ []) (hp : p.m_state = .reading_length) :
    append hs p x = .ok (parse_length (p.withSrc (p.m_src_buf ++ x))) none true := by
  simp [append, hx, hp, impl.withSrc]

theorem append_behind (p : impl σ) (x : Bytes) (hx : x ≠ []) (hin : ¬ InHead p) (hlength : p.m_state ≠ .reading_length)
    (hfin : p.m_state ≠ .finished) : append hs p x = parse_chunked hs (p.withSrc (p.m_src_buf ++ x)) := by
  simp only [InHead, not_or] at hin
  cases hst : p.m_state <;> simp_all [append, impl.withSrc]

theorem append_first_line (p q : impl σ) (l : Bytes) (hp : Fresh p) (hl : IsLine crlf l)
    (hturn : header_turn hs l p = .again q) : append hs p (l ++ crlf) = .ok q none false := by
  have hq : q.m_src_buf = [] := (header_turn_again_spec l p q (.inl hp.waiting) hturn).2.2.trans hp.src
  have hline := lines_line (B := srcBuffer) header_turn_framed crlf_ne_nil p q l [] hl hturn
  have hend : Lib.lines srcBuffer crlf (header_turn hs) (q.withSrc []) = .again (q.withSrc []) := by
    refine lines_none (q.withSrc []) ((cut_eq_none _ _).mpr ?_)
    show ¬ crlf <:+: []
    decide
  simp only [srcBuffer_set, List.append_nil] at hline
  rw [append_inHead p _ (by simp [crlf]) (.inl hp.waiting), hp.src, List.nil_append,
    parse_header_again _ _ (hline.trans hend), ← hq, withSrc_self]
  simp [header_pending, hq]

theorem parse_header_feed (p q : impl σ) (x : Bytes) (h : Lib.lines srcBuffer crlf (header_turn hs) p = .again q) :
    parse_header hs (q.withSrc (q.m_src_buf ++ x)) = parse_header hs (p.withSrc (p.m_src_buf ++ x)) := by
  have := lines_feed (B := srcBuffer) header_turn_framed crlf_ne_nil p q x h
  simp only [srcBuffer_set, srcBuffer_get] at this
  rw [parse_header, parse_header, this]

theorem lines_part (h : Head) (p q : impl σ) (y : Bytes) (hp : InHead p) (hread : h.read hs p = some q)
    (hy : y <+: h.text) (hlt : y.length < h.text.length) :
    ∃ done l more t s, h.lines ++ [[]] = done ++ l :: more ∧ y = unlines crlf done ++ t ∧ t <+: l ++ [13] ∧
      InHead s ∧ s.m_partial_body = p.m_partial_body ∧
      Lib.lines srcBuffer crlf (header_turn hs) (p.withSrc y) = .again (s.withSrc t) := by
  obtain ⟨done, l, more, t, s, hsplit, rfl, ht, hturns, hlines⟩ :=
    lines_prefix (B := srcBuffer) header_turn_framed crlf_ne_nil h.lines [] y p q h.isLine_all hread hy hlt
  obtain ⟨hin, hbody, -⟩ := turns_header_spec done p s hp hturns
  exact ⟨done, l, more, t, s, hsplit, rfl, ht, hin, hbody, hlines⟩

/-- **Feeding a head.** As long as it is not complete, the pieces leave behind what one piece would. -/
theorem fed_part (h : Head) (p q : impl σ) (xs : List Bytes) (hp : InHead p) (hsrc : p.m_src_buf = [])
    (hread : h.read hs p = some q) (hne : ∀ x ∈ xs, x ≠ []) (hy : xs.flatten <+: h.text)
    (hlt : xs.flatten.length < h.text.length) :
    Lib.lines srcBuffer crlf (header_turn hs) (p.withSrc xs.flatten) = .again (fed hs p xs) := by
  induction xs using List.reverseRecOn with
  | nil =>
    have hnil : p.withSrc [] = p := by rw [← hsrc, withSrc_self]
    simp only [List.flatten_nil, hnil]
    refine lines_none p ((cut_eq_none _ _).mpr ?_)
    show ¬ crlf <:+: p.m_src_buf
    rw [hsrc]
    decide
  | append_singleton xs x ih =>
    have hflat : (xs ++ [x]).flatten = xs.flatten ++ x := by simp
    rw [hflat] at hy hlt ⊢
    have hy' : xs.flatten <+: h.text := (List.prefix_append _ _).trans hy
    have hlt' : xs.flatten.length < h.text.length := by rw [List.length_append] at hlt; omega
    have hprev := ih (fun z hz => hne z (by simp [hz])) hy' hlt'
    obtain ⟨_, _, _, t, s, -, -, -, hin, -, hpart⟩ := lines_part h p q xs.flatten hp hread hy' hlt'
    obtain ⟨_, _, _, t', s', -, -, -, -, -, hpart'⟩ := lines_part h p q (xs.flatten ++ x) hp hread hy hlt
    have hfed : fed hs p xs = s.withSrc t := by
      rw [hprev] at hpart
      simpa using hpart
    have hcall : append hs (fed hs p xs) x = header_pending (s'.withSrc t') := by
      rw [append_inHead _ x (hne x (by simp)) (by rw [hfed]; exact hin), parse_header_feed _ _ x hprev,
        ← parse_header_again _ _ hpart']
      rfl
    rw [fed_append_one, hcall, hpart']
    rfl

theorem append_fed_part (h : Head) (p q : impl σ) (xs : List Bytes) (x : Bytes) (hp : InHead p)
    (hsrc : p.m_src_buf = []) (hread : h.read hs p = some q) (hne : ∀ x ∈ xs, x ≠ []) (hx : x ≠ [])
    (hy : xs.flatten <+: h.text) (hlt : xs.flatten.length < h.text.length) :
    append hs (fed hs p xs) x = parse_header hs (p.withSrc (xs.flatten ++ x)) := by
  have hprev := fed_part h p q xs hp hsrc hread hne hy hlt
  obtain ⟨_, _, _, t, s, -, -, -, hin, -, hpart⟩ := lines_part h p q xs.flatten hp hread hy hlt
  have hfed : fed hs p xs = s.withSrc t := by
    rw [hprev] at hpart
    simpa using hpart
  rw [append_inHead _ x hx (by rw [hfed]; exact hin), parse_header_feed _ _ x hprev]
  rfl

end Libgs.Http
