import Libgs.Http.ChunkedLoss
import Libgs.Http.Length
import Libgs.Lib.Run

/-!
# The length that a body still lacks

`parse_length` subtracts the size of the partial body from the stored length. `reset` leaves that length
behind, and a call that fails may leave a body: the difference is safe because of the states in which
there is one.
-/

namespace Libgs.Http

open Lib

variable {σ : Type} {hs : handlers σ}

/-- The calls that change what the parser holds of a body -/
inductive parser_op
  | append (buf : Bytes)
  | take_partial_body (size : ℕ)
  | take_body
  | reset
  deriving Repr

/-- The parser behind a call, whether it returned or threw -/
def parser_step (hs : handlers σ) (p : impl σ) : parser_op → impl σ
  | .append buf => (append hs p buf).obj
  | .take_partial_body size => (take_partial_body p size).2
  | .take_body => (take_body p).2
  | .reset => reset p

/-- `append` comes to run `parse_length` on the parser `q`: at once, or at the blank line that ends a head. -/
inductive RunsParseLength (hs : handlers σ) (p : impl σ) (buf : Bytes) : impl σ → Prop
  | reading (hbuf : buf ≠ []) (hp : p.m_state = .reading_length) :
      RunsParseLength hs p buf (p.withSrc (p.m_src_buf ++ buf))
  | blank_line {t : impl σ} {text : Bytes} {n : ℕ} (hbuf : buf ≠ []) (hp : InHead p)
      (hline : Handed srcBuffer crlf (header_turn hs) (p.withSrc (p.m_src_buf ++ buf)) [] t)
      (ht : t.m_state = .reading_headers) (find : t.m_headers.find header.content_length = some text)
      (read : ston text 10 = .ok n) : RunsParseLength hs p buf { t with m_content_length := n }

/-! ## What `append` leaves -/

/-- Wherever a header line is read, the partial body is what it was before the call. -/
structure SameHead (p q : impl σ) : Prop where
  inHead : InHead q
  body : q.m_partial_body = p.m_partial_body

theorem header_turn_sameHead (p : impl σ) (l : Bytes) (t t' : impl σ) (h : SameHead p t)
    (hb : header_turn hs l t = .again t') : SameHead p t' := by
  obtain ⟨hst, hbody, -⟩ := header_turn_again_spec l t t' h.inHead hb
  exact ⟨.inr hst, hbody.trans h.body⟩

/-- The states of the parser behind `append`. -/
inductive Appended (hs : handlers σ) (p : impl σ) (buf : Bytes) : impl σ → Prop
  | unread : Appended hs p buf p
  | length {q : impl σ} (h : RunsParseLength hs p buf q) : Appended hs p buf (parse_length q)
  | head {q : impl σ} (hp : InHead p) (hq : InHead q)
      (hbody : q.m_partial_body = p.m_partial_body ∨ q.m_partial_body = []) : Appended hs p buf q
  | behind {q : impl σ} (hq : InChunks q ∨ q.m_state = .finished) : Appended hs p buf q

theorem header_turn_leave (l : Bytes) (t : impl σ) (c : Call (impl σ) Bool) (ht : InHead t)
    (hb : header_turn hs l t = .leave c) :
    (l = [] ∧ t.m_state = .reading_headers ∧ c = set_read_body_state hs t) ∨
      InHead c.obj ∧ (c.obj.m_partial_body = t.m_partial_body ∨ c.obj.m_partial_body = []) := by
  unfold header_turn at hb
  rcases ht with ht | ht <;> simp only [ht] at hb
  · cases begin_turn_leave l t c hb with
    | null => exact .inr ⟨.inl ht, .inl rfl⟩
    | thrown => exact .inr ⟨.inl ht, .inl rfl⟩
    | rejected _ => exact .inr ⟨.inl ht, .inl rfl⟩
  · obtain rfl := field_turn_leave_eq hb
    unfold state_handler_reading_headers
    by_cases hl : l = []
    · rw [if_pos hl]
      exact .inl ⟨hl, ht, rfl⟩
    · rw [if_neg hl]
      cases hline : insert_line hs l t none with
      | none => exact .inr ⟨.inl rfl, .inr rfl⟩
      | some c =>
        have hsame := insert_line_same l t none c hline
        exact .inr ⟨.inr (hsame.state.trans ht), .inl hsame.body⟩

theorem behind_head (p : impl σ) (h : ¬ InHead p) :
    p.m_state = .reading_length ∨ InChunks p ∨ p.m_state = .finished := by
  unfold InHead at h
  unfold InChunks
  cases hst : p.m_state <;> simp_all

variable (hs) in
theorem parse_chunked_state (p : impl σ) (hp : InChunks p) :
    InChunks (parse_chunked hs p).obj ∨ (parse_chunked hs p).obj.m_state = .finished :=
  (lines_spec hs ⟨p, 0, none⟩ hp).state

theorem append_of_runs (p q : impl σ) (buf : Bytes) (h : RunsParseLength hs p buf q) :
    append hs p buf = .ok (parse_length q) none true := by
  cases h with
  | reading hbuf hp => exact append_inLength p buf hbuf hp
  | @blank_line t text n hbuf hp hline ht hfind hread =>
    have hturn : header_turn hs [] t = .leave (set_read_body_state hs t) := by
      unfold header_turn
      rw [ht]
      exact field_turn_blank t
    rw [append_inHead p buf hbuf hp, parse_header_leave _ _ (hline.leave header_turn_framed crlf_ne_nil hturn)]
    simp only [set_read_body_state, hfind, hread]

theorem blank_line_appended (p t : impl σ) (buf : Bytes) (hbuf : buf ≠ []) (hp : InHead p)
    (hline : Handed srcBuffer crlf (header_turn hs) (p.withSrc (p.m_src_buf ++ buf)) [] t)
    (ht : t.m_state = .reading_headers) (hbody : t.m_partial_body = p.m_partial_body) :
    Appended hs p buf (set_read_body_state hs t).obj := by
  rcases set_read_body_cases hs t with
    ⟨text, e, -, -, hcall⟩ | ⟨text, n, hfind, hread, hcall⟩ | ⟨-, hcall⟩ | ⟨-, hcall⟩ <;>
    rw [hcall]
  · exact .head hp (.inr ht) (.inl hbody)
  · exact .length (.blank_line hbuf hp hline ht hfind hread)
  · exact .behind (.inr rfl)
  · exact .behind (parse_chunked_state hs { t with m_state := .chunked_wait_size } (.inl rfl))

variable (hs) in
theorem appended (p : impl σ) (buf : Bytes) : Appended hs p buf (append hs p buf).obj := by
  by_cases hbuf : buf = []
  · rw [append, if_pos hbuf]
    exact .unread
  · by_cases hin : InHead p
    · rw [append_inHead p buf hbuf hin, parse_header_eq]
      have hstart : SameHead p (p.withSrc (p.m_src_buf ++ buf)) := ⟨hin, rfl⟩
      cases hend : Lib.lines srcBuffer crlf (header_turn hs) (p.withSrc (p.m_src_buf ++ buf)) with
      | again q =>
        have hq : SameHead p q := lines_again_inv header_turn_framed crlf_ne_nil (fun t b h => ⟨h.inHead, h.body⟩)
          (header_turn_sameHead p) _ q hstart hend
        exact .head hin hq.inHead (.inl hq.body)
      | leave c =>
        obtain ⟨l, t, hline, hleave⟩ := (lines_leave_iff header_turn_framed crlf_ne_nil _ c).mp hend
        have ht : SameHead p t := hline.inv (fun t b h => ⟨h.inHead, h.body⟩) (header_turn_sameHead p) hstart
        rcases header_turn_leave l t c ht.inHead hleave with ⟨rfl, hst, rfl⟩ | ⟨hc, hbody⟩
        · exact blank_line_appended p t buf hbuf hin hline hst ht.body
        · exact .head hin hc (by rwa [ht.body] at hbody)
    · rcases behind_head p hin with hst | hst | hst
      · rw [append_of_runs p _ buf (.reading hbuf hst)]
        exact .length (.reading hbuf hst)
      · rw [append_inChunks p buf hbuf hst]
        exact .behind (parse_chunked_state hs _ hst)
      · rw [append, if_neg hbuf, if_pos hst]
        exact .unread

/-! ## The invariant -/

/-- There is no body in the head, and the stored length counts only while a body is shorter. -/
structure Sized (p : impl σ) : Prop where
  head : InHead p → p.m_partial_body = []
  reading : p.m_state = .reading_length → p.m_partial_body.length < p.m_content_length ∧ p.m_content_length < size_max

theorem sized_behind (p : impl σ) (hp : InChunks p ∨ p.m_state = .finished) : Sized p := by
  constructor
  · rintro (h | h) <;> simp [InChunks, h] at hp
  · intro h
    simp [InChunks, h] at hp

theorem sized_head (p : impl σ) (hp : InHead p) (hbody : p.m_partial_body = []) : Sized p := by
  constructor
  · exact fun _ => hbody
  · intro h
    simp [InHead, h] at hp

theorem sized_fresh (p : impl σ) (h : Fresh p) : Sized p := sized_head p (.inl h.waiting) h.body

theorem sized_shorter (p : impl σ) (b : Bytes) (h : Sized p) (hb : b.length ≤ p.m_partial_body.length) :
    Sized { p with m_partial_body := b } := by
  constructor
  · intro hp
    have hnone := h.head hp
    rw [hnone] at hb
    exact List.eq_nil_of_length_eq_zero (Nat.le_zero.mp hb)
  · intro hp
    obtain ⟨hless, hsize⟩ := h.reading hp
    exact ⟨lt_of_le_of_lt hb hless, hsize⟩

theorem runs_inLength (p q : impl σ) (buf : Bytes) (h : Sized p) (hq : RunsParseLength hs p buf q) : InLength q := by
  cases hq with
  | reading hbuf hp =>
    obtain ⟨hless, hsize⟩ := h.reading hp
    exact ⟨hsize, hless.le⟩
  | @blank_line t text n hbuf hp hline ht hfind hread =>
    have hstart : SameHead p (p.withSrc (p.m_src_buf ++ buf)) := ⟨hp, rfl⟩
    have hsame : SameHead p t := hline.inv (fun t b h => ⟨h.inHead, h.body⟩) (header_turn_sameHead p) hstart
    have hnone : t.m_partial_body = [] := hsame.body.trans (h.head hp)
    exact ⟨ston_lt text 10 n hread, by simp [hnone]⟩

theorem sized_parse_length (q : impl σ) (h : q.m_content_length < size_max) : Sized (parse_length q) := by
  by_cases hless : q.m_content_length > (parse_length q).m_partial_body.length
  · have hst : (parse_length q).m_state = .reading_length := if_pos hless
    exact ⟨fun hp => by simp [InHead, hst] at hp, fun _ => ⟨hless, h⟩⟩
  · exact sized_behind _ (.inr (if_neg hless))

theorem sized_step (p : impl σ) (op : parser_op) (h : Sized p) : Sized (parser_step hs p op) := by
  cases op with
  | append buf =>
    have hcall := appended hs p buf
    show Sized (append hs p buf).obj
    generalize (append hs p buf).obj = q at hcall
    cases hcall with
    | unread => exact h
    | length hq => exact sized_parse_length _ (runs_inLength p _ buf h hq).size
    | head hp hq hbody => exact sized_head q hq (by rcases hbody with hbody | hbody <;> simp [hbody, h.head hp])
    | behind hq => exact sized_behind q hq
  | take_partial_body size => exact sized_shorter p _ h (by simp)
  | take_body => exact sized_shorter p [] h (by simp)
  | reset => exact sized_fresh _ (fresh_reset p)

/-- **The difference never wraps.** In every state of a parser there is no body before the head is complete, a body that
is being read is shorter than the stored length, and `parse_length` runs only where the body is no longer than that
length. -/
theorem body_length_safe (hs : handlers σ) (version : version_t) (captured : σ) (ops : List parser_op) :
    Throughout (parser_step hs) (fun p => (InHead p → p.m_partial_body = []) ∧
        (p.m_state = .reading_length → p.m_partial_body.length < p.m_content_length) ∧
        ∀ buf q, RunsParseLength hs p buf q → q.m_partial_body.length ≤ q.m_content_length)
      (impl.init version captured) ops := by
  have hsized : Throughout (parser_step hs) Sized (impl.init version captured) ops :=
    throughout_of_step sized_step _ ops (sized_fresh _ (fresh_init version captured))
  refine hsized.mono fun p h => ⟨h.head, fun hp => (h.reading hp).1, fun buf q hq => ?_⟩
  exact (runs_inLength p q buf h hq).held

end Libgs.Http
