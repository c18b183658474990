import Libgs.Http.Length
import Libgs.Server.Exceptions

/-!
# Which input the parser rejects

A line that cannot stand where the parser is, or one that is too long before it is complete. `append` sets an error for
these and for nothing else, unless it throws.
-/

namespace Libgs.Server

open Lib Libgs.Http

/-! ## Rejected input -/

def size_text (l : Bytes) : Bytes := ((cut (ascii ";") l).map (·.1)).getD l

/-- The size of a chunk, before any extension: at most 16 digits. -/
def GoodSize (l : Bytes) : Prop := (size_text l).length ≤ 16 ∧ ∃ size, ston (size_text l) 16 = .ok size

/-- The line cannot stand where the parser is in a head. -/
def Refuses : state → Bytes → Prop
  | .waiting_request, l => ¬ GoodLine l
  | .reading_headers, l => l ≠ [] ∧ ¬ GoodField l
  | _, _ => False

/-- The same in a chunked body. A trailer is read with its line end. -/
def RefusesChunked : state → Bytes → Prop
  | .chunked_wait_size, l => ¬ GoodSize l
  | .chunked_wait_headers, l => l ≠ [] ∧ ¬ GoodField (l ++ crlf)
  | _, _ => False

/-- From what the parser holds of a chunked body, it comes to a line that it refuses or to one that is too long. -/
def RejectedChunks (p : impl request_data) : Prop :=
  (∃ l s, Handed chunkBuffer crlf (chunk_turn request_handlers) ⟨p, 0, none⟩ l s ∧ RefusesChunked s.obj.m_state l) ∨
    ∃ s, Lib.lines chunkBuffer crlf (chunk_turn request_handlers) ⟨p, 0, none⟩ = .again s ∧
      1024 ≤ s.obj.m_src_buf.length

/-- The same in a head, or in the chunked body behind it. -/
def RejectedHead (p : impl request_data) : Prop :=
  (∃ l q, Handed srcBuffer crlf (header_turn request_handlers) p l q ∧
    (Refuses q.m_state l ∨ l = [] ∧ q.m_state = .reading_headers ∧ SelectsChunked q ∧
      RejectedChunks { q with m_state := .chunked_wait_size })) ∨
    ∃ q, Lib.lines srcBuffer crlf (header_turn request_handlers) p = .again q ∧ 1024 ≤ q.m_src_buf.length

/-- There is nothing in the buffer, or nothing is expected, or what is there with it is rejected. -/
def Rejected (p : impl request_data) (buf : Bytes) : Prop :=
  buf = [] ∨ p.m_state = .finished ∨
    InHead p ∧ RejectedHead (p.withSrc (p.m_src_buf ++ buf)) ∨
    ¬ InHead p ∧ p.m_state ≠ .reading_length ∧ RejectedChunks (p.withSrc (p.m_src_buf ++ buf))

/-! ## Chunks -/

/-- The error behind a turn of the loop over a chunked body -/
def turn_error : Turn (chunk_loop request_data) (Call (impl request_data) Bool) → error_code
  | .leave c => c.error
  | .again t => t.error

theorem chunk_size_turn_refuses (l : Bytes) (s : chunk_loop request_data) :
    turn_error (chunk_size_turn l s) ≠ none ↔ s.error ≠ none ∨ ¬ GoodSize l := by
  unfold chunk_size_turn
  dsimp only
  rw [show ((cut (ascii ";") l).map (·.1)).getD l = size_text l from rfl]
  by_cases hlen : (size_text l).length > 16
  · have hbad : ¬ GoodSize l := fun h => absurd h.1 (by omega)
    simp [turn_error, Call.ok, make_error_code, hlen, hbad]
  · rw [if_neg hlen]
    cases hston : ston (size_text l) 16 with
    | error e =>
      have hbad : ¬ GoodSize l := by
        rintro ⟨-, size, hsize⟩
        cases hston.symm.trans hsize
      simp [turn_error, Call.ok, make_error_code, hbad]
    | ok size =>
      have hgood : GoodSize l := ⟨by omega, size, hston⟩
      simp [turn_error, hgood]

theorem insert_cookies_keeps (list : List Bytes) (r : request_data) {e : error_code} (he : e ≠ none) :
    (insert_cookies list r e).error ≠ none := by
  induction list generalizing r with
  | nil => exact he
  | cons statement list ih =>
    unfold insert_cookies
    split
    · simp [Call.ok, make_error_code]
    · exact ih _

theorem chunk_headers_turn_refuses (l : Bytes) (s : chunk_loop request_data) (hl : l ≠ []) :
    turn_error (chunk_headers_turn request_handlers (l ++ crlf) s) ≠ none ↔
      s.error ≠ none ∨ ¬ GoodField (l ++ crlf) := by
  have hne : l ++ crlf ≠ crlf := fun h => hl (List.append_left_eq_self.mp h)
  unfold chunk_headers_turn
  rw [if_neg hne, insert_line_split]
  cases hsplit : splitField (l ++ crlf) with
  | none =>
    have hbad : ¬ GoodField (l ++ crlf) := by
      rintro ⟨key, value, h, -⟩
      cases hsplit.symm.trans h
    simp [turn_error, Call.ok, make_error_code, hbad]
  | some kv =>
    obtain ⟨key, value⟩ := kv
    obtain ⟨hvalue, herror⟩ := header_insert_spec key value s.obj s.error
    have hgood : GoodField (l ++ crlf) ↔ (header_insert request_handlers key value s.obj none).error = none := by
      rw [herror]
      constructor
      · rintro ⟨k, v, h, hcookie⟩
        obtain ⟨rfl, rfl⟩ : key = k ∧ value = v := by simpa using hsplit.symm.trans h
        exact hcookie
      · exact fun hcookie => ⟨key, value, hsplit, hcookie⟩
    rw [hgood]
    simp only [Option.map_some, hvalue]
    show (header_insert request_handlers key value s.obj s.error).error ≠ none ↔ _
    cases hs : s.error with
    | none => simp
    | some e =>
      -- A good trailer leaves the error of an earlier one.
      have hkeep : (header_insert request_handlers key value s.obj (some e)).error ≠ none := by
        unfold header_insert
        split
        · exact insert_cookies_keeps _ _ (by simp)
        · simp [Call.ok]
      simp [hkeep]

theorem chunk_turn_refuses (l : Bytes) (s : chunk_loop request_data) :
    turn_error (chunk_turn request_handlers l s) ≠ none ↔ s.error ≠ none ∨ RefusesChunked s.obj.m_state l := by
  unfold chunk_turn
  cases hst : s.obj.m_state with
  | chunked_wait_size => exact chunk_size_turn_refuses l s
  | chunked_wait_content =>
    show (chunk_content_turn l s).error ≠ none ↔ _
    unfold chunk_content_turn
    dsimp only
    split <;> simp [RefusesChunked]
  | chunked_wait_headers =>
    by_cases hl : l = []
    -- The blank line, which ends the body, keeps the error of an earlier trailer.
    · simp [chunk_headers_turn, hl, turn_error, RefusesChunked, Call.ok]
    · dsimp only
      rw [chunk_headers_turn_refuses l s hl]
      simp [RefusesChunked, hl]
  | _ => simp [turn_error, RefusesChunked]

theorem chunks_error_iff (s : chunk_loop request_data) :
    (chunk_end (Lib.lines chunkBuffer crlf (chunk_turn request_handlers) s)).error ≠ none ↔
      s.error ≠ none ∨
        (∃ l t, Handed chunkBuffer crlf (chunk_turn request_handlers) s l t ∧ RefusesChunked t.obj.m_state l) ∨
        ∃ t, Lib.lines chunkBuffer crlf (chunk_turn request_handlers) s = .again t ∧
          1024 ≤ t.obj.m_src_buf.length := by
  refine lines_rule (B := chunkBuffer) chunk_turn_framed crlf_ne_nil (fun s u => (chunk_end u).error ≠ none ↔
    s.error ≠ none ∨
      (∃ l t, Handed chunkBuffer crlf (chunk_turn request_handlers) s l t ∧ RefusesChunked t.obj.m_state l) ∨
      ∃ t, u = .again t ∧ 1024 ≤ t.obj.m_src_buf.length) ?_ ?_ ?_ s
  · intro s hpend
    have hnone : ∀ l t, ¬ Handed chunkBuffer crlf (chunk_turn request_handlers) s l t :=
      fun l t => not_handed ((cut_eq_none _ _).mpr hpend)
    by_cases hlong : 1024 ≤ s.obj.m_src_buf.length
    · simp [chunk_end, chunk_pending, Call.ok, make_error_code, hlong]
    · simp [chunk_end, chunk_pending, Call.ok, hlong, hnone]
  · intro s l r c hc hb
    have hturn := chunk_turn_refuses l (chunkBuffer.set s r)
    rw [hb] at hturn
    rw [show (chunk_end (.leave c)).error = turn_error (.leave c) from rfl, hturn]
    simp only [handed_iff hc, hb, reduceCtorEq, false_and, exists_false, or_false]
    constructor
    · rintro (he | href)
      · exact .inl he
      · exact .inr ⟨l, _, ⟨rfl, rfl⟩, href⟩
    · rintro (he | ⟨k, t, ⟨rfl, rfl⟩, href⟩)
      · exact .inl he
      · exact .inr href
  · intro s s' l r hc hb ih
    have hturn := chunk_turn_refuses l (chunkBuffer.set s r)
    rw [hb] at hturn
    rw [ih, show s'.error = turn_error (.again s') from rfl, hturn]
    simp only [handed_iff hc, hb, Turn.again.injEq]
    constructor
    · rintro ((he | href) | ⟨k, t, ht, href⟩ | hlong)
      · exact .inl he
      · exact .inr (.inl ⟨l, _, .inl ⟨rfl, rfl⟩, href⟩)
      · exact .inr (.inl ⟨k, t, .inr ⟨s', rfl, ht⟩, href⟩)
      · exact .inr (.inr hlong)
    · rintro (he | ⟨k, t, ⟨rfl, rfl⟩ | ⟨u, rfl, ht⟩, href⟩ | hlong)
      · exact .inl (.inl he)
      · exact .inl (.inr href)
      · exact .inr (.inl ⟨k, t, ht, href⟩)
      · exact .inr (.inr hlong)

theorem parse_chunked_error_iff (p : impl request_data) :
    (parse_chunked request_handlers p).error ≠ none ↔ RejectedChunks p := by
  rw [parse_chunked_eq, chunks_error_iff, RejectedChunks]
  simp

/-! ## The head -/

theorem set_read_body_error_iff (p : impl request_data) :
    (set_read_body_state request_handlers p).error ≠ none ↔
      SelectsChunked p ∧ RejectedChunks { p with m_state := .chunked_wait_size } := by
  by_cases hsel : SelectsChunked p
  · have hcall : set_read_body_state request_handlers (p.withSrc p.m_src_buf) = _ :=
      set_read_body_chunked p p.m_src_buf hsel
    rw [withSrc_self] at hcall
    rw [hcall]
    simp only [hsel, true_and]
    exact parse_chunked_error_iff _
  · simp only [hsel, false_and, iff_false, not_not]
    unfold set_read_body_state
    split
    · split <;> rfl
    · rename_i hlength
      split
      · rename_i hversion
        split
        · rfl
        · rename_i text htext
          by_cases hchunked : text = string_pool.chunked
          · exact absurd ⟨hlength, hversion, hchunked ▸ htext⟩ hsel
          · rw [if_pos hchunked]
            rfl
      · rfl

theorem header_turn_leave_error (l : Bytes) (p : impl request_data) (c : Call (impl request_data) Bool) (b : Bool)
    (hp : InHead p) (h : header_turn request_handlers l p = .leave c) (hv : c.value = .ok b) :
    c.error ≠ none ↔ Refuses p.m_state l ∨ l = [] ∧ p.m_state = .reading_headers ∧ SelectsChunked p ∧
      RejectedChunks { p with m_state := .chunked_wait_size } := by
  unfold header_turn at h
  rcases hp with hp | hp <;> simp only [hp] at h
  · have hbad : ¬ GoodLine l := by
      intro hgood
      obtain ⟨version, hclean⟩ := (on_parse_begin_spec p.captured l).2.mpr hgood
      cases (begin_turn_of_clean request_handlers l p on_parse_begin version rfl hclean).symm.trans h
    have herror : c.error ≠ none := fun he => begin_turn_leave_unclean l p c b h ⟨he, hv⟩
    simp [herror, hp, Refuses, hbad]
  · by_cases hl : l = []
    · subst hl
      obtain rfl := Turn.leave.inj ((field_turn_blank p).symm.trans h)
      rw [set_read_body_error_iff]
      simp [hp, Refuses]
    · have hbad : ¬ GoodField l := by
        intro hgood
        obtain ⟨q, hq, -⟩ := (field_turn_spec l p hl).2 hgood
        cases hq.symm.trans h
      have herror : c.error ≠ none := fun he => field_turn_leave l p c b hl h ⟨he, hv⟩
      simp [herror, hp, Refuses, hl, hbad]

theorem header_turn_again_accepts (l : Bytes) (p q : impl request_data) (hp : InHead p)
    (h : header_turn request_handlers l p = .again q) :
    ¬ Refuses p.m_state l ∧ (p.m_state = .reading_headers → l ≠ []) := by
  unfold header_turn at h
  rcases hp with hp | hp <;> simp only [hp] at h
  · obtain ⟨parse_begin, version, hbegin, hclean, -⟩ := begin_turn_again l p q h
    obtain rfl := Option.some.inj hbegin
    have hgood : GoodLine l := (on_parse_begin_spec p.captured l).2.mp ⟨version, hclean⟩
    simp [hp, Refuses, hgood]
  · have hl := (field_turn_again l p q h).1
    have hgood : GoodField l := by
      by_contra hbad
      obtain ⟨c, hc, -⟩ := (field_turn_spec l p hl).1 hbad
      cases hc.symm.trans h
    simp [hp, Refuses, hgood, hl]

theorem parse_header_error_iff (p : impl request_data) (hp : InHead p) (b : Bool)
    (hv : (parse_header request_handlers p).value = .ok b) :
    (parse_header request_handlers p).error ≠ none ↔ RejectedHead p := by
  rw [parse_header_eq] at hv ⊢
  revert hp hv
  refine lines_rule (B := srcBuffer) header_turn_framed crlf_ne_nil (fun p t => InHead p →
    (header_end t).value = .ok b → ((header_end t).error ≠ none ↔
      (∃ l q, Handed srcBuffer crlf (header_turn request_handlers) p l q ∧
        (Refuses q.m_state l ∨ l = [] ∧ q.m_state = .reading_headers ∧ SelectsChunked q ∧
          RejectedChunks { q with m_state := .chunked_wait_size })) ∨
        ∃ q, t = .again q ∧ 1024 ≤ q.m_src_buf.length)) ?_ ?_ ?_ p
  · intro p hpend hp _
    have hnone : ∀ l t, ¬ Handed srcBuffer crlf (header_turn request_handlers) p l t :=
      fun l t => not_handed ((cut_eq_none _ _).mpr hpend)
    by_cases hlong : 1024 ≤ p.m_src_buf.length
    · have hshort : ¬ p.m_src_buf.length < 1024 := by omega
      rcases hp with hp | hp <;> simp [header_end, header_pending, Call.ok, make_error_code, hp, hshort, hlong]
    · have hshort : p.m_src_buf.length < 1024 := by omega
      simp [header_end, header_pending, Call.ok, hshort, hlong, hnone]
  · intro p l r c hc hb hp hv
    rw [srcBuffer_set] at hb
    show c.error ≠ none ↔ _
    rw [header_turn_leave_error l (p.withSrc r) c b hp hb hv]
    simp only [handed_iff hc, srcBuffer_set, hb, reduceCtorEq, false_and, exists_false, or_false]
    constructor
    · exact fun hrej => ⟨l, _, ⟨rfl, rfl⟩, hrej⟩
    · rintro ⟨k, q, ⟨rfl, rfl⟩, hrej⟩
      exact hrej
  · intro p p' l r hc hb ih hp hv
    rw [srcBuffer_set] at hb
    obtain ⟨haccepts, hblank⟩ := header_turn_again_accepts l (p.withSrc r) p' hp hb
    rw [ih (.inr (header_turn_again_spec l (p.withSrc r) p' hp hb).1) hv]
    simp only [handed_iff hc, srcBuffer_set, hb, Turn.again.injEq]
    constructor
    · rintro (⟨k, q, ht, hrej⟩ | hlong)
      · exact .inl ⟨k, q, .inr ⟨p', rfl, ht⟩, hrej⟩
      · exact .inr hlong
    · rintro (⟨k, q, ⟨rfl, rfl⟩ | ⟨u, rfl, ht⟩, hrej⟩ | hlong)
      -- The first line was accepted.
      · rcases hrej with href | ⟨hnil, hst, -⟩
        · exact absurd href haccepts
        · exact absurd hnil (hblank hst)
      · exact .inl ⟨k, q, ht, hrej⟩
      · exact .inr hlong

/-! ## `append` -/

theorem append_error_iff (p : impl request_data) (buf : Bytes) (b : Bool)
    (hv : (Http.append request_handlers p buf).value = .ok b) :
    (Http.append request_handlers p buf).error ≠ none ↔ Rejected p buf := by
  unfold Rejected
  by_cases hbuf : buf = []
  · simp [Http.append, hbuf, Call.ok, make_error_code]
  by_cases hfin : p.m_state = .finished
  · simp [Http.append, hbuf, hfin, Call.ok, make_error_code]
  simp only [hbuf, hfin, false_or]
  by_cases hin : InHead p
  · rw [append_inHead p buf hbuf hin] at hv ⊢
    rw [parse_header_error_iff (p.withSrc (p.m_src_buf ++ buf)) hin b hv]
    simp [hin]
  · by_cases hlength : p.m_state = .reading_length
    · rw [append_inLength p buf hbuf hlength]
      simp [hin, hlength, Call.ok]
    · rw [append_behind p buf hbuf hin hlength hfin, parse_chunked_error_iff]
      simp [hin, hlength]

theorem append_value_iff (p : RequestParser) (buf : Bytes) :
    (∃ b, (append p buf).value = .ok b) ↔
      ¬ (buf ≠ [] ∧ BadHead p.m_parser_base (p.m_parser_base.m_src_buf ++ buf)) := by
  have hvalue : (∃ b, (append p buf).value = .ok b) ↔
      ¬ ∃ e, (Http.append request_handlers p.m_parser_base buf).value = .error e := by
    rw [(append_base p buf).2.2]
    cases (Http.append request_handlers p.m_parser_base buf).value <;> simp
  rw [hvalue, not_iff_not]
  by_cases hbuf : buf = []
  · simp [Http.append, hbuf, Call.ok]
  · simp only [ne_eq, hbuf, not_false_eq_true, true_and]
    by_cases hin : InHead p.m_parser_base
    · rw [append_inHead p.m_parser_base buf hbuf hin]
      exact parse_header_throws (p.m_parser_base.withSrc (p.m_parser_base.m_src_buf ++ buf)) hin
    · have hno : ¬ BadHead p.m_parser_base (p.m_parser_base.m_src_buf ++ buf) := by
        rintro (⟨h, -⟩ | ⟨h, -⟩)
        · exact hin (.inl h)
        · exact hin (.inr h)
      simp only [hno, iff_false, not_exists]
      intro e he
      by_cases hlength : p.m_parser_base.m_state = .reading_length
      · rw [append_inLength p.m_parser_base buf hbuf hlength] at he
        cases he
      by_cases hfin : p.m_parser_base.m_state = .finished
      · simp [Http.append, hbuf, hfin, Call.ok] at he
      obtain ⟨b, hb⟩ := parse_chunked_returns (p.m_parser_base.withSrc (p.m_parser_base.m_src_buf ++ buf))
      rw [append_behind p.m_parser_base buf hbuf hin hlength hfin, hb] at he
      cases he

/-- **What makes `append` throw.** In every state of the parser, `append` returns normally, with an error set if and
only if it rejects the input, exactly when the bytes it has do not hold a request line with an unknown version, or the
end of a head whose Content-Length is no number. -/
theorem append_returns_iff (p : RequestParser) (buf : Bytes) :
    ((∃ b, (append p buf).value = .ok b) ∧ ((append p buf).error ≠ none ↔ Rejected p.m_parser_base buf)) ↔
      ¬ (buf ≠ [] ∧ BadHead p.m_parser_base (p.m_parser_base.m_src_buf ++ buf)) := by
  rw [← append_value_iff, and_iff_left_iff_imp]
  rintro ⟨b, hb⟩
  obtain ⟨-, herror, hvalue⟩ := append_base p buf
  rw [herror]
  exact append_error_iff p.m_parser_base buf b (hvalue.symm.trans hb)

theorem append_throws_version :
    ¬ ∃ b, (append (.init 0) (ascii "GET / HTTP/2.0\r\n")).value = .ok b := by
  rintro ⟨b, hb⟩
  have : (append (.init 0) (ascii "GET / HTTP/2.0\r\n")).value.toOption = none := by decide +kernel
  rw [hb] at this
  cases this

end Libgs.Server
