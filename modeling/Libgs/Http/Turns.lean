import Libgs.Http.ParserBase

/-!
# One turn of the parser's loops

What each turn can do, and that a turn that goes on has left the source buffer alone.
-/

namespace Libgs.Http

open Lib

variable {σ : Type} {hs : handlers σ}

/-- The same parser with other bytes to read -/
def impl.withSrc (p : impl σ) (b : Bytes) : impl σ := { p with m_src_buf := b }

@[simp] theorem withSrc_src (p : impl σ) (b : Bytes) : (p.withSrc b).m_src_buf = b := rfl

@[simp] theorem withSrc_state (p : impl σ) (b : Bytes) : (p.withSrc b).m_state = p.m_state := rfl

@[simp] theorem withSrc_body (p : impl σ) (b : Bytes) : (p.withSrc b).m_partial_body = p.m_partial_body := rfl

@[simp] theorem withSrc_withSrc (p : impl σ) (a b : Bytes) : (p.withSrc a).withSrc b = p.withSrc b := rfl

@[simp] theorem withSrc_self (p : impl σ) : p.withSrc p.m_src_buf = p := rfl

theorem srcBuffer_set (p : impl σ) (b : Bytes) : srcBuffer.set p b = p.withSrc b := rfl

theorem srcBuffer_get (p : impl σ) : srcBuffer.get p = p.m_src_buf := rfl

theorem crlf_ne_nil : crlf ≠ [] := by simp [crlf]

/-! ## Header lines -/

theorem header_insert_src (key value b : Bytes) (p : impl σ) (e : error_code) :
    header_insert hs key value (p.withSrc b) e =
      { header_insert hs key value p e with obj := (header_insert hs key value p e).obj.withSrc b } := by
  unfold header_insert
  split
  · cases hs.m_parse_cookie <;> rfl
  · rfl

theorem insert_line_src (line b : Bytes) (p : impl σ) (e : error_code) :
    insert_line hs line (p.withSrc b) e = (insert_line hs line p e).map fun c => { c with obj := c.obj.withSrc b } := by
  unfold insert_line
  cases cut (ascii ":") line with
  | none => rfl
  | some kv => simp [header_insert_src]

/-- Storing a header line changes the headers and what the cookie handler writes, nothing else. -/
structure SameBody (p q : impl σ) : Prop where
  state : q.m_state = p.m_state
  src : q.m_src_buf = p.m_src_buf
  version : q.m_version = p.m_version
  body : q.m_partial_body = p.m_partial_body
  length : q.m_content_length = p.m_content_length

variable (hs) in
theorem header_insert_same (key value : Bytes) (p : impl σ) (e : error_code) :
    SameBody p (header_insert hs key value p e).obj := by
  unfold header_insert
  split
  · cases hs.m_parse_cookie <;> exact ⟨rfl, rfl, rfl, rfl, rfl⟩
  · exact ⟨rfl, rfl, rfl, rfl, rfl⟩

theorem insert_line_same (line : Bytes) (p : impl σ) (e : error_code) (c : Call (impl σ) Unit)
    (h : insert_line hs line p e = some c) : SameBody p c.obj := by
  unfold insert_line at h
  split at h
  · cases h
  · simp only [Option.some.injEq] at h
    rw [← h]
    exact header_insert_same _ _ _ p e

/-! ## `parse_header` -/

theorem begin_turn_again (line : Bytes) (p q : impl σ) (h : begin_turn hs line p = .again q) :
    ∃ parse_begin version, hs.m_parse_begin = some parse_begin ∧
      (parse_begin p.captured line none).Clean version ∧
      q = { p with captured := (parse_begin p.captured line none).obj, m_version := version,
                   m_state := .reading_headers } := by
  unfold begin_turn at h
  cases hb : hs.m_parse_begin with
  | none => simp [hb] at h
  | some parse_begin =>
    simp only [hb] at h
    cases hv : (parse_begin p.captured line none).value with
    | error e => simp [hv] at h
    | ok version =>
      simp only [hv] at h
      split_ifs at h with he
      · simp only [Turn.again.injEq] at h
        exact ⟨parse_begin, version, rfl, ⟨by simpa using he, hv⟩, h.symm⟩

variable (hs) in
theorem begin_turn_of_clean (line : Bytes) (p : impl σ) (parse_begin : σ → Bytes → error_code → Call σ version_t)
    (version : version_t) (hb : hs.m_parse_begin = some parse_begin)
    (hc : (parse_begin p.captured line none).Clean version) :
    begin_turn hs line p = .again { p with captured := (parse_begin p.captured line none).obj, m_version := version,
                                           m_state := .reading_headers } := by
  simp [begin_turn, hb, hc.1, hc.2]

/-- How the first line ends the call. -/
inductive BeginLeave (hs : handlers σ) (line : Bytes) (p : impl σ) : Call (impl σ) Bool → Prop
  | null : BeginLeave hs line p (.fail p none null_handler)
  | thrown {r : σ} {error : error_code} {e : exception} :
      BeginLeave hs line p (.fail { p with captured := r } error e)
  | rejected {r : σ} {error : error_code} {version : version_t} (he : error ≠ none) :
      BeginLeave hs line p (.ok { p with captured := r, m_version := version, m_src_buf := [] } error false)

theorem begin_turn_leave (line : Bytes) (p : impl σ) (c : Call (impl σ) Bool) (h : begin_turn hs line p = .leave c) :
    BeginLeave hs line p c := by
  unfold begin_turn at h
  cases hb : hs.m_parse_begin with
  | none =>
    simp only [hb] at h
    obtain rfl := Turn.leave.inj h
    exact .null
  | some parse_begin =>
    simp only [hb] at h
    split at h
    · obtain rfl := Turn.leave.inj h
      exact .thrown
    · split_ifs at h with he
      obtain rfl := Turn.leave.inj h
      exact .rejected he

/-- What the blank line behind the head does. -/
inductive BodyStart (hs : handlers σ) (p : impl σ) : Prop
  | unreadable (text : Bytes) (e : exception) (find : p.m_headers.find header.content_length = some text)
      (read : ston text 10 = .error e) (call : set_read_body_state hs p = .fail p none e)
  | sized (text : Bytes) (n : ℕ) (find : p.m_headers.find header.content_length = some text)
      (read : ston text 10 = .ok n)
      (call : set_read_body_state hs p = .ok (parse_length { p with m_content_length := n }) none true)
  | bodiless (find : p.m_headers.find header.content_length = none)
      (call : set_read_body_state hs p = .ok { p with m_state := .finished } none true)
  | chunked (find : p.m_headers.find header.content_length = none)
      (call : set_read_body_state hs p = ⟨(parse_chunked hs { p with m_state := .chunked_wait_size }).obj,
        (parse_chunked hs { p with m_state := .chunked_wait_size }).error,
        (parse_chunked hs { p with m_state := .chunked_wait_size }).value.map fun _ => true⟩)

variable (hs) in
theorem set_read_body_cases (p : impl σ) : BodyStart hs p := by
  cases hfind : p.m_headers.find header.content_length with
  | some text =>
    cases hread : ston text 10 with
    | error e => exact .unreadable text e hfind hread (by simp only [set_read_body_state, hfind, hread])
    | ok n => exact .sized text n hfind hread (by simp only [set_read_body_state, hfind, hread])
  | none =>
    by_cases hversion : p.m_version = version.v11
    · cases hencoding : p.m_headers.find header.transfer_encoding with
      | none => exact .bodiless hfind (by simp only [set_read_body_state, hfind, hversion, if_true, hencoding])
      | some text =>
        by_cases htext : text = string_pool.chunked
        · refine .chunked hfind ?_
          simp only [set_read_body_state, hfind, hversion, if_true, hencoding, htext, not_true_eq_false, ne_eq,
            if_false]
        · refine .bodiless hfind ?_
          simp only [set_read_body_state, hfind, hversion, if_true, hencoding, htext, not_false_eq_true, ne_eq]
    · exact .bodiless hfind (by simp only [set_read_body_state, hfind, hversion, if_false])

theorem set_read_body_value (p : impl σ) (v : Bool) (h : (set_read_body_state hs p).value = .ok v) : v = true := by
  rcases set_read_body_cases hs p with ⟨text, e, -, -, hcall⟩ | ⟨text, n, -, -, hcall⟩ | ⟨-, hcall⟩ | ⟨-, hcall⟩ <;>
    rw [hcall] at h
  · cases h
  · exact (Except.ok.inj h).symm
  · exact (Except.ok.inj h).symm
  · cases hvalue : (parse_chunked hs { p with m_state := .chunked_wait_size }).value with
    | error e =>
      rw [hvalue] at h
      cases h
    | ok b =>
      rw [hvalue] at h
      exact (Except.ok.inj h).symm

theorem field_turn_leave_eq {l : Bytes} {p : impl σ} {c : Call (impl σ) Bool} (h : field_turn hs l p = .leave c) :
    c = state_handler_reading_headers hs l p := by
  unfold field_turn at h
  dsimp only at h
  split at h
  · cases h
  · exact (Turn.leave.inj h).symm

theorem field_turn_again (line : Bytes) (p q : impl σ) (h : field_turn hs line p = .again q) :
    line ≠ [] ∧ ∃ c, insert_line hs line p none = some c ∧ c.Clean () ∧ q = c.obj := by
  unfold field_turn at h
  have hc : (state_handler_reading_headers hs line p).Clean false ∧
      q = (state_handler_reading_headers hs line p).obj := by
    dsimp only at h
    split at h
    · rename_i hv he
      exact ⟨⟨he, hv⟩, by simpa using h.symm⟩
    · simp at h
  obtain ⟨⟨he, hv⟩, rfl⟩ := hc
  unfold state_handler_reading_headers at he hv ⊢
  by_cases hl : line = []
  · -- A blank line never goes on: `set_read_body_state` returns true.
    rw [if_pos hl] at hv
    cases set_read_body_value p false hv
  · simp only [hl, if_false] at he hv ⊢
    cases hi : insert_line hs line p none with
    | none => simp [hi, Call.ok, make_error_code] at he
    | some c =>
      simp only [hi] at he hv ⊢
      cases hcv : c.value with
      | error e => simp [hcv, Except.map] at hv
      | ok u => exact ⟨hl, c, rfl, ⟨he, hcv⟩, rfl⟩

theorem field_turn_of_clean (line : Bytes) (p : impl σ) (c : Call (impl σ) Unit) (hl : line ≠ [])
    (hi : insert_line hs line p none = some c) (hc : c.Clean ()) : field_turn hs line p = .again c.obj := by
  simp [field_turn, state_handler_reading_headers, hl, hi, hc.1, hc.2, Except.map]

theorem header_turn_framed : Framed srcBuffer (header_turn hs) where
  keeps l p q h := by
    unfold header_turn at h
    split at h
    · obtain ⟨_, _, -, -, rfl⟩ := begin_turn_again l p q h
      rfl
    · obtain ⟨-, c, hi, -, rfl⟩ := field_turn_again l p q h
      exact (insert_line_same l p none c hi).src
    · simp only [Turn.again.injEq] at h
      rw [h]
  moves l p q b h := by
    show header_turn hs l (p.withSrc b) = .again (q.withSrc b)
    unfold header_turn at h ⊢
    rw [withSrc_state]
    split at h
    · obtain ⟨parse_begin, version, hb, hc, rfl⟩ := begin_turn_again l p q h
      exact begin_turn_of_clean _ l (p.withSrc b) parse_begin version hb hc
    · obtain ⟨hl, c, hi, hc, rfl⟩ := field_turn_again l p q h
      exact field_turn_of_clean l (p.withSrc b) { c with obj := c.obj.withSrc b } hl
        (by rw [insert_line_src, hi]; rfl) hc
    · simp only [Turn.again.injEq] at h
      rw [h]

/-! ## `parse_chunked` -/

theorem chunk_size_turn_again (l : Bytes) (s t : chunk_loop σ) (h : chunk_size_turn l s = .again t) :
    ∃ size, ston (((cut (ascii ";") l).map (·.1)).getD l) 16 = .ok size ∧
      (((cut (ascii ";") l).map (·.1)).getD l).length ≤ 16 ∧
      t = { s with
        _size := size
        obj := { s.obj with m_state := if size = 0 then .chunked_wait_headers else .chunked_wait_content } } := by
  unfold chunk_size_turn at h
  dsimp only at h
  split_ifs at h with hlen
  split at h
  · cases h
  · rename_i size hsize
    simp only [Turn.again.injEq] at h
    exact ⟨size, hsize, by omega, h.symm⟩

theorem chunk_headers_turn_again (l : Bytes) (s t : chunk_loop σ) (h : chunk_headers_turn hs l s = .again t) :
    l ≠ crlf ∧ ∃ c, insert_line hs l s.obj s.error = some c ∧ c.value = .ok () ∧
      t = { s with obj := c.obj, error := c.error } := by
  unfold chunk_headers_turn at h
  split_ifs at h with hl
  split at h
  · cases h
  · rename_i c hi
    split at h
    · cases h
    · rename_i u hv
      simp only [Turn.again.injEq] at h
      exact ⟨hl, c, hi, hv, h.symm⟩

/-- What a line of a chunked body does when the loop goes on. -/
inductive ChunkAgain (hs : handlers σ) (l : Bytes) (s : chunk_loop σ) : chunk_loop σ → Prop
  | size {size : ℕ} (hst : s.obj.m_state = .chunked_wait_size) : ChunkAgain hs l s { s with
      _size := size
      obj := { s.obj with m_state := if size = 0 then .chunked_wait_headers else .chunked_wait_content } }
  | content (hst : s.obj.m_state = .chunked_wait_content) : ChunkAgain hs l s (chunk_content_turn l s)
  | trailer {c : Call (impl σ) Unit} (hst : s.obj.m_state = .chunked_wait_headers)
      (hline : insert_line hs (l ++ crlf) s.obj s.error = some c) :
      ChunkAgain hs l s { s with obj := c.obj, error := c.error }
  | idle (hsize : s.obj.m_state ≠ .chunked_wait_size) (hcontent : s.obj.m_state ≠ .chunked_wait_content)
      (htrailer : s.obj.m_state ≠ .chunked_wait_headers) : ChunkAgain hs l s s

theorem chunk_turn_again (l : Bytes) (s t : chunk_loop σ) (h : chunk_turn hs l s = .again t) : ChunkAgain hs l s t := by
  unfold chunk_turn at h
  split at h
  · rename_i hst
    obtain ⟨size, -, -, rfl⟩ := chunk_size_turn_again l s t h
    exact .size hst
  · rename_i hst
    obtain rfl := Turn.again.inj h
    exact .content hst
  · rename_i hst
    obtain ⟨-, c, hline, -, rfl⟩ := chunk_headers_turn_again _ s t h
    exact .trailer hst hline
  · rename_i hsize hcontent htrailer
    obtain rfl := Turn.again.inj h
    exact .idle hsize hcontent htrailer

theorem chunk_content_turn_obj (l : Bytes) (s : chunk_loop σ) :
    ∃ st, (st = s.obj.m_state ∨ st = .chunked_wait_size) ∧
      (chunk_content_turn l s).obj = { s.obj with m_partial_body := s.obj.m_partial_body ++ l, m_state := st } := by
  unfold chunk_content_turn
  dsimp only
  split
  · exact ⟨_, .inl rfl, rfl⟩
  · exact ⟨_, .inr rfl, rfl⟩

/-- How a line of a chunked body ends the call. -/
inductive ChunkLeave (hs : handlers σ) (l : Bytes) (s : chunk_loop σ) : Call (impl σ) Bool → Prop
  | refused : ChunkLeave hs l s (.ok s.obj (make_error_code .SFE) false)
  | finished : ChunkLeave hs l s (.ok { s.obj with m_state := .finished, m_src_buf := [] } s.error true)
  | thrown {c : Call (impl σ) Unit} {e : exception} (hst : s.obj.m_state = .chunked_wait_headers)
      (hline : insert_line hs (l ++ crlf) s.obj s.error = some c) (hv : c.value = .error e) :
      ChunkLeave hs l s (.fail c.obj c.error e)

theorem chunk_turn_leave (l : Bytes) (s : chunk_loop σ) (c : Call (impl σ) Bool) (h : chunk_turn hs l s = .leave c) :
    ChunkLeave hs l s c := by
  unfold chunk_turn at h
  split at h
  · unfold chunk_size_turn at h
    dsimp only at h
    split_ifs at h
    · obtain rfl := Turn.leave.inj h
      exact .refused
    · split at h
      · obtain rfl := Turn.leave.inj h
        exact .refused
      · cases h
  · cases h
  · rename_i hst
    unfold chunk_headers_turn at h
    split_ifs at h
    · obtain rfl := Turn.leave.inj h
      exact .finished
    · cases hline : insert_line hs (l ++ crlf) s.obj s.error with
      | none =>
        simp only [hline] at h
        obtain rfl := Turn.leave.inj h
        exact .refused
      | some d =>
        cases hv : d.value with
        | error e =>
          simp only [hline, hv] at h
          obtain rfl := Turn.leave.inj h
          exact .thrown hst hline hv
        | ok u =>
          simp only [hline, hv] at h
          cases h
  · cases h

theorem chunk_turn_framed : Framed chunkBuffer (chunk_turn hs) where
  keeps l s t h := by
    show t.obj.m_src_buf = s.obj.m_src_buf
    cases chunk_turn_again l s t h with
    | size _ => rfl
    | content _ =>
      obtain ⟨st, -, hobj⟩ := chunk_content_turn_obj l s
      rw [hobj]
    | @trailer c _ hline => exact (insert_line_same _ s.obj s.error c hline).src
    | idle _ _ _ => rfl
  moves l s t b h := by
    show chunk_turn hs l { s with obj := s.obj.withSrc b } = .again { t with obj := t.obj.withSrc b }
    unfold chunk_turn at h ⊢
    rw [withSrc_state]
    split at h
    · obtain ⟨size, hsize, hlen, rfl⟩ := chunk_size_turn_again l s t h
      simp only [chunk_size_turn, hsize, gt_iff_lt, Nat.not_lt.mpr hlen, if_false]
      rfl
    · simp only [Turn.again.injEq] at h
      rw [← h, chunk_content_turn, chunk_content_turn]
      dsimp only
      split <;> rfl
    · obtain ⟨hl, c, hi, hv, rfl⟩ := chunk_headers_turn_again _ s t h
      simp only [chunk_headers_turn, hl, if_false, insert_line_src, hi, Option.map_some, hv]
    · simp only [Turn.again.injEq] at h
      rw [h]

end Libgs.Http
