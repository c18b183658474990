import Libgs.Http.Reuse

/-!
# Parsers with different pasts

Two parsers that differ in what the last request has left behind answer every further `append` alike. The version
and the captured data differ only until the first line is read, the body length only until it is read again.
-/

namespace Libgs.Http

open Lib

variable {σ : Type} {hs : handlers σ}

/-- The begin handler works alike on data that `E` relates, and where it accepts the line the difference is gone. -/
structure Oblivious (hs : handlers σ) (E : σ → σ → Prop) : Prop where
  refl : ∀ c, E c c
  parse_begin : ∀ parse_begin, hs.m_parse_begin = some parse_begin → ∀ c c' line error, E c c' →
    (parse_begin c' line error).error = (parse_begin c line error).error ∧
      (parse_begin c' line error).value = (parse_begin c line error).value ∧
      E (parse_begin c line error).obj (parse_begin c' line error).obj ∧
      (∀ version, (parse_begin c line error).Clean version →
        (parse_begin c' line error).obj = (parse_begin c line error).obj)

/-- The second parser has another past. -/
inductive Alike (E : σ → σ → Prop) (p : impl σ) : impl σ → Prop
  | waiting (hp : p.m_state = .waiting_request) (version : version_t) (k : ℕ) (captured : σ)
      (h : E p.captured captured) :
      Alike E p { p with m_version := version, m_content_length := k, captured := captured }
  | begun (hp : p.m_state ≠ .waiting_request) (k : ℕ) (hk : p.m_state = .reading_length → k = p.m_content_length) :
      Alike E p (p.withLength k)

/-- The calls end alike, and leave parsers that are alike. -/
structure CallAlike {β : Type} (E : σ → σ → Prop) (c c' : Call (impl σ) β) : Prop where
  obj : Alike E c.obj c'.obj
  error : c'.error = c.error
  value : c'.value = c.value

variable {E : σ → σ → Prop}

theorem Alike.refl (hE : Oblivious hs E) (p : impl σ) : Alike E p p := by
  by_cases hp : p.m_state = .waiting_request
  · exact .waiting hp p.m_version p.m_content_length p.captured (hE.refl p.captured)
  · exact .begun hp p.m_content_length fun _ => rfl

theorem Alike.state {p p' : impl σ} (h : Alike E p p') : p'.m_state = p.m_state := by
  cases h <;> rfl

theorem Alike.src {p p' : impl σ} (h : Alike E p p') : p'.m_src_buf = p.m_src_buf := by
  cases h <;> rfl

theorem Alike.headers {p p' : impl σ} (h : Alike E p p') : p'.m_headers = p.m_headers := by
  cases h <;> rfl

theorem Alike.body {p p' : impl σ} (h : Alike E p p') : p'.m_partial_body = p.m_partial_body := by
  cases h <;> rfl

theorem Alike.withSrc {p p' : impl σ} (h : Alike E p p') (b : Bytes) : Alike E (p.withSrc b) (p'.withSrc b) := by
  cases h with
  | waiting hp version k captured h => exact .waiting (p := p.withSrc b) hp version k captured h
  | begun hp k hk => exact .begun (p := p.withSrc b) hp k hk

/-! ## The chunks -/

/-- Two states of the loop of `parse_chunked` -/
def ChunksAlike (s s' : chunk_loop σ) : Prop :=
  s.obj.m_state ≠ .waiting_request ∧ s.obj.m_state ≠ .reading_length ∧
    ∃ k, s' = { s with obj := s.obj.withLength k }

theorem alike_of_chunks {p : impl σ} (hw : p.m_state ≠ .waiting_request) (hl : p.m_state ≠ .reading_length) (k : ℕ) :
    Alike E p (p.withLength k) :=
  .begun hw k fun h => absurd h hl

theorem chunk_size_alike (l : Bytes) (s : chunk_loop σ) (k : ℕ) (hs : s.obj.m_state = .chunked_wait_size) :
    Turn.Rel ChunksAlike (CallAlike E) (chunk_size_turn l s)
      (chunk_size_turn l { s with obj := s.obj.withLength k }) := by
  have hobj : Alike E s.obj (s.obj.withLength k) := alike_of_chunks (by simp [hs]) (by simp [hs]) k
  unfold chunk_size_turn
  dsimp only
  split
  · exact .leave ⟨hobj, rfl, rfl⟩
  · split
    · exact .leave ⟨hobj, rfl, rfl⟩
    · refine .again ⟨?_, ?_, k, rfl⟩ <;> dsimp only <;> split <;> simp

theorem chunk_headers_alike (l : Bytes) (s : chunk_loop σ) (k : ℕ) (hst : s.obj.m_state = .chunked_wait_headers) :
    Turn.Rel ChunksAlike (CallAlike E) (chunk_headers_turn hs l s)
      (chunk_headers_turn hs l { s with obj := s.obj.withLength k }) := by
  have hobj : Alike E s.obj (s.obj.withLength k) := alike_of_chunks (by simp [hst]) (by simp [hst]) k
  unfold chunk_headers_turn
  split
  · exact .leave ⟨.begun (p := { s.obj with m_state := .finished, m_src_buf := [] }) (by simp) k (by simp), rfl, rfl⟩
  · rw [insert_line_withLength]
    cases hi : insert_line hs l s.obj s.error with
    | none => exact .leave ⟨hobj, rfl, rfl⟩
    | some c =>
      have hsame := insert_line_same l s.obj s.error c hi
      have hw : c.obj.m_state ≠ .waiting_request := by simp [hsame.state, hst]
      have hl : c.obj.m_state ≠ .reading_length := by simp [hsame.state, hst]
      simp only [Option.map_some]
      cases hv : c.value with
      | error e => exact .leave ⟨alike_of_chunks hw hl k, rfl, rfl⟩
      | ok v => exact .again ⟨hw, hl, k, rfl⟩

theorem chunk_turn_alike (l : Bytes) (s s' : chunk_loop σ) (h : ChunksAlike s s') :
    Turn.Rel ChunksAlike (CallAlike E) (chunk_turn hs l s) (chunk_turn hs l s') := by
  obtain ⟨hw, hl, k, rfl⟩ := h
  have hstate : (s.obj.withLength k).m_state = s.obj.m_state := rfl
  unfold chunk_turn
  rw [hstate]
  split
  · rename_i hst
    exact chunk_size_alike l s k hst
  · rename_i hst
    refine .again ⟨?_, ?_, k, ?_⟩ <;> unfold chunk_content_turn <;> dsimp only [impl.withLength] <;> split <;> simp_all
  · rename_i hst
    exact chunk_headers_alike (l ++ crlf) s k hst
  · exact .again ⟨hw, hl, k, rfl⟩

theorem parse_chunked_alike (p : impl σ) (k : ℕ) (hw : p.m_state ≠ .waiting_request)
    (hl : p.m_state ≠ .reading_length) :
    CallAlike E (parse_chunked hs p) (parse_chunked hs (p.withLength k)) := by
  have hloop : Turn.Rel ChunksAlike (CallAlike E) (lines chunkBuffer crlf (chunk_turn hs) ⟨p, 0, none⟩)
      (lines chunkBuffer crlf (chunk_turn hs) ⟨p.withLength k, 0, none⟩) := by
    refine lines_rel ?_ ?_ chunk_turn_alike _ _ ⟨hw, hl, k, rfl⟩
    · rintro s s' ⟨-, -, k, rfl⟩
      rfl
    · rintro s s' b ⟨hw, hl, k, rfl⟩
      exact ⟨hw, hl, k, rfl⟩
  unfold parse_chunked
  generalize lines chunkBuffer crlf (chunk_turn hs) ⟨p, 0, none⟩ = t at hloop
  generalize lines chunkBuffer crlf (chunk_turn hs) ⟨p.withLength k, 0, none⟩ = t' at hloop
  cases hloop with
  | leave h => exact h
  | again h =>
    obtain ⟨hw, hl, k, rfl⟩ := h
    exact ⟨alike_of_chunks hw hl k, rfl, rfl⟩

/-! ## The head -/

theorem set_read_body_alike (hE : Oblivious hs E) (p : impl σ) (k : ℕ) (hst : p.m_state = .reading_headers) :
    CallAlike E (set_read_body_state hs p) (set_read_body_state hs (p.withLength k)) := by
  have hfinished : ∀ k, Alike E { p with m_state := .finished } { p.withLength k with m_state := .finished } :=
    fun k => .begun (p := { p with m_state := .finished }) (by simp) k (by simp)
  have hp : Alike E p (p.withLength k) := .begun (by simp [hst]) k (by simp [hst])
  have hfind : ∀ key, (p.withLength k).m_headers.find key = p.m_headers.find key := fun _ => rfl
  unfold set_read_body_state
  rw [hfind]
  split
  · rename_i text _
    cases hston : ston text 10 with
    | error e => exact ⟨hp, rfl, rfl⟩
    | ok n => exact ⟨Alike.refl hE _, rfl, rfl⟩
  · have hversion : (p.withLength k).m_version = p.m_version := rfl
    rw [hversion, hfind]
    split
    · split
      · exact ⟨hfinished k, rfl, rfl⟩
      · split
        · exact ⟨hfinished k, rfl, rfl⟩
        · have hchunks : CallAlike E (parse_chunked hs { p with m_state := .chunked_wait_size })
              (parse_chunked hs { p.withLength k with m_state := .chunked_wait_size }) :=
            parse_chunked_alike { p with m_state := .chunked_wait_size } k (by simp) (by simp)
          exact ⟨hchunks.obj, hchunks.error, congrArg (Except.map fun _ => true) hchunks.value⟩
    · exact ⟨hfinished k, rfl, rfl⟩

theorem reading_headers_alike (hE : Oblivious hs E) (l : Bytes) (p : impl σ) (k : ℕ)
    (hst : p.m_state = .reading_headers) :
    CallAlike E (state_handler_reading_headers hs l p) (state_handler_reading_headers hs l (p.withLength k)) := by
  unfold state_handler_reading_headers
  split
  · exact set_read_body_alike hE p k hst
  · rw [insert_line_withLength]
    cases hi : insert_line hs l p none with
    | none =>
      exact ⟨.waiting (p := reset p) rfl p.m_version k p.captured (hE.refl p.captured), rfl, rfl⟩
    | some c =>
      have hstate : c.obj.m_state = .reading_headers := (insert_line_same l p none c hi).state.trans hst
      exact ⟨.begun (by simp [hstate]) k (by simp [hstate]), rfl, rfl⟩

theorem field_turn_alike (hE : Oblivious hs E) (l : Bytes) (p : impl σ) (k : ℕ) (hst : p.m_state = .reading_headers) :
    Turn.Rel (Alike E) (CallAlike E) (field_turn hs l p) (field_turn hs l (p.withLength k)) := by
  have h := reading_headers_alike hE l p k hst
  unfold field_turn
  dsimp only
  rw [h.value, h.error]
  split
  · exact .again h.obj
  · exact .leave h

theorem begin_turn_alike (hE : Oblivious hs E) (l : Bytes) (p p' : impl σ) (h : Alike E p p')
    (hp : p.m_state = .waiting_request) :
    Turn.Rel (Alike E) (CallAlike E) (begin_turn hs l p) (begin_turn hs l p') := by
  cases h with
  | begun hbegun => exact absurd hp hbegun
  | waiting _ version k captured hcaptured =>
    unfold begin_turn
    cases hb : hs.m_parse_begin with
    | none => exact .leave ⟨.waiting hp version k captured hcaptured, rfl, rfl⟩
    | some parse_begin =>
      obtain ⟨herror, hvalue, hobj, hclean⟩ := hE.parse_begin parse_begin hb p.captured captured l none hcaptured
      dsimp only
      rw [hvalue, herror]
      cases hv : (parse_begin p.captured l none).value with
      | error e =>
        exact .leave ⟨.waiting (p := { p with captured := (parse_begin p.captured l none).obj }) hp version k
          (parse_begin captured l none).obj hobj, rfl, rfl⟩
      | ok v =>
        dsimp only
        split
        · exact .leave ⟨.waiting (p := { p with m_version := v, m_src_buf := [], captured := _ }) hp v k
            (parse_begin captured l none).obj hobj, rfl, rfl⟩
        · rename_i hnone
          rw [hclean v ⟨by simpa using hnone, hv⟩]
          exact .again (.begun (p := { p with m_version := v, m_state := .reading_headers, captured := _ }) (by simp) k
            (by simp))

theorem header_turn_alike (hE : Oblivious hs E) (l : Bytes) (p p' : impl σ) (h : Alike E p p') :
    Turn.Rel (Alike E) (CallAlike E) (header_turn hs l p) (header_turn hs l p') := by
  unfold header_turn
  rw [h.state]
  split
  · rename_i hp
    exact begin_turn_alike hE l p p' h hp
  · rename_i hp
    cases h with
    | waiting hwait => simp [hwait] at hp
    | begun _ k => exact field_turn_alike hE l p k hp
  · exact .again h

theorem parse_header_alike (hE : Oblivious hs E) (p p' : impl σ) (h : Alike E p p') :
    CallAlike E (parse_header hs p) (parse_header hs p') := by
  have hloop : Turn.Rel (Alike E) (CallAlike E) (lines srcBuffer crlf (header_turn hs) p)
      (lines srcBuffer crlf (header_turn hs) p') :=
    lines_rel (fun _ _ h => h.src) (fun _ _ b h => h.withSrc b) (header_turn_alike hE) p p' h
  unfold parse_header
  generalize lines srcBuffer crlf (header_turn hs) p = t at hloop
  generalize lines srcBuffer crlf (header_turn hs) p' = t' at hloop
  cases hloop with
  | leave h => exact h
  | again h => exact ⟨h, by simp [header_pending, Call.ok, h.src, h.state], rfl⟩

/-! ## Every append -/

/-- **Parsers with different pasts.** -/
theorem append_alike (hE : Oblivious hs E) (p p' : impl σ) (buf : Bytes) (h : Alike E p p') :
    CallAlike E (append hs p buf) (append hs p' buf) := by
  by_cases hbuf : buf = []
  · simp only [append, hbuf, if_true]
    exact ⟨h, rfl, rfl⟩
  by_cases hfin : p.m_state = .finished
  · simp only [append, hbuf, h.state, hfin, if_true, if_false]
    exact ⟨h, rfl, rfl⟩
  have hsrc : Alike E (p.withSrc (p.m_src_buf ++ buf)) (p'.withSrc (p'.m_src_buf ++ buf)) := by
    rw [h.src]
    exact h.withSrc _
  by_cases hin : InHead p
  · have hin' : InHead p' := by rwa [InHead, h.state]
    rw [append_inHead p buf hbuf hin, append_inHead p' buf hbuf hin']
    exact parse_header_alike hE _ _ hsrc
  have hnot := not_or.mp hin
  cases h with
  | waiting hwait => exact absurd hwait hnot.1
  | begun _ k hk =>
    by_cases hst : p.m_state = .reading_length
    · have hsame : p.withLength k = p := by rw [hk hst]; rfl
      rw [hsame, append_inLength p buf hbuf hst]
      exact ⟨Alike.refl hE _, rfl, rfl⟩
    · rw [append_behind p buf hbuf hin hst hfin, append_behind (p.withLength k) buf hbuf hin hst hfin]
      exact parse_chunked_alike (p.withSrc (p.m_src_buf ++ buf)) k hnot.1 hst

theorem fed_alike (hE : Oblivious hs E) (p p' : impl σ) (xs : List Bytes) (h : Alike E p p') :
    Alike E (fed hs p xs) (fed hs p' xs) := by
  induction xs generalizing p p' with
  | nil => exact h
  | cons x xs ih => exact ih _ _ (append_alike hE p p' x h).obj

end Libgs.Http
