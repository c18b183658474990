import Libgs.Http.Chunked

/-!
# What the handlers have captured

Behind the first line only the cookie handler writes there. What it leaves alone stays as the first
line has left it, whatever header lines and body follow.
-/

namespace Libgs.Http

open Lib

variable {σ τ : Type} {hs : handlers σ} {f : σ → τ}

/-- The cookie handler leaves alone what `f` reads. -/
def CookiesKeep (hs : handlers σ) (f : σ → τ) : Prop :=
  ∀ parse_cookie, hs.m_parse_cookie = some parse_cookie → ∀ r text e, f (parse_cookie r text e).obj = f r

theorem header_insert_keeps (h : CookiesKeep hs f) (key value : Bytes) (p : impl σ) (e : error_code) :
    f (header_insert hs key value p e).obj.captured = f p.captured := by
  unfold header_insert
  split
  · cases hc : hs.m_parse_cookie with
    | none => rfl
    | some parse_cookie => exact h parse_cookie hc p.captured value e
  · rfl

theorem insert_line_keeps (h : CookiesKeep hs f) (line : Bytes) (p : impl σ) (e : error_code) (c : Call (impl σ) Unit)
    (hc : insert_line hs line p e = some c) : f c.obj.captured = f p.captured := by
  unfold insert_line at hc
  split at hc
  · cases hc
  · simp only [Option.some.injEq] at hc
    rw [← hc]
    apply header_insert_keeps h

/-! ## The body -/

theorem chunk_turn_leave_keeps (h : CookiesKeep hs f) (l : Bytes) (s : chunk_loop σ) (c : Call (impl σ) Bool)
    (hb : chunk_turn hs l s = .leave c) : f c.obj.captured = f s.obj.captured := by
  cases chunk_turn_leave l s c hb with
  | refused => rfl
  | finished => rfl
  | @thrown d e _ hline _ => exact insert_line_keeps h _ s.obj s.error d hline

theorem chunk_turn_again_keeps (h : CookiesKeep hs f) (l : Bytes) (s t : chunk_loop σ)
    (hb : chunk_turn hs l s = .again t) : f t.obj.captured = f s.obj.captured := by
  cases chunk_turn_again l s t hb with
  | size _ => rfl
  | content _ =>
    obtain ⟨st, -, hobj⟩ := chunk_content_turn_obj l s
    rw [hobj]
  | @trailer c _ hline => exact insert_line_keeps h _ s.obj s.error c hline
  | idle _ _ _ => rfl

theorem parse_chunked_keeps (h : CookiesKeep hs f) (p : impl σ) :
    f (parse_chunked hs p).obj.captured = f p.captured := by
  rw [parse_chunked_eq]
  refine lines_rule (B := chunkBuffer) chunk_turn_framed crlf_ne_nil
    (fun s t => f (chunk_end t).obj.captured = f s.obj.captured) ?_ ?_ ?_ _
  · intro s _
    rfl
  · intro s l r c _ hb
    exact chunk_turn_leave_keeps h l (chunkBuffer.set s r) c hb
  · intro s t l r _ hb ih
    exact ih.trans (chunk_turn_again_keeps h l (chunkBuffer.set s r) t hb)

theorem set_read_body_keeps (h : CookiesKeep hs f) (p : impl σ) :
    f (set_read_body_state hs p).obj.captured = f p.captured := by
  rcases set_read_body_cases hs p with ⟨text, e, -, -, hcall⟩ | ⟨text, n, -, -, hcall⟩ | ⟨-, hcall⟩ | ⟨-, hcall⟩ <;>
    rw [hcall]
  · rfl
  · rfl
  · rfl
  · exact parse_chunked_keeps h { p with m_state := .chunked_wait_size }

/-! ## The head -/

theorem field_turn_leave_keeps (h : CookiesKeep hs f) (l : Bytes) (p : impl σ) (c : Call (impl σ) Bool)
    (hb : field_turn hs l p = .leave c) : f c.obj.captured = f p.captured := by
  obtain rfl := field_turn_leave_eq hb
  unfold state_handler_reading_headers
  split
  · exact set_read_body_keeps h p
  · cases hline : insert_line hs l p none with
    | none => rfl
    | some c => exact insert_line_keeps h l p none c hline

theorem fields_keep (h : CookiesKeep hs f) (p : impl σ) (hp : p.m_state = .reading_headers) :
    f (header_end (Lib.lines srcBuffer crlf (header_turn hs) p)).obj.captured = f p.captured := by
  revert hp
  refine lines_rule (B := srcBuffer) header_turn_framed crlf_ne_nil
    (fun p t => p.m_state = .reading_headers → f (header_end t).obj.captured = f p.captured) ?_ ?_ ?_ p
  · intro p _ _
    rfl
  · intro p l r c _ hb hp
    rw [srcBuffer_set, header_turn, withSrc_state, hp] at hb
    exact field_turn_leave_keeps h l (p.withSrc r) c hb
  · intro p q l r _ hb ih hp
    rw [srcBuffer_set] at hb
    have hq := (header_turn_again_spec l (p.withSrc r) q (.inr hp) hb).1
    rw [header_turn, withSrc_state, hp] at hb
    obtain ⟨-, c, hc, -, rfl⟩ := field_turn_again l (p.withSrc r) q hb
    exact (ih hq).trans (insert_line_keeps h l (p.withSrc r) none c hc)

end Libgs.Http
