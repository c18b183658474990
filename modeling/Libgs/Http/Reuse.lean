import Libgs.Http.Fragments

/-!
# A parser that is used again

`reset` leaves the body length of the last request behind, and the request data that the begin handler
overwrites. Reading a head depends on neither.
-/

namespace Libgs.Http

open Lib

variable {σ : Type} {hs : handlers σ}

/-- The same parser with another body length -/
def impl.withLength (p : impl σ) (k : ℕ) : impl σ := { p with m_content_length := k }

theorem header_insert_withLength (key value : Bytes) (k : ℕ) (p : impl σ) (e : error_code) :
    header_insert hs key value (p.withLength k) e =
      { header_insert hs key value p e with obj := (header_insert hs key value p e).obj.withLength k } := by
  unfold header_insert
  split
  · cases hs.m_parse_cookie <;> rfl
  · rfl

theorem insert_line_withLength (line : Bytes) (k : ℕ) (p : impl σ) (e : error_code) :
    insert_line hs line (p.withLength k) e =
      (insert_line hs line p e).map fun c => { c with obj := c.obj.withLength k } := by
  unfold insert_line
  cases cut (ascii ":") line with
  | none => rfl
  | some kv => simp [header_insert_withLength]

theorem field_turn_withLength (l : Bytes) (k : ℕ) (p q : impl σ) (h : field_turn hs l p = .again q) :
    field_turn hs l (p.withLength k) = .again (q.withLength k) := by
  obtain ⟨hl, c, hi, hc, rfl⟩ := field_turn_again l p q h
  refine field_turn_of_clean l (p.withLength k) { c with obj := c.obj.withLength k } hl ?_ hc
  rw [insert_line_withLength, hi]
  rfl

theorem turns_withLength (ls : List Bytes) (k : ℕ) (p q : impl σ) (hp : p.m_state = .reading_headers)
    (h : turns (header_turn hs) ls p = some q) :
    turns (header_turn hs) ls (p.withLength k) = some (q.withLength k) := by
  induction ls generalizing p with
  | nil =>
    obtain rfl : p = q := by simpa [turns] using h
    rfl
  | cons l ls ih =>
    obtain ⟨t, hb, hrest⟩ := turns_cons h
    have hst := (header_turn_again_spec l p t (.inr hp) hb).1
    have hturn : header_turn hs l (p.withLength k) = .again (t.withLength k) := by
      unfold header_turn at hb ⊢
      rw [show (p.withLength k).m_state = .reading_headers from hp]
      rw [hp] at hb
      exact field_turn_withLength l k p t hb
    rw [turns_again _ _ _ _ _ hturn]
    exact ih t hst hrest

/-- **Reading a head again.** Two fresh parsers with the same headers and the same result of the begin
handler read a head to the same end, the old body length apart. -/
theorem read_reused (h : Head) (p p' q : impl σ) (parse_begin : σ → Bytes → error_code → Call σ version_t)
    (hb : hs.m_parse_begin = some parse_begin) (hp : Fresh p) (hp' : Fresh p') (hheaders : p'.m_headers = p.m_headers)
    (hbegin : ∀ version, (parse_begin p.captured h.first none).Clean version →
      parse_begin p'.captured h.first none = parse_begin p.captured h.first none)
    (hread : h.read hs p = some q) : h.read hs p' = some (q.withLength p'.m_content_length) := by
  unfold Head.read Head.lines at hread ⊢
  obtain ⟨t, hturn, hrest⟩ := turns_cons hread
  unfold header_turn at hturn
  rw [hp.waiting] at hturn
  obtain ⟨pb, version, hpb, hclean, ht⟩ := begin_turn_again h.first p t hturn
  obtain rfl : parse_begin = pb := by simpa [hb] using hpb
  have hsame := hbegin version hclean
  have hturn' : header_turn hs h.first p' = .again (t.withLength p'.m_content_length) := by
    unfold header_turn
    rw [hp'.waiting]
    show begin_turn hs h.first p' = _
    rw [begin_turn_of_clean hs h.first p' parse_begin version hb (hsame ▸ hclean), hsame, ht]
    simp only [impl.withLength, Turn.again.injEq, impl.mk.injEq, true_and, and_true]
    exact ⟨hp'.src.trans hp.src.symm, hheaders, hp'.body.trans hp.body.symm⟩
  rw [turns_again _ _ _ _ _ hturn']
  exact turns_withLength h.fields p'.m_content_length t q (by rw [ht]) hrest

end Libgs.Http
