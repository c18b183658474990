import Libgs.Http.HeaderLines
import Libgs.Server.Response
import Libgs.Server.Service

/-!
# Whether a request is chunked

`is_chunked` of `http/server/detail/request.h`, `request_chunked` of the response helper, and what the parser has
selected behind the head.
-/

namespace Libgs.Server

open Lib Libgs.Http

/-- `is_chunked` of `basic_server_request`. Read as over the headers of the parser: the map that is named is not a
member. -/
def is_chunked (p : RequestParser) : Bool :=
  if p.m_parser_base.m_version < version.v11 then false
  else
    match p.m_parser_base.m_headers.find header.transfer_encoding with
    | some text => str_to_lower text = string_pool.chunked
    | none => false

/-- The helper of the response to a request -/
def response_to (p : RequestParser) : response_helper :=
  .init p.m_parser_base.m_version p.m_parser_base.m_headers

theorem request_chunked_response (p : RequestParser) : (response_to p).request_chunked = is_chunked p := rfl

/-! ## The version of a head -/

theorem version_number_mem (vs : Bytes) (v : version_t) (h : version_number vs = .ok v) :
    v = version.nan ∨ v = version.v10 ∨ v = version.v11 := by
  unfold version_number at h
  split at h
  · rename_i e he
    cases h
    have hmem := List.mem_of_find?_eq_some he
    simp only [version_table, List.mem_cons, List.not_mem_nil, or_false] at hmem
    rcases hmem with rfl | rfl | rfl
    · exact .inl rfl
    · exact .inr (.inl rfl)
    · exact .inr (.inr rfl)
  · cases h

theorem on_parse_begin_version (r : request_data) (line : Bytes) (v : version_t)
    (h : (on_parse_begin r line none).Clean v) : v = version.nan ∨ v = version.v10 ∨ v = version.v11 := by
  obtain ⟨herror, hvalue⟩ := h
  unfold on_parse_begin at herror hvalue
  split at hvalue
  · split at hvalue
    · exact .inl (Except.ok.inj hvalue).symm
    · split at hvalue
      · exact .inl (Except.ok.inj hvalue).symm
      · split at hvalue
        · cases hvalue
        · rename_i version hversion
          obtain rfl : version = v := by
            dsimp only at hvalue
            split at hvalue <;> exact Except.ok.inj hvalue
          exact version_number_mem _ _ hversion
  · exact .inl (Except.ok.inj hvalue).symm

theorem turns_version (ls : List Bytes) (p q : impl request_data) (hp : p.m_state = .reading_headers)
    (h : turns (header_turn request_handlers) ls p = some q) : q.m_version = p.m_version := by
  induction ls generalizing p with
  | nil =>
    obtain rfl : p = q := by simpa [turns] using h
    rfl
  | cons l ls ih =>
    obtain ⟨t, hturn, hrest⟩ := turns_cons h
    have hst := (header_turn_again_spec l p t (.inr hp) hturn).1
    unfold header_turn at hturn
    simp only [hp] at hturn
    obtain ⟨-, c, hline, -, rfl⟩ := field_turn_again l p t hturn
    rw [ih c.obj hst hrest, (insert_line_same l p none c hline).version]

theorem read_version (h : Head) (p q : impl request_data) (hp : p.m_state = .waiting_request)
    (hread : h.read request_handlers p = some q) :
    q.m_version = version.nan ∨ q.m_version = version.v10 ∨ q.m_version = version.v11 := by
  obtain ⟨t, hturn, hrest⟩ := turns_cons hread
  have hst := (header_turn_again_spec h.first p t (.inl hp) hturn).1
  rw [turns_version h.fields t q hst hrest]
  unfold header_turn at hturn
  simp only [hp] at hturn
  obtain ⟨parse_begin, version, hbegin, hclean, rfl⟩ := begin_turn_again h.first p t hturn
  obtain rfl : on_parse_begin = parse_begin := Option.some.inj hbegin
  exact on_parse_begin_version p.captured h.first version hclean

theorem version_known {v : version_t} (h : v = version.nan ∨ v = version.v10 ∨ v = version.v11) :
    v < version.v11 ↔ v ≠ version.v11 := by
  rcases h with rfl | rfl | rfl <;> decide

/-! ## What the parser selects -/

theorem parse_length_state {σ : Type} (p : impl σ) :
    (parse_length p).m_state = .reading_length ∨ (parse_length p).m_state = .finished := by
  have hstate : (parse_length p).m_state =
      if p.m_content_length > (parse_length p).m_partial_body.length then .reading_length else .finished := rfl
  rw [hstate]
  split
  · exact .inl rfl
  · exact .inr rfl

theorem selects_chunked_iff {σ : Type} (hs : handlers σ) (q : impl σ) (hsrc : q.m_src_buf = [])
    (hstate : q.m_state = .reading_headers) :
    (set_read_body_state hs q).obj.m_state = .chunked_wait_size ↔
      q.m_headers.find header.content_length = none ∧ q.m_version = version.v11 ∧
        q.m_headers.find header.transfer_encoding = some string_pool.chunked := by
  unfold set_read_body_state
  cases hlength : q.m_headers.find header.content_length with
  | some text =>
    refine iff_of_false ?_ fun h => nomatch h.1
    dsimp only
    split
    · rw [show (Call.fail q none _ : Call (impl σ) Bool).obj = q from rfl, hstate]
      nofun
    · rename_i length _
      show (parse_length { q with m_content_length := length }).m_state ≠ .chunked_wait_size
      rcases parse_length_state { q with m_content_length := length } with h | h <;> rw [h] <;> nofun
  | none =>
    by_cases hversion : q.m_version = version.v11
    · simp only [hversion, if_true, true_and]
      cases hencoding : q.m_headers.find header.transfer_encoding with
      | none => simp [Call.ok]
      | some text =>
        by_cases htext : text = string_pool.chunked
        · simp only [htext, ne_eq, not_true_eq_false, if_false, iff_true]
          rw [parse_chunked_nothing { q with m_state := .chunked_wait_size, m_version := version.v11 } hsrc]
        · simp [htext, Call.ok]
    · simp [hversion, Call.ok]

theorem completed_head (p : RequestParser) (h : Head) (hp : Fresh p) (hdone : (append p h.text).Clean true) :
    ∃ q, h.read request_handlers p.m_parser_base = some q ∧ q.m_state = .reading_headers ∧ q.m_src_buf = [] ∧
      (append p h.text).obj.m_parser_base = (set_read_body_state request_handlers q).obj := by
  obtain ⟨hobj, herror, hvalue⟩ := append_base p h.text
  have hne : h.text ≠ [] := by
    have := h.text_append []
    intro hnil
    simp [hnil, crlf] at this
  have hcall : Http.append request_handlers p.m_parser_base h.text =
      parse_header request_handlers (p.m_parser_base.withSrc h.text) := by
    rw [append_inHead _ _ hne (.inl hp.waiting), hp.src, List.nil_append]
  have hclean : (parse_header request_handlers (p.m_parser_base.withSrc (h.text ++ []))).Clean true := by
    rw [List.append_nil, ← hcall]
    exact ⟨herror ▸ hdone.1, hvalue ▸ hdone.2⟩
  obtain ⟨q, hread⟩ := read_of_accepted h p.m_parser_base [] true hp.waiting hclean
  obtain ⟨hstate, -, hsrc⟩ := h.read_spec p.m_parser_base q (.inl hp.waiting) hread
  have hq : q.m_src_buf = [] := hsrc.trans hp.src
  refine ⟨q, hread, hstate, hq, ?_⟩
  have hhead := parse_header_head h p.m_parser_base q [] (.inl hp.waiting) hread
  rw [List.append_nil] at hhead
  rw [hobj, hcall, hhead, ← hq, withSrc_self]

/-! ## Agreement -/

theorem is_chunked_iff (p : RequestParser) (hversion : p.m_parser_base.m_version < version.v11 ↔
      p.m_parser_base.m_version ≠ version.v11) :
    is_chunked p = true ↔ p.m_parser_base.m_version = version.v11 ∧
      ∃ text, p.m_parser_base.m_headers.find header.transfer_encoding = some text ∧
        str_to_lower text = string_pool.chunked := by
  unfold is_chunked
  by_cases hv : p.m_parser_base.m_version = version.v11
  · rw [if_neg (fun hlt => hversion.mp hlt hv)]
    cases p.m_parser_base.m_headers.find header.transfer_encoding with
    | none => simp
    | some text => simp [hv]
  · rw [if_pos (hversion.mpr hv)]
    simp [hv]

/-- All three say the same about the request. -/
structure ChunkedAgree (p : RequestParser) : Prop where
  response : (response_to p).request_chunked = true ↔ p.m_parser_base.m_state = .chunked_wait_size
  request : is_chunked p = true ↔ p.m_parser_base.m_state = .chunked_wait_size

/-- A `Transfer-Encoding` that is `chunked` in some letter case is the very text, and stands without a length. -/
def PlainlyChunked (headers : headers_t) : Prop :=
  ∀ text, headers.find header.transfer_encoding = some text → str_to_lower text = string_pool.chunked →
    text = string_pool.chunked ∧ headers.find header.content_length = none

/-- **Agreement about chunks.** Behind a completed head, the parser, the request and the response agree if and only if
the head is not of version 1.1, or is chunked plainly if at all. -/
theorem chunked_agree_iff (p : RequestParser) (h : Head) (hp : Fresh p) (hdone : (append p h.text).Clean true) :
    let q := (append p h.text).obj
    ChunkedAgree q ↔ (q.m_parser_base.m_version = version.v11 → PlainlyChunked q.m_parser_base.m_headers) := by
  intro q
  obtain ⟨q₀, hread, hstate, hsrc, hq⟩ := completed_head p h hp hdone
  have hversion : q.m_parser_base.m_version = q₀.m_version := by
    rw [hq, (set_read_body_nothing q₀ hsrc).2]
  have hheaders : q.m_parser_base.m_headers = q₀.m_headers := by
    rw [hq, (set_read_body_nothing q₀ hsrc).1]
  have hselects := selects_chunked_iff request_handlers q₀ hsrc hstate
  rw [← hq, ← hversion, ← hheaders] at hselects
  have hasks := is_chunked_iff q (version_known (hversion ▸ read_version h p.m_parser_base q₀ hp.waiting hread))
  constructor
  · intro hagree hv text htext hlower
    have hchunked := hselects.mp (hagree.request.mp (hasks.mpr ⟨hv, text, htext, hlower⟩))
    exact ⟨Option.some.inj (htext.symm.trans hchunked.2.2), hchunked.1⟩
  · intro hplain
    have hboth : is_chunked q = true ↔ q.m_parser_base.m_state = .chunked_wait_size := by
      rw [hasks, hselects]
      constructor
      · rintro ⟨hv, text, htext, hlower⟩
        obtain ⟨rfl, hnone⟩ := hplain hv text htext hlower
        exact ⟨hnone, hv, htext⟩
      · rintro ⟨-, hv, htext⟩
        exact ⟨hv, _, htext, by decide⟩
    exact ⟨request_chunked_response q ▸ hboth, hboth⟩

def plainHead : Head where
  first := ascii "POST /b HTTP/1.1"
  fields := [ascii "Host: b", ascii "Transfer-Encoding: chunked"]
  first_line := by decide
  field_line := by decide

theorem chunked_agree_plain : ChunkedAgree (append (.init 0) plainHead.text).obj := by
  refine (chunked_agree_iff (.init 0) plainHead (fresh_init _ _) ⟨by rfl, by rfl⟩).mpr fun _ text htext _ => ?_
  obtain rfl : string_pool.chunked = text := Option.some.inj htext
  exact ⟨rfl, by rfl⟩

def casedHead : Head where
  first := ascii "POST /b HTTP/1.1"
  fields := [ascii "Transfer-Encoding: Chunked"]
  first_line := by decide
  field_line := by decide

theorem chunked_cased : ¬ ∀ (p : RequestParser) (h : Head), Fresh p → (append p h.text).Clean true →
    ChunkedAgree (append p h.text).obj := by
  intro h
  have hstate := (h (.init 0) casedHead (fresh_init _ _) ⟨by rfl, by rfl⟩).request.mp (by rfl)
  have hfinished : (append (.init 0) casedHead.text).obj.m_parser_base.m_state = .finished := by rfl
  rw [hfinished] at hstate
  cases hstate

end Libgs.Server
