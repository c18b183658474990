import Libgs.Core.PercentEncoding
import Libgs.Core.Trimmed
import Libgs.Http.Head
import Libgs.Http.HelperBase

/-!
# Header lines from the helper to the parser

What the parser makes of the header lines that the helper writes.
-/

namespace Libgs.Http

open Lib

variable {σ : Type} {hs : handlers σ}

/-- A name without blanks and colons that is not of a cookie. -/
structure HeaderName (name : Bytes) : Prop where
  ne : name ≠ []
  plain : ∀ c ∈ name, c ≠ 58 ∧ isBlank c = false
  no_cookie : str_to_lower name ≠ ascii "cookie" ∧ str_to_lower name ≠ ascii "set-cookie"

/-- Every value stays on its line. -/
def ValidHeaders (headers : headers_t) : Prop := ∀ e ∈ headers.entries, HeaderName e.1 ∧ 10 ∉ e.2

/-- The value as the parser has it. -/
def arrived (value : Bytes) : Bytes := from_percent_encoding (str_trimmed value)

theorem arrived_eq_iff (value : Bytes) : arrived value = value ↔ unpadded value = true ∧ undecoded value = true := by
  constructor
  · intro h
    have hlen := congrArg List.length h
    have hdecoded := from_percent_length (str_trimmed value)
    have htrimmed : str_trimmed value = value := by
      have hwithin := str_trimmed_within value
      refine hwithin.eq_of_length (le_antisymm hwithin.length_le ?_)
      unfold arrived at hlen
      omega
    refine ⟨by rw [← htrimmed]; exact unpadded_str_trimmed value, ?_⟩
    by_contra hnot
    have := (from_percent_cases value).2 (by simpa using hnot)
    rw [arrived, htrimmed] at hlen
    omega
  · rintro ⟨hpad, hdec⟩
    rw [arrived, str_trimmed_of_unpadded value hpad, (from_percent_cases value).1 hdec]

/-! ## One line -/

theorem field_line_cut (e : Bytes × Bytes) (h : HeaderName e.1) :
    cut (ascii ":") (helper_base.field_line e) = some (e.1, ascii " " ++ e.2) := by
  have hno : 58 ∉ e.1 := fun hmem => (h.plain 58 hmem).1 rfl
  have hline : ¬ ascii ":" <:+: e.1 ++ (ascii ":").dropLast := by
    rw [show ascii ":" = [58] from rfl]
    simpa [List.singleton_infix_iff] using hno
  exact cut_append_pat (ascii ":") e.1 (ascii " " ++ e.2) (by decide) hline

theorem field_line_isLine (e : Bytes × Bytes) (h : HeaderName e.1) (hvalue : 10 ∉ e.2) :
    IsLine crlf (helper_base.field_line e) := by
  refine Coding.isLine_of_not_mem _ ?_
  simp only [helper_base.field_line, List.mem_append, not_or]
  refine ⟨fun hmem => ?_, by decide, hvalue⟩
  have := (h.plain 10 hmem).2
  revert this
  decide

theorem str_trimmed_blank (value : Bytes) : str_trimmed (ascii " " ++ value) = str_trimmed value := by
  rw [str_trimmed_eq, str_trimmed_eq, show ascii " " = [32] from rfl, List.singleton_append]
  simp [isBlank]

variable (hs) in
theorem field_turn_line (e : Bytes × Bytes) (p : impl σ) (h : HeaderName e.1) :
    field_turn hs (helper_base.field_line e) p =
      .again { p with m_headers := p.m_headers.assign (str_to_lower e.1) (arrived e.2) } := by
  have hname : str_trimmed e.1 = e.1 :=
    str_trimmed_of_unpadded _ (unpadded_of_not_blank _ fun c hc => (h.plain c hc).2)
  have hline : insert_line hs (helper_base.field_line e) p none =
      some (.ok { p with m_headers := p.m_headers.assign (str_to_lower e.1) (arrived e.2) } none ()) := by
    unfold insert_line
    rw [field_line_cut e h]
    dsimp only
    rw [str_trimmed_blank, hname]
    unfold header_insert
    rw [if_neg (not_or.mpr h.no_cookie)]
    rfl
  have hne : helper_base.field_line e ≠ [] := by simp [helper_base.field_line, h.ne]
  exact field_turn_of_clean _ p _ hne hline ⟨rfl, rfl⟩

/-! ## All lines -/

variable (hs) in
theorem header_turn_reading (l : Bytes) (p : impl σ) (hp : p.m_state = .reading_headers) :
    header_turn hs l p = field_turn hs l p := by
  simp only [header_turn, hp]

/-- The headers of the parser behind the lines of a map -/
def arrivedHeaders (headers : headers_t) : headers_t :=
  OrderedMap.assignAll .empty (headers.entries.map fun e => (str_to_lower e.1, arrived e.2))

theorem find_arrivedHeaders (headers : headers_t) (key : Bytes) :
    (arrivedHeaders headers).find key = (headers.find key).map arrived :=
  OrderedMap.find_assignAll_map headers str_to_lower arrived
    (fun k => (key_rank_eq_iff _ _).mpr (str_to_lower_idem k)) key

theorem turns_fields (es : List (Bytes × Bytes)) (p : impl σ) (hp : p.m_state = .reading_headers)
    (h : ∀ e ∈ es, HeaderName e.1) :
    turns (header_turn hs) (es.map helper_base.field_line) p =
      some { p with m_headers := p.m_headers.assignAll (es.map fun e => (str_to_lower e.1, arrived e.2)) } := by
  induction es generalizing p with
  | nil => rfl
  | cons e es ih =>
    obtain ⟨he, hes⟩ := List.forall_mem_cons.mp h
    have hturn : header_turn hs (helper_base.field_line e) p =
        .again { p with m_headers := p.m_headers.assign (str_to_lower e.1) (arrived e.2) } := by
      rw [header_turn_reading hs _ p hp]
      exact field_turn_line hs e p he
    rw [List.map_cons, turns_again _ _ _ _ _ hturn]
    exact ih { p with m_headers := p.m_headers.assign (str_to_lower e.1) (arrived e.2) } hp hes

/-! ## A line that is given on its own -/

variable (hs) in
theorem append_field_line (p : impl σ) (buf line : Bytes) (c : Call (impl σ) Unit)
    (hp : p.m_state = .reading_headers) (hbuf : buf ≠ []) (htext : p.m_src_buf ++ buf = line ++ crlf)
    (hline : IsLine crlf line) (hne : line ≠ []) (hc : insert_line hs line (p.withSrc []) none = some c)
    (hv : c.value = .ok ()) :
    append hs p buf = .ok c.obj c.error false := by
  have hsame := insert_line_same line (p.withSrc []) none c hc
  have hcut : cut crlf (srcBuffer.get (p.withSrc (line ++ crlf))) = some (line, []) := by
    have := cut_append_pat crlf line [] crlf_ne_nil hline
    rwa [List.append_nil] at this
  have hturn : header_turn hs line (srcBuffer.set (p.withSrc (line ++ crlf)) []) = field_turn hs line (p.withSrc []) :=
    header_turn_reading hs line (p.withSrc []) hp
  rw [append_inHead p buf hbuf (.inr hp), htext, parse_header_eq]
  by_cases he : c.error = none
  · have hagain := field_turn_of_clean line (p.withSrc []) c hne hc ⟨he, hv⟩
    have hnone : cut crlf (srcBuffer.get c.obj) = none := by
      rw [srcBuffer_get, hsame.src]
      rfl
    rw [lines_again header_turn_framed _ _ _ _ crlf_ne_nil hcut (hturn.trans hagain), lines_none _ hnone, header_end,
      header_pending, hsame.src, he]
    rfl
  · have hleave : field_turn hs line (p.withSrc []) = .leave (.ok c.obj c.error false) := by
      simp only [field_turn, state_handler_reading_headers, if_neg hne, hc, hv, Except.map]
      split
      · rename_i hnone
        exact absurd hnone he
      · rfl
    rw [lines_leave _ _ _ _ crlf_ne_nil hcut (hturn.trans hleave)]
    rfl

/-! ## The blank line, and a cookie before it -/

theorem withSrc_of_src {q : impl σ} {b : Bytes} (h : q.m_src_buf = b) : q.withSrc b = q := by
  rw [← h, withSrc_self]

theorem parse_chunked_nothing (p : impl σ) (h : p.m_src_buf = []) : (parse_chunked hs p).obj = p := by
  have hlines : Lib.lines chunkBuffer crlf (chunk_turn hs) ⟨p, 0, none⟩ = .again ⟨p, 0, none⟩ := by
    refine lines_none _ ((cut_eq_none _ _).mpr ?_)
    show ¬ crlf <:+: p.m_src_buf
    rw [h]
    decide
  unfold parse_chunked
  rw [hlines]
  rfl

theorem set_read_body_nothing (p : impl σ) (h : p.m_src_buf = []) :
    (set_read_body_state hs p).obj.m_headers = p.m_headers ∧
      (set_read_body_state hs p).obj.m_version = p.m_version := by
  rcases set_read_body_cases hs p with ⟨text, e, -, -, hcall⟩ | ⟨text, n, -, -, hcall⟩ | ⟨-, hcall⟩ | ⟨-, hcall⟩ <;>
    rw [hcall]
  · exact ⟨rfl, rfl⟩
  · exact ⟨rfl, rfl⟩
  · exact ⟨rfl, rfl⟩
  · dsimp only
    rw [parse_chunked_nothing { p with m_state := .chunked_wait_size } h]
    exact ⟨rfl, rfl⟩

theorem header_end_blank (p : impl σ) (hp : p.m_state = .reading_headers) :
    (header_end (Lib.lines srcBuffer crlf (header_turn hs) (p.withSrc crlf))).obj.m_headers = p.m_headers := by
  have hturn : header_turn hs [] (p.withSrc []) = .leave (set_read_body_state hs (p.withSrc [])) := by
    rw [header_turn_reading hs [] (p.withSrc []) hp]
    exact field_turn_blank _
  have hcut : cut crlf (srcBuffer.get (p.withSrc crlf)) = some ([], []) := by
    show cut crlf crlf = some ([], [])
    decide
  rw [lines_leave (p.withSrc crlf) [] [] _ crlf_ne_nil hcut hturn]
  exact (set_read_body_nothing (p.withSrc []) rfl).1

variable (hs) in
theorem header_insert_cookie (value : Bytes) (p : impl σ) (e : error_code) :
    (header_insert hs (ascii "cookie") value p e).obj.m_headers = p.m_headers := by
  unfold header_insert
  rw [if_pos (.inl rfl)]
  cases hs.m_parse_cookie <;> rfl

variable (hs) in
theorem insert_line_cookie (line : Bytes) (p : impl σ) (e : error_code) :
    insert_line hs (ascii "Cookie: " ++ line) p e = some (header_insert hs (ascii "cookie") (arrived line) p e) := by
  have hcolon : cut (ascii ":") (ascii "Cookie: " ++ line) = some (ascii "Cookie", ascii " " ++ line) :=
    cut_append_pat (ascii ":") (ascii "Cookie") (ascii " " ++ line) (by decide) (by decide)
  unfold insert_line
  rw [hcolon]
  dsimp only
  rw [str_trimmed_blank]
  rfl

theorem header_end_cookie (line : Bytes) (p : impl σ) (hp : p.m_state = .reading_headers)
    (hline : IsLine crlf (ascii "Cookie: " ++ line)) :
    (header_end (Lib.lines srcBuffer crlf (header_turn hs)
      (p.withSrc (ascii "Cookie: " ++ line ++ (crlf ++ crlf))))).obj.m_headers = p.m_headers := by
  have hcut : cut crlf (srcBuffer.get (p.withSrc (ascii "Cookie: " ++ line ++ (crlf ++ crlf)))) =
      some (ascii "Cookie: " ++ line, crlf) :=
    cut_append_pat crlf _ crlf crlf_ne_nil hline
  have hinsert := insert_line_cookie hs line (p.withSrc crlf) none
  have hkeep := header_insert_cookie hs (arrived line) (p.withSrc crlf) none
  have hne : ascii "Cookie: " ++ line ≠ [] := by simp [ascii]
  cases hturn : header_turn hs (ascii "Cookie: " ++ line) (p.withSrc crlf) with
  | leave c =>
    rw [lines_leave _ _ _ c crlf_ne_nil hcut hturn]
    have hc := field_turn_leave_eq (header_turn_reading hs _ (p.withSrc crlf) hp ▸ hturn)
    show c.obj.m_headers = p.m_headers
    rw [hc, state_handler_reading_headers, if_neg hne, hinsert]
    exact hkeep
  | again q =>
    obtain ⟨-, c, hi, -, rfl⟩ := field_turn_again _ _ _ (header_turn_reading hs _ (p.withSrc crlf) hp ▸ hturn)
    obtain rfl : header_insert hs (ascii "cookie") (arrived line) (p.withSrc crlf) none = c := by
      rwa [hinsert, Option.some.injEq] at hi
    have hsame := header_insert_same hs (ascii "cookie") (arrived line) (p.withSrc crlf) none
    rw [lines_again header_turn_framed _ _ _ _ crlf_ne_nil hcut hturn, ← withSrc_of_src hsame.src, withSrc_src,
      header_end_blank _ (hsame.state.trans hp)]
    exact hkeep

end Libgs.Http
