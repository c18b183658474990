import Libgs.Client.Query
import Libgs.Http.HeaderLines

/-!
# Headers from helper to parser

The header lines of either helper behind a request line, and the headers that the request parser of the server has
of them.
-/

namespace Libgs.Client

open Lib Libgs.Http

/-- A line that the begin handler of a new parser takes -/
structure RequestLine (line : Bytes) : Prop where
  isLine : IsLine crlf line
  taken : ∃ version, (Server.on_parse_begin .init line none).Clean version

/-- The headers that the server has behind the text -/
def serverHeaders (version : version_t) (text : Bytes) : headers_t :=
  (Server.append (.init version) text).obj.m_parser_base.m_headers

/-! ## A block of header lines -/

theorem serverHeaders_block (version : version_t) (line : Bytes) (headers : headers_t) (rest : Bytes)
    (hline : RequestLine line) (h : ValidHeaders headers) :
    ∃ q : impl Server.request_data, q.m_state = .reading_headers ∧ q.m_headers = arrivedHeaders headers ∧
      serverHeaders version (line ++ crlf ++ (helper_base.field_lines headers ++ rest)) =
        (header_end (lines srcBuffer crlf (header_turn Server.request_handlers) (q.withSrc rest))).obj.m_headers := by
  obtain ⟨v, hclean⟩ := hline.taken
  have hfresh : Fresh (Server.RequestParser.init version).m_parser_base := fresh_init _ _
  have hturn : header_turn Server.request_handlers line (Server.RequestParser.init version).m_parser_base = .again _ :=
    begin_turn_of_clean Server.request_handlers line _ Server.on_parse_begin v rfl hclean
  obtain ⟨q, hlines, hstate, hheaders⟩ : ∃ q,
      turns (header_turn Server.request_handlers) (line :: headers.entries.map helper_base.field_line)
        (Server.RequestParser.init version).m_parser_base = some q ∧
      q.m_state = .reading_headers ∧ q.m_headers = arrivedHeaders headers :=
    ⟨_, (turns_again _ _ _ _ _ hturn).trans (turns_fields headers.entries _ rfl fun e he => (h e he).1), rfl, rfl⟩
  refine ⟨q, hstate, hheaders, ?_⟩
  have hall : ∀ l ∈ line :: headers.entries.map helper_base.field_line, IsLine crlf l := by
    intro l hl
    rcases List.mem_cons.mp hl with rfl | hl
    · exact hline.isLine
    · obtain ⟨e, he, rfl⟩ := List.mem_map.mp hl
      exact field_line_isLine e (h e he).1 (h e he).2
  have htext : line ++ crlf ++ (helper_base.field_lines headers ++ rest) =
      unlines crlf (line :: headers.entries.map helper_base.field_line) ++ rest := by
    simp [helper_base.field_lines]
  have hrun := lines_unlines (B := srcBuffer) header_turn_framed crlf_ne_nil _ _ _ rest hall hlines
  unfold serverHeaders
  rw [(Server.append_base _ _).1, append_inHead _ _ (by simp [crlf]) (.inl hfresh.waiting), hfresh.src, List.nil_append,
    parse_header_eq, htext]
  simp only [srcBuffer_set] at hrun
  rw [hrun]

theorem serverHeaders_fields (version : version_t) (line : Bytes) (headers : headers_t) (hline : RequestLine line)
    (h : ValidHeaders headers) :
    serverHeaders version (line ++ crlf ++ (helper_base.field_lines headers ++ crlf)) = arrivedHeaders headers := by
  obtain ⟨q, hq, hheaders, hreceived⟩ := serverHeaders_block version line headers crlf hline h
  rw [hreceived, header_end_blank q hq, hheaders]

theorem cookie_line_isLine (cookies : basic_map Bytes) (h : ∀ e ∈ cookies.entries, 10 ∉ e.1 ∧ 10 ∉ e.2) :
    IsLine crlf (ascii "Cookie: " ++
      (cookies.entries.map fun e => e.1 ++ (ascii "=" ++ (e.2 ++ ascii ";"))).flatten) := by
  refine Coding.isLine_of_not_mem _ ?_
  intro hmem
  rcases List.mem_append.mp hmem with hmem | hmem
  · revert hmem
    decide
  · obtain ⟨_, hpiece, hmem⟩ := List.mem_flatten.mp hmem
    obtain ⟨e, he, rfl⟩ := List.mem_map.mp hpiece
    simp only [List.mem_append] at hmem
    rcases hmem with hmem | hmem | hmem | hmem
    · exact (h e he).1 hmem
    · revert hmem
      decide
    · exact (h e he).2 hmem
    · revert hmem
      decide

theorem serverHeaders_cookies (version : version_t) (line : Bytes) (headers : headers_t) (cookies : basic_map Bytes)
    (hline : RequestLine line) (h : ValidHeaders headers) (hcookies : ∀ e ∈ cookies.entries, 10 ∉ e.1 ∧ 10 ∉ e.2) :
    serverHeaders version (line ++ crlf ++ (helper_base.field_lines headers ++ (cookie_line cookies ++ crlf))) =
      arrivedHeaders headers := by
  unfold cookie_line
  split
  · rw [List.nil_append]
    exact serverHeaders_fields version line headers hline h
  · obtain ⟨q, hq, hheaders, hserver⟩ := serverHeaders_block version line headers
      (ascii "Cookie: " ++ (cookies.entries.map fun e => e.1 ++ (ascii "=" ++ (e.2 ++ ascii ";"))).flatten ++
        (crlf ++ crlf)) hline h
    rw [← hheaders, ← header_end_cookie _ q hq (cookie_line_isLine cookies hcookies), ← hserver]
    simp only [List.append_assoc]

/-! ## What the helpers send -/

theorem valid_assign (headers : headers_t) (key value : Bytes) (h : ValidHeaders headers) (hkey : HeaderName key)
    (hvalue : 10 ∉ value) : ValidHeaders (headers.assign key value) := by
  intro e he
  rcases OrderedMap.mem_assign headers key value e he with ⟨hv, hk⟩ | hold
  · refine ⟨?_, hv ▸ hvalue⟩
    rcases hk with hk | ⟨b, hb, hk⟩
    · exact hk ▸ hkey
    · exact hk ▸ (h b hb).1
  · exact h e hold

theorem valid_assignAll (es : List (Bytes × Bytes)) (headers : headers_t) (h : ValidHeaders headers)
    (hes : ∀ e ∈ es, HeaderName e.1 ∧ 10 ∉ e.2) : ValidHeaders (headers.assignAll es) := by
  induction es generalizing headers with
  | nil => exact h
  | cons e es ih =>
    obtain ⟨he, hes⟩ := List.forall_mem_cons.mp hes
    exact ih (headers.assign e.1 e.2) (valid_assign headers e.1 e.2 h he.1 he.2) hes

theorem content_length_name : HeaderName header.content_length where
  ne := by decide
  plain := by decide +kernel
  no_cookie := by decide +kernel

theorem lower_plain (c : UInt8) : c ≠ 58 ∧ isBlank c = false → tolower c ≠ 58 ∧ isBlank (tolower c) = false :=
  byte_forall (p := fun c => c ≠ 58 ∧ isBlank c = false → tolower c ≠ 58 ∧ isBlank (tolower c) = false)
    (by decide +kernel) c

theorem lower_name (name : Bytes) (h : HeaderName name) : HeaderName (str_to_lower name) where
  ne := by simpa [str_to_lower] using h.ne
  plain := by
    intro c hc
    obtain ⟨d, hd, rfl⟩ := List.mem_map.mp hc
    exact lower_plain d (h.plain d hd)
  no_cookie := by
    rw [str_to_lower_idem]
    exact h.no_cookie

theorem header_data_sends (version_v : version_t) (h h' : helper_base) (body_size : ℕ) (data : Bytes)
    (hstate : h.m_state = .header) (hvalid : ValidHeaders h.m_headers)
    (hdata : helper_base.header_data version_v h body_size = .ok (data, h')) :
    data = helper_base.field_lines h'.m_headers ∧ ValidHeaders h'.m_headers ∧
      ∀ key value, h.m_headers.find key = some value → h'.m_headers.find key = some value := by
  obtain ⟨hfields, hsame | ⟨hnone, hlength⟩⟩ :=
    helper_base.header_data_fields version_v h h' body_size data hstate hdata
  · rw [hsame]
    exact ⟨hsame ▸ hfields, hvalid, fun _ _ hfind => hfind⟩
  · refine ⟨hfields, ?_, fun key value hfind => ?_⟩
    · rw [hlength]
      exact valid_assign _ _ _ hvalid content_length_name (helper_base.digits_no_lf 10 _ (by omega) (by omega))
    · have hother : key_rank key ≠ key_rank header.content_length := by
        intro hrank
        rw [OrderedMap.find_of_rank_eq _ _ _ hrank, hnone] at hfind
        cases hfind
      rw [hlength, OrderedMap.find_assign_ne _ _ _ _ hother, hfind]

theorem set_headers_eq (es : List (Bytes × Bytes)) (helper : helper_base) :
    es.foldl (fun helper e => helper.set_header e.1 e.2) helper =
      { helper with m_headers := helper.m_headers.assignAll (es.map fun e => (str_to_lower e.1, e.2)) } := by
  induction es generalizing helper with
  | nil => rfl
  | cons e es ih => exact ih (helper.set_header e.1 e.2)

theorem request_headers_set (c : request_helper) (e : Bytes × Bytes) (he : e ∈ c.m_req_arg.m_headers.entries) :
    (c.m_helper.m_headers.assignAll (c.m_req_arg.m_headers.entries.map fun e => (str_to_lower e.1, e.2))).find e.1 =
      some e.2 := by
  have hlower : ∀ key, key_rank (str_to_lower key) = key_rank key := fun key =>
    (key_rank_eq_iff _ _).mpr (str_to_lower_idem key)
  have hsorted : (c.m_req_arg.m_headers.entries.map fun e => (str_to_lower e.1, e.2)).Pairwise
      fun a b => key_rank a.1 ≠ key_rank b.1 := by
    simp only [List.pairwise_map, hlower]
    exact c.m_req_arg.m_headers.sorted.imp ne_of_lt
  rw [← OrderedMap.find_assignAll_of_mem c.m_helper.m_headers _ hsorted _ (List.mem_map_of_mem he)]
  exact OrderedMap.find_of_rank_eq _ _ _ (hlower e.1).symm

/-! ## The headers that survive -/

/-- Every header of the map is among those received, under its name in any case and with its value. -/
def Survive (headers received : headers_t) : Prop := ∀ e ∈ headers.entries, received.find e.1 = some e.2

/-- There is no blank at an end of a value, and no percent sign with two characters behind it. -/
def Untouched (headers : headers_t) : Prop := ∀ e ∈ headers.entries, unpadded e.2 = true ∧ undecoded e.2 = true

theorem survive_arrived_iff (headers sent : headers_t) (h : ∀ e ∈ headers.entries, sent.find e.1 = some e.2) :
    Survive headers (arrivedHeaders sent) ↔ Untouched headers := by
  unfold Survive Untouched
  refine forall₂_congr fun e he => ?_
  rw [find_arrivedHeaders, h e he, Option.map_some, Option.some.injEq, arrived_eq_iff]

/-- **Headers from helper to parser.** Behind a request line, the headers that either helper sends are received under
their names and with their values if and only if no value is changed by trimming or percent decoding. -/
theorem headers_survive_iff (version version_v : version_t) (body_size : ℕ) (data : Bytes) :
    (∀ line h h', RequestLine line → h.m_state = .header → ValidHeaders h.m_headers →
      helper_base.header_data version_v h body_size = .ok (data, h') →
      (Survive h.m_headers (serverHeaders version (line ++ crlf ++ (data ++ crlf))) ↔ Untouched h.m_headers)) ∧
    ∀ method (c c' : request_helper), c.m_helper.m_state = .header →
      (∀ vs, version_string version_v = .ok vs → RequestLine (request_line c.m_req_arg.m_url method vs)) →
      ValidHeaders c.m_helper.m_headers → ValidHeaders c.m_req_arg.m_headers →
      (∀ e ∈ c.m_req_arg.m_cookies.entries, 10 ∉ e.1 ∧ 10 ∉ e.2) →
      c.header_data version_v method body_size = .ok (data, c') →
      (Survive c.m_req_arg.m_headers (serverHeaders version data) ↔ Untouched c.m_req_arg.m_headers) := by
  constructor
  · intro line h h' hline hstate hvalid hdata
    obtain ⟨rfl, hsent, hkept⟩ := header_data_sends version_v h h' body_size data hstate hvalid hdata
    rw [serverHeaders_fields version line h'.m_headers hline hsent]
    exact survive_arrived_iff _ _ fun e he => hkept _ _ (OrderedMap.find_of_mem _ e he)
  · intro method c c' hstate hline hinside hvalid hcookies hdata
    obtain ⟨vs, fields, helper, hversion, hfields, rfl⟩ := request_helper.header_data_parts hstate hdata
    rw [set_headers_eq] at hfields
    have hset : ValidHeaders (c.m_helper.m_headers.assignAll
        (c.m_req_arg.m_headers.entries.map fun e => (str_to_lower e.1, e.2))) := by
      refine valid_assignAll _ _ hinside fun e he => ?_
      obtain ⟨b, hb, rfl⟩ := List.mem_map.mp he
      exact ⟨lower_name b.1 (hvalid b hb).1, (hvalid b hb).2⟩
    -- The state is taken up last, when the helper with its headers is known.
    obtain ⟨rfl, hsent, hkept⟩ :=
      header_data_sends Http.version.v11 _ helper body_size fields (by exact hstate) hset hfields
    rw [serverHeaders_cookies version _ helper.m_headers _ (hline vs hversion) hsent hcookies]
    exact survive_arrived_iff _ _ fun e he => hkept _ _ (request_headers_set c e he)

def rootLine : Bytes := ascii "GET / HTTP/1.1"

theorem root_line : RequestLine rootLine := ⟨by decide +kernel, version.v11, by rfl, by rfl⟩

def noteHelper (value : Bytes) : helper_base := helper_base.init.set_header (ascii "x-note") value

theorem note_valid (value : Bytes) (h : 10 ∉ value) : ValidHeaders (noteHelper value).m_headers := by
  have hinit : ValidHeaders helper_base.init.m_headers := by
    intro e he
    obtain rfl := List.mem_singleton.mp he
    exact ⟨⟨by decide, by decide +kernel, by decide +kernel⟩, by decide +kernel⟩
  exact valid_assign _ _ _ hinit ⟨by decide, by decide +kernel, by decide +kernel⟩ h

theorem headers_survive_iff_note :
    let h := noteHelper (ascii "100% of it")
    let c := searchHelper (ascii "a b")
    (Survive h.m_headers (serverHeaders 0 (rootLine ++ crlf ++
        (helper_base.field_lines (h.declare_length 0).m_headers ++ crlf))) ↔ Untouched h.m_headers) ∧
      (Survive c.m_req_arg.m_headers (serverHeaders 0
        (request_line c.m_req_arg.m_url .GET (ascii "1.1") ++ crlf ++ searchFields)) ↔
          Untouched c.m_req_arg.m_headers) := by
  have hvalid : ValidHeaders (searchHelper (ascii "a b")).m_req_arg.m_headers := by
    intro e he
    obtain rfl := List.mem_singleton.mp he
    exact ⟨⟨by decide, by decide +kernel, by decide +kernel⟩, by decide +kernel⟩
  refine ⟨?_, ?_⟩
  · exact (headers_survive_iff 0 version.v11 0 _).1 rootLine (noteHelper (ascii "100% of it"))
      ((noteHelper (ascii "100% of it")).declare_length 0) root_line rfl (note_valid _ (by decide)) rfl
  · refine (headers_survive_iff 0 version.v11 0 _).2 .GET (searchHelper (ascii "a b")) (searched (ascii "a b")) rfl ?_
      hvalid hvalid (fun e he => by cases he) (search_data (ascii "a b"))
    intro vs hvs
    exact ⟨request_line_isLine _ _ (search_path _) hvs,
      version.v11, by rw [on_parse_begin_line _ _ (search_path _) hvs]; exact ⟨rfl, by cases hvs; rfl⟩⟩

theorem encoded_value_lost :
    let h := noteHelper (ascii "%41")
    ∃ data h', RequestLine rootLine ∧ h.m_state = .header ∧ ValidHeaders h.m_headers ∧
      (∀ e ∈ h.m_headers.entries, e.2 ≠ [] ∧ 13 ∉ e.2 ∧ 10 ∉ e.2 ∧ unpadded e.2 = true) ∧
      helper_base.header_data version.v11 h 0 = .ok (data, h') ∧
      h.m_headers.find (ascii "x-note") = some (ascii "%41") ∧
      (serverHeaders 0 (rootLine ++ crlf ++ (data ++ crlf))).find (ascii "x-note") = some (ascii "A") ∧
      ¬ Survive h.m_headers (serverHeaders 0 (rootLine ++ crlf ++ (data ++ crlf))) := by
  have harrived : (serverHeaders 0 (rootLine ++ crlf ++
      (helper_base.field_lines ((noteHelper (ascii "%41")).declare_length 0).m_headers ++ crlf))).find
        (ascii "x-note") = some (ascii "A") := by
    decide +kernel
  refine ⟨_, (noteHelper (ascii "%41")).declare_length 0, root_line, rfl, note_valid _ (by decide), by decide +kernel,
    rfl, by decide +kernel, harrived, fun hsurvive => ?_⟩
  have hentry : (ascii "x-note", ascii "%41") ∈ (noteHelper (ascii "%41")).m_headers.entries := by decide +kernel
  have := (hsurvive _ hentry).symm.trans harrived
  exact absurd this (by decide +kernel)

end Libgs.Client
