import Libgs.Client.Headers
import Libgs.Http.ContentLength
import Libgs.Server.CookieCoding
import Libgs.Server.RequestFragments

/-!
# A request from client to server

`body_data` of `http/client/detail/request_helper.h`, and the whole request of the client in the request parser of the
server, however it is cut on its way.
-/

namespace Libgs.Client

open Lib Libgs.Http

namespace request_helper

/-- The body goes to the helper inside. -/
def body_data (h : request_helper) (buffer : Bytes) : Bytes × request_helper :=
  ((h.m_helper.body_data buffer).1, { h with m_helper := (h.m_helper.body_data buffer).2 })

end request_helper

/-! ## What the client sends -/

/-- The helper is to tell the length of the body. -/
def LeavesLength (headers : headers_t) : Prop :=
  headers.find header.content_length = none ∧ headers.find header.transfer_encoding = none

/-- Cookies that stay apart on their line, without percent signs -/
def PlainCookies (cookies : basic_map Bytes) : Prop :=
  ∀ e ∈ cookies.entries, Server.Separable e ∧ (10 ∉ e.1 ∧ 10 ∉ e.2) ∧ 0x25 ∉ e.1 ∧ 0x25 ∉ e.2

/-- A request that the client can say with lines that the parser takes -/
structure Sendable (c : request_helper) : Prop where
  state : c.m_helper.m_state = .header
  path : UrlPath c.m_req_arg.m_url.m_path
  inside : ValidHeaders c.m_helper.m_headers ∧ LeavesLength c.m_helper.m_headers
  headers : ValidHeaders c.m_req_arg.m_headers ∧ LeavesLength c.m_req_arg.m_headers
  cookies : PlainCookies c.m_req_arg.m_cookies

/-- The headers inside the helper, those of the request over them, and the length -/
def sent_headers (c : request_helper) (body_size : ℕ) : headers_t :=
  (c.m_helper.m_headers.assignAll (c.m_req_arg.m_headers.entries.map fun e => (str_to_lower e.1, e.2))).assign
    header.content_length (digits 10 body_size)

/-- The cookies as they stand on their line -/
def cookie_text (cookies : basic_map Bytes) : Bytes :=
  (cookies.entries.map fun e => e.1 ++ (ascii "=" ++ (e.2 ++ ascii ";"))).flatten

def cookie_fields (cookies : basic_map Bytes) : List Bytes :=
  if cookies.entries = [] then [] else [ascii "Cookie: " ++ cookie_text cookies]

/-- The header lines of a request -/
def request_fields (headers : headers_t) (cookies : basic_map Bytes) : List Bytes :=
  headers.entries.map helper_base.field_line ++ cookie_fields cookies

variable {c c' : request_helper} {version_v : version_t} {method : method_t} {body_size : ℕ} {data : Bytes}

theorem Sendable.find_none (h : Sendable c) (key : Bytes)
    (hkey : key = header.content_length ∨ key = header.transfer_encoding) :
    (c.m_helper.m_headers.assignAll (c.m_req_arg.m_headers.entries.map fun e => (str_to_lower e.1, e.2))).find key =
      none := by
  have hboth : c.m_helper.m_headers.find key = none ∧ c.m_req_arg.m_headers.find key = none := by
    rcases hkey with rfl | rfl
    · exact ⟨h.inside.2.1, h.headers.2.1⟩
    · exact ⟨h.inside.2.2, h.headers.2.2⟩
  refine (OrderedMap.find_assignAll_ne _ _ key fun e he => ?_).trans hboth.1
  obtain ⟨b, hb, rfl⟩ := List.mem_map.mp he
  rw [(key_rank_eq_iff (str_to_lower b.1) b.1).mpr (str_to_lower_idem b.1)]
  exact ((OrderedMap.find_eq_none_iff _ _).mp hboth.2 b hb).symm

theorem Sendable.sent_valid (h : Sendable c) (body_size : ℕ) : ValidHeaders (sent_headers c body_size) := by
  refine valid_assign _ _ _ (valid_assignAll _ _ h.inside.1 fun e he => ?_) content_length_name
    (helper_base.digits_no_lf 10 _ (by omega) (by omega))
  obtain ⟨b, hb, rfl⟩ := List.mem_map.mp he
  exact ⟨lower_name b.1 (h.headers.1 b hb).1, (h.headers.1 b hb).2⟩

theorem PlainCookies.isLine {cookies : basic_map Bytes} (h : PlainCookies cookies) :
    IsLine crlf (ascii "Cookie: " ++ cookie_text cookies) :=
  cookie_line_isLine cookies fun e he => (h e he).2.1

/-- The lines of a request that has these headers -/
def request_head (hpath : UrlPath c.m_req_arg.m_url.m_path) (hcookies : PlainCookies c.m_req_arg.m_cookies)
    {headers : headers_t} (hvalid : ValidHeaders headers) (method : method_t) {vs : Bytes}
    (hvs : version_string version_v = .ok vs) : Head where
  first := request_line c.m_req_arg.m_url method vs
  fields := request_fields headers c.m_req_arg.m_cookies
  first_line := request_line_isLine _ method hpath hvs
  field_line := by
    intro l hl
    rcases List.mem_append.mp hl with hl | hl
    · obtain ⟨e, he, rfl⟩ := List.mem_map.mp hl
      obtain ⟨hname, hvalue⟩ := hvalid e he
      exact ⟨field_line_isLine e hname hvalue, by simp [helper_base.field_line, hname.ne]⟩
    · unfold cookie_fields at hl
      split at hl
      · cases hl
      · obtain rfl := List.mem_singleton.mp hl
        exact ⟨hcookies.isLine, by simp [ascii]⟩

theorem cookie_text_unlines (cookies : basic_map Bytes) :
    cookie_text cookies ++ ascii ";" = unlines (ascii ";") (cookies.entries.map Server.plain_pair ++ [[]]) := by
  simp [cookie_text, unlines, Server.plain_pair, Function.comp_def]

theorem mem_cookie_text (cookies : basic_map Bytes) (c : UInt8) (h : c ∈ cookie_text cookies) :
    (∃ e ∈ cookies.entries, c ∈ e.1 ∨ c ∈ e.2) ∨ c = 61 ∨ c = 59 := by
  obtain ⟨_, hpair, hc⟩ := List.mem_flatten.mp h
  obtain ⟨e, he, rfl⟩ := List.mem_map.mp hpair
  simp only [List.mem_append, show ascii "=" = [61] from rfl, show ascii ";" = [59] from rfl, List.mem_singleton] at hc
  rcases hc with hc | hc | hc | hc
  · exact .inl ⟨e, he, .inl hc⟩
  · exact .inr (.inl hc)
  · exact .inl ⟨e, he, .inr hc⟩
  · exact .inr (.inr hc)

theorem arrived_cookie_text {cookies : basic_map Bytes} (h : PlainCookies cookies) (hne : cookies.entries ≠ []) :
    arrived (cookie_text cookies) = cookie_text cookies := by
  refine (arrived_eq_iff _).mpr ⟨?_, ?_⟩
  · obtain ⟨e, es, hes⟩ := List.exists_cons_of_ne_nil hne
    have hfirst := Server.plain_pair_unpadded e (h e (by rw [hes]; exact List.mem_cons_self)).1
    obtain ⟨front, last, hlast⟩ := (List.eq_nil_or_concat' cookies.entries).resolve_left hne
    have hhead : (cookie_text cookies).head? = (Server.plain_pair e).head? := by
      unfold cookie_text Server.plain_pair
      rw [hes]
      simp [List.head?_append, ascii]
    have hend : (cookie_text cookies).getLast? = some 59 := by
      unfold cookie_text
      rw [hlast]
      simp [List.getLast?_append, List.getLast?_cons, ascii]
    unfold unpadded at hfirst ⊢
    rw [decide_eq_true_iff] at hfirst ⊢
    rw [hhead, hend]
    exact ⟨hfirst.1, by decide⟩
  · have hno : 0x25 ∉ cookie_text cookies := by
      intro hmem
      rcases mem_cookie_text cookies _ hmem with ⟨e, he, hname | hvalue⟩ | hc | hc
      · exact (h e he).2.2.1 hname
      · exact (h e he).2.2.2 hvalue
      · cases hc
      · cases hc
    unfold undecoded
    exact decide_eq_true fun hmem => hno (List.mem_of_mem_take hmem)

theorem on_parse_cookie_text {cookies : basic_map Bytes} (h : PlainCookies cookies) (hne : cookies.entries ≠ [])
    (r : Server.request_data) (hr : r.m_cookies = .empty) :
    Server.on_parse_cookie r (cookie_text cookies) none = .ok { r with m_cookies := cookies } none () := by
  have hnotblank : ∀ e ∈ cookies.entries, str_trimmed (Server.plain_pair e) = Server.plain_pair e := fun e he =>
    str_trimmed_of_unpadded _ (Server.plain_pair_unpadded e (h e he).1)
  have hpieces : from_string (cookie_text cookies) (ascii ";") = cookies.entries.map Server.plain_pair := by
    have htext : cookie_text cookies ≠ [] := by
      obtain ⟨e, es, hes⟩ := List.exists_cons_of_ne_nil hne
      unfold cookie_text
      rw [hes]
      simp [ascii]
    rw [from_string_unlines (by decide) _ _ htext (cookie_text_unlines cookies) ?_ true, List.filter_append,
      List.filter_eq_self.mpr ?_]
    · exact List.append_nil _
    · intro l hl
      obtain ⟨e, he, rfl⟩ := List.mem_map.mp hl
      unfold stays
      rw [hnotblank e he]
      simp [Server.plain_pair, ascii]
    · intro l hl
      rw [show ascii ";" = [59] from rfl, isLine_singleton]
      rcases List.mem_append.mp hl with hl | hl
      · obtain ⟨e, he, rfl⟩ := List.mem_map.mp hl
        intro hmem
        rcases Server.mem_pair_text _ _ 59 hmem with hname | hequals | hvalue
        · exact (h e he).1.name.1 hname
        · cases hequals
        · exact (h e he).1.value.1 hvalue
      · rw [List.mem_singleton.mp hl]
        simp
  have htrimmed : (cookies.entries.map Server.plain_pair).map str_trimmed = cookies.entries.map Server.plain_pair := by
    rw [List.map_map]
    exact List.map_congr_left hnotblank
  unfold Server.on_parse_cookie
  rw [hpieces, Server.insert_cookies_pairs cookies.entries _ r htrimmed fun e he => (h e he).1, hr,
    OrderedMap.assignAll_self]

/-- The parser of the server behind the fields of a request that has these headers -/
def read_request (version : version_t) (c : request_helper) (version_v : version_t) (method : method_t)
    (headers : headers_t) : impl Server.request_data :=
  { (Server.RequestParser.init version).m_parser_base with
    captured :=
      { m_method := method
        m_path := Server.normalize_path c.m_req_arg.m_url.m_path
        m_parameters := arriving c.m_req_arg.m_url.m_parameters
        m_cookies := c.m_req_arg.m_cookies }
    m_version := version_v
    m_state := .reading_headers
    m_headers := arrivedHeaders headers }

theorem turns_cookie {cookies : basic_map Bytes} (h : PlainCookies cookies) (q : impl Server.request_data)
    (hq : q.m_state = .reading_headers) (hcaptured : q.captured.m_cookies = .empty) :
    turns (header_turn Server.request_handlers) (cookie_fields cookies) q =
      some { q with captured := { q.captured with m_cookies := cookies } } := by
  unfold cookie_fields
  by_cases hempty : cookies.entries = []
  · have hnone : cookies = .empty := OrderedMap.ext_entries hempty
    rw [if_pos hempty, hnone, ← hcaptured]
    rfl
  · rw [if_neg hempty]
    have hinsert := insert_line_cookie Server.request_handlers (cookie_text cookies) q none
    rw [arrived_cookie_text h hempty] at hinsert
    have htaken : header_insert Server.request_handlers (ascii "cookie") (cookie_text cookies) q none =
        .ok { q with captured := { q.captured with m_cookies := cookies } } none () := by
      unfold header_insert
      rw [if_pos (.inl rfl)]
      show Call.mk _ _ _ = _
      rw [on_parse_cookie_text h hempty q.captured hcaptured]
      rfl
    have hne : ascii "Cookie: " ++ cookie_text cookies ≠ [] := by simp [ascii]
    have hturn : header_turn Server.request_handlers (ascii "Cookie: " ++ cookie_text cookies) q =
        .again { q with captured := { q.captured with m_cookies := cookies } } := by
      rw [header_turn_reading Server.request_handlers _ q hq]
      exact field_turn_of_clean _ q _ hne (hinsert.trans (congrArg some htaken)) ⟨rfl, rfl⟩
    exact turns_again _ _ _ _ _ hturn

/-- **The head is taken line by line.** -/
theorem request_head_read (hpath : UrlPath c.m_req_arg.m_url.m_path) (hcookies : PlainCookies c.m_req_arg.m_cookies)
    {headers : headers_t} (hvalid : ValidHeaders headers) (version : version_t) (method : method_t) {vs : Bytes}
    (hvs : version_string version_v = .ok vs) :
    (request_head hpath hcookies hvalid method hvs).read Server.request_handlers
      (Server.RequestParser.init version).m_parser_base = some (read_request version c version_v method headers) := by
  have hbegin := on_parse_begin_line c.m_req_arg.m_url method hpath hvs
  have hclean : (Server.on_parse_begin (Server.RequestParser.init version).m_parser_base.captured
      (request_line c.m_req_arg.m_url method vs) none).Clean version_v := by
    rw [show (Server.RequestParser.init version).m_parser_base.captured = .init from rfl, hbegin]
    exact ⟨rfl, rfl⟩
  have hturn : header_turn Server.request_handlers (request_line c.m_req_arg.m_url method vs)
      (Server.RequestParser.init version).m_parser_base = .again _ :=
    begin_turn_of_clean Server.request_handlers _ _ Server.on_parse_begin version_v rfl hclean
  show turns (header_turn Server.request_handlers)
    (request_line c.m_req_arg.m_url method vs :: request_fields headers c.m_req_arg.m_cookies) _ = _
  unfold request_fields
  rw [turns_again _ _ _ _ _ hturn, turns_append, turns_fields _ _ rfl fun e he => (hvalid e he).1, Option.bind_some,
    turns_cookie hcookies _ rfl (by
      rw [show (Server.RequestParser.init version).m_parser_base.captured = .init from rfl, hbegin]
      rfl)]
  rw [show (Server.RequestParser.init version).m_parser_base.captured = .init from rfl, hbegin]
  rfl

theorem read_request_length (version : version_t) (c : request_helper) (version_v : version_t) (method : method_t)
    (body_size : ℕ) :
    (read_request version c version_v method (sent_headers c body_size)).m_headers.find header.content_length =
      some (digits 10 body_size) := by
  have hplain : ∀ b ∈ digits 10 body_size, isBlank b = false ∧ b ≠ 0x25 := fun b hb =>
    byte_forall (p := fun b => isDigit 10 b = true → isBlank b = false ∧ b ≠ 0x25) (by decide +kernel) b
      (List.all_eq_true.mp (digits_all 10 body_size (by omega) (by omega)) b hb)
  have hsame : arrived (digits 10 body_size) = digits 10 body_size := by
    refine (arrived_eq_iff _).mpr ⟨unpadded_of_not_blank _ fun b hb => (hplain b hb).1, ?_⟩
    unfold undecoded
    exact decide_eq_true fun hmem => (hplain _ (List.mem_of_mem_take hmem)).2 rfl
  show (arrivedHeaders (sent_headers c body_size)).find _ = _
  rw [find_arrivedHeaders]
  unfold sent_headers
  rw [OrderedMap.find_assign_self _ _ _ _ rfl, Option.map_some, hsame]

/-! ## The whole request -/

/-- No line is so long that the parser would give up on it before its end is there. -/
def ShortLines (data : Bytes) : Prop :=
  ∀ front l rest, data = front ++ (l ++ crlf ++ rest) → IsLine crlf l → l.length ≤ 1022

theorem unlines_part (sep : Bytes) (ls : List Bytes) (l : Bytes) (hl : l ∈ ls) :
    ∃ front rest, unlines sep ls = front ++ (l ++ sep ++ rest) := by
  obtain ⟨before, after, rfl⟩ := List.append_of_mem hl
  exact ⟨unlines sep before, unlines sep after, by simp⟩

theorem ShortLines.line (h : Head) (hshort : ShortLines h.text) (l : Bytes) (hl : l ∈ h.lines) : l.length ≤ 1022 := by
  obtain ⟨front, rest, htext⟩ := unlines_part crlf _ l (List.mem_append_left [[]] hl)
  exact hshort front l rest htext (h.isLine l hl)

/-- The lines of a request that the helper counts -/
def Sendable.head (h : Sendable c) (method : method_t) {vs : Bytes} (hvs : version_string version_v = .ok vs)
    (body_size : ℕ) : Head :=
  request_head h.path h.cookies (h.sent_valid body_size) method hvs

theorem Sendable.whole (h : Sendable c) (version : version_t) (method : method_t) {vs body : Bytes}
    (hvs : version_string version_v = .ok vs) (hsize : body_size < size_max) (hbody : body.length = body_size)
    (hshort : ShortLines (h.head method hvs body_size).text) :
    PlainRequest Server.request_handlers (Server.RequestParser.init version).m_parser_base
        (h.head method hvs body_size) body ∧
      (Server.append (.init version) ((h.head method hvs body_size).text ++ body)).obj.m_parser_base =
        received (read_request version c version_v method (sent_headers c body_size)) body_size body := by
  have hread : (h.head method hvs body_size).read Server.request_handlers
      (Server.RequestParser.init version).m_parser_base = _ :=
    request_head_read h.path h.cookies (h.sent_valid body_size) version method hvs
  have hfresh : Fresh (Server.RequestParser.init version).m_parser_base := fresh_init _ _
  have hlength := read_request_length version c version_v method body_size
  have happend : ∀ b, append Server.request_handlers (Server.RequestParser.init version).m_parser_base
      ((h.head method hvs body_size).text ++ b) =
        .ok (received (read_request version c version_v method (sent_headers c body_size)) body_size b) none true :=
    fun b => by
      rw [append_text _ _ _ b hfresh hread]
      exact set_read_body_length _ b _ body_size rfl hlength (ston_digits body_size hsize)
  have hhead := happend []
  rw [List.append_nil] at hhead
  refine ⟨⟨⟨?_, ?_, ?_⟩, fun l hl => ShortLines.line (h.head method hvs body_size) hshort l hl⟩, ?_⟩
  · rw [hhead]
    exact ⟨rfl, rfl⟩
  · rw [hhead]
    show (if ([] : Bytes).length < body_size then state.reading_length else state.finished) ≠ _
    split <;> exact nofun
  · rw [hhead]
    simp only [Call.ok, received, hlength]
    exact hbody
  · rw [(Server.append_base _ _).1, happend body]
    rfl

end Libgs.Client
