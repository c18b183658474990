import Libgs.Client.RequestHelper
import Libgs.Core.StringList
import Libgs.Http.Turns
import Libgs.Server.RequestLine

/-!
# The query from client to server

What the request parser of the server reads in the request line of the client.
-/

namespace Libgs.Client

open Lib Libgs.Http

/-! ## The characters of the request line -/

/-- A path of characters without escape, and slashes -/
structure UrlPath (path : Bytes) : Prop where
  root : string_pool.root <+: path
  plain : ∀ c ∈ path, isUnreserved c = true ∨ c = 47

theorem plain_ne (c : UInt8) (h : isUnreserved c = true ∨ c = 47) : c ≠ 10 ∧ c ≠ 13 ∧ c ≠ 32 ∧ c ≠ 0x25 ∧ c ≠ 63 :=
  byte_forall (p := fun c => isUnreserved c = true ∨ c = 47 → c ≠ 10 ∧ c ≠ 13 ∧ c ≠ 32 ∧ c ≠ 0x25 ∧ c ≠ 63)
    (by decide +kernel) c h

theorem UrlPath.not_mem {path : Bytes} (h : UrlPath path) {c : UInt8}
    (hc : c = 10 ∨ c = 13 ∨ c = 32 ∨ c = 0x25 ∨ c = 63) :
    c ∉ path := by
  intro hmem
  have := plain_ne c (h.plain c hmem)
  rcases hc with rfl | rfl | rfl | rfl | rfl <;> simp at this

theorem path_text_no_blank (u : url) (h : UrlPath u.m_path) {c : UInt8} (hc : c = 10 ∨ c = 13 ∨ c = 32) :
    c ∉ path_text u := by
  have hpath : c ∉ u.m_path := h.not_mem (hc.imp_right fun hc => hc.imp_right .inl)
  unfold path_text
  split
  · exact hpath
  · intro hmem
    rcases List.mem_append.mp hmem with hmem | hmem
    · exact hpath hmem
    · rcases List.mem_append.mp hmem with hmem | hmem
      · rcases hc with rfl | rfl | rfl <;> revert hmem <;> decide
      · rcases mem_to_percent_encoding _ c hmem with rfl | hplain
        · simp at hc
        · have := plain_ne c (.inl hplain)
          rcases hc with rfl | rfl | rfl <;> simp at this

theorem method_text (m : method_t) :
    from_method_string (method_string m) = .ok m ∧ (∀ c ∈ method_string m, c ≠ 10 ∧ c ≠ 13 ∧ c ≠ 32) ∧
      str_trimmed (method_string m) ≠ [] := by
  cases m <;> exact ⟨by rfl, by decide +kernel, by decide +kernel⟩

theorem version_text {version_v : version_t} {vs : Bytes} (h : version_string version_v = .ok vs) :
    version_number vs = .ok version_v ∧ vs.length = 3 ∧ ∀ c ∈ vs, c ≠ 10 ∧ c ≠ 13 ∧ c ≠ 32 := by
  unfold version_string at h
  split at h
  · rename_i e he
    cases h
    have hmem := List.mem_of_find?_eq_some he
    have hv : e.1 = version_v := by simpa using List.find?_some he
    simp only [version_table, List.mem_cons, List.not_mem_nil, or_false] at hmem
    rcases hmem with rfl | rfl | rfl <;> cases hv <;> exact ⟨by rfl, by rfl, by decide +kernel⟩
  · cases h

/-! ## The request line in three parts -/

theorem request_line_unlines (u : url) (method : method_t) (vs : Bytes) :
    request_line u method vs ++ ascii " " =
      unlines (ascii " ") [method_string method, path_text u, ascii "HTTP/" ++ vs] := by
  simp [request_line]

theorem request_line_parts (u : url) (method : method_t) {version_v : version_t} {vs : Bytes} (hpath : UrlPath u.m_path)
    (hversion : version_string version_v = .ok vs) :
    from_string (request_line u method vs) (ascii " ") = [method_string method, path_text u, ascii "HTTP/" ++ vs] := by
  obtain ⟨-, hmethod, hmethod'⟩ := method_text method
  obtain ⟨-, -, hvs⟩ := version_text hversion
  refine from_string_pieces (by decide) _ _ (request_line_unlines u method vs) ?_ ?_ true
  · intro l hl
    rw [show ascii " " = [32] from rfl, isLine_singleton]
    simp only [List.mem_cons, List.not_mem_nil, or_false] at hl
    rcases hl with rfl | rfl | rfl
    · exact fun h => (hmethod 32 h).2.2 rfl
    · exact path_text_no_blank u hpath (.inr (.inr rfl))
    · intro h
      rcases List.mem_append.mp h with h | h
      · revert h
        decide
      · exact (hvs 32 h).2.2 rfl
  · intro l hl
    simp only [List.mem_cons, List.not_mem_nil, or_false] at hl
    rcases hl with rfl | rfl | rfl
    · exact hmethod'
    · have hroot : 47 ∈ path_text u := by
        have : 47 ∈ u.m_path := hpath.root.subset (by decide)
        unfold path_text
        split
        · exact this
        · exact List.mem_append_left _ this
      exact List.ne_nil_of_mem (mem_str_trimmed _ 47 hroot (by decide))
    · exact List.ne_nil_of_mem (mem_str_trimmed _ 72 (List.mem_append_left _ (by decide)) (by decide))

theorem request_line_isLine (u : url) (method : method_t) {version_v : version_t} {vs : Bytes}
    (hpath : UrlPath u.m_path)
    (hversion : version_string version_v = .ok vs) : IsLine crlf (request_line u method vs) := by
  obtain ⟨-, hmethod, -⟩ := method_text method
  obtain ⟨-, -, hvs⟩ := version_text hversion
  refine Coding.isLine_of_not_mem _ ?_
  unfold request_line
  simp only [List.mem_append, not_or]
  exact ⟨fun h => (hmethod 10 h).1 rfl, by decide, path_text_no_blank u hpath (.inl rfl), by decide, by decide,
    fun h => (hvs 10 h).1 rfl⟩

/-! ## The parameters -/

/-- The parameters as the server reads them from the line -/
def arriving (parameters : parameters_t) : parameters_t :=
  (from_string (parameters_text parameters) (ascii "&")).foldl Server.insert_parameter .empty

/-- No name has a separator of the query in it, and no value the separator of the parameters. -/
def Separated (parameters : parameters_t) : Prop := ∀ e ∈ parameters.entries, 38 ∉ e.1 ∧ 61 ∉ e.1 ∧ 38 ∉ e.2

theorem insert_parameter_separated (m : parameters_t) (piece : Bytes) (hm : Separated m) (hpiece : 38 ∉ piece) :
    Separated (Server.insert_parameter m piece) := by
  unfold Server.insert_parameter
  cases hcut : cut (ascii "=") piece with
  | none =>
    have hno : 61 ∉ piece := by
      rw [cut_eq_none, show ascii "=" = [61] from rfl, List.singleton_infix_iff] at hcut
      exact hcut
    intro e he
    rcases OrderedMap.mem_emplace m piece piece e he with rfl | he
    · exact ⟨hpiece, hno, hpiece⟩
    · exact hm e he
  | some kv =>
    obtain ⟨key, value⟩ := kv
    obtain ⟨rfl, hkey⟩ := cut_eq_some (ascii "=") piece key value (by decide) hcut
    simp only [List.mem_append, not_or] at hpiece
    intro e he
    rcases OrderedMap.mem_emplace m key value e he with rfl | he
    · exact ⟨hpiece.1, (isLine_singleton 61 key).mp hkey, hpiece.2.2⟩
    · exact hm e he

theorem insert_parameters_separated (pieces : List Bytes) (m : parameters_t) (hm : Separated m)
    (hpieces : ∀ piece ∈ pieces, 38 ∉ piece) : Separated (pieces.foldl Server.insert_parameter m) := by
  induction pieces generalizing m with
  | nil => exact hm
  | cons piece pieces ih =>
    exact ih _ (insert_parameter_separated m piece hm (hpieces piece List.mem_cons_self))
      fun p hp => hpieces p (List.mem_cons_of_mem _ hp)

theorem arriving_separated (parameters : parameters_t) : Separated (arriving parameters) := by
  refine insert_parameters_separated _ .empty (fun e he => by cases he) fun piece hpiece => ?_
  exact (isLine_singleton 38 piece).mp (from_string_isLine (by decide) true _ piece hpiece)

theorem parameters_text_unlines (parameters : parameters_t) (h : parameters.entries ≠ []) :
    parameters_text parameters ++ ascii "&" = unlines (ascii "&") (parameters.entries.map parameter_text) := by
  obtain ⟨front, e, he⟩ := (List.eq_nil_or_concat' parameters.entries).resolve_left h
  unfold parameters_text unlines
  simp [he, show ascii "&" = [38] from rfl, Function.comp_def]

theorem insert_parameter_text (m : parameters_t) (e : Bytes × Bytes) (h : 61 ∉ e.1) :
    Server.insert_parameter m (parameter_text e) = m.emplace e.1 e.2 := by
  have hcut : cut (ascii "=") (parameter_text e) = some (e.1, e.2) :=
    cut_append_pat (ascii "=") e.1 e.2 (by decide) ((isLine_singleton 61 e.1).mpr h)
  simp [Server.insert_parameter, hcut]

theorem insert_parameters_text (es : List (Bytes × Bytes)) (m : parameters_t) (h : ∀ e ∈ es, 61 ∉ e.1) :
    (es.map parameter_text).foldl Server.insert_parameter m = m.emplaceAll es := by
  induction es generalizing m with
  | nil => rfl
  | cons e es ih =>
    rw [List.map_cons, List.foldl_cons, insert_parameter_text m e (h e List.mem_cons_self),
      ih _ fun a ha => h a (List.mem_cons_of_mem _ ha)]
    rfl

theorem from_string_parameters {text : Bytes} {es : List (Bytes × Bytes)}
    (hlines : text ++ ascii "&" = unlines (ascii "&") (es.map parameter_text)) (h : ∀ e ∈ es, 38 ∉ e.1 ∧ 38 ∉ e.2) :
    from_string text (ascii "&") = es.map parameter_text := by
  refine from_string_pieces (by decide) _ _ hlines ?_ ?_ true
  · intro l hl
    obtain ⟨e, he, rfl⟩ := List.mem_map.mp hl
    refine (isLine_singleton 38 _).mpr ?_
    unfold parameter_text
    simp only [List.mem_append, not_or]
    exact ⟨(h e he).1, by decide, (h e he).2⟩
  · intro l hl
    obtain ⟨e, -, rfl⟩ := List.mem_map.mp hl
    have hmem : 61 ∈ parameter_text e := List.mem_append_right _ (List.mem_append_left _ (by decide))
    exact List.ne_nil_of_mem (mem_str_trimmed _ 61 hmem (by decide))

theorem arriving_eq_iff (parameters : parameters_t) : arriving parameters = parameters ↔ Separated parameters := by
  constructor
  · intro h
    rw [← h]
    exact arriving_separated parameters
  · intro h
    unfold arriving
    by_cases hempty : parameters.entries = []
    · rw [show parameters_text parameters = [] by simp [parameters_text, hempty]]
      exact OrderedMap.ext_entries hempty.symm
    · have hpieces : from_string (parameters_text parameters) (ascii "&") = parameters.entries.map parameter_text :=
        from_string_parameters (parameters_text_unlines parameters hempty) fun e he => ⟨(h e he).1, (h e he).2.2⟩
      rw [hpieces, insert_parameters_text _ _ fun e he => (h e he).2.1, OrderedMap.emplaceAll_self]

/-! ## The whole line -/

theorem decode_path_text (u : url) (hpath : UrlPath u.m_path) :
    from_percent_encoding (path_text u) =
      if u.m_parameters.entries = [] then u.m_path else u.m_path ++ (ascii "?" ++ parameters_text u.m_parameters) := by
  have hno : 0x25 ∉ u.m_path := hpath.not_mem (.inr (.inr (.inr (.inl rfl))))
  unfold path_text
  split
  · exact from_percent_plain _ hno
  · rw [from_percent_append _ _ hno, from_percent_append _ _ (by decide), from_to_percent_encoding]

theorem set_url_path_text (u : url) (hpath : UrlPath u.m_path) (r : Server.request_data)
    (hr : r.m_parameters = .empty) :
    Server.set_url (from_percent_encoding (path_text u)) r =
      { r with m_path := u.m_path, m_parameters := arriving u.m_parameters } := by
  have hno : IsLine (ascii "?") u.m_path := (isLine_singleton 63 u.m_path).mpr
    (hpath.not_mem (.inr (.inr (.inr (.inr rfl)))))
  rw [decode_path_text u hpath]
  by_cases hempty : u.m_parameters.entries = []
  · have hnone : cut (ascii "?") u.m_path = none := by
      rw [cut_eq_none]
      exact fun h => hno (h.trans (List.prefix_append _ _).isInfix)
    have harriving : arriving u.m_parameters = .empty := by
      unfold arriving parameters_text
      rw [hempty]
      rfl
    rw [if_pos hempty, harriving, ← hr]
    simp [Server.set_url, hnone]
  · have hcut : cut (ascii "?") (u.m_path ++ (ascii "?" ++ parameters_text u.m_parameters)) =
        some (u.m_path, parameters_text u.m_parameters) :=
      cut_append_pat (ascii "?") _ _ (by decide) hno
    rw [if_neg hempty]
    simp only [Server.set_url, hcut, hr]
    rfl

theorem on_parse_begin_line (u : url) (method : method_t) {version_v : version_t} {vs : Bytes}
    (hpath : UrlPath u.m_path)
    (hversion : version_string version_v = .ok vs) :
    Server.on_parse_begin .init (request_line u method vs) none =
      .ok { Server.request_data.init with
            m_method := method
            m_path := Server.normalize_path u.m_path
            m_parameters := arriving u.m_parameters } none version_v := by
  obtain ⟨hnumber, hthree, -⟩ := version_text hversion
  have hprefix : ascii "HTTP/" <+: str_to_upper (ascii "HTTP/" ++ vs) := by
    unfold str_to_upper
    rw [List.map_append]
    exact List.prefix_append _ _
  have hvs : ((ascii "HTTP/" ++ vs).drop 5).take 3 = vs := by
    rw [List.drop_left' (by rfl), List.take_of_length_le (by omega)]
  unfold Server.on_parse_begin
  rw [request_line_parts u method hpath hversion]
  dsimp only
  rw [if_neg (not_not.mpr hprefix), (method_text method).1, hvs, hnumber]
  dsimp only
  rw [set_url_path_text u hpath _ rfl, if_neg (not_not.mpr hpath.root)]

theorem append_request_line (version : version_t) (u : url) (method : method_t) {version_v : version_t} {vs : Bytes}
    (hpath : UrlPath u.m_path) (hversion : version_string version_v = .ok vs) :
    let c := Server.append (.init version) (request_line u method vs ++ crlf)
    c.Clean false ∧ c.obj.m_parser_base.captured.m_path = Server.normalize_path u.m_path ∧
      c.obj.m_parser_base.captured.m_parameters = arriving u.m_parameters := by
  have hbegin := on_parse_begin_line u method hpath hversion
  have hline := request_line_isLine u method hpath hversion
  obtain ⟨hobj, herror, hvalue⟩ := Server.append_base (.init version) (request_line u method vs ++ crlf)
  have hclean : (Server.on_parse_begin (Server.RequestParser.init version).m_parser_base.captured
      (request_line u method vs) none).Clean version_v := by
    rw [show (Server.RequestParser.init version).m_parser_base.captured = .init from rfl, hbegin]
    exact ⟨rfl, rfl⟩
  have hfresh : Fresh (Server.RequestParser.init version).m_parser_base := fresh_init _ _
  have hturn : header_turn Server.request_handlers (request_line u method vs)
      (Server.RequestParser.init version).m_parser_base = .again _ :=
    begin_turn_of_clean Server.request_handlers (request_line u method vs) _ Server.on_parse_begin version_v rfl hclean
  rw [append_first_line _ _ _ hfresh hline hturn] at hobj herror hvalue
  dsimp only
  rw [hobj]
  refine ⟨⟨herror, hvalue⟩, ?_⟩
  simp only [Call.ok]
  rw [show (Server.RequestParser.init version).m_parser_base.captured = .init from rfl, hbegin]
  exact ⟨rfl, rfl⟩

/-- **The query from client to server.** The server accepts the request line of the client. It reads the same path and
the same parameters if and only if its normal form of the path is the path and no separator stands in the parameters. -/
theorem query_agrees_iff (version_v version : version_t) (h h' : request_helper) (method : method_t) (body_size : ℕ)
    (data : Bytes) (hpath : UrlPath h.m_req_arg.m_url.m_path) (hstate : h.m_helper.m_state = .header)
    (hdata : h.header_data version_v method body_size = .ok (data, h')) :
    let u := h.m_req_arg.m_url
    ∃ line rest, cut crlf data = some (line, rest) ∧
      let c := Server.append (.init version) (line ++ crlf)
      c.Clean false ∧
        ((c.obj.m_parser_base.captured.m_path = u.m_path ∧
            c.obj.m_parser_base.captured.m_parameters = u.m_parameters) ↔
          (¬ ascii "//" <:+: u.m_path ∧ (u.m_path = string_pool.root ∨ ¬ string_pool.root <:+ u.m_path)) ∧
            Separated u.m_parameters) := by
  obtain ⟨vs, rest, hversion, hline⟩ := request_helper.header_data_line hstate hdata
  obtain ⟨hclean, hp, hparameters⟩ := append_request_line version h.m_req_arg.m_url method hpath hversion
  refine ⟨request_line h.m_req_arg.m_url method vs, rest, ?_, hclean, ?_⟩
  · rw [hline]
    exact cut_append_pat crlf _ rest (by decide) (request_line_isLine _ method hpath hversion)
  · rw [hp, hparameters, Server.normalize_path_eq_iff _ hpath.root, arriving_eq_iff]

def searchHelper (value : Bytes) : request_helper where
  m_helper := .init
  m_req_arg :=
    { m_url := { m_path := ascii "/search", m_parameters := OrderedMap.empty.emplace (ascii "q") value }
      m_headers := OrderedMap.empty.assign header.content_type string_pool.text_plain
      m_cookies := .empty }

def searchFields : Bytes := ascii "Content-Length: 0\r\nContent-Type: text/plain; charset=utf-8\r\n\r\n"

theorem search_path (value : Bytes) : UrlPath (searchHelper value).m_req_arg.m_url.m_path where
  root := by
    show string_pool.root <+: ascii "/search"
    decide +kernel
  plain := by
    show ∀ c ∈ ascii "/search", isUnreserved c = true ∨ c = 47
    decide +kernel

def searched (value : Bytes) : request_helper :=
  { searchHelper value with m_helper := helper_base.init.declare_length 0 }

theorem search_data (value : Bytes) :
    (searchHelper value).header_data version.v11 .GET 0 =
      .ok (request_line (searchHelper value).m_req_arg.m_url .GET (ascii "1.1") ++ crlf ++ searchFields,
        searched value) := by
  rfl

theorem query_agrees_iff_search :
    let u := (searchHelper (ascii "a b")).m_req_arg.m_url
    ∃ line rest, cut crlf (request_line u .GET (ascii "1.1") ++ crlf ++ searchFields) = some (line, rest) ∧
      let c := Server.append (.init 0) (line ++ crlf)
      c.Clean false ∧
        ((c.obj.m_parser_base.captured.m_path = u.m_path ∧
            c.obj.m_parser_base.captured.m_parameters = u.m_parameters) ↔
          (¬ ascii "//" <:+: u.m_path ∧ (u.m_path = string_pool.root ∨ ¬ string_pool.root <:+ u.m_path)) ∧
            Separated u.m_parameters) :=
  query_agrees_iff version.v11 0 (searchHelper (ascii "a b")) (searched (ascii "a b")) .GET 0 _ (search_path _) rfl
    (search_data (ascii "a b"))

theorem ampersand_splits :
    let h := searchHelper (ascii "a&b")
    let line := ascii "GET /search?q%3Da%26b HTTP/1.1"
    UrlPath h.m_req_arg.m_url.m_path ∧
      h.header_data version.v11 .GET 0 = .ok (line ++ crlf ++ searchFields, searched (ascii "a&b")) ∧
      cut crlf (line ++ crlf ++ searchFields) = some (line, searchFields) ∧
      h.m_req_arg.m_url.m_parameters.entries = [(ascii "q", ascii "a&b")] ∧
      (Server.append (.init 0) (line ++ crlf)).obj.m_parser_base.captured.m_parameters.entries =
        [(ascii "b", ascii "b"), (ascii "q", ascii "a")] := by
  have hline : request_line (searchHelper (ascii "a&b")).m_req_arg.m_url .GET (ascii "1.1") =
      ascii "GET /search?q%3Da%26b HTTP/1.1" := by
    decide +kernel
  have hdata := search_data (ascii "a&b")
  rw [hline] at hdata
  exact ⟨search_path _, hdata, by decide +kernel, by rfl, by decide +kernel⟩

end Libgs.Client
