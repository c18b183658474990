import Libgs.Core.StringList
import Libgs.Http.HeaderLines
import Libgs.Server.Exceptions

/-!
# Cookies in percent coding

The parser decodes the whole value of a header line, and only then it looks for the separators of
the cookies and trims them.
-/

namespace Libgs.Server

open Lib Libgs.Http

/-! ## The line -/

/-- A cookie with name and value encoded -/
def encoded_pair (e : Bytes × Bytes) : Bytes := to_percent_encoding e.1 ++ (ascii "=" ++ to_percent_encoding e.2)

/-- The pairs with a semicolon and a blank between them -/
def joined (pair : Bytes × Bytes → Bytes) (es : List (Bytes × Bytes)) : Bytes :=
  (ascii "; ").intercalate (es.map pair)

/-- The line of cookies that are encoded -/
def encoded_line (cookies : basic_map Bytes) : Bytes := ascii "Cookie: " ++ joined encoded_pair cookies.entries

/-- A cookie as it is -/
def plain_pair (e : Bytes × Bytes) : Bytes := e.1 ++ (ascii "=" ++ e.2)

theorem joined_one (pair : Bytes × Bytes → Bytes) (e : Bytes × Bytes) : joined pair [e] = pair e := by
  simp [joined]

theorem joined_cons (pair : Bytes × Bytes → Bytes) (e f : Bytes × Bytes) (es : List (Bytes × Bytes)) :
    joined pair (e :: f :: es) = pair e ++ (ascii "; " ++ joined pair (f :: es)) := by
  simp [joined, List.intercalate]

theorem joined_ends (pair : Bytes × Bytes → Bytes) (es : List (Bytes × Bytes))
    (h : ∀ e ∈ es, pair e ≠ [] ∧ ∀ c ∈ pair e, isBlank c = false) (hne : es ≠ []) :
    (∃ c, (joined pair es).head? = some c ∧ isBlank c = false) ∧
      ∃ c, (joined pair es).getLast? = some c ∧ isBlank c = false := by
  induction es with
  | nil => exact absurd rfl hne
  | cons e es ih =>
    obtain ⟨⟨hpair, hplain⟩, hes⟩ := List.forall_mem_cons.mp h
    obtain ⟨c, rest, hc⟩ := List.exists_cons_of_ne_nil hpair
    have hfirst : isBlank c = false := hplain c (by rw [hc]; exact List.mem_cons_self)
    cases es with
    | nil =>
      rw [joined_one]
      refine ⟨⟨c, by rw [hc]; rfl, hfirst⟩, (pair e).getLast hpair, List.getLast?_eq_getLast_of_ne_nil hpair, ?_⟩
      exact hplain _ (List.getLast_mem hpair)
    | cons f es =>
      obtain ⟨-, d, hd, hlast⟩ := ih hes (List.cons_ne_nil _ _)
      rw [joined_cons]
      refine ⟨⟨c, by rw [hc]; rfl, hfirst⟩, d, ?_, hlast⟩
      rw [List.getLast?_append, List.getLast?_append, hd]
      rfl

theorem joined_unpadded (pair : Bytes × Bytes → Bytes) (es : List (Bytes × Bytes))
    (h : ∀ e ∈ es, pair e ≠ [] ∧ ∀ c ∈ pair e, isBlank c = false) : unpadded (joined pair es) = true := by
  by_cases hne : es = []
  · rw [hne]
    rfl
  · obtain ⟨⟨c, hc, hfirst⟩, d, hd, hlast⟩ := joined_ends pair es h hne
    simp [unpadded, hc, hd, hfirst, hlast]

theorem mem_pair_text (key value : Bytes) (c : UInt8) (h : c ∈ key ++ (ascii "=" ++ value)) :
    c ∈ key ∨ c = 61 ∨ c ∈ value := by
  rcases List.mem_append.mp h with hkey | h
  · exact .inl hkey
  · rcases List.mem_append.mp h with hequals | hvalue
    · exact .inr (.inl (List.mem_singleton.mp hequals))
    · exact .inr (.inr hvalue)

theorem encoded_pair_bytes (e : Bytes × Bytes) (c : UInt8) (h : c ∈ encoded_pair e) : c ≠ 10 ∧ isBlank c = false := by
  have hcoded : ∀ text, c ∈ to_percent_encoding text → c ≠ 10 ∧ isBlank c = false := fun text hmem =>
    byte_forall (p := fun c => c = 0x25 ∨ isUnreserved c = true → c ≠ 10 ∧ isBlank c = false)
      (by decide +kernel) c (mem_to_percent_encoding text c hmem)
  rcases mem_pair_text _ _ c h with hname | rfl | hvalue
  · exact hcoded _ hname
  · decide
  · exact hcoded _ hvalue

theorem mem_joined (pair : Bytes × Bytes → Bytes) (es : List (Bytes × Bytes)) (c : UInt8) (h : c ∈ joined pair es) :
    c ∈ ascii "; " ∨ ∃ e ∈ es, c ∈ pair e := by
  induction es with
  | nil => cases h
  | cons e es ih =>
    cases es with
    | nil => exact .inr ⟨e, List.mem_cons_self, by rwa [joined_one] at h⟩
    | cons f es =>
      rw [joined_cons] at h
      rcases List.mem_append.mp h with h | h
      · exact .inr ⟨e, List.mem_cons_self, h⟩
      · rcases List.mem_append.mp h with h | h
        · exact .inl h
        · obtain h | ⟨g, hg, h⟩ := ih h
          · exact .inl h
          · exact .inr ⟨g, List.mem_cons_of_mem _ hg, h⟩

theorem encoded_line_isLine (cookies : basic_map Bytes) : IsLine crlf (encoded_line cookies) := by
  apply Coding.isLine_of_not_mem
  intro hmem
  rcases List.mem_append.mp hmem with hmem | hmem
  · revert hmem
    decide
  · obtain hmem | ⟨e, -, hmem⟩ := mem_joined _ _ _ hmem
    · revert hmem
      decide
    · exact (encoded_pair_bytes e 10 hmem).1 rfl

/-! ## Decoding -/

theorem from_to_percent_append (str rest : Bytes) :
    from_percent_encoding (to_percent_encoding str ++ rest) = str ++ from_percent_encoding rest := by
  induction str with
  | nil => rfl
  | cons c str ih =>
    unfold to_percent_encoding at ih ⊢
    rw [List.flatMap_cons, List.append_assoc, from_encode_byte, ih, List.cons_append]

theorem decode_encoded_pair (e : Bytes × Bytes) (rest : Bytes) :
    from_percent_encoding (encoded_pair e ++ rest) = plain_pair e ++ from_percent_encoding rest := by
  unfold encoded_pair plain_pair
  rw [List.append_assoc, List.append_assoc, from_to_percent_append, from_percent_append _ _ (by decide),
    from_to_percent_append]
  simp only [List.append_assoc]

theorem decode_joined (es : List (Bytes × Bytes)) :
    from_percent_encoding (joined encoded_pair es) = joined plain_pair es := by
  induction es with
  | nil => rfl
  | cons e es ih =>
    cases es with
    | nil =>
      have hone := decode_encoded_pair e []
      rw [List.append_nil] at hone
      rw [joined_one, joined_one, hone]
      exact List.append_nil _
    | cons f es => rw [joined_cons, joined_cons, decode_encoded_pair, from_percent_append _ _ (by decide), ih]

theorem arrived_joined (es : List (Bytes × Bytes)) :
    arrived (joined encoded_pair es) = joined plain_pair es := by
  have hpad := joined_unpadded encoded_pair es fun e _ =>
    ⟨by simp [encoded_pair, ascii], fun c hc => (encoded_pair_bytes e c hc).2⟩
  rw [arrived, str_trimmed_of_unpadded _ hpad, decode_joined]

/-! ## Separating and trimming -/

/-- A cookie that is still there when its text is split and trimmed. -/
structure Separable (e : Bytes × Bytes) : Prop where
  name : 59 ∉ e.1 ∧ 61 ∉ e.1 ∧ unpadded e.1 = true
  value : 59 ∉ e.2 ∧ unpadded e.2 = true

theorem separable_iff (e : Bytes × Bytes) :
    Separable e ↔ (59 ∉ e.1 ∧ 61 ∉ e.1 ∧ unpadded e.1 = true) ∧ 59 ∉ e.2 ∧ unpadded e.2 = true :=
  ⟨fun h => ⟨h.name, h.value⟩, fun h => ⟨h.1, h.2⟩⟩

instance (e : Bytes × Bytes) : Decidable (Separable e) := decidable_of_iff _ (separable_iff e).symm

/-- The pieces of the joined text: each but the first has the blank in front. -/
def pieces : List (Bytes × Bytes) → List Bytes
  | [] => []
  | e :: es => plain_pair e :: es.map fun e => ascii " " ++ plain_pair e

theorem joined_unlines_front (e : Bytes × Bytes) (es : List (Bytes × Bytes)) (front : Bytes) :
    front ++ (joined plain_pair (e :: es) ++ ascii ";") =
      unlines (ascii ";") ((front ++ plain_pair e) :: es.map fun e => ascii " " ++ plain_pair e) := by
  induction es generalizing e front with
  | nil => simp [joined_one]
  | cons f es ih =>
    rw [joined_cons, List.map_cons, unlines_cons, ← ih f (ascii " ")]
    simp [ascii]

theorem joined_unlines (es : List (Bytes × Bytes)) (h : es ≠ []) :
    joined plain_pair es ++ ascii ";" = unlines (ascii ";") (pieces es) := by
  obtain ⟨e, es, rfl⟩ := List.exists_cons_of_ne_nil h
  exact joined_unlines_front e es []

theorem plain_pair_unpadded (e : Bytes × Bytes) (h : Separable e) : unpadded (plain_pair e) = true := by
  have hname := h.name.2.2
  have hvalue := h.value.2
  unfold unpadded at hname hvalue ⊢
  rw [decide_eq_true_iff] at hname hvalue ⊢
  unfold plain_pair
  constructor
  · rw [List.head?_append]
    cases hhead : e.1.head? with
    | none => rfl
    | some c =>
      rw [hhead] at hname
      exact hname.1
  · rw [List.getLast?_append, List.getLast?_append]
    cases hlast : e.2.getLast? with
    | none => rfl
    | some c =>
      rw [hlast] at hvalue
      exact hvalue.2

theorem pieces_trimmed (es : List (Bytes × Bytes)) (h : ∀ e ∈ es, Separable e) :
    (pieces es).map str_trimmed = es.map plain_pair := by
  cases es with
  | nil => rfl
  | cons e es =>
    obtain ⟨he, hes⟩ := List.forall_mem_cons.mp h
    simp only [pieces, List.map_cons, List.map_map]
    rw [str_trimmed_of_unpadded _ (plain_pair_unpadded e he)]
    congr 1
    refine List.map_congr_left fun f hf => ?_
    rw [Function.comp_apply, str_trimmed_blank, str_trimmed_of_unpadded _ (plain_pair_unpadded f (hes f hf))]

theorem pieces_isLine (es : List (Bytes × Bytes)) (h : ∀ e ∈ es, Separable e) : ∀ l ∈ pieces es, 59 ∉ l := by
  have hpair : ∀ e ∈ es, 59 ∉ plain_pair e := by
    intro e he hmem
    rcases mem_pair_text _ _ 59 hmem with hname | hequals | hvalue
    · exact (h e he).name.1 hname
    · revert hequals
      decide
    · exact (h e he).value.1 hvalue
  intro l hl
  cases es with
  | nil => cases hl
  | cons e es =>
    rcases List.mem_cons.mp hl with rfl | hl
    · exact hpair e List.mem_cons_self
    · obtain ⟨f, hf, rfl⟩ := List.mem_map.mp hl
      intro hmem
      rcases List.mem_append.mp hmem with hmem | hmem
      · revert hmem
        decide
      · exact hpair f (List.mem_cons_of_mem _ hf) hmem

theorem from_string_joined (es : List (Bytes × Bytes)) (h : ∀ e ∈ es, Separable e) :
    from_string (joined plain_pair es) (ascii ";") = pieces es := by
  by_cases hne : es = []
  · rw [hne]
    rfl
  · refine from_string_pieces (by decide) _ _ (joined_unlines es hne) ?_ ?_ true
    · intro l hl
      exact (isLine_singleton 59 l).mpr (pieces_isLine es h l hl)
    · intro l hl
      have hmem : str_trimmed l ∈ es.map plain_pair := by
        rw [← pieces_trimmed es h]
        exact List.mem_map_of_mem hl
      obtain ⟨e, -, he⟩ := List.mem_map.mp hmem
      rw [← he]
      simp [plain_pair, ascii]

theorem insert_cookies_pairs (es : List (Bytes × Bytes)) (list : List Bytes) (r : request_data)
    (hlist : list.map str_trimmed = es.map plain_pair) (h : ∀ e ∈ es, Separable e) :
    insert_cookies list r none = .ok { r with m_cookies := r.m_cookies.assignAll es } none () := by
  induction es generalizing list r with
  | nil =>
    obtain rfl : list = [] := List.map_eq_nil_iff.mp hlist
    rfl
  | cons e es ih =>
    obtain ⟨he, hes⟩ := List.forall_mem_cons.mp h
    obtain ⟨statement, list, rfl, hstatement, hrest⟩ := List.map_eq_cons_iff.mp hlist
    have hcut : cut (ascii "=") (str_trimmed statement) = some (e.1, e.2) := by
      rw [hstatement]
      exact cut_append_pat (ascii "=") e.1 e.2 (by decide) ((isLine_singleton 61 e.1).mpr he.name.2.1)
    unfold insert_cookies
    rw [hcut]
    dsimp only
    rw [str_trimmed_of_unpadded _ he.name.2.2, str_trimmed_of_unpadded _ he.value.2, ih list _ hrest hes]
    rfl

theorem insert_cookies_separable (list : List Bytes) (r : request_data) (error : error_code)
    (hlist : ∀ statement ∈ list, 59 ∉ statement) (hr : ∀ e ∈ r.m_cookies.entries, Separable e) :
    ∀ e ∈ (insert_cookies list r error).obj.m_cookies.entries, Separable e := by
  induction list generalizing r with
  | nil => exact hr
  | cons statement list ih =>
    obtain ⟨hstatement, hrest⟩ := List.forall_mem_cons.mp hlist
    unfold insert_cookies
    cases hcut : cut (ascii "=") (str_trimmed statement) with
    | none => exact hr
    | some kv =>
      obtain ⟨key, value⟩ := kv
      obtain ⟨htext, hkey⟩ := cut_eq_some (ascii "=") _ key value (by decide) hcut
      have hno : 59 ∉ key ++ (ascii "=" ++ value) := by
        rw [← htext]
        exact fun hmem => hstatement ((str_trimmed_within statement).subset hmem)
      simp only [List.mem_append, not_or] at hno
      have hequals : 61 ∉ key := (isLine_singleton 61 key).mp hkey
      refine ih _ hrest fun a ha => ?_
      rcases OrderedMap.mem_assign _ _ _ a ha with ⟨hvalue, hname⟩ | hold
      · refine ⟨?_, ?_⟩
        · rcases hname with hname | ⟨b, hb, hname⟩
          · rw [hname]
            exact ⟨fun hmem => hno.1 ((str_trimmed_within key).subset hmem),
              fun hmem => hequals ((str_trimmed_within key).subset hmem), unpadded_str_trimmed key⟩
          · rw [← hname]
            exact (hr b hb).name
        · rw [hvalue]
          exact ⟨fun hmem => hno.2.2 ((str_trimmed_within value).subset hmem), unpadded_str_trimmed value⟩
      · exact hr a hold

theorem on_parse_cookie_iff (cookies : basic_map Bytes) (r : request_data) (hr : r.m_cookies = .empty) :
    (on_parse_cookie r (joined plain_pair cookies.entries) none).error = none ∧
        (on_parse_cookie r (joined plain_pair cookies.entries) none).obj.m_cookies = cookies ↔
      ∀ e ∈ cookies.entries, Separable e := by
  constructor
  · rintro ⟨-, hsame⟩
    have hstored := insert_cookies_separable (from_string (joined plain_pair cookies.entries) (ascii ";")) r none
      (fun statement hs => (isLine_singleton 59 statement).mp (from_string_isLine (by decide) true _ statement hs))
      (by rw [hr]; exact fun e he => by cases he)
    unfold on_parse_cookie at hsame
    rwa [hsame] at hstored
  · intro h
    unfold on_parse_cookie
    rw [from_string_joined _ h, insert_cookies_pairs _ _ r (pieces_trimmed _ h) h, hr]
    exact ⟨rfl, OrderedMap.assignAll_self cookies⟩

/-! ## The parser -/

/-- A parser that reads headers and has no cookies, and with `buf` just this line -/
structure HeaderLine (p : RequestParser) (buf line : Bytes) : Prop where
  reading : p.m_parser_base.m_state = .reading_headers
  some_text : buf ≠ []
  text : p.m_parser_base.m_src_buf ++ buf = line ++ crlf
  no_cookies : p.m_parser_base.captured.m_cookies = .empty

/-- **Cookies in percent coding.** The line of a map of cookies is accepted and gives the map again if
and only if no name and no value of it has a semicolon or a blank at an end, and no name an equals sign. -/
theorem cookies_survive_iff (cookies : basic_map Bytes) (p : RequestParser) (buf : Bytes)
    (h : HeaderLine p buf (encoded_line cookies)) :
    (append p buf).Clean false ∧ (append p buf).obj.m_parser_base.captured.m_cookies = cookies ↔
      ∀ e ∈ cookies.entries, Separable e := by
  have hinsert := insert_line_cookie request_handlers (joined encoded_pair cookies.entries)
    (p.m_parser_base.withSrc []) none
  have hvalue := (header_insert_spec (ascii "cookie") (arrived (joined encoded_pair cookies.entries))
    (p.m_parser_base.withSrc []) none).1
  have happend := append_field_line request_handlers p.m_parser_base buf (encoded_line cookies) _ h.reading h.some_text
    h.text (encoded_line_isLine cookies) (by simp [encoded_line, ascii]) hinsert hvalue
  obtain ⟨hbase, herror, hval⟩ := append_base p buf
  rw [happend] at hbase herror hval
  have hclean : (append p buf).Clean false ↔ (append p buf).error = none := and_iff_left (hval.trans rfl)
  rw [hclean, hbase, herror, ← on_parse_cookie_iff cookies p.m_parser_base.captured h.no_cookies, ← arrived_joined]
  rfl

/-- A parser behind its first line -/
def headerReader : RequestParser := (append (.init 0) (ascii "GET /c HTTP/1.1\r\n")).obj

theorem headerReader_line (line : Bytes) : HeaderLine headerReader (line ++ crlf) line where
  reading := by rfl
  some_text := by simp [crlf]
  text := by
    rw [show headerReader.m_parser_base.m_src_buf = [] from rfl]
    rfl
  no_cookies := by rfl

def escapedCookies : basic_map Bytes :=
  (OrderedMap.empty.assign (ascii "a%") (ascii "x=%41 y")).assign (ascii "b c") []

theorem cookies_survive_escaped :
    (append headerReader (encoded_line escapedCookies ++ crlf)).obj.m_parser_base.captured.m_cookies = escapedCookies :=
  ((cookies_survive_iff escapedCookies headerReader _ (headerReader_line _)).mpr (by decide +kernel)).2

/-- `a` is `x;y`. -/
def splitCookies : basic_map Bytes := OrderedMap.empty.assign (ascii "a") (ascii "x;y")

theorem cookies_survive_split :
    ¬ ∀ (cookies : basic_map Bytes) (p : RequestParser) (buf : Bytes), cookies.entries ≠ [] →
      (∀ e ∈ cookies.entries, e.1 ≠ []) → HeaderLine p buf (encoded_line cookies) →
        (append p buf).Clean false ∧ (append p buf).obj.m_parser_base.captured.m_cookies = cookies := by
  intro hall
  have hsame := hall splitCookies headerReader _ (by decide +kernel) (by decide +kernel) (headerReader_line _)
  rw [cookies_survive_iff splitCookies headerReader _ (headerReader_line _)] at hsame
  revert hsame
  decide +kernel

end Libgs.Server
