import Libgs.Http.Chunked
import Libgs.Server.RequestFragments

/-!
# Which input makes `append` throw

Two conversions have no handler around them: the version text of a request line, and the value of
Content-Length at the end of a head.
-/

namespace Libgs.Server

open Lib Libgs.Http

/-! ## Lines that the parser accepts -/

/-- The path of a target, decoded -/
def urlPath (url_part : Bytes) : Bytes :=
  ((cut (ascii "?") (from_percent_encoding url_part)).map (·.1)).getD (from_percent_encoding url_part)

/-- A request line of three parts with a known method. -/
structure RequestLine (l method_part url_part version_part : Bytes) : Prop where
  parts : from_string l (ascii " ") = [method_part, url_part, version_part]
  http : ascii "HTTP/" <+: str_to_upper version_part
  method : ∃ method, from_method_string method_part = .ok method

/-- The version of a request line -/
def versionText (version_part : Bytes) : Bytes := (version_part.drop 5).take 3

/-- A request line with a version that is not in the table. -/
def BadVersion (l : Bytes) : Prop :=
  ∃ m u v, RequestLine l m u v ∧ versionText v ∉ version_table.map (·.2)

/-- A request line with a known version and an absolute path -/
def GoodLine (l : Bytes) : Prop :=
  ∃ m u v, RequestLine l m u v ∧ versionText v ∈ version_table.map (·.2) ∧ string_pool.root <+: urlPath u

/-- The key and the value of a header line, as they are stored. -/
def splitField (l : Bytes) : Option (Bytes × Bytes) :=
  (cut (ascii ":") l).map fun kv => (str_to_lower (str_trimmed kv.1), from_percent_encoding (str_trimmed kv.2))

/-- A key whose value goes to the handler of cookies -/
def isCookie (key : Bytes) : Prop := key = ascii "cookie" ∨ key = ascii "set-cookie"

/-- A header line with a colon; if it has cookies, each of them has an equals sign. -/
def GoodField (l : Bytes) : Prop :=
  ∃ key value, splitField l = some (key, value) ∧
    (isCookie key → ∀ statement ∈ from_string value (ascii ";"), ascii "=" <:+: str_trimmed statement)

/-- The Content-Length that a header line gives. -/
def fieldLength (l : Bytes) : Option Bytes :=
  (splitField l).bind fun kv => if kv.1 = ascii "content-length" then some kv.2 else none

/-- The bytes hold the rest of a head, whose Content-Length, the last one given, is no number. -/
def BadLength (stored : Option Bytes) (text : Bytes) : Prop :=
  ∃ fields rest, text = unlines crlf fields ++ (crlf ++ rest) ∧
    (∀ l ∈ fields, IsLine crlf l ∧ l ≠ [] ∧ GoodField l) ∧
    ∃ value, fields.foldl (fun v l => (fieldLength l).or v) stored = some value ∧ ∃ e, ston value 10 = .error e

/-- The bytes `text` in the source buffer of `p` make the parser throw. -/
def BadHead (p : impl request_data) (text : Bytes) : Prop :=
  let stored := p.m_headers.find header.content_length
  (p.m_state = .waiting_request ∧ ∃ l r, cut crlf text = some (l, r) ∧
    (BadVersion l ∨ GoodLine l ∧ BadLength stored r)) ∨
  (p.m_state = .reading_headers ∧ BadLength stored text)

theorem badLength_none (stored : Option Bytes) (text : Bytes) (h : cut crlf text = none) : ¬ BadLength stored text := by
  rintro ⟨fields, rest, rfl, -, -⟩
  refine (cut_eq_none _ _).mp h ?_
  exact (List.prefix_append crlf rest).isInfix.trans (List.suffix_append _ _).isInfix

theorem badLength_blank (stored : Option Bytes) (text r : Bytes) (h : cut crlf text = some ([], r)) :
    BadLength stored text ↔ ∃ value, stored = some value ∧ ∃ e, ston value 10 = .error e := by
  obtain ⟨htext, -⟩ := cut_eq_some crlf text [] r crlf_ne_nil h
  constructor
  · rintro ⟨fields, rest, hform, hfields, hvalue⟩
    cases fields with
    | nil => exact hvalue
    | cons l fields =>
      obtain ⟨hl, hne, -⟩ := hfields l List.mem_cons_self
      rw [hform, unlines_cons, List.append_assoc, List.append_assoc, cut_append_pat crlf l _ crlf_ne_nil hl] at h
      simp only [Option.some.injEq, Prod.mk.injEq] at h
      exact absurd h.1 hne
  · intro hvalue
    exact ⟨[], r, by simpa using htext, by simp, hvalue⟩

theorem badLength_field (stored : Option Bytes) (text l r : Bytes) (h : cut crlf text = some (l, r)) (hl : l ≠ []) :
    BadLength stored text ↔ GoodField l ∧ BadLength ((fieldLength l).or stored) r := by
  obtain ⟨rfl, hline⟩ := cut_eq_some crlf text l r crlf_ne_nil h
  constructor
  · rintro ⟨fields, rest, hform, hfields, hvalue⟩
    cases fields with
    | nil =>
      rw [hform, unlines_nil, List.nil_append] at h
      have hblank := cut_append_pat crlf [] rest crlf_ne_nil (by decide)
      rw [List.nil_append, h] at hblank
      simp only [Option.some.injEq, Prod.mk.injEq] at hblank
      exact absurd hblank.1 hl
    | cons k fields =>
      obtain ⟨hk, -, hgood⟩ := hfields k List.mem_cons_self
      rw [hform, unlines_cons, List.append_assoc, List.append_assoc, cut_append_pat crlf k _ crlf_ne_nil hk] at h
      simp only [Option.some.injEq, Prod.mk.injEq] at h
      obtain ⟨rfl, rfl⟩ := h
      exact ⟨hgood, fields, rest, rfl, fun j hj => hfields j (List.mem_cons_of_mem _ hj), hvalue⟩
  · rintro ⟨hgood, fields, rest, rfl, hfields, hvalue⟩
    refine ⟨l :: fields, rest, by simp, fun j hj => ?_, hvalue⟩
    rcases List.mem_cons.mp hj with rfl | hj
    · exact ⟨hline, hl, hgood⟩
    · exact hfields j hj

/-! ## The handlers -/

theorem set_url_path (url_line : Bytes) (r : request_data) :
    (set_url url_line r).m_path = ((cut (ascii "?") url_line).map (·.1)).getD url_line := by
  unfold set_url
  cases cut (ascii "?") url_line <;> rfl

theorem version_number_iff (vs : Bytes) :
    (vs ∈ version_table.map (·.2) → ∃ v, version_number vs = .ok v) ∧
      (vs ∉ version_table.map (·.2) → ∃ e, version_number vs = .error e) := by
  unfold version_number
  cases h : version_table.find? fun e => e.2 = vs with
  | none =>
    rw [List.find?_eq_none] at h
    refine ⟨fun hmem => ?_, fun _ => ⟨_, rfl⟩⟩
    obtain ⟨e, he, rfl⟩ := List.mem_map.mp hmem
    simpa using h e he
  | some e =>
    refine ⟨fun _ => ⟨_, rfl⟩, fun hno => absurd ?_ hno⟩
    have hvs : e.2 = vs := by simpa using List.find?_some h
    exact List.mem_map.mpr ⟨e, List.mem_of_find?_eq_some h, hvs⟩

theorem on_parse_begin_spec (r : request_data) (l : Bytes) :
    ((∃ e, (on_parse_begin r l none).value = .error e) ↔ BadVersion l) ∧
      ((∃ v, (on_parse_begin r l none).Clean v) ↔ GoodLine l) := by
  have unique : ∀ m u v m' u' v', RequestLine l m u v → RequestLine l m' u' v' → v' = v ∧ u' = u := by
    intro m u v m' u' v' h h'
    have := h.parts.symm.trans h'.parts
    simp only [List.cons.injEq] at this
    exact ⟨this.2.2.1.symm, this.2.1.symm⟩
  by_cases hline : ∃ m u v, RequestLine l m u v
  · obtain ⟨m, u, v, hl⟩ := hline
    obtain ⟨method, hmethod⟩ := hl.method
    have hbad : BadVersion l ↔ versionText v ∉ version_table.map (·.2) := by
      constructor
      · rintro ⟨m', u', v', h', hv'⟩
        rwa [← (unique _ _ _ _ _ _ hl h').1]
      · exact fun hv => ⟨m, u, v, hl, hv⟩
    have hgood : GoodLine l ↔ versionText v ∈ version_table.map (·.2) ∧ string_pool.root <+: urlPath u := by
      constructor
      · rintro ⟨m', u', v', h', hv'⟩
        rwa [← (unique _ _ _ _ _ _ hl h').1, ← (unique _ _ _ _ _ _ hl h').2]
      · exact fun hv => ⟨m, u, v, hl, hv⟩
    rw [hbad, hgood]
    unfold on_parse_begin
    simp only [hl.parts, hl.http, not_true_eq_false, if_false, hmethod]
    by_cases hv : versionText v ∈ version_table.map (·.2)
    · obtain ⟨version, hversion⟩ := (version_number_iff _).1 hv
      unfold versionText at hversion
      simp only [hversion, set_url_path, hv, not_true_eq_false, iff_false, true_and]
      by_cases hroot : string_pool.root <+: urlPath u
      · have hroot' := hroot
        unfold urlPath at hroot'
        simp [hroot, hroot', Call.ok, Call.Clean]
      · have hroot' := hroot
        unfold urlPath at hroot'
        simp [hroot, hroot', Call.ok, Call.Clean, make_error_code]
    · obtain ⟨e, he⟩ := (version_number_iff _).2 hv
      unfold versionText at he
      simp [he, hv, Call.fail, Call.Clean]
  · have hbad : ¬ BadVersion l := by
      rintro ⟨m, u, v, h, -⟩
      exact hline ⟨m, u, v, h⟩
    have hgood : ¬ GoodLine l := by
      rintro ⟨m, u, v, h, -⟩
      exact hline ⟨m, u, v, h⟩
    simp only [hbad, hgood, iff_false, not_exists]
    unfold on_parse_begin
    split
    · rename_i m u v hparts
      split
      · simp [Call.ok, Call.Clean, make_error_code]
      · rename_i hhttp
        split
        · simp [Call.ok, Call.Clean, make_error_code]
        · rename_i method hmethod
          exact absurd ⟨m, u, v, hparts, not_not.mp hhttp, method, hmethod⟩ hline
    · simp [Call.ok, Call.Clean, make_error_code]

theorem insert_cookies_spec (list : List Bytes) (r : request_data) (e : error_code) :
    (insert_cookies list r e).value = .ok () ∧
      ((insert_cookies list r none).error = none ↔ ∀ statement ∈ list, ascii "=" <:+: str_trimmed statement) := by
  induction list generalizing r with
  | nil => simp [insert_cookies, Call.ok]
  | cons statement list ih =>
    unfold insert_cookies
    cases hc : cut (ascii "=") (str_trimmed statement) with
    | none =>
      have := (cut_eq_none _ _).mp hc
      simp [Call.ok, this, make_error_code]
    | some kv =>
      have hin : ascii "=" <:+: str_trimmed statement := by
        by_contra hno
        rw [(cut_eq_none _ _).mpr hno] at hc
        cases hc
      refine ⟨(ih _).1, ?_⟩
      simp only [(ih _).2, List.forall_mem_cons, hin, true_and]

/-! ## Header lines -/

theorem insert_line_split (hs : handlers request_data) (l : Bytes) (p : impl request_data) (e : error_code) :
    insert_line hs l p e = (splitField l).map fun kv => header_insert hs kv.1 kv.2 p e := by
  unfold insert_line splitField
  cases cut (ascii ":") l <;> rfl

theorem splitField_key_lower (l key value : Bytes) (h : splitField l = some (key, value)) : str_to_lower key = key := by
  simp only [splitField, Option.map_eq_some_iff, Prod.mk.injEq] at h
  obtain ⟨kv, -, rfl, -⟩ := h
  exact str_to_lower_idem _

theorem header_insert_spec (key value : Bytes) (p : impl request_data) (e : error_code) :
    (header_insert request_handlers key value p e).value = .ok () ∧
      ((header_insert request_handlers key value p none).error = none ↔
        (isCookie key → ∀ statement ∈ from_string value (ascii ";"), ascii "=" <:+: str_trimmed statement)) := by
  unfold header_insert isCookie
  split
  · rename_i hk
    simp only [request_handlers, hk, forall_true_left]
    exact insert_cookies_spec _ _ e
  · rename_i hk
    simp [hk, Call.ok]

theorem header_insert_length (key value : Bytes) (p : impl request_data) (e : error_code)
    (hkey : str_to_lower key = key) :
    (header_insert request_handlers key value p e).obj.m_headers.find header.content_length =
      (if key = ascii "content-length" then some value else none).or (p.m_headers.find header.content_length) := by
  have hlower : str_to_lower header.content_length = ascii "content-length" := by decide
  unfold header_insert
  split
  · rename_i hk
    have hne : key ≠ ascii "content-length" := by
      rcases hk with rfl | rfl <;> decide
    simp [request_handlers, hne]
  · by_cases hcl : key = ascii "content-length"
    · rw [if_pos hcl]
      exact OrderedMap.find_assign_self _ _ _ _ ((key_rank_eq_iff _ _).mpr (by rw [hlower, hkey, hcl]))
    · rw [if_neg hcl, Option.none_or]
      refine OrderedMap.find_assign_ne _ _ _ _ fun h => hcl ?_
      have := (key_rank_eq_iff _ _).mp h
      rw [hlower, hkey] at this
      exact this.symm

theorem field_turn_spec (l : Bytes) (p : impl request_data) (hl : l ≠ []) :
    (¬ GoodField l → ∃ c, field_turn request_handlers l p = .leave c ∧ c.value = .ok false) ∧
      (GoodField l → ∃ q, field_turn request_handlers l p = .again q ∧ q.m_state = p.m_state ∧
        q.m_headers.find header.content_length = (fieldLength l).or (p.m_headers.find header.content_length)) := by
  cases hsplit : splitField l with
  | none =>
    have hbad : ¬ GoodField l := by
      rintro ⟨key, value, h, -⟩
      rw [hsplit] at h
      cases h
    refine ⟨fun _ => ⟨.ok (Http.reset p) (make_error_code .IHL) false, ?_, rfl⟩, fun h => absurd h hbad⟩
    simp [field_turn, state_handler_reading_headers, hl, insert_line_split, hsplit, Call.ok, make_error_code]
  | some kv =>
    obtain ⟨key, value⟩ := kv
    obtain ⟨hvalue, herror⟩ := header_insert_spec key value p none
    have hgood : GoodField l ↔ (header_insert request_handlers key value p none).error = none := by
      rw [herror]
      constructor
      · rintro ⟨k, v, h, hcookie⟩
        rw [hsplit, Option.some.injEq, Prod.mk.injEq] at h
        obtain ⟨rfl, rfl⟩ := h
        exact hcookie
      · exact fun hcookie => ⟨key, value, hsplit, hcookie⟩
    have hinsert : insert_line request_handlers l p none = some (header_insert request_handlers key value p none) := by
      rw [insert_line_split, hsplit]
      rfl
    constructor
    · intro hbad
      rw [hgood] at hbad
      refine ⟨⟨(header_insert request_handlers key value p none).obj,
        (header_insert request_handlers key value p none).error, .ok false⟩, ?_, rfl⟩
      simp only [field_turn, state_handler_reading_headers, hl, if_false, hinsert, hvalue, Except.map]
      split
      · rename_i hnone
        exact absurd hnone hbad
      · rfl
    · intro hg
      rw [hgood] at hg
      have hsame := header_insert_same request_handlers key value p none
      refine ⟨_, field_turn_of_clean l p _ hl hinsert ⟨hg, hvalue⟩, hsame.state, ?_⟩
      rw [header_insert_length key value p none (splitField_key_lower l key value hsplit), fieldLength, hsplit]
      rfl

/-! ## Chunks -/

theorem parse_chunked_returns (p : impl request_data) : ∃ b, (parse_chunked request_handlers p).value = .ok b := by
  rw [parse_chunked_eq]
  refine lines_rule (B := chunkBuffer) chunk_turn_framed crlf_ne_nil
    (fun _ t => ∃ b, (chunk_end t).value = .ok b) ?_ ?_ ?_ _
  · exact fun s _ => ⟨false, rfl⟩
  · intro s l r c _ hb
    show ∃ b, c.value = .ok b
    cases chunk_turn_leave l _ c hb with
    | refused => exact ⟨false, rfl⟩
    | finished => exact ⟨true, rfl⟩
    | @thrown d e _ hline hv =>
      rw [insert_line_split] at hline
      obtain ⟨kv, -, rfl⟩ := Option.map_eq_some_iff.mp hline
      cases (header_insert_spec kv.1 kv.2 _ _).1.symm.trans hv
  · exact fun _ _ _ _ _ _ ih => ih

/-! ## The head -/

theorem set_read_body_throws (p : impl request_data) :
    (∃ e, (set_read_body_state request_handlers p).value = .error e) ↔
      ∃ value, p.m_headers.find header.content_length = some value ∧ ∃ e, ston value 10 = .error e := by
  rcases set_read_body_cases request_handlers p with
    ⟨text, e, hfind, hread, hcall⟩ | ⟨text, n, hfind, hread, hcall⟩ | ⟨hfind, hcall⟩ | ⟨hfind, hcall⟩ <;>
    rw [hcall, hfind]
  · simp [Call.fail, hread]
  · simp [Call.ok, hread]
  · simp [Call.ok]
  · obtain ⟨b, hb⟩ := parse_chunked_returns { p with m_state := .chunked_wait_size }
    simp [hb, Except.map]

theorem fields_throw (p : impl request_data) (hp : p.m_state = .reading_headers) :
    (∃ e, (header_end (Lib.lines srcBuffer crlf (header_turn request_handlers) p)).value = .error e) ↔
      BadLength (p.m_headers.find header.content_length) p.m_src_buf := by
  revert hp
  refine lines_rule (B := srcBuffer) header_turn_framed crlf_ne_nil (fun p t => p.m_state = .reading_headers →
    ((∃ e, (header_end t).value = .error e) ↔ BadLength (p.m_headers.find header.content_length) p.m_src_buf))
    ?_ ?_ ?_ p
  · intro p hpend _
    have hno := badLength_none (p.m_headers.find header.content_length) p.m_src_buf ((cut_eq_none _ _).mpr hpend)
    simp [hno, header_end, header_pending, Call.ok]
  · intro p l r c hc hb hp
    rw [srcBuffer_get] at hc
    have hturn : field_turn request_handlers l (p.withSrc r) = .leave c := by
      rwa [srcBuffer_set, header_turn, withSrc_state, hp] at hb
    by_cases hl : l = []
    · subst hl
      rw [field_turn_blank, Turn.leave.injEq] at hturn
      rw [badLength_blank _ _ r hc, header_end, ← hturn]
      exact set_read_body_throws (p.withSrc r)
    · obtain ⟨hbad, hgood⟩ := field_turn_spec l (p.withSrc r) hl
      rw [badLength_field _ _ l r hc hl]
      by_cases hg : GoodField l
      · obtain ⟨q, hq, -, -⟩ := hgood hg
        cases hq.symm.trans hturn
      · obtain ⟨c', hc', hv⟩ := hbad hg
        obtain rfl : c' = c := by simpa using hc'.symm.trans hturn
        simp [header_end, hv, hg]
  · intro p q l r hc hb ih hp
    rw [srcBuffer_get] at hc
    have hturn : field_turn request_handlers l (p.withSrc r) = .again q := by
      rwa [srcBuffer_set, header_turn, withSrc_state, hp] at hb
    have hl := (field_turn_again l (p.withSrc r) q hturn).1
    obtain ⟨hbad, hgood⟩ := field_turn_spec l (p.withSrc r) hl
    have hg : GoodField l := by
      by_contra hno
      obtain ⟨c, hc', -⟩ := hbad hno
      cases hc'.symm.trans hturn
    obtain ⟨q', hq', hstate, hlength⟩ := hgood hg
    obtain rfl : q' = q := by simpa using hq'.symm.trans hturn
    have hsrc : q'.m_src_buf = r := header_turn_framed.keeps _ _ _ hb
    rw [ih (hstate.trans hp), badLength_field _ _ l r hc hl, hlength, hsrc]
    simp [hg, impl.withSrc]

theorem begin_turn_throws (l : Bytes) (p : impl request_data) (e : exception)
    (hv : (on_parse_begin p.captured l none).value = .error e) :
    ∃ c, begin_turn request_handlers l p = .leave c ∧ c.value = .error e := by
  refine ⟨.fail { p with captured := (on_parse_begin p.captured l none).obj }
    (on_parse_begin p.captured l none).error e,
    ?_, rfl⟩
  simp only [begin_turn, request_handlers, hv]

theorem begin_turn_rejects (l : Bytes) (p : impl request_data) (version : version_t)
    (hv : (on_parse_begin p.captured l none).value = .ok version)
    (he : (on_parse_begin p.captured l none).error ≠ none) :
    ∃ c, begin_turn request_handlers l p = .leave c ∧ c.value = .ok false := by
  refine ⟨.ok { p with captured := (on_parse_begin p.captured l none).obj, m_version := version, m_src_buf := [] }
    (on_parse_begin p.captured l none).error false, ?_, rfl⟩
  simp only [begin_turn, request_handlers, hv, ne_eq, he, not_false_eq_true, if_true]

theorem parse_header_throws (p : impl request_data) (hp : InHead p) :
    (∃ e, (parse_header request_handlers p).value = .error e) ↔ BadHead p p.m_src_buf := by
  rw [parse_header_eq]
  rcases hp with hp | hp
  · simp only [BadHead, hp, true_and, reduceCtorEq, false_and, or_false]
    cases hc : cut crlf p.m_src_buf with
    | none =>
      rw [lines_none p hc]
      simp [header_end, header_pending, Call.ok]
    | some lr =>
      obtain ⟨l, r⟩ := lr
      obtain ⟨hbad, hgood⟩ := on_parse_begin_spec p.captured l
      simp only [Option.some.injEq, Prod.mk.injEq]
      have hex : (∃ l' r', (l = l' ∧ r = r') ∧ (BadVersion l' ∨
          GoodLine l' ∧ BadLength (p.m_headers.find header.content_length) r')) ↔
          (BadVersion l ∨ GoodLine l ∧ BadLength (p.m_headers.find header.content_length) r) := by
        constructor
        · rintro ⟨l', r', ⟨rfl, rfl⟩, h⟩
          exact h
        · exact fun h => ⟨l, r, ⟨rfl, rfl⟩, h⟩
      rw [hex]
      have hturn : header_turn request_handlers l (srcBuffer.set p r) =
          begin_turn request_handlers l (p.withSrc r) := by
        rw [srcBuffer_set, header_turn, withSrc_state, hp]
      by_cases hg : GoodLine l
      · -- The line is accepted, and the header lines are read.
        obtain ⟨v, hv⟩ := hgood.mpr hg
        have hnot : ¬ BadVersion l := by
          intro hno
          obtain ⟨e, he⟩ := hbad.mpr hno
          rw [hv.2] at he
          cases he
        have hagain := begin_turn_of_clean request_handlers l (p.withSrc r) on_parse_begin v rfl hv
        rw [lines_again header_turn_framed p _ l r crlf_ne_nil hc (hturn.trans hagain), fields_throw _ rfl]
        simp [hnot, hg, impl.withSrc]
      · cases hv : (on_parse_begin p.captured l none).value with
        | error e =>
          have hb : BadVersion l := hbad.mp ⟨e, hv⟩
          obtain ⟨c, hleave, hc'⟩ := begin_turn_throws l (p.withSrc r) e hv
          rw [lines_leave p l r c crlf_ne_nil hc (hturn.trans hleave)]
          simp [header_end, hc', hb]
        | ok version =>
          have hb : ¬ BadVersion l := by
            intro hno
            obtain ⟨e, he⟩ := hbad.mpr hno
            rw [hv] at he
            cases he
          have herr : (on_parse_begin p.captured l none).error ≠ none := fun h => hg (hgood.mp ⟨version, h, hv⟩)
          obtain ⟨c, hleave, hc'⟩ := begin_turn_rejects l (p.withSrc r) version hv herr
          rw [lines_leave p l r c crlf_ne_nil hc (hturn.trans hleave)]
          simp [header_end, hc', hb, hg]
  · simp only [BadHead, hp, reduceCtorEq, false_and, true_and, false_or]
    exact fields_throw p hp

/-! ## No system errors -/

/-- It is no `std::system_error`, which the server takes for a failure of its socket. -/
def NoSystemError {α : Type} (v : Except exception α) : Prop := ∀ code what, v ≠ .error (.system_error code what)

theorem on_parse_begin_noSystemError (r : request_data) (l : Bytes) (e : error_code) :
    NoSystemError (on_parse_begin r l e).value := by
  intro code what hv
  unfold on_parse_begin at hv
  split at hv
  · split at hv
    · simp [Call.ok] at hv
    · split at hv
      · simp [Call.ok] at hv
      · dsimp only at hv
        split at hv
        · rename_i hversion
          unfold version_number at hversion
          split at hversion
          · cases hversion
          · cases hversion
            simp [Call.fail] at hv
        · split at hv <;> simp [Call.ok] at hv
  · simp [Call.ok] at hv

theorem set_read_body_noSystemError (p : impl request_data) :
    NoSystemError (set_read_body_state request_handlers p).value := by
  intro code what hv
  obtain ⟨text, hfind, e, hston⟩ := (set_read_body_throws p).mp ⟨_, hv⟩
  simp only [set_read_body_state, hfind, hston, Call.fail, Except.error.injEq] at hv
  rw [hv] at hston
  unfold ston at hston
  split at hston
  · cases hston
  · split at hston <;> simp [not_arithmetic] at hston

theorem header_turn_noSystemError (l : Bytes) (p : impl request_data) (c : Call (impl request_data) Bool)
    (hp : InHead p)
    (h : header_turn request_handlers l p = .leave c) : NoSystemError c.value := by
  unfold header_turn at h
  rcases hp with hp | hp <;> simp only [hp] at h
  · cases hv : (on_parse_begin p.captured l none).value with
    | error e =>
      obtain ⟨c', hleave, hc'⟩ := begin_turn_throws l p e hv
      obtain rfl : c' = c := by simpa using hleave.symm.trans h
      unfold NoSystemError
      rw [hc']
      rintro code what ⟨⟩
      exact on_parse_begin_noSystemError p.captured l none code what hv
    | ok version =>
      by_cases he : (on_parse_begin p.captured l none).error = none
      · rw [begin_turn_of_clean request_handlers l p on_parse_begin version rfl ⟨he, hv⟩] at h
        cases h
      · obtain ⟨c', hleave, hc'⟩ := begin_turn_rejects l p version hv he
        obtain rfl : c' = c := by simpa using hleave.symm.trans h
        unfold NoSystemError
        rw [hc']
        rintro code what ⟨⟩
  · by_cases hl : l = []
    · subst hl
      rw [field_turn_blank, Turn.leave.injEq] at h
      rw [← h]
      exact set_read_body_noSystemError p
    · obtain ⟨hbad, hgood⟩ := field_turn_spec l p hl
      by_cases hg : GoodField l
      · obtain ⟨q, hq, -, -⟩ := hgood hg
        cases hq.symm.trans h
      · obtain ⟨c', hc', hv⟩ := hbad hg
        obtain rfl : c' = c := by simpa using hc'.symm.trans h
        unfold NoSystemError
        rw [hv]
        rintro code what ⟨⟩

theorem parse_header_noSystemError (p : impl request_data) (hp : InHead p) :
    NoSystemError (parse_header request_handlers p).value := by
  rw [parse_header_eq]
  revert hp
  refine lines_rule (B := srcBuffer) header_turn_framed crlf_ne_nil
    (fun p t => InHead p → NoSystemError (header_end t).value) ?_ ?_ ?_ p
  · rintro p - - code what ⟨⟩
  · intro p l r c _ hb hp
    exact header_turn_noSystemError l (p.withSrc r) c hp hb
  · intro p q l r _ hb ih hp
    exact ih (.inr (header_turn_again_spec l (p.withSrc r) q hp hb).1)

end Libgs.Server
