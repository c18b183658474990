import Libgs.Core.StringList
import Libgs.Http.Captured
import Libgs.Server.Exceptions
import Mathlib.Data.List.Destutter

/-!
# What a request line leaves in the parser

An accepted line gives a path in normal form. A line that is rejected for its path has already left
its method, its path and its parameters behind.
-/

namespace Libgs.Server

open Lib Libgs.Http

/-! ## The parameters of a target -/

/-- A parameter without an equals sign is its own value. -/
def pair_of (para_str : Bytes) : Bytes × Bytes := (cut (ascii "=") para_str).getD (para_str, para_str)

theorem insert_parameters_eq (strs : List Bytes) (m : parameters_t) :
    strs.foldl insert_parameter m = m.emplaceAll (strs.map pair_of) := by
  induction strs generalizing m with
  | nil => rfl
  | cons para_str strs ih =>
    have hone : insert_parameter m para_str = m.emplace (pair_of para_str).1 (pair_of para_str).2 := by
      unfold insert_parameter pair_of
      cases cut (ascii "=") para_str <;> rfl
    rw [List.foldl_cons, ih, hone]
    rfl

def query_pairs (url_line : Bytes) : List (Bytes × Bytes) :=
  ((cut (ascii "?") url_line).map fun e => (from_string e.2 (ascii "&")).map pair_of).getD []

def urlPairs (url_part : Bytes) : List (Bytes × Bytes) := query_pairs (from_percent_encoding url_part)

theorem set_url_eq (url_part : Bytes) (r : request_data) :
    set_url (from_percent_encoding url_part) r =
      { r with m_path := urlPath url_part, m_parameters := r.m_parameters.emplaceAll (urlPairs url_part) } := by
  unfold set_url urlPath urlPairs query_pairs
  cases cut (ascii "?") (from_percent_encoding url_part) with
  | none => rfl
  | some e =>
    dsimp only
    rw [insert_parameters_eq]
    rfl

/-! ## The path -/

theorem unique_slashes_length (path : Bytes) : (unique_slashes path).length ≤ path.length := by
  fun_induction unique_slashes path with
  | case1 a b path h ih => simp only [List.length_cons] at ih ⊢; omega
  | case2 a b path h ih => simp only [List.length_cons] at ih ⊢; omega
  | case3 path h => exact le_refl _

theorem unique_slashes_eq_iff (path : Bytes) : unique_slashes path = path ↔ ¬ [47, 47] <:+: path := by
  fun_induction unique_slashes path with
  | case1 a b path h ih =>
    obtain ⟨rfl, rfl⟩ := h
    have hlen := unique_slashes_length (47 :: path)
    constructor
    · intro heq
      have := congrArg List.length heq
      simp only [List.length_cons] at this hlen
      omega
    · intro hno
      exact absurd ⟨[], path, rfl⟩ hno
  | case2 a b path h ih =>
    have hfirst : ¬ [47, 47] <+: a :: b :: path := by
      rintro ⟨rest, hrest⟩
      simp only [List.cons_append, List.nil_append, List.cons.injEq] at hrest
      exact h ⟨hrest.1.symm, hrest.2.1.symm⟩
    rw [List.cons.injEq, ih, List.infix_cons_iff (a := a)]
    simp [hfirst]
  | case3 path h =>
    refine ⟨fun _ hin => ?_, fun _ => rfl⟩
    obtain ⟨l, r, rfl⟩ := hin
    cases l with
    | nil => exact h 47 47 r rfl
    | cons a l =>
      cases l with
      | nil => exact h a 47 (47 :: r) rfl
      | cons b l => exact h a b _ rfl

theorem normalize_path_eq_iff (path : Bytes) (hroot : string_pool.root <+: path) :
    normalize_path path = path ↔
      ¬ ascii "//" <:+: path ∧ (path = string_pool.root ∨ ¬ string_pool.root <:+ path) := by
  rw [show ascii "//" = [47, 47] from rfl, ← unique_slashes_eq_iff]
  have hlen := unique_slashes_length path
  unfold normalize_path
  dsimp only
  split
  · rename_i hend
    have hshort : path = string_pool.root → False := by
      rintro rfl
      exact absurd hend (by decide)
    constructor
    · intro heq
      have := congrArg List.length heq
      simp only [List.length_dropLast] at this
      omega
    · rintro ⟨heq, hpath | hpath⟩
      · exact (hshort hpath).elim
      · rw [heq] at hend
        exact absurd hend.2 hpath
  · rename_i hend
    refine ⟨fun heq => ⟨heq, ?_⟩, fun h => h.1⟩
    rw [heq] at hend
    by_cases hlong : path.length > 1
    · exact .inr fun hsuffix => hend ⟨hlong, hsuffix⟩
    · exact .inl (hroot.eq_of_length_le (by simp only [string_pool.root]; exact Nat.not_lt.mp hlong)).symm

theorem unique_slashes_destutter (path : Bytes) :
    unique_slashes path = path.destutter fun a b => ¬ (a = 47 ∧ b = 47) := by
  fun_induction unique_slashes path with
  | case1 a b path h ih =>
    obtain ⟨rfl, rfl⟩ := h
    rw [ih, List.destutter_cons', List.destutter_cons', List.destutter'_cons_neg]
    simp
  | case2 a b path h ih => rw [ih, List.destutter_cons', List.destutter_cons', List.destutter'_cons_pos (h := h)]
  | case3 path h =>
    match path with
    | [] => rfl
    | [a] => rfl
    | a :: b :: path => exact absurd rfl (h a b path)

/-- Every run of slashes is one slash. -/
def collapse (path : Bytes) : Bytes := path.destutter fun a b => ¬ (a = 47 ∧ b = 47)

def without_last (path : Bytes) : Bytes :=
  if path.length > 1 ∧ path.getLast? = some 47 then path.dropLast else path

theorem root_suffix_iff (path : Bytes) : string_pool.root <:+ path ↔ path.getLast? = some 47 := by
  rw [List.getLast?_eq_some_iff]
  constructor
  · rintro ⟨front, rfl⟩
    exact ⟨front, rfl⟩
  · rintro ⟨front, rfl⟩
    exact ⟨front, rfl⟩

theorem normalize_path_eq (path : Bytes) : normalize_path path = without_last (collapse path) := by
  unfold normalize_path without_last collapse
  simp only [unique_slashes_destutter, root_suffix_iff]

/-- The form that routing by segments relies on. -/
structure NormalPath (path : Bytes) : Prop where
  root : string_pool.root <+: path
  single : ¬ ascii "//" <:+: path
  last : string_pool.root <:+ path → path = string_pool.root

theorem unique_slashes_single (path : Bytes) : ¬ ascii "//" <:+: unique_slashes path := by
  rw [unique_slashes_destutter]
  have hchain := List.isChain_destutter (fun a b : UInt8 => ¬ (a = 47 ∧ b = 47)) path
  intro hin
  have hpair : List.IsChain (fun a b : UInt8 => ¬ (a = 47 ∧ b = 47)) [47, 47] := hchain.infix hin
  exact List.isChain_pair.mp hpair ⟨rfl, rfl⟩

theorem destutter_slash (rest : Bytes) :
    string_pool.root <+: rest.destutter' (fun a b : UInt8 => ¬ (a = 47 ∧ b = 47)) 47 := by
  induction rest with
  | nil => exact List.prefix_refl _
  | cons b rest ih =>
    rw [List.destutter'_cons]
    split
    · exact ⟨_, rfl⟩
    · exact ih

theorem unique_slashes_root (path : Bytes) (h : string_pool.root <+: path) :
    string_pool.root <+: unique_slashes path := by
  rw [unique_slashes_destutter]
  obtain ⟨rest, rfl⟩ := h
  exact destutter_slash rest

theorem normalize_path_normal (path : Bytes) (h : string_pool.root <+: path) : NormalPath (normalize_path path) := by
  have hsingle := unique_slashes_single path
  obtain ⟨rest, hrest⟩ := unique_slashes_root path h
  unfold normalize_path
  dsimp only
  rw [← hrest] at hsingle ⊢
  split
  · -- The last slash goes, and the byte before it is none.
    rename_i hlast
    obtain ⟨hlong, hsuffix⟩ := hlast
    obtain ⟨front, b, rfl⟩ : ∃ front b, rest = front ++ [b] := by
      refine (List.eq_nil_or_concat' rest).resolve_left ?_
      rintro rfl
      simp [string_pool.root, ascii] at hlong
    rw [root_suffix_iff, ← List.append_assoc, List.getLast?_concat, Option.some.injEq] at hsuffix
    subst hsuffix
    rw [← List.append_assoc, List.dropLast_concat]
    refine ⟨List.prefix_append _ _, fun hin => hsingle (hin.trans ?_), fun hsuffix => ?_⟩
    · rw [← List.append_assoc]
      exact (List.prefix_append _ _).isInfix
    · obtain ⟨pre, hpre⟩ := hsuffix
      refine absurd ?_ hsingle
      rw [← List.append_assoc, ← hpre]
      exact ⟨pre, [], by simp [string_pool.root, ascii]⟩
  · rename_i hlast
    refine ⟨List.prefix_append _ _, hsingle, fun hsuffix => ?_⟩
    have hshort : (string_pool.root ++ rest).length ≤ 1 := by
      by_contra hlong
      exact hlast ⟨Nat.not_le.mp hlong, hsuffix⟩
    have : rest = [] := List.length_eq_zero_iff.mp (by simp [string_pool.root, ascii] at hshort; simpa using hshort)
    rw [this, List.append_nil]

theorem cut_singleton_front (c : UInt8) (s : Bytes) : ((cut [c] s).map (·.1)).getD s = s.takeWhile (· ≠ c) := by
  cases hc : cut [c] s with
  | none =>
    rw [cut_eq_none, List.singleton_infix_iff] at hc
    have : s.takeWhile (· ≠ c) = s := List.takeWhile_eq_self_iff.mpr fun b hb => by
      simp only [ne_eq, decide_eq_true_eq]
      rintro rfl
      exact hc hb
    exact this.symm
  | some e =>
    obtain ⟨l, r⟩ := e
    obtain ⟨rfl, hl⟩ := cut_eq_some [c] s l r (by simp) hc
    have hno : c ∉ l := (isLine_singleton c l).mp hl
    rw [List.takeWhile_append_of_pos fun b hb => by
      simp only [ne_eq, decide_eq_true_eq]
      rintro rfl
      exact hno hb]
    simp

theorem urlPath_eq (url_part : Bytes) : urlPath url_part = (from_percent_encoding url_part).takeWhile (· ≠ 63) :=
  cut_singleton_front 63 _

/-! ## The handler -/

/-- A line of three parts with a known method and a known version. Only its path can be wrong. -/
def ReadLine (l : Bytes) (method : method_t) (url_part : Bytes) : Prop :=
  ∃ m v, RequestLine l m url_part v ∧ from_method_string m = .ok method ∧ versionText v ∈ version_table.map (·.2)

/-- What such a line makes of the data, before the path is looked at. -/
def read_target (method : method_t) (url_part : Bytes) (r : request_data) : request_data :=
  { r with
    m_method := method
    m_path := urlPath url_part
    m_parameters := r.m_parameters.emplaceAll (urlPairs url_part) }

theorem on_parse_begin_read (r : request_data) {l url_part : Bytes} {method : method_t}
    (h : ReadLine l method url_part) :
    ∃ version, on_parse_begin r l none =
      if ¬ string_pool.root <+: urlPath url_part then
        .ok (read_target method url_part r) (make_error_code .IHP) version
      else .ok { read_target method url_part r with m_path := normalize_path (urlPath url_part) } none version := by
  obtain ⟨m, v, hl, hmethod, hv⟩ := h
  obtain ⟨version, hversion⟩ := (version_number_iff _).1 hv
  unfold versionText at hversion
  refine ⟨version, ?_⟩
  unfold on_parse_begin
  simp only [hl.parts, hl.http, not_true_eq_false, if_false, hmethod, hversion, set_url_eq]
  rfl

theorem on_parse_begin_other (r : request_data) (l : Bytes) (h : ∀ method url_part, ¬ ReadLine l method url_part) :
    (on_parse_begin r l none).error = none ∨
      ∃ errc version, on_parse_begin r l none = .ok r (make_error_code errc) version := by
  unfold on_parse_begin
  split
  · rename_i m u v hparts
    split
    · exact .inr ⟨.IRL, version.nan, rfl⟩
    · rename_i hhttp
      split
      · exact .inr ⟨.IHM, version.nan, rfl⟩
      · rename_i method hmethod
        have hv : versionText v ∉ version_table.map (·.2) := fun hv =>
          h method u ⟨m, v, ⟨hparts, not_not.mp hhttp, method, hmethod⟩, hmethod, hv⟩
        obtain ⟨e, he⟩ := (version_number_iff _).2 hv
        unfold versionText at he
        simp only [he]
        exact .inl rfl
  · exact .inr ⟨.IRL, version.nan, rfl⟩

theorem ReadLine.unique {l u u' : Bytes} {a b : method_t} (h : ReadLine l a u) (h' : ReadLine l b u') :
    a = b ∧ u = u' := by
  obtain ⟨m, v, hl, hm, -⟩ := h
  obtain ⟨m', v', hl', hm', -⟩ := h'
  have hparts := hl.parts.symm.trans hl'.parts
  simp only [List.cons.injEq] at hparts
  obtain ⟨rfl, rfl, -⟩ := hparts
  exact ⟨Except.ok.inj (hm.symm.trans hm'), rfl⟩

theorem goodLine_iff (l : Bytes) :
    GoodLine l ↔ ∃ method url_part, ReadLine l method url_part ∧ string_pool.root <+: urlPath url_part := by
  constructor
  · rintro ⟨m, u, v, hl, hv, hroot⟩
    obtain ⟨method, hmethod⟩ := hl.method
    exact ⟨method, u, ⟨m, v, hl, hmethod, hv⟩, hroot⟩
  · rintro ⟨method, u, ⟨m, v, hl, -, hv⟩, hroot⟩
    exact ⟨m, u, v, hl, hv, hroot⟩

theorem on_parse_begin_rejected (r : request_data) (l : Bytes) (h : (on_parse_begin r l none).error ≠ none) :
    (∃ version, (on_parse_begin r l none).value = .ok version) ∧
      ((∀ method url_part, ¬ ReadLine l method url_part) ∧ (on_parse_begin r l none).obj = r ∨
        ∃ method url_part, ReadLine l method url_part ∧
          (on_parse_begin r l none).obj = read_target method url_part r) := by
  by_cases hread : ∃ method url_part, ReadLine l method url_part
  · obtain ⟨method, url_part, hread⟩ := hread
    obtain ⟨version, hcall⟩ := on_parse_begin_read r hread
    rw [hcall] at h ⊢
    split at h
    · rename_i hroot
      rw [if_pos hroot]
      exact ⟨⟨version, rfl⟩, .inr ⟨method, url_part, hread, rfl⟩⟩
    · exact absurd rfl h
  · push Not at hread
    obtain ⟨errc, version, hcall⟩ := (on_parse_begin_other r l hread).resolve_left h
    rw [hcall]
    exact ⟨⟨version, rfl⟩, .inl ⟨hread, rfl⟩⟩

theorem on_parse_begin_accepted (r : request_data) (l : Bytes) (version : version_t)
    (h : (on_parse_begin r l none).Clean version) :
    ∃ method url_part, ReadLine l method url_part ∧ string_pool.root <+: urlPath url_part ∧
      (on_parse_begin r l none).obj =
        { read_target method url_part r with m_path := normalize_path (urlPath url_part) } := by
  obtain ⟨method, url_part, hread, hroot⟩ := (goodLine_iff l).mp ((on_parse_begin_spec r l).2.mp ⟨version, h⟩)
  obtain ⟨version', hcall⟩ := on_parse_begin_read r hread
  rw [hcall, if_neg (not_not.mpr hroot)]
  exact ⟨method, url_part, hread, hroot, rfl⟩

/-! ## The parser -/

/-- A parser waits for a request, and with `buf` it has a first line. -/
structure FirstLine (p : RequestParser) (buf line rest : Bytes) : Prop where
  waiting : p.m_parser_base.m_state = .waiting_request
  some_text : buf ≠ []
  text : p.m_parser_base.m_src_buf ++ buf = line ++ (crlf ++ rest)
  is_line : IsLine crlf line

abbrev target (r : request_data) : method_t × Bytes × parameters_t := (r.m_method, r.m_path, r.m_parameters)

def parsed (p : RequestParser) : method_t × Bytes × parameters_t := target p.m_parser_base.captured

theorem insert_cookies_target (list : List Bytes) (r : request_data) (e : error_code) :
    target (insert_cookies list r e).obj = target r := by
  induction list generalizing r with
  | nil => rfl
  | cons statement list ih =>
    unfold insert_cookies
    split
    · rfl
    · rw [ih]

theorem cookies_keep_target : CookiesKeep request_handlers target := by
  intro parse_cookie h r text e
  simp only [request_handlers, Option.some.injEq] at h
  rw [← h]
  apply insert_cookies_target

theorem FirstLine.append_eq {p : RequestParser} {buf line rest : Bytes} (h : FirstLine p buf line rest) :
    (append p buf).obj.m_parser_base = (header_end (Lib.lines srcBuffer crlf (header_turn request_handlers)
        (p.m_parser_base.withSrc (line ++ (crlf ++ rest))))).obj := by
  rw [(append_base p buf).1, append_inHead _ buf h.some_text (.inl h.waiting), h.text, parse_header_eq]

theorem FirstLine.turn {p : RequestParser} {buf line rest : Bytes} (h : FirstLine p buf line rest) :
    cut crlf (srcBuffer.get (p.m_parser_base.withSrc (line ++ (crlf ++ rest)))) = some (line, rest) ∧
      header_turn request_handlers line (srcBuffer.set (p.m_parser_base.withSrc (line ++ (crlf ++ rest))) rest) =
        begin_turn request_handlers line (p.m_parser_base.withSrc rest) := by
  refine ⟨cut_append_pat crlf line rest crlf_ne_nil h.is_line, ?_⟩
  rw [srcBuffer_set, withSrc_withSrc, header_turn, withSrc_state, h.waiting]

theorem FirstLine.rejected {p : RequestParser} {buf line rest : Bytes} (h : FirstLine p buf line rest)
    (he : (on_parse_begin p.m_parser_base.captured line none).error ≠ none) :
    (append p buf).obj.m_parser_base.m_state = .waiting_request ∧
      (append p buf).obj.m_parser_base.m_src_buf = [] ∧
      (append p buf).obj.m_parser_base.captured = (on_parse_begin p.m_parser_base.captured line none).obj := by
  obtain ⟨⟨version, hv⟩, -⟩ := on_parse_begin_rejected _ line he
  obtain ⟨hcut, hturn⟩ := h.turn
  have hleave : begin_turn request_handlers line (p.m_parser_base.withSrc rest) =
      .leave (.ok { p.m_parser_base with
                    captured := (on_parse_begin p.m_parser_base.captured line none).obj
                    m_version := version
                    m_src_buf := [] } (on_parse_begin p.m_parser_base.captured line none).error false) := by
    simp only [begin_turn, request_handlers, impl.withSrc, hv, ne_eq, he, not_false_eq_true, if_true]
  rw [h.append_eq, lines_leave _ line rest _ crlf_ne_nil hcut (hturn.trans hleave)]
  exact ⟨h.waiting, rfl, rfl⟩

theorem FirstLine.accepted {p : RequestParser} {buf line rest : Bytes} (h : FirstLine p buf line rest)
    {version : version_t} (hc : (on_parse_begin p.m_parser_base.captured line none).Clean version) :
    parsed (append p buf).obj = target (on_parse_begin p.m_parser_base.captured line none).obj := by
  obtain ⟨hcut, hturn⟩ := h.turn
  have hagain := begin_turn_of_clean request_handlers line (p.m_parser_base.withSrc rest) on_parse_begin version rfl hc
  unfold parsed
  rw [h.append_eq, lines_again header_turn_framed _ _ line rest crlf_ne_nil hcut (hturn.trans hagain)]
  exact fields_keep cookies_keep_target _ rfl

/-- **Accepted paths are normalised.** Whatever else is read with it, an accepted request line
leaves a path in normal form: the decoded target up to the first `?`, every run of slashes one
slash, without a last slash. -/
theorem accepted_path_normal (p : RequestParser) (buf line rest : Bytes) (version : version_t)
    (h : FirstLine p buf line rest) (hc : (on_parse_begin p.m_parser_base.captured line none).Clean version) :
    NormalPath (append p buf).obj.m_parser_base.captured.m_path ∧
      ∃ method_part url_part version_part, from_string line (ascii " ") = [method_part, url_part, version_part] ∧
        (append p buf).obj.m_parser_base.captured.m_path =
          without_last (collapse ((from_percent_encoding url_part).takeWhile (· ≠ 63))) := by
  obtain ⟨method, url_part, ⟨m, v, hl, -, -⟩, hroot, hobj⟩ := on_parse_begin_accepted _ line version hc
  have hpath : (append p buf).obj.m_parser_base.captured.m_path = normalize_path (urlPath url_part) := by
    have htarget := h.accepted hc
    rw [hobj] at htarget
    exact congrArg (·.2.1) htarget
  rw [hpath]
  refine ⟨normalize_path_normal _ hroot, m, url_part, v, hl.parts, ?_⟩
  rw [normalize_path_eq, urlPath_eq]

theorem accepted_path_normal_escaped :
    (append (.init 0) (ascii "GET /a%2F/b%3Fc/ HTTP/1.1\r\n")).obj.m_parser_base.captured.m_path = ascii "/a/b" := by
  have hfirst : FirstLine (.init 0) (ascii "GET /a%2F/b%3Fc/ HTTP/1.1\r\n") (ascii "GET /a%2F/b%3Fc/ HTTP/1.1") [] :=
    ⟨rfl, by decide, by decide, by decide⟩
  obtain ⟨-, m, u, v, hparts, hpath⟩ := accepted_path_normal _ _ _ _ version.v11 hfirst ⟨by decide +kernel, by rfl⟩
  have hthree : from_string (ascii "GET /a%2F/b%3Fc/ HTTP/1.1") (ascii " ") =
      [ascii "GET", ascii "/a%2F/b%3Fc/", ascii "HTTP/1.1"] := by decide +kernel
  simp only [hthree, List.cons.injEq] at hparts
  rw [hpath, ← hparts.2.1]
  decide +kernel

/-! ## What a rejected line leaves behind -/

/-- The line has nothing that the parser does not have already, if it is read up to its path. -/
def Untraced (p : RequestParser) (line : Bytes) : Prop :=
  ∀ method url_part, ReadLine line method url_part →
    method = p.m_parser_base.captured.m_method ∧ urlPath url_part = p.m_parser_base.captured.m_path ∧
      ∀ e ∈ urlPairs url_part, ∃ b ∈ p.m_parser_base.captured.m_parameters.entries, key_rank b.1 = key_rank e.1

theorem rejected_parsed_iff (p : RequestParser) (buf line rest : Bytes) (h : FirstLine p buf line rest)
    (he : (on_parse_begin p.m_parser_base.captured line none).error ≠ none) :
    parsed (append p buf).obj = parsed p ↔ Untraced p line := by
  obtain ⟨-, -, hcaptured⟩ := h.rejected he
  unfold parsed
  rw [hcaptured]
  obtain ⟨-, ⟨hunread, hobj⟩ | ⟨method, url_part, hread, hobj⟩⟩ := on_parse_begin_rejected _ line he
  · rw [hobj]
    exact ⟨fun _ method url_part hread => absurd hread (hunread method url_part), fun _ => rfl⟩
  · rw [hobj]
    simp only [target, read_target, Prod.mk.injEq, OrderedMap.emplaceAll_keeps_iff]
    constructor
    · intro hsame method' url_part' hread'
      obtain ⟨rfl, rfl⟩ := hread.unique hread'
      exact hsame
    · intro huntraced
      exact huntraced method url_part hread

theorem next_line_own (q : RequestParser) (next : Bytes) (hwait : q.m_parser_base.m_state = .waiting_request)
    (hsrc : q.m_parser_base.m_src_buf = []) (hline : IsLine crlf next) {method : method_t} {url_part : Bytes}
    (hread : ReadLine next method url_part) (hroot : string_pool.root <+: urlPath url_part) :
    parsed (append q (next ++ crlf)).obj = (method, normalize_path (urlPath url_part),
      q.m_parser_base.captured.m_parameters.emplaceAll (urlPairs url_part)) := by
  have hfirst : FirstLine q (next ++ crlf) next [] := ⟨hwait, by simp [crlf], by simp [hsrc], hline⟩
  obtain ⟨version, hcall⟩ := on_parse_begin_read q.m_parser_base.captured hread
  rw [if_neg (not_not.mpr hroot)] at hcall
  have hclean : (on_parse_begin q.m_parser_base.captured next none).Clean version := by
    rw [hcall]
    exact ⟨rfl, rfl⟩
  rw [hfirst.accepted hclean, hcall]
  rfl

/-- Every line that is accepted next gives what it gives to a new parser. -/
def YieldsOwn (q : RequestParser) : Prop :=
  ∀ next, IsLine crlf next → GoodLine next →
    parsed (append q (next ++ crlf)).obj = parsed (append (.init 0) (next ++ crlf)).obj

theorem yieldsOwn_iff (q : RequestParser) (hwait : q.m_parser_base.m_state = .waiting_request)
    (hsrc : q.m_parser_base.m_src_buf = []) : YieldsOwn q ↔ q.m_parser_base.captured.m_parameters = .empty := by
  constructor
  · intro hown
    have hread : ReadLine (ascii "GET / HTTP/1.1") .GET (ascii "/") :=
      ⟨ascii "GET", ascii "HTTP/1.1", ⟨by decide +kernel, by decide, .GET, by rfl⟩, by rfl, by decide +kernel⟩
    have hroot : string_pool.root <+: urlPath (ascii "/") := by decide +kernel
    have hpairs : urlPairs (ascii "/") = [] := by decide +kernel
    have hsame := hown (ascii "GET / HTTP/1.1") (by decide) ((goodLine_iff _).mpr ⟨_, _, hread, hroot⟩)
    rw [next_line_own q _ hwait hsrc (by decide) hread hroot, next_line_own (.init 0) _ rfl rfl (by decide) hread hroot,
      hpairs] at hsame
    exact congrArg (·.2.2) hsame
  · intro hempty next hline hgood
    obtain ⟨method, url_part, hread, hroot⟩ := (goodLine_iff next).mp hgood
    rw [next_line_own q _ hwait hsrc hline hread hroot, next_line_own (.init 0) _ rfl rfl hline hread hroot, hempty]
    rfl

/-- **What a rejected request line leaves.** Method, path and parameters stay if and only if the
line, where only its path is wrong, has nothing new in it; and the next line is then read as by a
new parser if and only if there were no parameters before. -/
theorem rejected_line_untouched_iff (p : RequestParser) (buf line rest : Bytes) (h : FirstLine p buf line rest)
    (he : (on_parse_begin p.m_parser_base.captured line none).error ≠ none) :
    (parsed (append p buf).obj = parsed p ↔ Untraced p line) ∧
      (parsed (append p buf).obj = parsed p ∧ YieldsOwn (append p buf).obj ↔
        Untraced p line ∧ p.m_parser_base.captured.m_parameters = .empty) := by
  have hsame := rejected_parsed_iff p buf line rest h he
  obtain ⟨hwait, hsrc, -⟩ := h.rejected he
  refine ⟨hsame, ?_⟩
  rw [yieldsOwn_iff _ hwait hsrc, hsame]
  apply and_congr_right
  intro huntraced
  rw [show (append p buf).obj.m_parser_base.captured.m_parameters = p.m_parser_base.captured.m_parameters from
    congrArg (·.2.2) (hsame.mpr huntraced)]

theorem rejected_path_first : FirstLine (.init 0) (ascii "GET x?a=1 HTTP/1.1\r\n") (ascii "GET x?a=1 HTTP/1.1") [] :=
  ⟨rfl, by decide, by decide, by decide⟩

theorem rejected_path_error :
    (on_parse_begin (RequestParser.init 0).m_parser_base.captured (ascii "GET x?a=1 HTTP/1.1") none).error ≠ none := by
  decide +kernel

theorem rejected_path_read : ReadLine (ascii "GET x?a=1 HTTP/1.1") .GET (ascii "x?a=1") :=
  ⟨ascii "GET", ascii "HTTP/1.1", ⟨by decide +kernel, by decide, .GET, by rfl⟩, by rfl, by decide +kernel⟩

/-- A target without a slash leaves its path and its parameter behind. -/
theorem rejected_line_untouched_path :
    parsed (append (.init 0) (ascii "GET x?a=1 HTTP/1.1\r\n")).obj ≠ parsed (.init 0) := by
  intro hsame
  have huntraced := (rejected_line_untouched_iff _ _ _ _ rejected_path_first rejected_path_error).1.mp hsame
  have hpath := (huntraced _ _ rejected_path_read).2.1
  revert hpath
  decide +kernel

theorem rejected_line_leaves_parameters :
    ¬ ∀ (p : RequestParser) (buf line rest : Bytes), FirstLine p buf line rest →
      (on_parse_begin p.m_parser_base.captured line none).error ≠ none →
        parsed (append p buf).obj = parsed p ∧ YieldsOwn (append p buf).obj := by
  intro h
  obtain ⟨-, hown⟩ := h _ _ _ _ rejected_path_first rejected_path_error
  obtain ⟨hwait, hsrc, -⟩ := rejected_path_first.rejected rejected_path_error
  have hempty := (yieldsOwn_iff _ hwait hsrc).mp hown
  have hleft : (append (.init 0) (ascii "GET x?a=1 HTTP/1.1\r\n")).obj.m_parser_base.captured.m_parameters.find
      (ascii "a") = some (ascii "1") := by decide +kernel
  rw [hempty] at hleft
  cases hleft

end Libgs.Server
