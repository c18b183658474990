import Libgs.Http.Alike
import Libgs.Server.RequestFragments
import Libgs.Server.Routing

/-!
# One request after another

`reset` between two requests: what the parser keeps of the first one.
-/

namespace Libgs.Server

open Lib Libgs.Http

/-! ## Parsers with another past -/

/-- `reset` leaves the method behind. -/
def SameRequest (r r' : request_data) : Prop := r' = { r with m_method := r'.m_method }

theorem begin_oblivious (r : request_data) (m : method_t) (line : Bytes) (error : error_code) :
    on_parse_begin { r with m_method := m } line error = on_parse_begin r line error ∨
      ∃ code, on_parse_begin r line error = .ok r (make_error_code code) version.nan ∧
        on_parse_begin { r with m_method := m } line error =
          .ok { r with m_method := m } (make_error_code code) version.nan := by
  unfold on_parse_begin
  split
  · split
    · exact .inr ⟨_, rfl, rfl⟩
    · split
      · exact .inr ⟨_, rfl, rfl⟩
      · exact .inl rfl
  · exact .inr ⟨_, rfl, rfl⟩

theorem request_oblivious : Oblivious request_handlers SameRequest where
  refl r := rfl
  parse_begin := by
    rintro parse_begin hb r r' line error h
    obtain rfl : on_parse_begin = parse_begin := Option.some.inj hb
    rw [h]
    obtain hsame | ⟨code, hc, hc'⟩ := begin_oblivious r r'.m_method line error
    · rw [hsame]
      exact ⟨rfl, rfl, rfl, fun _ _ => rfl⟩
    · rw [hc, hc']
      refine ⟨rfl, rfl, rfl, fun version hclean => ?_⟩
      cases hclean.1

/-- The parser inside, after any past -/
def AnyPast (p p' : RequestParser) : Prop := Alike SameRequest p.m_parser_base p'.m_parser_base

theorem reset_past (version : version_t) (p : RequestParser) : AnyPast (.init version) (reset p) :=
  .waiting rfl p.m_parser_base.m_version p.m_parser_base.m_content_length (reset_data p.m_parser_base.captured) rfl

theorem fed_past {p p' : RequestParser} (h : AnyPast p p') (xs : List Bytes) : AnyPast (fed p xs) (fed p' xs) := by
  unfold AnyPast
  rw [fed_base, fed_base]
  exact fed_alike request_oblivious _ _ xs h

theorem append_past {p p' : RequestParser} (h : AnyPast p p') (x : Bytes) :
    AnyPast (append p x).obj (append p' x).obj ∧ (append p' x).error = (append p x).error ∧
      (append p' x).value = (append p x).value := by
  obtain ⟨hobj, herror, hvalue⟩ := append_base p x
  obtain ⟨hobj', herror', hvalue'⟩ := append_base p' x
  have hcall := append_alike request_oblivious _ _ x h
  refine ⟨?_, herror'.trans (hcall.error.trans herror.symm), hvalue'.trans (hcall.value.trans hvalue.symm)⟩
  unfold AnyPast
  rw [hobj, hobj']
  exact hcall.obj

theorem AnyPast.begun {p p' : RequestParser} (h : AnyPast p p') (hp : p.m_parser_base.m_state ≠ .waiting_request) :
    ∃ k, p'.m_parser_base = p.m_parser_base.withLength k := by
  unfold AnyPast at h
  generalize p'.m_parser_base = b at h
  cases h with
  | waiting hw => exact absurd hw hp
  | begun _ k => exact ⟨k, rfl⟩

/-! ## Requests on one connection -/

/-- A request in fragments, and the rules it is matched against -/
structure request where
  fragments : List Bytes
  rules : List Bytes
  deriving Repr

/-- A `path_match` that throws changes nothing. -/
def match_rule (p : RequestParser) (rule : Bytes) : RequestParser :=
  match path_match p rule with
  | .ok (_, p) => p
  | .error _ => p

/-- The request arrives, and its path is matched. -/
def serve (p : RequestParser) (r : request) : RequestParser := r.rules.foldl match_rule (fed p r.fragments)

/-- Requests, each with a `reset` behind it -/
def serve_all (p : RequestParser) (rs : List request) : RequestParser := rs.foldl (fun p r => reset (serve p r)) p

/-- What can be asked of a request -/
structure observed where
  method : method_t
  path : Bytes
  parameters : parameters_t
  headers : headers_t
  cookies : basic_map Bytes
  version : version_t
  body : Bytes
  keep_alive : Bool
  support_gzip : Bool
  path_args : path_args_t

/-- What the parser answers -/
def observe (p : RequestParser) : observed where
  method := p.m_parser_base.captured.m_method
  path := p.m_parser_base.captured.m_path
  parameters := p.m_parser_base.captured.m_parameters
  headers := p.m_parser_base.m_headers
  cookies := p.m_parser_base.captured.m_cookies
  version := p.m_parser_base.m_version
  body := p.m_parser_base.m_partial_body
  keep_alive := p.m_keep_alive
  support_gzip := p.m_support_gzip
  path_args := p.m_path_args

/-- A new parser takes every fragment without an error and is finished behind the last one. -/
structure Valid (version : version_t) (r : request) : Prop where
  clean : ∀ ys x zs, r.fragments = ys ++ x :: zs → ∃ b, (append (fed (.init version) ys) x).Clean b
  finished : is_finished (fed (.init version) r.fragments) = true

theorem serve_all_past (version : version_t) (rs : List request) :
    AnyPast (.init version) (serve_all (.init version) rs) := by
  rcases List.eq_nil_or_concat' rs with rfl | ⟨front, r, rfl⟩
  · exact Alike.refl request_oblivious _
  · unfold serve_all
    rw [List.foldl_append]
    exact reset_past version _

/-! ## The attributes -/

/-- Headers that settle whether gzip is supported: without Accept-Encoding, or with gzip in it -/
def settles_gzip (headers : headers_t) : Bool :=
  match headers.find header.accept_encoding with
  | none => true
  | some text => (from_string text string_pool.comma).any fun str => str_to_lower (str_trimmed str) = string_pool.gzip

theorem fed_append_one (p : RequestParser) (ys : List Bytes) (x : Bytes) :
    fed p (ys ++ [x]) = (append (fed p ys) x).obj := by
  simp [fed]

theorem fed_path_args (p : RequestParser) (xs : List Bytes) : (fed p xs).m_path_args = p.m_path_args := by
  induction xs generalizing p with
  | nil => rfl
  | cons x xs ih =>
    have hx : (append p x).obj.m_path_args = p.m_path_args := by
      unfold append
      dsimp only
      split <;> rfl
    exact (ih _).trans hx

theorem append_clean_attributes {p : RequestParser} {x : Bytes} {b : Bool} (h : (append p x).Clean b) :
    (append p x).obj = set_attribute { p with m_parser_base := (append p x).obj.m_parser_base } := by
  obtain ⟨hobj, herror, hvalue⟩ := append_base p x
  rw [hobj]
  have hv := hvalue.symm.trans h.2
  have he := herror.symm.trans h.1
  unfold append
  simp only [hv, he]

theorem set_attribute_gzip (p q : RequestParser) (hq : q.m_parser_base.m_headers = p.m_parser_base.m_headers) :
    (settles_gzip p.m_parser_base.m_headers = true →
      (set_attribute q).m_support_gzip = (set_attribute p).m_support_gzip) ∧
    (settles_gzip p.m_parser_base.m_headers = false → (set_attribute p).m_support_gzip = p.m_support_gzip) := by
  unfold set_attribute settles_gzip
  dsimp only
  rw [hq]
  cases p.m_parser_base.m_headers.find header.accept_encoding with
  | none => simp
  | some text =>
    constructor
    · intro h
      simp [h]
    · intro h
      simp [h]

/-- Some fragment has settled whether gzip is supported. -/
def Settled (version : version_t) (xs : List Bytes) : Prop :=
  ∃ ys, ys ≠ [] ∧ ys <+: xs ∧ settles_gzip (fed (.init version) ys).m_parser_base.m_headers = true

theorem settled_append_one (version : version_t) (xs : List Bytes) (x : Bytes) :
    Settled version (xs ++ [x]) ↔
      Settled version xs ∨ settles_gzip (fed (.init version) (xs ++ [x])).m_parser_base.m_headers = true := by
  constructor
  · rintro ⟨ys, hne, hpre, h⟩
    rcases List.prefix_concat_iff.mp hpre with rfl | hpre
    · exact .inr h
    · exact .inl ⟨ys, hne, hpre, h⟩
  · rintro (⟨ys, hne, hpre, h⟩ | h)
    · exact ⟨ys, hne, hpre.trans (List.prefix_append _ _), h⟩
    · exact ⟨xs ++ [x], by simp, List.prefix_refl _, h⟩

theorem gzip_of_past (version : version_t) (p' : RequestParser) (hpast : AnyPast (.init version) p') (xs : List Bytes)
    (hclean : ∀ ys x zs, xs = ys ++ x :: zs → ∃ b, (append (fed (.init version) ys) x).Clean b) :
    (Settled version xs → (fed p' xs).m_support_gzip = (fed (.init version) xs).m_support_gzip) ∧
      (¬ Settled version xs →
        (fed p' xs).m_support_gzip = p'.m_support_gzip ∧ (fed (.init version) xs).m_support_gzip = false) := by
  induction xs using List.reverseRecOn with
  | nil =>
    refine ⟨?_, fun _ => ⟨rfl, rfl⟩⟩
    rintro ⟨ys, hne, hpre, -⟩
    exact absurd (List.prefix_nil.mp hpre) hne
  | append_singleton xs x ih =>
    obtain ⟨hsettled, hopen⟩ := ih fun ys y zs hsplit => hclean ys y (zs ++ [x]) (by simp [hsplit])
    obtain ⟨b, hb⟩ := hclean xs x [] rfl
    obtain ⟨hobj, herror, hvalue⟩ := append_past (fed_past hpast xs) x
    have hb' : (append (fed p' xs) x).Clean b := ⟨herror.trans hb.1, hvalue.trans hb.2⟩
    have hgzip := set_attribute_gzip { fed (.init version) xs with
        m_parser_base := (append (fed (.init version) xs) x).obj.m_parser_base }
      { fed p' xs with m_parser_base := (append (fed p' xs) x).obj.m_parser_base } hobj.headers
    have hgzip' := set_attribute_gzip { fed p' xs with m_parser_base := (append (fed p' xs) x).obj.m_parser_base }
      { fed p' xs with m_parser_base := (append (fed p' xs) x).obj.m_parser_base } rfl
    rw [← append_clean_attributes hb, ← append_clean_attributes hb', ← fed_append_one, ← fed_append_one] at hgzip
    rw [← append_clean_attributes hb', ← fed_append_one] at hgzip'
    dsimp only at hgzip hgzip'
    have hheaders : (fed p' (xs ++ [x])).m_parser_base.m_headers =
        (fed (.init version) (xs ++ [x])).m_parser_base.m_headers := (fed_past hpast (xs ++ [x])).headers
    rw [hheaders] at hgzip'
    rw [settled_append_one]
    cases hs : settles_gzip (fed (.init version) (xs ++ [x])).m_parser_base.m_headers with
    | true => exact ⟨fun _ => hgzip.1 hs, fun hno => absurd (.inr rfl) hno⟩
    | false =>
      rw [hgzip.2 hs, hgzip'.2 hs]
      simpa using ⟨hsettled, hopen⟩

/-! ## The path arguments -/

theorem match_rule_eq (p : RequestParser) (rule : Bytes) :
    match_rule p rule =
      if 0 ≤ rule_weight p rule then
        { p with m_path_args := bind_last (argument_names rule) p.m_parser_base.captured.m_path }
      else p := by
  unfold match_rule rule_weight
  cases hm : path_match p rule with
  | error e => simp
  | ok res =>
    obtain ⟨w, q⟩ := res
    obtain ⟨hneg, hpos⟩ := path_match_spec p q rule w hm
    dsimp only
    split
    · rename_i hw
      exact (hpos hw).2
    · rename_i hw
      exact hneg (by omega)

theorem match_rules_base (p : RequestParser) (rules : List Bytes) :
    (rules.foldl match_rule p).m_parser_base = p.m_parser_base ∧
      (rules.foldl match_rule p).m_keep_alive = p.m_keep_alive ∧
      (rules.foldl match_rule p).m_support_gzip = p.m_support_gzip := by
  induction rules generalizing p with
  | nil => exact ⟨rfl, rfl, rfl⟩
  | cons rule rules ih =>
    obtain ⟨hb, hk, hg⟩ := ih (match_rule p rule)
    rw [List.foldl_cons, hb, hk, hg, match_rule_eq]
    split <;> exact ⟨rfl, rfl, rfl⟩

/-- Some rule of the list matches the path. -/
def SomeMatch (p : RequestParser) (rules : List Bytes) : Prop := ∃ rule ∈ rules, 0 ≤ rule_weight p rule

theorem match_rules_args (p p' : RequestParser) (rules : List Bytes)
    (h : p'.m_parser_base.captured.m_path = p.m_parser_base.captured.m_path) :
    (SomeMatch p rules → (rules.foldl match_rule p').m_path_args = (rules.foldl match_rule p).m_path_args) ∧
      (¬ SomeMatch p rules → (rules.foldl match_rule p').m_path_args = p'.m_path_args ∧
        (rules.foldl match_rule p).m_path_args = p.m_path_args) := by
  induction rules generalizing p p' with
  | nil => exact ⟨fun ⟨rule, hrule, _⟩ => absurd hrule List.not_mem_nil, fun _ => ⟨rfl, rfl⟩⟩
  | cons rule rules ih =>
    rw [List.foldl_cons, List.foldl_cons, match_rule_eq, match_rule_eq, rule_weight_path h]
    by_cases hw : 0 ≤ rule_weight p rule
    · rw [if_pos hw, if_pos hw, h]
      set q := { p with m_path_args := bind_last (argument_names rule) p.m_parser_base.captured.m_path }
      set q' := { p' with m_path_args := bind_last (argument_names rule) p.m_parser_base.captured.m_path }
      obtain ⟨hmatch, hnone⟩ := ih q q' h
      refine ⟨fun _ => ?_, fun hno => absurd ⟨rule, List.mem_cons_self, hw⟩ hno⟩
      by_cases hsome : SomeMatch q rules
      · exact hmatch hsome
      · exact (hnone hsome).1.trans (hnone hsome).2.symm
    · rw [if_neg hw, if_neg hw]
      have hsome : SomeMatch p (rule :: rules) ↔ SomeMatch p rules := by simp [SomeMatch, hw]
      rw [hsome]
      exact ih p p' h

/-! ## What leaks -/

theorem finished_begun {p : RequestParser} (h : is_finished p = true) :
    p.m_parser_base.m_state ≠ .waiting_request := by
  intro hw
  simp [is_finished, Http.is_finished, hw] at h

theorem keep_alive_of_past (version : version_t) (p' : RequestParser) (hpast : AnyPast (.init version) p') (r : request)
    (hr : Valid version r) : (fed p' r.fragments).m_keep_alive = (fed (.init version) r.fragments).m_keep_alive := by
  obtain ⟨k, hk⟩ := (fed_past hpast r.fragments).begun (finished_begun hr.finished)
  rcases List.eq_nil_or_concat' r.fragments with hnil | ⟨xs, x, hxs⟩
  · have hfin := hr.finished
    rw [hnil] at hfin
    exact absurd rfl (finished_begun hfin)
  · obtain ⟨b, hb⟩ := hr.clean xs x [] hxs
    obtain ⟨hobj, herror, hvalue⟩ := append_past (fed_past hpast xs) x
    have hb' : (append (fed p' xs) x).Clean b := ⟨herror.trans hb.1, hvalue.trans hb.2⟩
    rw [hxs, fed_append_one, fed_append_one] at hk ⊢
    rw [append_clean_attributes hb, append_clean_attributes hb']
    unfold set_attribute
    dsimp only
    rw [hk]
    rfl

/-- **Requests on one connection.** A valid request is seen as a new parser sees it, if and only if no earlier
request has left a support for gzip or path arguments that this one does not settle. -/
theorem no_leak_iff (version : version_t) (rs : List request) (r : request) (hr : Valid version r) :
    observe (serve (serve_all (.init version) rs) r) = observe (serve (.init version) r) ↔
      ((serve_all (.init version) rs).m_support_gzip = false ∨ Settled version r.fragments) ∧
        ((serve_all (.init version) rs).m_path_args = [] ∨ SomeMatch (fed (.init version) r.fragments) r.rules) := by
  set p' := serve_all (.init version) rs with hp'
  have hpast : AnyPast (.init version) p' := serve_all_past version rs
  obtain ⟨k, hk⟩ := (fed_past hpast r.fragments).begun (finished_begun hr.finished)
  have hkeep := keep_alive_of_past version p' hpast r hr
  obtain ⟨hsettled, hopen⟩ := gzip_of_past version p' hpast r.fragments hr.clean
  obtain ⟨hmatch, hnone⟩ :=
    match_rules_args (fed (.init version) r.fragments) (fed p' r.fragments) r.rules (by rw [hk]; rfl)
  obtain ⟨hb, hka, hg⟩ := match_rules_base (fed (.init version) r.fragments) r.rules
  obtain ⟨hb', hka', hg'⟩ := match_rules_base (fed p' r.fragments) r.rules
  have hobserve : observe (serve p' r) = observe (serve (.init version) r) ↔
      (fed p' r.fragments).m_support_gzip = (fed (.init version) r.fragments).m_support_gzip ∧
        (r.rules.foldl match_rule (fed p' r.fragments)).m_path_args =
          (r.rules.foldl match_rule (fed (.init version) r.fragments)).m_path_args := by
    unfold observe serve
    rw [hb, hka, hg, hb', hka', hg', hk, hkeep]
    simp [impl.withLength]
  rw [hobserve]
  apply and_congr
  · by_cases hs : Settled version r.fragments
    · simp [hs, hsettled hs]
    · simp [hs, hopen hs]
  · by_cases hm : SomeMatch (fed (.init version) r.fragments) r.rules
    · simp [hm, hmatch hm]
    · have hinit : (RequestParser.init version).m_path_args = [] := rfl
      rw [(hnone hm).1, (hnone hm).2, fed_path_args, fed_path_args, hinit]
      simp [hm]

def gzipRequest : request where
  fragments := [ascii "GET /a/b HTTP/1.1\r\nAccept-Encoding: gzip\r\n\r\n"]
  rules := [ascii "/?/\x7Bx\x7D"]

def brotliRequest : request where
  fragments := [ascii "GET /b HTTP/1.1\r\nAccept-Encoding: br\r\n\r\n"]
  rules := []

theorem brotli_valid : Valid 0 brotliRequest where
  clean ys x zs h := by
    obtain ⟨rfl, rfl, -⟩ : ys = [] ∧ x = ascii "GET /b HTTP/1.1\r\nAccept-Encoding: br\r\n\r\n" ∧ zs = [] := by
      cases ys with
      | nil => simpa [brotliRequest, eq_comm] using h
      | cons y ys => simp [brotliRequest] at h
    exact ⟨true, by rfl, by rfl⟩
  finished := by rfl

theorem no_leak_iff_brotli :
    observe (serve (serve_all (.init 0) [brotliRequest]) brotliRequest) = observe (serve (.init 0) brotliRequest) ↔
      ((serve_all (.init 0) [brotliRequest]).m_support_gzip = false ∨ Settled 0 brotliRequest.fragments) ∧
        ((serve_all (.init 0) [brotliRequest]).m_path_args = [] ∨
          SomeMatch (fed (.init 0) brotliRequest.fragments) brotliRequest.rules) :=
  no_leak_iff 0 [brotliRequest] brotliRequest brotli_valid

/-- A client that takes no gzip is answered as the one before it. -/
theorem gzip_leaks :
    Valid 0 brotliRequest ∧
      observe (serve (serve_all (.init 0) [gzipRequest]) brotliRequest) ≠ observe (serve (.init 0) brotliRequest) := by
  refine ⟨brotli_valid, fun h => ?_⟩
  have hgzip : (serve (serve_all (.init 0) [gzipRequest]) brotliRequest).m_support_gzip = true := by decide +kernel
  have hfresh : (serve (.init 0) brotliRequest).m_support_gzip = false := by decide +kernel
  have := (congrArg observed.support_gzip h).symm
  unfold observe at this
  rw [hgzip, hfresh] at this
  cases this

end Libgs.Server
