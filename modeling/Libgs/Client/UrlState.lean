import Libgs.Client.Url

/-!
# What a url was before

`set` writes only the parts that it finds in its text, and it writes them one after another.
-/

namespace Libgs.Client

open Lib Libgs.Http

namespace basic_url

/-! ## The text alone -/

/-- The protocol is `https`, as `set` tells it: the character behind the `s` is not looked at. -/
def NamesHttps (resource_line : Bytes) : Prop :=
  8 < resource_line.length ∧ str_to_lower (resource_line.take 4) = ascii "http" ∧
    resource_line[4]? = some 0x73 ∧ resource_line[6]? = some 0x2F ∧ resource_line[7]? = some 0x2F

/-- The text begins with `http://`, in any letter case of the name. -/
def NamesHttp (resource_line : Bytes) : Prop :=
  8 ≤ resource_line.length ∧ str_to_lower (resource_line.take 4) = ascii "http" ∧
    resource_line[4]? = some 0x3A ∧ resource_line[5]? = some 0x2F ∧ resource_line[6]? = some 0x2F

instance (resource_line : Bytes) : Decidable (NamesHttps resource_line) := inferInstanceAs (Decidable (_ ∧ _))

instance (resource_line : Bytes) : Decidable (NamesHttp resource_line) := inferInstanceAs (Decidable (_ ∧ _))

def named (resource_line : Bytes) : Option Bytes :=
  if NamesHttps resource_line then some pro_https else if NamesHttp resource_line then some pro_http else none

/-- What stands behind the protocol -/
def resource (resource_line : Bytes) : Bytes :=
  if NamesHttps resource_line then resource_line.drop 8
  else if NamesHttp resource_line then resource_line.drop 7
  else resource_line

def front (resource_line : Bytes) : Bytes := ((cut (ascii "?") resource_line).map (·.1)).getD resource_line

def authority (addpth : Bytes) : Bytes := ((cut string_pool.root addpth).map (·.1)).getD addpth

def path_behind (addpth : Bytes) : Bytes :=
  string_pool.root ++ ((cut string_pool.root addpth).map (·.2)).getD []

theorem take_protocol_eq (enable_openssl : Bool) (resource_line : Bytes) (u : basic_url) :
    take_protocol enable_openssl resource_line u =
      if NamesHttps resource_line ∧ enable_openssl = false then .error ssl_unsupported
      else .ok (resource resource_line, { u with m_protocol := (named resource_line).getD u.m_protocol }) := by
  unfold take_protocol
  by_cases hlong : 8 ≤ resource_line.length ∧ str_to_lower (resource_line.take 4) = ascii "http"
  · obtain ⟨hlen, hlower⟩ := hlong
    rw [if_pos ⟨hlen, hlower⟩]
    by_cases hs : resource_line[4]? = some 0x73 ∧ 8 < resource_line.length
    · have hno : ¬ NamesHttp resource_line := by
        rintro ⟨-, -, hcolon, -⟩
        rw [hs.1] at hcolon
        cases hcolon
      rw [if_pos hs]
      by_cases hslash : resource_line[6]? = some 0x2F ∧ resource_line[7]? = some 0x2F
      · have hyes : NamesHttps resource_line := ⟨hs.2, hlower, hs.1, hslash⟩
        cases enable_openssl <;> simp [hslash, hyes, resource, named]
      · have hnot : ¬ NamesHttps resource_line := fun h => hslash h.2.2.2
        rw [if_neg hslash]
        simp [hnot, hno, resource, named]
    · have hnot : ¬ NamesHttps resource_line := fun h => hs ⟨h.2.2.1, h.1⟩
      rw [if_neg hs]
      by_cases hcolon : resource_line[4]? = some 0x3A ∧ resource_line[5]? = some 0x2F ∧ resource_line[6]? = some 0x2F
      · have hyes : NamesHttp resource_line := ⟨hlen, hlower, hcolon⟩
        simp [hcolon, hnot, hyes, resource, named]
      · have hno : ¬ NamesHttp resource_line := fun h => hcolon h.2.2
        rw [if_neg hcolon]
        simp [hnot, hno, resource, named]
  · have hnot : ¬ NamesHttps resource_line := fun h => hlong ⟨by have := h.1; omega, h.2.1⟩
    have hno : ¬ NamesHttp resource_line := fun h => hlong ⟨h.1, h.2.1⟩
    rw [if_neg hlong]
    simp [hnot, hno, resource, named]

theorem take_parameters_eq (resource_line : Bytes) (u : basic_url) :
    take_parameters resource_line u =
      (front resource_line,
        { u with m_parameters := u.m_parameters.emplaceAll (Server.query_pairs resource_line) }) := by
  unfold take_parameters front Server.query_pairs
  cases cut (ascii "?") resource_line with
  | none => rfl
  | some e =>
    dsimp only
    rw [Server.insert_parameters_eq]
    rfl

theorem take_path_eq (addpth : Bytes) (u : basic_url) :
    take_path addpth u = { u with m_address := authority addpth, m_path := path_behind addpth } := by
  unfold take_path authority path_behind
  cases cut string_pool.root addpth <;> rfl

/-! ## The call -/

def text_named (text : Bytes) : Option Bytes := named (str_trimmed text)

def text_authority (text : Bytes) : Bytes := authority (front (resource (str_trimmed text)))

def text_path (text : Bytes) : Bytes := path_behind (front (resource (str_trimmed text)))

def text_pairs (text : Bytes) : List (Bytes × Bytes) := Server.query_pairs (resource (str_trimmed text))

/-- The url before its port is read. -/
def scanned (u : basic_url) (text : Bytes) : basic_url where
  m_protocol := (text_named text).getD u.m_protocol
  m_address := text_authority text
  m_port := u.m_port
  m_path := text_path text
  m_parameters := u.m_parameters.emplaceAll (text_pairs text)

theorem set_eq (enable_openssl : Bool) (u : basic_url) {text : Bytes} (h : text ≠ []) :
    set enable_openssl u text =
      if NamesHttps (str_trimmed text) ∧ enable_openssl = false then (u, .error ssl_unsupported)
      else take_port (scanned u text) := by
  unfold set
  rw [if_neg h, take_protocol_eq]
  split
  · rename_i hhttps
    split at hhttps
    · rename_i hssl
      rw [if_pos hssl]
      cases hhttps
      rfl
    · cases hhttps
  · rename_i resource_line v hline
    split at hline
    · cases hline
    · rename_i hssl
      rw [if_neg hssl]
      obtain ⟨rfl, rfl⟩ : resource (str_trimmed text) = resource_line ∧
          { u with m_protocol := (named (str_trimmed text)).getD u.m_protocol } = v := by
        simpa using hline
      dsimp only
      rw [take_parameters_eq, take_path_eq]
      rfl

theorem take_port_throws (u : basic_url) (x : exception) (h : (take_port u).2 = .error x) :
    take_port u = (u, .error x) := by
  unfold take_port at h ⊢
  split at h
  · cases h
  · rename_i hne
    rw [if_neg hne]
    cases hcut : rcut 0x3A u.m_address with
    | none => simp only [hcut, reduceCtorEq] at h
    | some e =>
      simp only [hcut] at h ⊢
      cases hport : stou16 e.2 10 with
      | error y =>
        simp only [hport] at h
        rw [← h]
      | ok port => simp only [hport, reduceCtorEq] at h

/-! ## Two urls and one text -/

/-- Nothing of the url is left behind the text: it names a protocol or that of a new url, it has an
address or the port is that of a new url, and every parameter stands in it too, as the first of its key. -/
def Forgets (u : basic_url) (text : Bytes) : Prop :=
  (text_named text ≠ none ∨ u.m_protocol = pro_http) ∧ (text_authority text ≠ [] ∨ u.m_port = 80) ∧
    ∀ a ∈ u.m_parameters.entries, (text_pairs text).find? (fun e => key_rank e.1 = key_rank a.1) = some a

theorem named_getD_eq_iff (text protocol : Bytes) :
    (text_named text).getD protocol = (text_named text).getD pro_http ↔
      text_named text ≠ none ∨ protocol = pro_http := by
  cases text_named text <;> simp

theorem take_port_forgets_iff (u : basic_url) (text : Bytes) (h : (take_port (scanned u text)).2 = .ok ()) :
    (take_port (scanned u text)).1 = (take_port (scanned .init text)).1 ↔ Forgets u text := by
  have hparameters : u.m_parameters.emplaceAll (text_pairs text) = .emplaceAll .empty (text_pairs text) ↔
      ∀ a ∈ u.m_parameters.entries, (text_pairs text).find? (fun e => key_rank e.1 = key_rank a.1) = some a := by
    convert OrderedMap.emplaceAll_forgets_iff u.m_parameters (text_pairs text)
  have hprotocol := named_getD_eq_iff text u.m_protocol
  unfold Forgets
  rw [← hparameters, ← hprotocol]
  unfold take_port at h ⊢
  simp only [scanned, init] at h ⊢
  by_cases hnil : text_authority text = []
  · simp only [hnil, if_true, ne_eq, not_true_eq_false, false_or, mk.injEq, url.mk.injEq, true_and]
    tauto
  · simp only [hnil, if_false, ne_eq, not_false_eq_true, true_or, true_and] at h ⊢
    cases hcut : rcut 0x3A (text_authority text) with
    | none =>
      simp only [mk.injEq, url.mk.injEq, true_and]
      constructor
      · rintro ⟨hp, hpro, -⟩
        exact ⟨hpro, hp⟩
      · rintro ⟨hpro, hp⟩
        exact ⟨hp, hpro, if_congr (by rw [hpro]) rfl rfl⟩
    | some e =>
      simp only [hcut] at h ⊢
      cases hport : stou16 e.2 10 with
      | error y => simp only [hport, reduceCtorEq] at h
      | ok port =>
        simp only [mk.injEq, url.mk.injEq, true_and, and_true]
        exact and_comm

theorem set_forgets_iff (enable_openssl : Bool) (u : basic_url) (text : Bytes) (hne : text ≠ [])
    (h : (set enable_openssl u text).2 = .ok ()) :
    (set enable_openssl u text).1 = (set enable_openssl .init text).1 ↔ Forgets u text := by
  rw [set_eq enable_openssl u hne] at h ⊢
  rw [set_eq enable_openssl .init hne]
  split at h
  · cases h
  · rename_i hssl
    rw [if_neg hssl, if_neg hssl]
    exact take_port_forgets_iff u text h

/-! ## Histories -/

/-- The calls that change a url -/
inductive url_call
  | set (text : Bytes)
  | set_address (addr : Bytes)
  | set_port (port : UInt16)
  | set_parameter (key value : Bytes)

/-- The url behind a call, which `set` may leave with an exception. -/
def call (enable_openssl : Bool) (u : basic_url) : url_call → basic_url
  | .set text => (set enable_openssl u text).1
  | .set_address addr => { u with m_address := addr }
  | .set_port port => { u with m_port := port }
  | .set_parameter key value => { u with m_parameters := u.m_parameters.assign (str_to_lower key) value }

/-- **What a url keeps of its past.** Behind any calls, an accepted text makes of the url what it
makes of a new one if and only if nothing of the url is left behind the text. -/
theorem set_after_calls_iff (enable_openssl : Bool) (calls : List url_call) (text : Bytes) (hne : text ≠ [])
    (h : (set enable_openssl (run (call enable_openssl) .init calls) text).2 = .ok ()) :
    (set enable_openssl (run (call enable_openssl) .init calls) text).1 = (set enable_openssl .init text).1 ↔
      Forgets (run (call enable_openssl) .init calls) text :=
  set_forgets_iff enable_openssl _ text hne h

theorem set_after_calls_host :
    (set false (run (call false) .init [.set (ascii "http://h:81/a"), .set_port 82]) (ascii "http://k/")).1 =
      (set false .init (ascii "http://k/")).1 := by
  refine (set_after_calls_iff false _ _ (by decide) (by rfl)).mpr
    ⟨.inl (by decide +kernel), .inl (by decide +kernel), ?_⟩
  decide +kernel

theorem set_after_calls_parameter :
    ¬ ∀ (enable_openssl : Bool) (calls : List url_call) (text : Bytes), text ≠ [] →
      (set enable_openssl (run (call enable_openssl) .init calls) text).2 = .ok () →
        (set enable_openssl (run (call enable_openssl) .init calls) text).1 = (set enable_openssl .init text).1 := by
  intro hall
  have hsame := hall false [.set (ascii "http://h/?a=1")] (ascii "http://h/") (by decide) (by rfl)
  have hparameters := congrArg (fun u : basic_url => u.m_parameters.entries) hsame
  revert hparameters
  decide +kernel

/-! ## The path alone -/

/-- `set_path` gives its path to the reader of whole texts. -/
def set_path (enable_openssl : Bool) (u : basic_url) (path : Bytes) : basic_url × Except exception Unit :=
  set enable_openssl u path

theorem set_path_eq (enable_openssl : Bool) (u : basic_url) (path : Bytes) (hroot : string_pool.root <+: path)
    (hplain : ∀ c ∈ path, c ≠ 63 ∧ isBlank c = false) :
    set_path enable_openssl u path = ({ u with m_path := path, m_address := local_addr }, .ok ()) := by
  have htrimmed : str_trimmed path = path :=
    str_trimmed_of_unpadded path (unpadded_of_not_blank path fun c hc => (hplain c hc).2)
  obtain ⟨rest, rfl⟩ := hroot
  have hlower : str_to_lower ((string_pool.root ++ rest).take 4) ≠ ascii "http" := by
    rw [show (string_pool.root ++ rest).take 4 = 47 :: rest.take 3 from rfl]
    intro heq
    cases heq
  have hhttps : ¬ NamesHttps (string_pool.root ++ rest) := fun h => hlower h.2.1
  have hhttp : ¬ NamesHttp (string_pool.root ++ rest) := fun h => hlower h.2.1
  have hquery : cut (ascii "?") (string_pool.root ++ rest) = none := by
    rw [cut_eq_none, show ascii "?" = [63] from rfl, List.singleton_infix_iff]
    exact fun hmem => (hplain 63 hmem).1 rfl
  have hslash : cut string_pool.root (string_pool.root ++ rest) = some ([], rest) :=
    cut_append_pat string_pool.root [] rest (by decide) (by decide)
  have hscanned : scanned u (string_pool.root ++ rest) =
      { u with m_path := string_pool.root ++ rest, m_address := [] } := by
    simp [scanned, text_named, text_authority, text_path, text_pairs, htrimmed, named, resource, hhttps, hhttp, front,
      authority, path_behind, Server.query_pairs, hquery, hslash]
    rfl
  unfold set_path
  rw [set_eq enable_openssl u (by simp [string_pool.root, ascii]), htrimmed, if_neg fun h => hhttps h.1, hscanned]
  rfl

/-- **`set_path` sets the address as well.** It changes the path alone if and only if the address is the
one of a new url already. -/
theorem set_path_frame_iff (enable_openssl : Bool) (u : basic_url) (path : Bytes) (hroot : string_pool.root <+: path)
    (hplain : ∀ c ∈ path, c ≠ 63 ∧ isBlank c = false) :
    set_path enable_openssl u path = ({ u with m_path := path }, .ok ()) ↔ u.m_address = local_addr := by
  rw [set_path_eq enable_openssl u path hroot hplain]
  constructor
  · intro h
    exact (congrArg (fun r : basic_url × Except exception Unit => r.1.m_address) h).symm
  · intro h
    rw [← h]

theorem set_path_frame_local :
    set_path false { hostUrl with m_address := local_addr } (ascii "/a//http://b:c") =
      ({ hostUrl with m_address := local_addr, m_path := ascii "/a//http://b:c" }, .ok ()) :=
  (set_path_frame_iff false _ _ (by decide) (by decide +kernel)).mpr rfl

theorem set_path_loses_host :
    ¬ ∀ (enable_openssl : Bool) (u : basic_url) (path : Bytes), string_pool.root <+: path →
      (∀ c ∈ path, c ≠ 63 ∧ isBlank c = false) →
        set_path enable_openssl u path = ({ u with m_path := path }, .ok ()) := by
  intro hall
  have hsame := hall false hostUrl (ascii "/a") (by decide) (by decide +kernel)
  rw [set_path_frame_iff false hostUrl (ascii "/a") (by decide) (by decide +kernel)] at hsame
  revert hsame
  decide +kernel

/-! ## Rejected texts -/

/-- The url has all that is found in the text before its port is read. -/
structure HasScanned (u : basic_url) (text : Bytes) : Prop where
  protocol : ∀ protocol, text_named text = some protocol → protocol = u.m_protocol
  address : text_authority text = u.m_address
  path : text_path text = u.m_path
  parameters : ∀ e ∈ text_pairs text, ∃ a ∈ u.m_parameters.entries, key_rank a.1 = key_rank e.1

theorem scanned_eq_iff (u : basic_url) (text : Bytes) : scanned u text = u ↔ HasScanned u text := by
  have hprotocol : (text_named text).getD u.m_protocol = u.m_protocol ↔
      ∀ protocol, text_named text = some protocol → protocol = u.m_protocol := by
    cases text_named text <;> simp
  have hparameters := OrderedMap.emplaceAll_keeps_iff u.m_parameters (text_pairs text)
  constructor
  · intro h
    have hfields := congrArg (fun u : basic_url => (u.m_protocol, u.m_address, u.m_path, u.m_parameters)) h
    simp only [scanned, Prod.mk.injEq] at hfields
    exact ⟨hprotocol.mp hfields.1, hfields.2.1, hfields.2.2.1, hparameters.mp hfields.2.2.2⟩
  · intro h
    unfold scanned
    rw [hprotocol.mpr h.protocol, h.address, h.path, hparameters.mpr h.parameters]

/-- **What a rejected text leaves.** A text that `set` throws on leaves the url as it was if and only
if it is rejected for its protocol, or the url has its other parts already. -/
theorem set_throws_unchanged_iff (enable_openssl : Bool) (u : basic_url) (text : Bytes)
    (h : ∃ x, (set enable_openssl u text).2 = .error x) :
    (set enable_openssl u text).1 = u ↔
      (NamesHttps (str_trimmed text) ∧ enable_openssl = false) ∨ HasScanned u text := by
  obtain ⟨x, h⟩ := h
  have hne : text ≠ [] := by
    rintro rfl
    cases h
  rw [set_eq enable_openssl u hne] at h ⊢
  split at h
  · rename_i hssl
    rw [if_pos hssl]
    exact ⟨fun _ => .inl hssl, fun _ => rfl⟩
  · rename_i hssl
    rw [if_neg hssl, take_port_throws _ x h, scanned_eq_iff]
    exact (or_iff_right hssl).symm

theorem set_throws_port :
    (set false .init (ascii "http://h:x/?a=1")).1 ≠ init := by
  intro hsame
  have hcases := (set_throws_unchanged_iff false .init (ascii "http://h:x/?a=1") ⟨_, by rfl⟩).mp hsame
  rcases hcases with ⟨hssl, -⟩ | hscanned
  · revert hssl
    decide +kernel
  · have haddress := hscanned.address
    revert haddress
    decide +kernel

theorem set_throws_changes :
    ¬ ∀ (enable_openssl : Bool) (u : basic_url) (text : Bytes), (∃ x, (set enable_openssl u text).2 = .error x) →
      (set enable_openssl u text).1 = u := by
  intro hall
  have hsame := hall false .init (ascii "http://h:x/?a=1") ⟨_, by rfl⟩
  have hparameters := congrArg (fun u : basic_url => u.m_parameters.entries) hsame
  revert hparameters
  decide +kernel

end basic_url

end Libgs.Client
