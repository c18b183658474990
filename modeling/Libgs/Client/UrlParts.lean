import Libgs.Client.Url
import Libgs.Core.Conversions

/-!
# The parts of a url text

What `basic_url<char>` reads in `http://host[:port][path][?k=v&k=v...]`.
-/

namespace Libgs.Client

open Lib Libgs.Http

/-- The parts of a url, with no more in them than a url has -/
structure Parts where
  host : Bytes
  port : Option Bytes
  path : Bytes
  parameters : List (Bytes × Bytes)

namespace Parts

def port_text (p : Parts) : Bytes :=
  match p.port with
  | none => []
  | some port => ascii ":" ++ port

def authority (p : Parts) : Bytes := p.host ++ p.port_text

def pairs_text (p : Parts) : Bytes := (ascii "&").intercalate (p.parameters.map parameter_text)

def query_text (p : Parts) : Bytes := if p.parameters = [] then [] else ascii "?" ++ p.pairs_text

def text (p : Parts) : Bytes := ascii "http://" ++ (p.authority ++ p.path ++ p.query_text)

/-- The port that is meant, 80 where there is none -/
def port_number (p : Parts) : ℕ :=
  match p.port with
  | none => 80
  | some port => digitsVal 10 port

/-- No part has a separator in it that belongs behind it. -/
structure Proper (p : Parts) : Prop where
  host_ne : p.host ≠ []
  host : ∀ c ∈ p.host, c ≠ 47 ∧ c ≠ 58 ∧ c ≠ 63 ∧ isBlank c = false
  port : ∀ port, p.port = some port → port ≠ [] ∧ port.all (isDigit 10) = true ∧ digitsVal 10 port < 65536
  path : p.path = [] ∨ string_pool.root <+: p.path
  path_plain : 63 ∉ p.path
  names : ∀ e ∈ p.parameters, e.1 ≠ [] ∧ 38 ∉ e.1 ∧ 61 ∉ e.1
  values : ∀ e ∈ p.parameters, 38 ∉ e.2
  ends : unpadded p.text = true

/-- The call returns, and the url has these parts and no other parameters. -/
structure ReadAs (p : Parts) (r : basic_url × Except exception Unit) : Prop where
  returns : r.2 = .ok ()
  protocol : r.1.m_protocol = basic_url.pro_http
  address : r.1.m_address = p.host
  port : r.1.m_port.toNat = p.port_number
  path : r.1.m_path = if p.path = [] then string_pool.root else p.path
  parameters : r.1.m_parameters.entries.Perm p.parameters

variable {p : Parts}

/-! ## The parameters -/

theorem pairs_text_pieces (h : p.Proper) (hne : p.parameters ≠ []) :
    from_string p.pairs_text (ascii "&") = p.parameters.map parameter_text := by
  have hunlines : p.pairs_text ++ ascii "&" = unlines (ascii "&") (p.parameters.map parameter_text) :=
    (append_each_eq (ascii "&") _ (by simpa using hne)).symm
  exact from_string_parameters hunlines fun e he => ⟨(h.names e he).2.1, h.values e he⟩

theorem authority_plain (h : p.Proper) (c : UInt8) (hc : c ∈ p.authority) : c ≠ 47 ∧ c ≠ 63 := by
  rcases List.mem_append.mp hc with hc | hc
  · exact ⟨(h.host c hc).1, (h.host c hc).2.2.1⟩
  · unfold port_text at hc
    cases hport : p.port with
    | none =>
      rw [hport] at hc
      cases hc
    | some port =>
      rw [hport] at hc
      rcases List.mem_append.mp hc with hc | hc
      · obtain rfl := List.mem_singleton.mp hc
        decide
      · have hdigit := List.all_eq_true.mp (h.port port hport).2.1 c hc
        exact byte_forall (p := fun c => isDigit 10 c = true → c ≠ 47 ∧ c ≠ 63) (by decide +kernel) c hdigit

theorem take_parameters_parts (h : p.Proper) (u : basic_url) (hu : u.m_parameters = .empty) :
    basic_url.take_parameters (p.authority ++ p.path ++ p.query_text) u =
      (p.authority ++ p.path, { u with m_parameters := OrderedMap.emplaceAll .empty p.parameters }) := by
  have hno : 63 ∉ p.authority ++ p.path := by
    rw [List.mem_append, not_or]
    exact ⟨fun hmem => (authority_plain h 63 hmem).2 rfl, h.path_plain⟩
  unfold basic_url.take_parameters query_text
  by_cases hempty : p.parameters = []
  · have hnone : cut (ascii "?") (p.authority ++ p.path) = none := by
      rw [cut_eq_none, show ascii "?" = [63] from rfl, List.singleton_infix_iff]
      exact hno
    rw [if_pos hempty, List.append_nil, hnone, hempty,
      show OrderedMap.emplaceAll .empty [] = u.m_parameters from hu.symm]
  · have hcut : cut (ascii "?") (p.authority ++ p.path ++ (ascii "?" ++ p.pairs_text)) =
        some (p.authority ++ p.path, p.pairs_text) :=
      cut_append_pat (ascii "?") _ _ (by decide) ((isLine_singleton 63 _).mpr hno)
    rw [if_neg hempty, hcut, hu]
    dsimp only
    rw [pairs_text_pieces h hempty, insert_parameters_text _ _ fun e he => (h.names e he).2.2]

/-! ## The path -/

theorem take_path_parts (h : p.Proper) (u : basic_url) :
    basic_url.take_path (p.authority ++ p.path) u =
      { u with m_address := p.authority, m_path := if p.path = [] then string_pool.root else p.path } := by
  have hno : 47 ∉ p.authority := fun hmem => (authority_plain h 47 hmem).1 rfl
  unfold basic_url.take_path
  rcases h.path with hpath | ⟨rest, hpath⟩
  · have hnone : cut string_pool.root p.authority = none := by
      rw [cut_eq_none, show string_pool.root = [47] from rfl, List.singleton_infix_iff]
      exact hno
    rw [hpath, List.append_nil, hnone, if_pos rfl]
  · have hcut : cut string_pool.root (p.authority ++ (string_pool.root ++ rest)) = some (p.authority, rest) :=
      cut_append_pat string_pool.root _ _ (by decide) ((isLine_singleton 47 _).mpr hno)
    rw [← hpath, hcut, if_neg (by simp [string_pool.root, ascii])]

/-! ## The port -/

theorem rcut_append (c : UInt8) (a b : Bytes) (hb : c ∉ b) : rcut c (a ++ c :: b) = some (a, b) := by
  have hrev : (a ++ c :: b).reverse = b.reverse ++ c :: a.reverse := by simp
  have hplain : ∀ x ∈ b.reverse, decide (x ≠ c) = true := by
    intro x hx
    exact decide_eq_true fun hxc => hb (by rwa [hxc, List.mem_reverse] at hx)
  unfold rcut
  rw [if_pos (by simp), hrev, List.dropWhile_append_of_pos hplain, List.takeWhile_append_of_pos hplain]
  simp

theorem stou16_conversion (str : Bytes) (base : ℕ) :
    arithmetic.stou16 str base = (stou16 str base).map fun port => (port.toNat : ℤ) := by
  unfold arithmetic.stou16 arithmetic.detail.stou16 arithmetic.convert stou16 ston arithmetic.reader._sto_int
  cases _sto_int str base with
  | ok res =>
    simp [Except.map, arithmetic.integral.cast, arithmetic.integral.is_signed, arithmetic.integral.bits]
  | error e =>
    by_cases htruth : _stob str < 0
    · simp [Except.map, arithmetic.try_stobtot, htruth]
    · by_cases hzero : _stob str = 0 <;> simp [Except.map, arithmetic.try_stobtot, htruth, hzero]

theorem stou16_digits (port : Bytes) (hne : port ≠ []) (hdigits : port.all (isDigit 10) = true) :
    stou16 port 10 =
      if size_max ≤ digitsVal 10 port then .error not_arithmetic else .ok (digitsVal 10 port).toUInt16 := by
  have hread := arithmetic.convert_decimal .unsigned_short .unsigned_char port hne hdigits
  have hport := (stou16_conversion port 10).symm.trans hread
  by_cases hlarge : size_max ≤ digitsVal 10 port
  · rw [if_pos hlarge] at hport ⊢
    cases hstou16 : stou16 port 10 with
    | error e => simpa [hstou16, Except.map] using hport
    | ok n => simp [hstou16, Except.map] at hport
  · rw [if_neg hlarge] at hport ⊢
    cases hstou16 : stou16 port 10 with
    | error e => simp [hstou16, Except.map] at hport
    | ok n =>
      have hcast (v : ℕ) : arithmetic.integral.unsigned_short.cast v = (v.toUInt16.toNat : ℤ) := by
        simp [arithmetic.integral.cast, arithmetic.integral.is_signed, arithmetic.integral.bits]
      simp only [hstou16, Except.map, hcast, Except.ok.injEq, Nat.cast_inj] at hport
      rw [UInt16.toNat_inj.mp hport]

theorem stou16_decimal (port : Bytes) (hne : port ≠ []) (hdigits : port.all (isDigit 10) = true)
    (hlt : digitsVal 10 port < 65536) : stou16 port 10 = .ok (digitsVal 10 port).toUInt16 := by
  have hsmall : digitsVal 10 port < size_max := hlt.trans (by decide)
  rw [stou16_digits port hne hdigits, if_neg (Nat.not_le.mpr hsmall)]

theorem take_port_parts (h : p.Proper) (u : basic_url) (hprotocol : u.m_protocol = basic_url.pro_http)
    (haddress : u.m_address = p.authority) :
    basic_url.take_port u = ({ u with m_address := p.host, m_port := p.port_number.toUInt16 }, .ok ()) := by
  have hne : u.m_address ≠ [] := by
    rw [haddress]
    exact List.append_ne_nil_of_left_ne_nil h.host_ne _
  unfold basic_url.take_port
  rw [if_neg hne]
  unfold authority port_text at haddress
  unfold port_number
  cases hport : p.port with
  | none =>
    have haddress : u.m_address = p.host := by rwa [hport, List.append_nil] at haddress
    have hnone : rcut 0x3A u.m_address = none := by
      rw [haddress]
      exact if_neg fun hmem => (h.host 0x3A hmem).2.1 rfl
    rw [hnone, hprotocol, ← haddress]
    rfl
  | some port =>
    obtain ⟨hport_ne, hdigits, hlt⟩ := h.port port hport
    have hcolon : 0x3A ∉ port := fun hmem => absurd (List.all_eq_true.mp hdigits 0x3A hmem) (by decide)
    have hcut : rcut 0x3A u.m_address = some (p.host, port) := by
      rw [haddress, hport]
      exact rcut_append 0x3A p.host port hcolon
    rw [hcut]
    dsimp only
    rw [stou16_decimal port hport_ne hdigits hlt]

theorem port_number_lt (h : p.Proper) : p.port_number < 65536 := by
  unfold port_number
  cases hport : p.port with
  | none => decide
  | some port => exact (h.port port hport).2.2

/-! ## The whole text -/

theorem set_text (enable_openssl : Bool) (h : p.Proper) :
    basic_url.set enable_openssl .init p.text =
      ({ m_protocol := basic_url.pro_http
         m_path := if p.path = [] then string_pool.root else p.path
         m_address := p.host
         m_port := p.port_number.toUInt16
         m_parameters := OrderedMap.emplaceAll .empty p.parameters }, .ok ()) := by
  have hrest : p.authority ++ p.path ++ p.query_text ≠ [] := by
    unfold authority
    simp [h.host_ne]
  have htext : p.text ≠ [] := List.append_ne_nil_of_left_ne_nil (by decide) _
  unfold basic_url.set
  rw [if_neg htext, str_trimmed_of_unpadded _ h.ends]
  unfold text
  rw [basic_url.take_protocol_http enable_openssl _ .init hrest]
  dsimp only
  rw [take_parameters_parts h _ rfl]
  dsimp only
  rw [take_path_parts h, take_port_parts h _ rfl rfl]

/-- **A url has the parts of its text**, when no two names are the same in lower case. -/
theorem set_parts (enable_openssl : Bool) (p : Parts) (h : p.Proper)
    (hnames : (p.parameters.map fun e => str_to_lower e.1).Nodup) :
    p.ReadAs (basic_url.set enable_openssl .init p.text) := by
  have hranks : p.parameters.Pairwise fun a b => key_rank a.1 ≠ key_rank b.1 := by
    refine (List.pairwise_map.mp hnames).imp fun hab hrank => ?_
    exact hab ((key_rank_eq_iff _ _).mp hrank)
  rw [set_text enable_openssl h]
  exact {
    returns := rfl
    protocol := rfl
    address := rfl
    port := UInt16.toNat_ofNat_of_lt (port_number_lt h)
    path := rfl
    parameters := OrderedMap.emplaceAll_perm .empty p.parameters hranks }

def queryParts : Parts where
  host := ascii "h"
  port := some (ascii "8080")
  path := ascii "/a"
  parameters := [(ascii "k", ascii "v"), (ascii "n", ascii "w")]

theorem queryParts_proper : queryParts.Proper where
  host_ne := by decide
  host := by decide +kernel
  port := by
    rintro _ ⟨⟩
    exact ⟨by decide, by decide +kernel, by decide +kernel⟩
  path := by decide
  path_plain := by decide
  names := by decide +kernel
  values := by decide +kernel
  ends := by decide +kernel

theorem set_parts_query : queryParts.ReadAs (basic_url.set false .init queryParts.text) :=
  set_parts false queryParts queryParts_proper (by decide +kernel)

def casedParts : Parts where
  host := ascii "h"
  port := none
  path := ascii "/"
  parameters := [(ascii "a", ascii "1"), (ascii "A", ascii "2")]

theorem casedParts_proper : casedParts.Proper where
  host_ne := by decide
  host := by decide +kernel
  port := by rintro _ ⟨⟩
  path := by decide
  path_plain := by decide
  names := by decide +kernel
  values := by decide +kernel
  ends := by decide +kernel

/-- The second of two names that differ in case only is lost. -/
theorem set_parts_cased :
    ¬ ∀ (enable_openssl : Bool) (p : Parts), p.Proper → (p.parameters.map fun e => e.1).Nodup →
      p.ReadAs (basic_url.set enable_openssl .init p.text) := by
  intro hall
  have hread := (hall false casedParts casedParts_proper (by decide +kernel)).parameters.length_eq
  rw [set_text false casedParts_proper] at hread
  exact absurd hread (by decide +kernel)

end Parts

end Libgs.Client
