import Libgs.Client.Query

/-!
# Addresses of the client

`basic_url<char>` of `http/client/detail/url.h`. Its text has the path where the address belongs, so that no
address is read back from its own text.
-/

namespace Libgs.Client

open Lib Libgs.Http

def stou16 (str : Bytes) (base : ℕ) : Except exception UInt16 := (ston str base).map Nat.toUInt16

/-- What stands before the last `c` and behind it, as `rfind` finds it. -/
def rcut (c : UInt8) (s : Bytes) : Option (Bytes × Bytes) :=
  if c ∈ s then
    some ((s.reverse.dropWhile (· ≠ c)).tail.reverse, (s.reverse.takeWhile (· ≠ c)).reverse)
  else none

/-- A url with all its parts -/
structure basic_url extends url where
  m_protocol : Bytes
  m_address : Bytes
  m_port : UInt16

namespace basic_url

def pro_http : Bytes := ascii "http"

def pro_https : Bytes := ascii "https"

def local_addr : Bytes := ascii "127.0.0.1"

/-- A url before its constructor calls `set`. -/
def init : basic_url where
  m_protocol := pro_http
  m_path := string_pool.root
  m_address := local_addr
  m_port := 80
  m_parameters := .empty

def ssl_unsupported : exception :=
  .runtime_error (ascii "libgs::http::url: SSL is not supported. (No defined LIBGS_ENABLE_OPENSSL)")

/-! ## Reading a text -/

/-- The protocol of the text, if it names one, and the rest of the text. `enable_openssl` is the option of the build. -/
def take_protocol (enable_openssl : Bool) (resource_line : Bytes) (u : basic_url) :
    Except exception (Bytes × basic_url) :=
  if 8 ≤ resource_line.length ∧ str_to_lower (resource_line.take 4) = ascii "http" then
    if resource_line[4]? = some 0x73 ∧ 8 < resource_line.length then
      if resource_line[6]? = some 0x2F ∧ resource_line[7]? = some 0x2F then
        if enable_openssl then .ok (resource_line.drop 8, { u with m_protocol := pro_https })
        else .error ssl_unsupported
      else .ok (resource_line, u)
    else if resource_line[4]? = some 0x3A ∧ resource_line[5]? = some 0x2F ∧ resource_line[6]? = some 0x2F then
      .ok (resource_line.drop 7, { u with m_protocol := pro_http })
    else .ok (resource_line, u)
  else .ok (resource_line, u)

/-- The address and the path before the parameters. The loop over the parameters is written as in the request
parser. -/
def take_parameters (resource_line : Bytes) (u : basic_url) : Bytes × basic_url :=
  match cut (ascii "?") resource_line with
  | none => (resource_line, u)
  | some (addpth, parameters_string) =>
    (addpth, { u with
      m_parameters :=
        (from_string parameters_string (ascii "&")).foldl Server.insert_parameter u.m_parameters })

/-- The address ends at the first slash. -/
def take_path (addpth : Bytes) (u : basic_url) : basic_url :=
  match cut string_pool.root addpth with
  | none => { u with m_address := addpth, m_path := string_pool.root }
  | some (address, path) => { u with m_address := address, m_path := string_pool.root ++ path }

/-- The port stands behind the last colon of the address. -/
def take_port (u : basic_url) : basic_url × Except exception Unit :=
  if u.m_address = [] then ({ u with m_address := local_addr }, .ok ())
  else
    match rcut 0x3A u.m_address with
    | none => ({ u with m_port := if u.m_protocol = pro_https then 443 else 80 }, .ok ())
    | some (address, port) =>
      match stou16 port 10 with
      | .error e => (u, .error e)
      | .ok port => ({ u with m_address := address, m_port := port }, .ok ())

/-- The url afterwards, also when the call throws. -/
def set (enable_openssl : Bool) (u : basic_url) (text : Bytes) : basic_url × Except exception Unit :=
  if text = [] then (u, .ok ())
  else
    match take_protocol enable_openssl (str_trimmed text) u with
    | .error e => (u, .error e)
    | .ok (resource_line, u) =>
      let (addpth, u) := take_parameters resource_line u
      take_port (take_path addpth u)

/-! ## Writing the text -/

/-- The address is left out, and nothing stands between the path and the port. -/
def to_string (u : basic_url) : Bytes :=
  let buf := u.m_protocol ++ (ascii "://" ++ (u.m_path ++ digits 10 u.m_port.toNat))
  if u.m_parameters.entries = [] then buf
  else buf ++ (ascii "?" ++ parameters_text u.m_parameters)

/-! ## Reading it back -/

/-- A url of the protocol http with no separator and no blank in its parts. -/
structure Plain (u : basic_url) : Prop where
  protocol : u.m_protocol = pro_http
  address_ne : u.m_address ≠ []
  address : ∀ c ∈ u.m_address, c ≠ 47 ∧ c ≠ 58 ∧ c ≠ 63 ∧ isBlank c = false
  root : string_pool.root <+: u.m_path
  path : ∀ c ∈ u.m_path, c ≠ 63 ∧ isBlank c = false
  names : ∀ e ∈ u.m_parameters.entries, e.1 ≠ [] ∧ ∀ c ∈ e.1, c ≠ 38 ∧ c ≠ 61 ∧ isBlank c = false
  values : ∀ e ∈ u.m_parameters.entries, e.2 ≠ [] ∧ ∀ c ∈ e.2, c ≠ 38 ∧ c ≠ 61 ∧ isBlank c = false

theorem digits_plain (c : UInt8) (n : ℕ) (h : c ∈ digits 10 n) : c ≠ 47 ∧ c ≠ 63 ∧ isBlank c = false := by
  have hall := List.all_eq_true.mp (digits_all 10 n (by omega) (by omega)) c h
  exact byte_forall (p := fun c => isDigit 10 c = true → c ≠ 47 ∧ c ≠ 63 ∧ isBlank c = false)
    (by decide +kernel) c hall

theorem parameters_text_plain (u : basic_url) (h : u.Plain) :
    ∀ c ∈ parameters_text u.m_parameters, isBlank c = false := by
  intro c hc
  have hc := List.dropLast_subset _ hc
  simp only [List.mem_flatten, List.mem_map] at hc
  obtain ⟨_, ⟨e, he, rfl⟩, hc⟩ := hc
  rcases List.mem_append.mp hc with hc | hc
  · rcases List.mem_append.mp hc with hc | hc
    · exact ((h.names e he).2 c hc).2.2
    · rcases List.mem_append.mp hc with hc | hc
      · obtain rfl := List.mem_singleton.mp hc
        rfl
      · exact ((h.values e he).2 c hc).2.2
  · obtain rfl := List.mem_singleton.mp hc
    rfl

theorem Plain.separated {u : basic_url} (h : u.Plain) : Separated u.m_parameters := by
  intro e he
  refine ⟨fun hmem => ?_, fun hmem => ?_, fun hmem => ?_⟩
  · exact ((h.names e he).2 38 hmem).1 rfl
  · exact ((h.names e he).2 61 hmem).2.1 rfl
  · exact ((h.values e he).2 38 hmem).1 rfl

def path_port (u : basic_url) : Bytes := u.m_path ++ digits 10 u.m_port.toNat

def query_text (u : basic_url) : Bytes :=
  if u.m_parameters.entries = [] then [] else ascii "?" ++ parameters_text u.m_parameters

theorem to_string_eq (u : basic_url) (h : u.Plain) :
    u.to_string = ascii "http://" ++ (path_port u ++ query_text u) := by
  unfold to_string path_port query_text
  rw [h.protocol]
  split
  · rw [List.append_nil]
    rfl
  · simp only [List.append_assoc]
    rfl

theorem path_port_plain (u : basic_url) (h : u.Plain) : ∀ c ∈ path_port u, c ≠ 63 ∧ isBlank c = false := by
  intro c hc
  rcases List.mem_append.mp hc with hc | hc
  · exact h.path c hc
  · exact (digits_plain c _ hc).2

theorem to_string_trimmed (u : basic_url) (h : u.Plain) : str_trimmed u.to_string = u.to_string := by
  refine str_trimmed_of_unpadded _ (unpadded_of_not_blank _ fun c hc => ?_)
  rw [to_string_eq u h] at hc
  rcases List.mem_append.mp hc with hc | hc
  · exact (by decide +kernel : ∀ c ∈ ascii "http://", isBlank c = false) c hc
  · rcases List.mem_append.mp hc with hc | hc
    · exact (path_port_plain u h c hc).2
    · unfold query_text at hc
      split at hc
      · cases hc
      · rcases List.mem_append.mp hc with hc | hc
        · obtain rfl := List.mem_singleton.mp hc
          rfl
        · exact parameters_text_plain u h c hc

theorem take_protocol_http (enable_openssl : Bool) (rest : Bytes) (v : basic_url) (hrest : rest ≠ []) :
    take_protocol enable_openssl (ascii "http://" ++ rest) v = .ok (rest, { v with m_protocol := pro_http }) := by
  obtain ⟨c, rest, rfl⟩ := List.exists_cons_of_ne_nil hrest
  have hlong : 8 ≤ (ascii "http://" ++ c :: rest).length ∧
      str_to_lower ((ascii "http://" ++ c :: rest).take 4) = ascii "http" := by
    refine ⟨?_, by rfl⟩
    rw [List.length_append, List.length_cons, show (ascii "http://").length = 7 from rfl]
    omega
  have hfour : (ascii "http://" ++ c :: rest)[4]? = some 0x3A := by rfl
  unfold take_protocol
  rw [if_pos hlong, if_neg (by simp [hfour]), if_pos ⟨hfour, by rfl, by rfl⟩]
  rfl

theorem take_parameters_query (u v : basic_url) (h : u.Plain) (hv : v.m_parameters = .empty) :
    take_parameters (path_port u ++ query_text u) v = (path_port u, { v with m_parameters := u.m_parameters }) := by
  have hno : 63 ∉ path_port u := fun hmem => (path_port_plain u h 63 hmem).1 rfl
  unfold take_parameters query_text
  by_cases hempty : u.m_parameters.entries = []
  · have hnone : cut (ascii "?") (path_port u) = none := by
      rw [cut_eq_none, show ascii "?" = [63] from rfl, List.singleton_infix_iff]
      exact hno
    have hparameters : u.m_parameters = .empty := OrderedMap.ext_entries hempty
    rw [if_pos hempty, List.append_nil, hnone, hparameters, ← hv]
  · have hcut : cut (ascii "?") (path_port u ++ (ascii "?" ++ parameters_text u.m_parameters)) =
        some (path_port u, parameters_text u.m_parameters) :=
      cut_append_pat (ascii "?") _ _ (by decide) ((isLine_singleton 63 _).mpr hno)
    have harriving := (arriving_eq_iff u.m_parameters).mpr h.separated
    rw [if_neg hempty, hcut, hv]
    dsimp only
    rw [show (from_string (parameters_text u.m_parameters) (ascii "&")).foldl Server.insert_parameter .empty =
      arriving u.m_parameters from rfl, harriving]

theorem take_path_root (u v : basic_url) (h : u.Plain) :
    take_path (path_port u) v = { v with m_address := [], m_path := path_port u } := by
  obtain ⟨rest, hrest⟩ := h.root
  have hcut : cut string_pool.root (path_port u) = some ([], rest ++ digits 10 u.m_port.toNat) := by
    unfold path_port
    rw [← hrest, List.append_assoc]
    exact cut_append_pat string_pool.root [] _ (by decide) (by decide)
  unfold take_path
  rw [hcut]
  dsimp only
  rw [← List.append_assoc, hrest]
  rfl

/-- **What is read from the text of a url**: the protocol and the parameters are the same, the port belongs to the
path, and the address and the port are those of a new url. -/
theorem set_to_string (enable_openssl : Bool) (u : basic_url) (h : u.Plain) :
    set enable_openssl .init u.to_string =
      ({ m_protocol := u.m_protocol
         m_path := u.m_path ++ digits 10 u.m_port.toNat
         m_address := local_addr
         m_port := 80
         m_parameters := u.m_parameters }, .ok ()) := by
  have hne : path_port u ++ query_text u ≠ [] := by
    have := digits_ne_nil 10 u.m_port.toNat
    simp [path_port, this]
  have hprotocol : take_protocol enable_openssl u.to_string .init =
      .ok (path_port u ++ query_text u, { init with m_protocol := pro_http }) := by
    rw [to_string_eq u h]
    exact take_protocol_http enable_openssl _ .init hne
  unfold set
  rw [if_neg (by rw [to_string_eq u h]; simp [ascii]), to_string_trimmed u h, hprotocol]
  dsimp only
  rw [take_parameters_query u _ h rfl]
  dsimp only
  rw [take_path_root u _ h]
  unfold take_port
  rw [if_pos rfl, h.protocol]
  rfl

/-- **No url is read back from its own text.** -/
theorem to_string_not_read_back (enable_openssl : Bool) (u : basic_url) (h : u.Plain) :
    set enable_openssl .init u.to_string ≠ (u, .ok ()) := by
  rw [set_to_string enable_openssl u h]
  intro heq
  have hpath := congrArg (fun r : basic_url × Except exception Unit => r.1.m_path.length) heq
  have := List.length_pos_iff.mpr (digits_ne_nil 10 u.m_port.toNat)
  simp only [List.length_append] at hpath
  omega

def hostUrl : basic_url where
  m_protocol := pro_http
  m_path := string_pool.root
  m_address := ascii "h"
  m_port := 80
  m_parameters := .empty

theorem hostUrl_plain : hostUrl.Plain where
  protocol := rfl
  address_ne := by decide
  address := by decide +kernel
  root := by decide
  path := by decide +kernel
  names := by simp [hostUrl, OrderedMap.empty]
  values := by simp [hostUrl, OrderedMap.empty]

theorem to_string_not_read_back_host : set true .init hostUrl.to_string ≠ (hostUrl, .ok ()) :=
  to_string_not_read_back true hostUrl hostUrl_plain

theorem host_lost :
    ¬ ∀ (enable_openssl : Bool) (u : basic_url), u.Plain → set enable_openssl .init u.to_string = (u, .ok ()) := by
  intro hall
  have hread : set true .init hostUrl.to_string =
      ({ hostUrl with m_path := ascii "/80", m_address := local_addr }, .ok ()) := by
    rfl
  have hpath := hall true hostUrl hostUrl_plain
  rw [hread] at hpath
  have := congrArg (fun r : basic_url × Except exception Unit => r.1.m_path) hpath
  revert this
  decide +kernel

end basic_url

end Libgs.Client
