import Libgs.Client.RequestHelper
import Libgs.Server.Completion

/-!
# How a message is framed

The setters of `http/server/detail/response_helper.h`, and which of `Content-Length` and a chunked `Transfer-Encoding`
stands in the header block that is written behind them.
-/

namespace Libgs.Server

open Lib Libgs.Http

/-! ## The settings -/

namespace response_helper

/-- `status_check` throws where there is no such status. -/
def set_status (r : response_helper) (status : status_t) : response_helper :=
  match status_description status with
  | .ok _ => { r with m_status := status }
  | .error _ => r

def set_header (r : response_helper) (key value : Bytes) : response_helper :=
  { r with m_helper := r.m_helper.set_header key value }

/-- Read as `unset_header` of the base: the map that is named is not a member. The key is taken as it is. -/
def unset_header (r : response_helper) (key : Bytes) : response_helper :=
  { r with m_helper := { r.m_helper with m_headers := r.m_helper.m_headers.erase key } }

/-- Only `m_redirect_url` is cleared, and nothing reads it. -/
def clear_header (r : response_helper) : response_helper := r

def set_redirect (r : response_helper) (url : Bytes) (redi : redirect) : response_helper :=
  (r.set_status redi.status).set_header header.location url

def set_cookie (r : response_helper) (key : Bytes) (value : cookie) : response_helper :=
  { r with m_cookies := r.m_cookies.assign (str_to_lower key) value }

def unset_cookie (r : response_helper) (key : Bytes) : response_helper := { r with m_cookies := r.m_cookies.erase key }

def clear_cookie (r : response_helper) : response_helper := { r with m_cookies := .empty }

def reset (r : response_helper) : response_helper :=
  { r with m_version := version.v11, m_status := 200, m_cookies := .empty, m_helper := r.m_helper.reset }

end response_helper

/-- The calls that set something of a response -/
inductive setting
  | set_status (status : status_t)
  | set_header (key value : Bytes)
  | unset_header (key : Bytes)
  | clear_header
  | set_redirect (url : Bytes) (redi : redirect)
  | set_cookie (key : Bytes) (value : cookie)
  | unset_cookie (key : Bytes)
  | clear_cookie
  | reset

/-- The helper behind the call -/
def setting_step (r : response_helper) : setting → response_helper
  | .set_status status => r.set_status status
  | .set_header key value => r.set_header key value
  | .unset_header key => r.unset_header key
  | .clear_header => r.clear_header
  | .set_redirect url redi => r.set_redirect url redi
  | .set_cookie key value => r.set_cookie key value
  | .unset_cookie key => r.unset_cookie key
  | .clear_cookie => r.clear_cookie
  | .reset => r.reset

/-- A new helper behind settings -/
def settled (version_v : version_t) (request_headers : headers_t) (settings : List setting) : response_helper :=
  run setting_step (response_helper.init version_v request_headers) settings

theorem set_status_helper (r : response_helper) (status : status_t) : (r.set_status status).m_helper = r.m_helper := by
  unfold response_helper.set_status
  split <;> rfl

theorem setting_step_state (r : response_helper) (s : setting) (h : r.m_helper.m_state = .header) :
    (setting_step r s).m_helper.m_state = .header := by
  cases s with
  | set_status status =>
    unfold setting_step
    rw [set_status_helper, h]
  | set_redirect url redi =>
    have hstatus := set_status_helper r redi.status
    unfold setting_step response_helper.set_redirect response_helper.set_header helper_base.set_header
    dsimp only
    rw [hstatus, h]
  | reset => rfl
  | _ => exact h

theorem settled_state (version_v : version_t) (request_headers : headers_t) (settings : List setting) :
    (settled version_v request_headers settings).m_helper.m_state = .header := by
  unfold settled
  generalize hr : response_helper.init version_v request_headers = r
  have hstate : r.m_helper.m_state = .header := by rw [← hr]; rfl
  clear hr
  induction settings generalizing r with
  | nil => exact hstate
  | cons s settings ih => exact ih (setting_step r s) (setting_step_state r s hstate)

/-! ## The two headers -/

/-- A length has been set. -/
def HasLength (headers : headers_t) : Prop := ∃ text, headers.find header.content_length = some text

/-- `Transfer-Encoding` is there, with `chunked` in any letter case. -/
def HasChunked (headers : headers_t) : Prop :=
  ∃ text, headers.find header.transfer_encoding = some text ∧ str_to_lower text = string_pool.chunked

/-- One of the two is there, and the encoder is in its state, with its number. -/
structure Unambiguous (h : helper_base) : Prop where
  one : ¬ (HasLength h.m_headers ↔ HasChunked h.m_headers)
  length : HasLength h.m_headers ↔ h.m_state = .content_length
  chunk : HasChunked h.m_headers ↔ h.m_state = .chunk
  count : ∀ text, h.m_headers.find header.content_length = some text → ston text 10 = .ok h.m_content_length

theorem has_length_of_find {headers : headers_t} {text : Bytes} (h : headers.find header.content_length = some text) :
    HasLength headers := ⟨text, h⟩

theorem not_has_length {headers : headers_t} (h : headers.find header.content_length = none) :
    ¬ HasLength headers := by
  rintro ⟨text, htext⟩
  cases h.symm.trans htext

theorem not_has_chunked {headers : headers_t} (h : ∀ text, headers.find header.transfer_encoding = some text →
    str_to_lower text ≠ string_pool.chunked) : ¬ HasChunked headers := by
  rintro ⟨text, htext, hlower⟩
  exact h text htext hlower

theorem unambiguous_given (h : helper_base) (text : Bytes) (length : ℕ) (hstate : h.m_state = .content_length)
    (hfind : h.m_headers.find header.content_length = some text) (hlength : ston text 10 = .ok length)
    (hcount : h.m_content_length = length) : Unambiguous h ↔ ¬ HasChunked h.m_headers := by
  have hhas := has_length_of_find hfind
  constructor
  · intro hu hchunked
    exact hu.one (iff_of_true hhas hchunked)
  · intro hnot
    refine ⟨fun hiff => hnot (hiff.mp hhas), iff_of_true hhas hstate, iff_of_false hnot ?_, ?_⟩
    · rw [hstate]
      nofun
    · intro text' htext'
      obtain rfl : text = text' := Option.some.inj (hfind.symm.trans htext')
      rw [hlength, hcount]

theorem declare_length_length (h : helper_base) (body_size : ℕ) :
    (h.declare_length body_size).m_headers.find header.content_length = some (digits 10 body_size) :=
  OrderedMap.find_assign_self _ _ _ _ rfl

theorem unambiguous_declared (h : helper_base) (body_size : ℕ) (hsize : body_size < size_max)
    (hnot : ¬ HasChunked h.m_headers) : Unambiguous (h.declare_length body_size) := by
  have hfind := declare_length_length h body_size
  have hkeep : (h.declare_length body_size).m_headers.find header.transfer_encoding =
      h.m_headers.find header.transfer_encoding := OrderedMap.find_assign_ne _ _ _ _ (by decide)
  refine (unambiguous_given _ _ body_size rfl hfind (ston_digits body_size hsize) rfl).mpr ?_
  rintro ⟨text, htext, hlower⟩
  exact hnot ⟨text, hkeep ▸ htext, hlower⟩

theorem unambiguous_chunked (h : helper_base) (hstate : h.m_state = .chunk)
    (hnone : h.m_headers.find header.content_length = none) (hchunked : HasChunked h.m_headers) : Unambiguous h := by
  have hno := not_has_length hnone
  refine ⟨fun hiff => hno (hiff.mpr hchunked), iff_of_false hno ?_, iff_of_true hchunked hstate, ?_⟩
  · rw [hstate]
    nofun
  · intro text htext
    exact absurd ⟨text, htext⟩ hno

/-! ## The base -/

theorem base_unambiguous_iff (h h' : helper_base) (body_size : ℕ) (data : Bytes) (hsize : body_size < size_max)
    (hstate : h.m_state = .header) (hdata : h.header_data version.v11 body_size = .ok (data, h')) :
    Unambiguous h' ↔ ¬ (HasLength h.m_headers ∧ HasChunked h.m_headers) := by
  cases (helper_base.header_data_selects _ h h' body_size data hstate hdata).2 with
  | given text length hfind hlength =>
    refine (unambiguous_given { h with m_content_length := length, m_state := .content_length } text length rfl hfind
      hlength rfl).trans ?_
    exact not_congr (and_iff_right (has_length_of_find hfind)).symm
  | chunked text hnone htext hlower =>
    refine iff_of_true (unambiguous_chunked _ rfl hnone ⟨text, htext, hlower⟩) ?_
    exact fun hboth => not_has_length hnone hboth.1
  | declared hnone hnot =>
    refine iff_of_true (unambiguous_declared h body_size hsize (not_has_chunked (hnot (by decide)))) ?_
    exact fun hboth => not_has_length hnone hboth.1

/-! ## The response -/

theorem header_helper_has_length (r : response_helper) :
    HasLength r.header_helper.m_headers ↔ HasLength r.m_helper.m_headers := by
  unfold HasLength
  rw [header_helper_find r _ (by decide) (by decide)]

theorem header_helper_has_chunked (r : response_helper) :
    HasChunked r.header_helper.m_headers ↔ r.request_chunked = true ∨ HasChunked r.m_helper.m_headers := by
  cases hrequest : r.request_chunked with
  | true =>
    exact iff_of_true ⟨_, request_chunked_helper r hrequest, by decide⟩ (.inl rfl)
  | false =>
    have herased := OrderedMap.find_erase_ne r.m_helper.m_headers string_pool.set_cookie header.transfer_encoding
      (by decide)
    unfold HasChunked response_helper.header_helper
    rw [hrequest]
    simp only [Bool.false_eq_true, if_false, herased, false_or]

theorem response_unambiguous_iff (r r' : response_helper) (size : ℕ) (block : Bytes) (hsize : size < size_max)
    (hstate : r.m_helper.m_state = .header) (h : r.header_data size = .ok (block, r')) :
    (∃ line, r.status_line = .ok line ∧ block = line ++ (helper_base.field_lines r'.m_helper.m_headers ++
      ((r.m_cookies.entries.map cookie_line).flatten ++ crlf))) ∧
    (Unambiguous r'.m_helper ↔
      ¬ (HasLength r.m_helper.m_headers ∧ (r.request_chunked = true ∨ HasChunked r.m_helper.m_headers))) := by
  obtain ⟨line, hline, -, hdata, hblock⟩ := header_data_block r r' size block hstate h
  refine ⟨⟨line, hline, hblock⟩, ?_⟩
  rw [base_unambiguous_iff _ _ size _ hsize ((header_helper_state r).1.trans hstate) hdata,
    header_helper_has_length, header_helper_has_chunked]

/-! ## The request -/

/-- The helper of a request behind the headers of its argument -/
def sent_helper (h : Client.request_helper) : helper_base :=
  h.m_req_arg.m_headers.entries.foldl (fun helper e => helper.set_header e.1 e.2) h.m_helper

theorem sent_helper_state (h : Client.request_helper) (hstate : h.m_helper.m_state = .header) :
    (sent_helper h).m_state = .header := by
  unfold sent_helper
  generalize h.m_helper = helper at hstate
  induction h.m_req_arg.m_headers.entries generalizing helper with
  | nil => exact hstate
  | cons e es ih => exact ih (helper.set_header e.1 e.2) hstate

theorem request_unambiguous_iff (version_v : version_t) (h h' : Client.request_helper) (method : method_t) (size : ℕ)
    (data : Bytes) (hsize : size < size_max) (hstate : h.m_helper.m_state = .header)
    (hdata : h.header_data version_v method size = .ok (data, h')) :
    (∃ vs, version_string version_v = .ok vs ∧ data = Client.request_line h.m_req_arg.m_url method vs ++ crlf ++
      (helper_base.field_lines h'.m_helper.m_headers ++ (Client.cookie_line h.m_req_arg.m_cookies ++ crlf))) ∧
    (Unambiguous h'.m_helper ↔ ¬ (HasLength (sent_helper h).m_headers ∧ HasChunked (sent_helper h).m_headers)) := by
  obtain ⟨vs, fields, helper, hversion, hfields, rfl, hparts⟩ := Client.request_helper.header_data_result hstate hdata
  have hsent := sent_helper_state h hstate
  refine ⟨⟨vs, hversion, ?_⟩, base_unambiguous_iff (sent_helper h) helper size fields hsize hsent hfields⟩
  rw [hparts, (helper_base.header_data_fields _ (sent_helper h) helper size fields hsent hfields).1]

/-! ## Both -/

/-- **Framing.** The headers of a block decide its framing, and the encoder is in the state that they say, exactly when
no length was set beside a chunked `Transfer-Encoding`, be it the user's or the request's. -/
theorem framing_unambiguous_iff (size : ℕ) (hsize : size < size_max) :
    (∀ version_v request_headers settings block r',
      (settled version_v request_headers settings).header_data size = .ok (block, r') →
      let r := settled version_v request_headers settings
      (∃ line, r.status_line = .ok line ∧ block = line ++ (helper_base.field_lines r'.m_helper.m_headers ++
        ((r.m_cookies.entries.map cookie_line).flatten ++ crlf))) ∧
      (Unambiguous r'.m_helper ↔
        ¬ (HasLength r.m_helper.m_headers ∧ (r.request_chunked = true ∨ HasChunked r.m_helper.m_headers)))) ∧
    (∀ version_v (h h' : Client.request_helper) method data, h.m_helper.m_state = .header →
      h.header_data version_v method size = .ok (data, h') →
      (∃ vs, version_string version_v = .ok vs ∧ data = Client.request_line h.m_req_arg.m_url method vs ++ crlf ++
        (helper_base.field_lines h'.m_helper.m_headers ++ (Client.cookie_line h.m_req_arg.m_cookies ++ crlf))) ∧
      (Unambiguous h'.m_helper ↔
        ¬ (HasLength (sent_helper h).m_headers ∧ HasChunked (sent_helper h).m_headers))) := by
  constructor
  · intro version_v request_headers settings block r' h
    exact response_unambiguous_iff _ r' size block hsize (settled_state version_v request_headers settings) h
  · intro version_v h h' method data hstate hdata
    exact request_unambiguous_iff version_v h h' method size data hsize hstate hdata

def chunkedRequest : headers_t := OrderedMap.empty.assign (ascii "transfer-encoding") (ascii "chunked")

def lengthSettings : List setting := [.set_header header.content_length (ascii "5")]

theorem framing_unambiguous_five : ∃ block r',
    (settled version.v11 .empty lengthSettings).header_data 5 = .ok (block, r') ∧ Unambiguous r'.m_helper := by
  refine ⟨_, _, rfl, ((framing_unambiguous_iff 5 (by decide)).1 version.v11 .empty lengthSettings _ _ rfl).2.mpr ?_⟩
  rintro ⟨-, hrequest | ⟨text, htext, -⟩⟩
  · revert hrequest
    decide
  · cases htext

theorem length_beside_chunked : ¬ ∀ version_v request_headers settings size block r', size < size_max →
    (settled version_v request_headers settings).header_data size = .ok (block, r') → Unambiguous r'.m_helper := by
  intro h
  have hu := h version.v11 chunkedRequest lengthSettings 5 _ _ (by decide) rfl
  exact hu.one (iff_of_true ⟨ascii "5", by decide⟩ ⟨string_pool.chunked, by decide, by decide⟩)

end Libgs.Server
