import Libgs.Core.PercentEncoding
import Libgs.Http.HelperBase

/-!
# The request helper of the client

`basic_request_helper<char>` of `http/client/detail/request_helper.h`.
-/

namespace Libgs.Client

open Lib Libgs.Http

/-- What a request needs of a url -/
structure url where
  m_path : Bytes
  m_parameters : parameters_t

/-- What the application says of a request -/
structure request_arg where
  m_url : url
  m_headers : headers_t
  m_cookies : basic_map Bytes

/-- The helper inside has the version 1.1, whatever the version of this one. -/
structure request_helper where
  m_helper : helper_base
  m_req_arg : request_arg

def parameter_text (e : Bytes × Bytes) : Bytes := e.1 ++ (ascii "=" ++ e.2)

/-- The parameters of the query, without the last separator -/
def parameters_text (parameters : parameters_t) : Bytes :=
  ((parameters.entries.map fun e => parameter_text e ++ ascii "&").flatten).dropLast

/-- The target of the request line -/
def path_text (u : url) : Bytes :=
  if u.m_parameters.entries = [] then u.m_path
  else u.m_path ++ (ascii "?" ++ to_percent_encoding (parameters_text u.m_parameters))

def request_line (u : url) (method : method_t) (vs : Bytes) : Bytes :=
  method_string method ++ (ascii " " ++ (path_text u ++ (ascii " " ++ (ascii "HTTP/" ++ vs))))

/-- The line of all cookies, where there are any -/
def cookie_line (cookies : basic_map Bytes) : Bytes :=
  if cookies.entries = [] then []
  else ascii "Cookie: " ++ ((cookies.entries.map fun e => e.1 ++ (ascii "=" ++ (e.2 ++ ascii ";"))).flatten ++ crlf)

namespace request_helper

/-- `header_data`, with the template argument `version_v`. With a version that is not in the table it does not
compile. -/
def header_data (version_v : version_t) (h : request_helper) (method : method_t) (body_size : ℕ) :
    Except exception (Bytes × request_helper) :=
  if h.m_helper.m_state ≠ .header then .ok ([], h)
  else
    match version_string version_v with
    | .error e => .error e
    | .ok vs =>
      let buf := request_line h.m_req_arg.m_url method vs ++ crlf
      let helper := h.m_req_arg.m_headers.entries.foldl (fun helper e => helper.set_header e.1 e.2) h.m_helper
      match helper.header_data version.v11 body_size with
      | .error e => .error e
      | .ok (data, helper) =>
        .ok (buf ++ (data ++ (cookie_line h.m_req_arg.m_cookies ++ crlf)), { h with m_helper := helper })

theorem header_data_result {version_v : version_t} {h h' : request_helper} {method : method_t} {body_size : ℕ}
    {data : Bytes} (hstate : h.m_helper.m_state = .header)
    (hdata : h.header_data version_v method body_size = .ok (data, h')) :
    ∃ vs fields helper, version_string version_v = .ok vs ∧
      (h.m_req_arg.m_headers.entries.foldl (fun helper e => helper.set_header e.1 e.2) h.m_helper).header_data
        version.v11 body_size = .ok (fields, helper) ∧ h' = { h with m_helper := helper } ∧
      data = request_line h.m_req_arg.m_url method vs ++ crlf ++
        (fields ++ (cookie_line h.m_req_arg.m_cookies ++ crlf)) := by
  unfold header_data at hdata
  rw [if_neg (not_not.mpr hstate)] at hdata
  cases hversion : version_string version_v with
  | error e => simp [hversion] at hdata
  | ok vs =>
    simp only [hversion] at hdata
    split at hdata
    · cases hdata
    · rename_i fields helper hfields
      cases hdata
      exact ⟨vs, fields, helper, rfl, hfields, rfl, rfl⟩

theorem header_data_parts {version_v : version_t} {h h' : request_helper} {method : method_t} {body_size : ℕ}
    {data : Bytes} (hstate : h.m_helper.m_state = .header)
    (hdata : h.header_data version_v method body_size = .ok (data, h')) :
    ∃ vs fields helper, version_string version_v = .ok vs ∧
      (h.m_req_arg.m_headers.entries.foldl (fun helper e => helper.set_header e.1 e.2) h.m_helper).header_data
        version.v11 body_size = .ok (fields, helper) ∧
      data = request_line h.m_req_arg.m_url method vs ++ crlf ++
        (fields ++ (cookie_line h.m_req_arg.m_cookies ++ crlf)) := by
  obtain ⟨vs, fields, helper, hversion, hfields, -, hparts⟩ := header_data_result hstate hdata
  exact ⟨vs, fields, helper, hversion, hfields, hparts⟩

theorem header_data_line {version_v : version_t} {h h' : request_helper} {method : method_t} {body_size : ℕ}
    {data : Bytes} (hstate : h.m_helper.m_state = .header)
    (hdata : h.header_data version_v method body_size = .ok (data, h')) :
    ∃ vs rest, version_string version_v = .ok vs ∧
      data = request_line h.m_req_arg.m_url method vs ++ (crlf ++ rest) := by
  obtain ⟨vs, _, _, hversion, -, hparts⟩ := header_data_parts hstate hdata
  exact ⟨vs, _, hversion, by rw [hparts, List.append_assoc]⟩

end request_helper

end Libgs.Client
