import Libgs.Http.ParserBase

/-!
# The request parser

`basic_request_parser<char>` of `http/server/detail/request_parser.h`. The fields of its `impl` that
its two handlers write are what the parser inside carries as `captured`.
-/

namespace Libgs.Server

open Lib Libgs.Http

abbrev path_args_t := List (Bytes × Bytes)

structure request_data where
  m_method : method_t
  m_path : Bytes
  m_parameters : parameters_t
  m_cookies : basic_map Bytes

structure RequestParser where
  m_parser_base : impl request_data
  m_path_args : path_args_t
  m_keep_alive : Bool
  m_support_gzip : Bool

def request_data.init : request_data :=
  { m_method := .GET, m_path := [], m_parameters := .empty, m_cookies := .empty }

def RequestParser.init (version : version_t) : RequestParser :=
  { m_parser_base := impl.init version .init, m_path_args := [], m_keep_alive := true, m_support_gzip := false }

/-! ## The request line -/

/-- `std::unique` and `erase`: a run of slashes becomes one. -/
def unique_slashes : Bytes → Bytes
  | a :: b :: path => if a = 47 ∧ b = 47 then unique_slashes (b :: path) else a :: unique_slashes (b :: path)
  | path => path

def insert_parameter (m : parameters_t) (para_str : Bytes) : parameters_t :=
  match cut (ascii "=") para_str with
  | none => m.emplace para_str para_str
  | some (key, value) => m.emplace key value

def set_url (url_line : Bytes) (r : request_data) : request_data :=
  match cut (ascii "?") url_line with
  | none => { r with m_path := url_line }
  | some (path, parameters_string) =>
    { r with
      m_path := path
      m_parameters := (from_string parameters_string (ascii "&")).foldl insert_parameter r.m_parameters }

def normalize_path (path : Bytes) : Bytes :=
  let path := unique_slashes path
  if path.length > 1 ∧ string_pool.root <:+ path then path.dropLast else path

def on_parse_begin (r : request_data) (line_buf : Bytes) (error : error_code) : Call request_data version_t :=
  match from_string line_buf (ascii " ") with
  | [method_part, url_part, version_part] =>
    if ¬ ascii "HTTP/" <+: str_to_upper version_part then .ok r (make_error_code .IRL) version.nan
    else
      match from_method_string method_part with
      | .error _ => .ok r (make_error_code .IHM) version.nan
      | .ok method =>
        let r := { r with m_method := method }
        match version_number ((version_part.drop 5).take 3) with
        | .error e => .fail r error e
        | .ok version =>
          let r := set_url (from_percent_encoding url_part) r
          if ¬ string_pool.root <+: r.m_path then .ok r (make_error_code .IHP) version
          else .ok { r with m_path := normalize_path r.m_path } error version
  | _ => .ok r (make_error_code .IRL) version.nan

/-! ## Cookies -/

def insert_cookies : List Bytes → request_data → error_code → Call request_data Unit
  | [], r, error => .ok r error ()
  | statement :: list, r, error =>
    match cut (ascii "=") (str_trimmed statement) with
    | none => .ok r (make_error_code .IHL) ()
    | some (key, value) =>
      insert_cookies list { r with m_cookies := r.m_cookies.assign (str_trimmed key) (str_trimmed value) } error

def on_parse_cookie (r : request_data) (line_buf : Bytes) (error : error_code) : Call request_data Unit :=
  insert_cookies (from_string line_buf (ascii ";")) r error

def request_handlers : handlers request_data where
  m_parse_begin := some on_parse_begin
  m_parse_cookie := some on_parse_cookie

/-! ## The interface -/

def set_attribute (p : RequestParser) : RequestParser :=
  let headers := p.m_parser_base.m_headers
  let keep_alive :=
    match headers.find header.connection with
    | none => decide (p.m_parser_base.m_version ≠ version.v10)
    | some text => decide (str_to_lower text ≠ string_pool.close)
  let support_gzip :=
    match headers.find header.accept_encoding with
    | none => false
    | some text =>
      (from_string text string_pool.comma).any (fun str => str_to_lower (str_trimmed str) = string_pool.gzip) ||
        p.m_support_gzip
  { p with m_keep_alive := keep_alive, m_support_gzip := support_gzip }

def append (p : RequestParser) (buf : Bytes) : Call RequestParser Bool :=
  let c := Http.append request_handlers p.m_parser_base buf
  let p := { p with m_parser_base := c.obj }
  match c.value, c.error with
  | .ok _, none => ⟨set_attribute p, c.error, c.value⟩
  | _, _ => ⟨p, c.error, c.value⟩

def reset_data (r : request_data) : request_data := { r with m_path := [], m_parameters := .empty, m_cookies := .empty }

def reset (p : RequestParser) : RequestParser :=
  let parser := Http.reset p.m_parser_base
  { p with m_parser_base := { parser with captured := reset_data parser.captured } }

def take_partial_body (p : RequestParser) (size : ℕ) : Bytes × RequestParser :=
  let (res, parser) := Http.take_partial_body p.m_parser_base size
  (res, { p with m_parser_base := parser })

def take_body (p : RequestParser) : Bytes × RequestParser :=
  let (res, parser) := Http.take_body p.m_parser_base
  (res, { p with m_parser_base := parser })

def can_read_from_device (p : RequestParser) : Bool := Http.can_read_from_device p.m_parser_base

def is_finished (p : RequestParser) : Bool := Http.is_finished p.m_parser_base

def is_eof (p : RequestParser) : Bool := Http.is_eof p.m_parser_base

/-! ## Path matching -/

def open_brace : UInt8 := 0x7B

def close_brace : UInt8 := 0x7D

/-- The loop over the rule from its end, with the pairs and the index it has so far. -/
def match_braces : List Bytes → path_args_t → ℕ → path_args_t × ℕ
  | [], vector, index => (vector, index)
  | format :: rest, vector, index =>
    if ¬ [open_brace] <+: format ∨ ¬ [close_brace] <:+ format then (vector, index)
    else if format.length = 2 then match_braces rest (vector ++ [([], [])]) (index - 1)
    else
      let key := (format.drop 1).take (format.length - 2)
      if key.any fun c => c = open_brace ∨ c = close_brace then match_braces rest vector index
      else match_braces rest (vector ++ [(key, [])]) (index - 1)

def path_match (p : RequestParser) (rule : Bytes) : Except exception (ℤ × RequestParser) :=
  let rule_list := if rule = string_pool.root then [rule] else from_string rule string_pool.root
  let path_list := from_string p.m_parser_base.captured.m_path string_pool.root
  let path_list := if path_list = [] then [string_pool.root] else path_list
  if path_list.length < rule_list.length then .ok (-1, p)
  else
    let (vector, index) := match_braces rule_list.reverse [] rule_list.length
    let vector := vector.reverse
    match join_range rule_list 0 index string_pool.root with
    | .error e => .error e
    | .ok rule_before =>
      let index := path_list.length - vector.length
      let path_before :=
        if vector = [] then join path_list string_pool.root
        else join_range path_list 0 index string_pool.root
      match path_before with
      | .error e => .error e
      | .ok path_before =>
        let weight := wildcard_match rule_before path_before
        if weight < 0 then .ok (-1, p)
        else
          let vector := (vector.zip (path_list.drop index)).map fun e => (e.1.1, e.2)
          .ok (weight, { p with m_path_args := vector })

end Libgs.Server
