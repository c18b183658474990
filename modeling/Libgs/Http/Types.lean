import Libgs.Core.Algorithm
import Libgs.Lib.Digits
import Libgs.Lib.OrderedMap
import Mathlib.Data.List.Lex

/-!
# Versions, methods, headers and error numbers

`http/version.h`, `http/types.h`, `http/header.h`, and the error numbers of `http/parser_base.h`.
-/

namespace Libgs.Http

open Lib

/-! ## Versions -/

/-- A version is its number: major and minor in a byte each. -/
abbrev version_t := UInt16

namespace version

def nan : version_t := 0x0000

def v10 : version_t := 0x0100

def v11 : version_t := 0x0101

end version

def version_table : List (version_t × Bytes) :=
  [(version.nan, ascii "NAN"), (version.v10, ascii "1.0"), (version.v11, ascii "1.1")]

/-- `version_number`, which throws on a text that is not in the table -/
def version_number (vs : Bytes) : Except exception version_t :=
  match version_table.find? fun e => e.2 = vs with
  | some e => .ok e.1
  | none => .error (.runtime_error
      (ascii "libgs::http::version_check: Invalid http version: '" ++ vs ++ ascii "'."))

/-- `version_string`, which throws on a number that is not in the table -/
def version_string (v : version_t) : Except exception Bytes :=
  match version_table.find? fun e => e.1 = v with
  | some e => .ok e.2
  | none => .error (.runtime_error
      (ascii "libgs::http: Invalid http version: '" ++ digits 10 v.toNat ++ ascii "'."))

/-! ## Methods -/

inductive method_t
  | GET
  | PUT
  | POST
  | HEAD
  | PATCH
  | DELETE
  | OPTIONS
  | TRACE
  | CONNECT
  deriving DecidableEq, Repr

def method_table : List (method_t × Bytes) :=
  [(.GET, ascii "GET"), (.PUT, ascii "PUT"), (.POST, ascii "POST"), (.HEAD, ascii "HEAD"),
   (.PATCH, ascii "PATCH"), (.DELETE, ascii "DELETE"), (.OPTIONS, ascii "OPTIONS"),
   (.TRACE, ascii "TRACE"), (.CONNECT, ascii "CONNECT")]

/-- `from_method_string`, which throws on a text that is not in the table -/
def from_method_string (str : Bytes) : Except exception method_t :=
  match method_table.find? fun e => e.2 = str with
  | some e => .ok e.1
  | none => .error (.runtime_error (ascii "libgs::http: Invalid http method: '" ++ str ++ ascii "'."))

/-- Every method is in the table. -/
def method_string (m : method_t) : Bytes := ((method_table.find? fun e => e.1 = m).map (·.2)).getD []

/-! ## Maps whose keys ignore case -/

/-- The rank of a key: its lower-case characters, as signed numbers moved up by 128. -/
def key_rank (key : Bytes) : List ℕ := key.map fun c => ((tolower c).toNat + 128) % 256

theorem key_byte_injective : Function.Injective fun c : UInt8 => (c.toNat + 128) % 256 := by
  intro a b h
  have := a.toNat_lt
  have := b.toNat_lt
  apply UInt8.toNat_inj.mp
  dsimp only at h
  omega

theorem key_rank_eq_iff (a b : Bytes) : key_rank a = key_rank b ↔ str_to_lower a = str_to_lower b := by
  have hmap : ∀ k, key_rank k = (str_to_lower k).map fun c => (c.toNat + 128) % 256 := by
    intro k
    simp [key_rank, str_to_lower]
  rw [hmap, hmap]
  exact (List.map_injective_iff.mpr key_byte_injective).eq_iff

/-- A map whose keys are compared without regard to their letter case -/
abbrev basic_map (β : Type) := OrderedMap key_rank β

abbrev headers_t := basic_map Bytes

abbrev parameters_t := basic_map Bytes

namespace header

def accept_ranges : Bytes := ascii "Accept-Ranges"

def content_range : Bytes := ascii "Content-Range"

def range : Bytes := ascii "Range"

def accept_encoding : Bytes := ascii "Accept-Encoding"

def content_length : Bytes := ascii "Content-Length"

def content_type : Bytes := ascii "Content-Type"

def connection : Bytes := ascii "Connection"

def location : Bytes := ascii "Location"

def transfer_encoding : Bytes := ascii "Transfer-Encoding"

end header

namespace string_pool

def root : Bytes := ascii "/"

def close : Bytes := ascii "close"

def gzip : Bytes := ascii "gzip"

def chunked : Bytes := ascii "chunked"

def set_cookie : Bytes := ascii "set-cookie"

def text_plain : Bytes := ascii "text/plain; charset=utf-8"

def comma : Bytes := ascii ","

end string_pool

/-! ## Statuses -/

abbrev status_t := ℕ

def status_table : List (status_t × Bytes) :=
  [(100, ascii "Continue"), (101, ascii "Switching Protocols"), (102, ascii "Processing"), (200, ascii "OK"),
   (201, ascii "Created"), (202, ascii "Accepted"), (203, ascii "Non-Authoritative Information"),
   (204, ascii "No Content"), (205, ascii "Reset Content"), (206, ascii "Partial Content"),
   (207, ascii "Multi-Status"), (208, ascii "Already Reported"), (226, ascii "IM Used"),
   (300, ascii "Multiple Choices"), (301, ascii "Moved Permanently"), (302, ascii "Found"),
   (303, ascii "See Other"), (304, ascii "Not Modified"), (305, ascii "Use Proxy"),
   (307, ascii "Temporary Redirect"), (308, ascii "Permanent Redirect"), (400, ascii "Bad Request"),
   (401, ascii "Unauthorized"), (402, ascii "Payment Required"), (403, ascii "Forbidden"),
   (404, ascii "Not Found"), (405, ascii "Method Not Allowed"), (406, ascii "Not Acceptable"),
   (407, ascii "Proxy Authentication Required"), (408, ascii "Request Timeout"), (409, ascii "Conflict"),
   (410, ascii "Gone"), (411, ascii "Length Required"), (412, ascii "Precondition Failed"),
   (413, ascii "Payload Too Large"), (414, ascii "URI Too Long"), (415, ascii "Unsupported Media Type"),
   (416, ascii "Range Not Satisfiable"), (417, ascii "Expectation Failed"), (421, ascii "Misdirected Request"),
   (422, ascii "Unprocessable Entity"), (423, ascii "Locked"), (424, ascii "Failed Dependency"),
   (426, ascii "Upgrade Required"), (428, ascii "Precondition Required"), (429, ascii "Too Many Requests"),
   (431, ascii "Request Header Fields Too Large"), (451, ascii "Unavailable For Legal Reasons"),
   (500, ascii "Internal Server Error"), (501, ascii "Not Implemented"), (502, ascii "Bad Gateway"),
   (503, ascii "Service Unavailable"), (504, ascii "Gateway Timeout"),
   (505, ascii "HTTP Version Not Supported"), (506, ascii "Variant Also Negotiates"),
   (507, ascii "Insufficient Storage"), (508, ascii "Loop Detected"), (510, ascii "Not Extended"),
   (511, ascii "Network Authentication Required")]

/-- `status_description`, which throws on a number that is not in the table -/
def status_description (s : status_t) : Except exception Bytes :=
  match status_table.find? fun e => e.1 = s with
  | some e => .ok e.2
  | none => .error (.runtime_error (ascii "libgs::http: Invalid http status: '" ++ digits 10 s ++ ascii "'."))

/-! ## Error numbers of the parsers -/

/-- The errors that a parser reports -/
inductive parse_errno
  | RLTL
  | HLTL
  | IRL
  | IHM
  | IHP
  | IHL
  | IDE
  | SFE
  | RE
  deriving DecidableEq, Repr

/-- The number of the error, and its text -/
def parse_errno.entry : parse_errno → ℕ × String
  | .RLTL => (10000, "Request line too long.")
  | .HLTL => (10001, "Header line too long.")
  | .IRL => (10002, "Invalid request line.")
  | .IHM => (10003, "Invalid http method.")
  | .IHP => (10004, "Invalid http path.")
  | .IHL => (10005, "Invalid header line.")
  | .IDE => (10006, "The inserted data is empty.")
  | .SFE => (10007, "Size format error.")
  | .RE => (10008, "This request is ended.")

/-- The error as an error code of the parser's category -/
def make_error_code (errc : parse_errno) : error_code := some ⟨.parser, errc.entry.1⟩

/-- `message` of the category -/
def message (code : ℕ) : String :=
  let all := [parse_errno.RLTL, .HLTL, .IRL, .IHM, .IHP, .IHL, .IDE, .SFE, .RE]
  match all.find? fun e => e.entry.1 = code with
  | some e => e.entry.2
  | none => "Unknown error."

theorem make_error_code_ne_none (errc : parse_errno) : make_error_code errc ≠ none := by
  simp [make_error_code]

theorem message_entry (errc : parse_errno) : message errc.entry.1 = errc.entry.2 := by
  cases errc <;> rfl

end Libgs.Http
