import Libgs.Core.Number
import Libgs.Http.Types
import Libgs.Lib.LineLoop

/-!
# The incremental parser

`basic_parser_base<char>` of `http/detail/parser_base.h`. What the handlers have captured by
reference is part of the state. `append` clears the error code first, so that the parts of the
parser start without an error.
-/

namespace Libgs.Http

open Lib

/-- What the parser reads next -/
inductive state
  | waiting_request
  | reading_headers
  | reading_length
  | chunked_wait_size
  | chunked_wait_content
  | chunked_wait_headers
  | finished
  deriving DecidableEq, Repr

/-- `m_parse_begin` and `m_parse_cookie`. An empty `std::function` is `none`. -/
structure handlers (σ : Type) where
  m_parse_begin : Option (σ → Bytes → error_code → Call σ version_t)
  m_parse_cookie : Option (σ → Bytes → error_code → Call σ Unit)

/-- What the parser keeps. `σ` is what the handlers keep of a request. -/
structure impl (σ : Type) where
  m_state : state
  m_src_buf : Bytes
  m_version : version_t
  m_headers : headers_t
  m_partial_body : Bytes
  m_content_length : ℕ
  captured : σ

variable {σ : Type}

/-- A new parser. Nothing sets `m_version` before the first line is read. -/
def impl.init (version : version_t) (captured : σ) : impl σ :=
  { m_state := .waiting_request, m_src_buf := [], m_version := version, m_headers := .empty,
    m_partial_body := [], m_content_length := 0, captured := captured }

/-- The body length stays. -/
def reset (p : impl σ) : impl σ :=
  { p with m_state := .waiting_request, m_src_buf := [], m_headers := .empty, m_partial_body := [] }

/-- What an empty handler throws, both of them with the same text. -/
def null_handler : exception :=
  .runtime_error (ascii "libgs::http::parser: state_handler_waiting_begin == NULL.")

/-- A header, or the text of a cookie header, which goes to its handler -/
def header_insert (hs : handlers σ) (key value : Bytes) (p : impl σ) (error : error_code) : Call (impl σ) Unit :=
  if key = ascii "cookie" ∨ key = ascii "set-cookie" then
    match hs.m_parse_cookie with
    | none => .fail p error null_handler
    | some parse_cookie =>
      let c := parse_cookie p.captured value error
      ⟨{ p with captured := c.obj }, c.error, c.value⟩
  else .ok { p with m_headers := p.m_headers.assign key value } error ()

/-- A line `key: value`, as both header sections read it. `none` when it has no colon. -/
def insert_line (hs : handlers σ) (line_buf : Bytes) (p : impl σ) (error : error_code) :
    Option (Call (impl σ) Unit) :=
  match cut (ascii ":") line_buf with
  | none => none
  | some (key, value) =>
    some (header_insert hs (str_to_lower (str_trimmed key)) (from_percent_encoding (str_trimmed value)) p error)

/-! ## The body -/

/-- `std::string(m_src_buf.c_str(), rsize)` has no meaning for an `rsize` beyond the end of the buffer. -/
def parse_length (p : impl σ) : impl σ :=
  let rsize := p.m_partial_body.length + p.m_src_buf.length
  let rsize :=
    if rsize > p.m_content_length then size_sub p.m_content_length p.m_partial_body.length
    else p.m_src_buf.length
  let partial_body := p.m_partial_body ++ p.m_src_buf.take rsize
  { p with
    m_partial_body := partial_body
    m_src_buf := []
    m_state := if p.m_content_length > partial_body.length then .reading_length else .finished }

/-- The parser with the local variables of `parse_chunked`. -/
structure chunk_loop (σ : Type) where
  obj : impl σ
  _size : ℕ
  error : error_code

/-- A line that should be the size of a chunk -/
def chunk_size_turn (line_buf : Bytes) (s : chunk_loop σ) : Turn (chunk_loop σ) (Call (impl σ) Bool) :=
  let line_buf := ((cut (ascii ";") line_buf).map (·.1)).getD line_buf
  if line_buf.length > 16 then .leave (.ok s.obj (make_error_code .SFE) false)
  else
    match ston line_buf 16 with
    | .error _ => .leave (.ok s.obj (make_error_code .SFE) false)
    | .ok size =>
      .again { s with
        _size := size
        obj := { s.obj with m_state := if size = 0 then .chunked_wait_headers else .chunked_wait_content } }

/-- A line that should be the data of a chunk. Where it is longer than the size, it counts for the size. -/
def chunk_content_turn (line_buf : Bytes) (s : chunk_loop σ) : chunk_loop σ :=
  let obj := { s.obj with m_partial_body := s.obj.m_partial_body ++ line_buf }
  if s._size < line_buf.length then { s with _size := line_buf.length, obj := obj }
  else { s with obj := { obj with m_state := .chunked_wait_size } }

/-- A line behind the last chunk, with its line end -/
def chunk_headers_turn (hs : handlers σ) (line_buf : Bytes) (s : chunk_loop σ) :
    Turn (chunk_loop σ) (Call (impl σ) Bool) :=
  if line_buf = crlf then
    .leave (.ok { s.obj with m_state := .finished, m_src_buf := [] } s.error true)
  else
    match insert_line hs line_buf s.obj s.error with
    | none => .leave (.ok s.obj (make_error_code .SFE) false)
    | some c =>
      match c.value with
      | .error e => .leave (.fail c.obj c.error e)
      | .ok _ => .again { s with obj := c.obj, error := c.error }

/-- One turn of the loop of `parse_chunked`. Only the trailing headers keep the line end. -/
def chunk_turn (hs : handlers σ) (line_buf : Bytes) (s : chunk_loop σ) :
    Turn (chunk_loop σ) (Call (impl σ) Bool) :=
  match s.obj.m_state with
  | .chunked_wait_size => chunk_size_turn line_buf s
  | .chunked_wait_content => .again (chunk_content_turn line_buf s)
  | .chunked_wait_headers => chunk_headers_turn hs (line_buf ++ crlf) s
  | _ => .again s

/-- The bytes that the loop over a chunked body reads from -/
def chunkBuffer : Buffer (chunk_loop σ) UInt8 where
  get s := s.obj.m_src_buf
  set s b := { s with obj := { s.obj with m_src_buf := b } }
  get_set _ _ := rfl
  set_get _ := rfl
  set_set _ _ _ := rfl

/-- The loop of `parse_chunked` is over. A line that is not yet complete must be short. -/
def chunk_pending (s : chunk_loop σ) : Call (impl σ) Bool :=
  .ok s.obj (if s.obj.m_src_buf.length ≥ 1024 then make_error_code .HLTL else s.error) false

/-- `_size` starts at 0 in every call. -/
def parse_chunked (hs : handlers σ) (p : impl σ) : Call (impl σ) Bool :=
  match lines chunkBuffer crlf (chunk_turn hs) ⟨p, 0, none⟩ with
  | .leave c => c
  | .again s => chunk_pending s

/-! ## The head -/

/-- What comes behind the head: a counted body, a chunked one, or none -/
def set_read_body_state (hs : handlers σ) (p : impl σ) : Call (impl σ) Bool :=
  match p.m_headers.find header.content_length with
  | some text =>
    match ston text 10 with
    | .error e => .fail p none e
    | .ok length => .ok (parse_length { p with m_content_length := length }) none true
  | none =>
    if p.m_version = version.v11 then
      match p.m_headers.find header.transfer_encoding with
      | none => .ok { p with m_state := .finished } none true
      | some text =>
        if text ≠ string_pool.chunked then .ok { p with m_state := .finished } none true
        else
          let c := parse_chunked hs { p with m_state := .chunked_wait_size }
          ⟨c.obj, c.error, c.value.map fun _ => true⟩
    else .ok { p with m_state := .finished } none true

/-- A line of the header section. The blank line ends the head. -/
def state_handler_reading_headers (hs : handlers σ) (line_buf : Bytes) (p : impl σ) : Call (impl σ) Bool :=
  if line_buf = [] then set_read_body_state hs p
  else
    match insert_line hs line_buf p none with
    | none => .ok (reset p) (make_error_code .IHL) false
    | some c => ⟨c.obj, c.error, c.value.map fun _ => false⟩

/-- The first line goes to its handler. -/
def begin_turn (hs : handlers σ) (line_buf : Bytes) (p : impl σ) : Turn (impl σ) (Call (impl σ) Bool) :=
  match hs.m_parse_begin with
  | none => .leave (.fail p none null_handler)
  | some parse_begin =>
    let c := parse_begin p.captured line_buf none
    let p := { p with captured := c.obj }
    match c.value with
    | .error e => .leave (.fail p c.error e)
    | .ok version =>
      if c.error ≠ none then .leave (.ok { p with m_version := version, m_src_buf := [] } c.error false)
      else .again { p with m_version := version, m_state := .reading_headers }

/-- The turn of `parse_header` on any other line: it returns, breaks off or goes on. -/
def field_turn (hs : handlers σ) (line_buf : Bytes) (p : impl σ) : Turn (impl σ) (Call (impl σ) Bool) :=
  let c := state_handler_reading_headers hs line_buf p
  match c.value, c.error with
  | .ok false, none => .again c.obj
  | _, _ => .leave c

/-- A turn of the loop over the lines of a head -/
def header_turn (hs : handlers σ) (line_buf : Bytes) (p : impl σ) : Turn (impl σ) (Call (impl σ) Bool) :=
  match p.m_state with
  | .waiting_request => begin_turn hs line_buf p
  | .reading_headers => field_turn hs line_buf p
  | _ => .again p

/-- The bytes that the loop over the lines of a head reads from -/
def srcBuffer : Buffer (impl σ) UInt8 where
  get p := p.m_src_buf
  set p b := { p with m_src_buf := b }
  get_set _ _ := rfl
  set_get _ := rfl
  set_set _ _ _ := rfl

/-- No line end is left. A line that is too long already is an error. -/
def header_pending (p : impl σ) : Call (impl σ) Bool :=
  let error :=
    if p.m_src_buf.length < 1024 then none
    else if p.m_state = .waiting_request then make_error_code .RLTL
    else if p.m_state = .reading_headers then make_error_code .HLTL
    else none
  .ok p error false

/-- The loop over the lines of a head -/
def parse_header (hs : handlers σ) (p : impl σ) : Call (impl σ) Bool :=
  match lines srcBuffer crlf (header_turn hs) p with
  | .leave c => c
  | .again p => header_pending p

/-! ## The interface -/

/-- `append(buf, error)` -/
def append (hs : handlers σ) (p : impl σ) (buf : Bytes) : Call (impl σ) Bool :=
  if buf = [] then .ok p (make_error_code .IDE) false
  else if p.m_state = .finished then .ok p (make_error_code .RE) false
  else
    let p := { p with m_src_buf := p.m_src_buf ++ buf }
    match p.m_state with
    | .waiting_request | .reading_headers => parse_header hs p
    | .reading_length => .ok (parse_length p) none true
    | _ => parse_chunked hs p

/-- The first `size` bytes of the body, or as many as there are -/
def take_partial_body (p : impl σ) (size : ℕ) : Bytes × impl σ :=
  let size := min size p.m_partial_body.length
  (p.m_partial_body.take size, { p with m_partial_body := p.m_partial_body.drop size })

/-- A string that was moved from is empty. -/
def take_body (p : impl σ) : Bytes × impl σ := (p.m_partial_body, { p with m_partial_body := [] })

/-- `reading_headers < m_state < finished` -/
def can_read_from_device (p : impl σ) : Bool :=
  p.m_state ≠ .waiting_request ∧ p.m_state ≠ .reading_headers ∧ p.m_state ≠ .finished

def is_finished (p : impl σ) : Bool := p.m_state = .finished

/-- The body has been taken, and there is nothing more to come. -/
def is_eof (p : impl σ) : Bool := p.m_partial_body = [] ∧ ¬ can_read_from_device p

end Libgs.Http
