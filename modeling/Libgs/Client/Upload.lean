import Libgs.Client.Message
import Libgs.Http.Trailers

/-!
# An upload from client to server

`chunk_end_data` of `http/client/detail/request_helper.h`, and a request whose body the client sends part by part, with
trailers behind it, in the request parser of the server.
-/

namespace Libgs.Client

open Lib Libgs.Http

namespace request_helper

def chunk_end_data (h : request_helper) (headers : headers_t) : Bytes × request_helper :=
  ((h.m_helper.chunk_end_data headers).1, { h with m_helper := (h.m_helper.chunk_end_data headers).2 })

end request_helper

/-! ## What the client sends -/

/-- A part of a body. An empty one would be the last chunk, and one with a line end would be two lines. -/
structure Part where
  data : Bytes
  data_ne : data ≠ []
  one_line : ¬ crlf <:+: data
  size : data.length < size_max

def Part.chunk (part : Part) : Chunk where
  size_text := digits 16 part.data.length
  data := part.data
  size_ne := digits_ne_nil 16 _
  size_digits := digits_all 16 _ (by omega) (by omega)
  size_value := digitsVal_digits 16 _ (by omega) (by omega)
  data_ne := part.data_ne

variable {c c' : request_helper} {version_v : version_t} {method : method_t} {body_size : ℕ} {data : Bytes}

end Libgs.Client
