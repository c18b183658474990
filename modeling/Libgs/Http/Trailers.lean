import Libgs.Http.ChunkedLoss
import Libgs.Http.HeaderLines

/-!
# Chunks with trailers

The message that the helper writes in its chunked state, line by line in `parse_chunked`, and the whole request that
ends with it, in one piece or in many.
-/

namespace Libgs.Http

open Lib

variable {σ : Type} {hs : handlers σ}

/-- Names and values that can stand on the lines of a header section, which are short -/
structure Trailing (trailers : List (Bytes × Bytes)) : Prop where
  valid : ∀ e ∈ trailers, HeaderName e.1 ∧ 10 ∉ e.2
  short : ∀ e ∈ trailers, (helper_base.field_line e).length ≤ 1022

/-- Chunks that the parser can take as lines -/
structure Readable (cs : List Chunk) : Prop where
  data : ∀ c ∈ cs, ¬ crlf <:+: c.data
  size : ∀ c ∈ cs, c.size_text.length ≤ 16

theorem Trailing.take {trailers : List (Bytes × Bytes)} (h : Trailing trailers) (n : ℕ) : Trailing (trailers.take n) :=
  ⟨fun e he => h.valid e (List.mem_of_mem_take he), fun e he => h.short e (List.mem_of_mem_take he)⟩

theorem Readable.tail {c : Chunk} {cs : List Chunk} (h : Readable (c :: cs)) : Readable cs :=
  ⟨fun d hd => h.data d (List.mem_cons_of_mem _ hd), fun d hd => h.size d (List.mem_cons_of_mem _ hd)⟩

/-- The loop behind the trailers, which are put over the headers -/
def chunk_loop.trailed (s : chunk_loop σ) (trailers : List (Bytes × Bytes)) : chunk_loop σ :=
  { s with obj := { s.obj with
      m_headers := s.obj.m_headers.assignAll (trailers.map fun e => (str_to_lower e.1, arrived e.2)) } }

/-- The loop behind the last chunk and trailers -/
def chunk_loop.ended (s : chunk_loop σ) (trailers : List (Bytes × Bytes)) : chunk_loop σ :=
  chunk_loop.trailed { s with _size := 0, obj := { s.obj with m_state := .chunked_wait_headers } } trailers

section

variable {h : Head} {p q : impl σ}

end

end Libgs.Http
