import Libgs.Http.ChunkedLoss
import Libgs.Http.Consumption
import Libgs.Server.RequestFragments

/-!
# When the body of a request comes out right

Chunked bodies that arrive in fragments, and bodies with a Content-Length that are taken while they
arrive.
-/

namespace Libgs.Server

open Lib Libgs.Http

variable {σ : Type}

/-! ## Content-Length -/

/-- **Bodies that are taken while they arrive.** The head of a request with a Content-Length of `n`
has arrived in the pieces `xs` and `x`, with the first bytes `b` of the body behind it. -/
theorem taken_body_iff (hs : handlers σ) (p : impl σ) (h : Head) (n : ℕ) (xs : List Bytes) (x b : Bytes)
    (ops : List body_op) (hp : Fresh p) (hr : LengthHead hs p h n) (hne : ∀ x ∈ xs, x ≠ []) (hx : x ≠ [])
    (hlt : xs.flatten.length < h.text.length) (hb : xs.flatten ++ x = h.text ++ b) :
    let start : Consumer σ := ⟨(Http.append hs (Http.fed hs p xs) x).obj, [], b⟩
    Throughout (consume hs) (Accounted n) start ops ↔
      (run (consume hs) start ops).delivered.length < n ∨
        Guarded (consume hs) (fun c op => Removes c op → n ≤ c.delivered.length) start ops := by
  obtain ⟨hn, q, hcall⟩ := append_fed_length p h n xs x b hp hr hne hx hlt hb
  rw [hcall]
  exact accounted_iff q n b ops hn

def newParser : impl request_data := (RequestParser.init 0).m_parser_base

theorem post_length : LengthHead request_handlers newParser postHead 5 where
  accepted := ⟨by rfl, by rfl⟩
  announced := ⟨ascii "5", by rfl, by rfl⟩

theorem taken_body_iff_post :
    let start : Consumer request_data :=
      ⟨(Http.append request_handlers (Http.fed request_handlers newParser []) (postHead.text ++ ascii "he")).obj, [],
        ascii "he"⟩
    Throughout (consume request_handlers) (Accounted 5) start [.append (ascii "llo"), .take_body] ↔
      (run (consume request_handlers) start [.append (ascii "llo"), .take_body]).delivered.length < 5 ∨
        Guarded (consume request_handlers) (fun c op => Removes c op → 5 ≤ c.delivered.length) start
          [.append (ascii "llo"), .take_body] :=
  taken_body_iff request_handlers newParser postHead 5 [] _ _ _ (fresh_init _ _) post_length (by simp)
    (by decide) (by decide) rfl

/-- Three of five bytes arrive and are taken, and then the last two arrive. -/
theorem taken_body_lost :
    ¬ Throughout (consume request_handlers) (Accounted 5)
      ⟨(Http.append request_handlers newParser (postHead.text ++ ascii "hel")).obj, [], ascii "hel"⟩
      [.take_partial_body 3, .append (ascii "lo")] := by
  intro h
  have hfin : Http.is_finished (run (consume request_handlers)
      ⟨(Http.append request_handlers newParser (postHead.text ++ ascii "hel")).obj, [], ascii "hel"⟩
      [.take_partial_body 3, .append (ascii "lo")]).obj = false := by decide +kernel
  have := h.last.2.mpr (by decide)
  rw [hfin] at this
  cases this

/-! ## Chunks -/

/-- **Chunked bodies in fragments.** Fragments that do not disturb the chunks are decoded, and a
message of at most one chunk is decoded in no others. -/
theorem chunked_request (hs : handlers σ) (p : impl σ) (h : Head) (cs : List Chunk) (xs : List Bytes)
    (hp : Fresh p) (hr : ChunkedHead hs p h) (hne : ∀ x ∈ xs, x ≠ []) (hxs : xs.flatten = h.text ++ encodeChunks cs) :
    (Undisturbed h cs xs → Decoded hs p cs xs) ∧ (cs.length ≤ 1 → Decoded hs p cs xs → Undisturbed h cs xs) := by
  refine ⟨decoded_of_undisturbed hs p h cs xs hp hr hne hxs, fun hone hd => ?_⟩
  match cs, hone with
  | [], _ =>
    obtain ⟨q, hread, -, -⟩ := chunked_cases p h hp hr
    refine ⟨by simp, by simp, ?_, fun us vs hsplit _ => head_breaks_of_clean hp hread hne hd.clean us vs hsplit⟩
    rintro ys zs b - - - ⟨done, c, more, t, hnil, -, -⟩
    simp at hnil
  | [c], _ => exact undisturbed_of_decoded hp hr hne hxs hd

/-- `POST / HTTP/1.1` with `Transfer-Encoding: chunked`. -/
def chunkedHead : Head where
  first := ascii "POST / HTTP/1.1"
  fields := [ascii "Transfer-Encoding: chunked"]
  first_line := by decide
  field_line := by decide

theorem post_chunked : ChunkedHead request_handlers newParser chunkedHead where
  accepted := ⟨by rfl, by rfl⟩
  chunked := by rfl

def chunkAbc : Chunk where
  size_text := ascii "3"
  data := ascii "abc"
  size_ne := by decide
  size_digits := by decide
  size_value := by decide
  data_ne := by decide

theorem chunked_request_post :
    (Undisturbed chunkedHead [chunkAbc, chunkAbc] [chunkedHead.text, encodeChunks [chunkAbc, chunkAbc]] →
      Decoded request_handlers newParser [chunkAbc, chunkAbc] [chunkedHead.text, encodeChunks [chunkAbc, chunkAbc]]) ∧
    ([chunkAbc, chunkAbc].length ≤ 1 →
      Decoded request_handlers newParser [chunkAbc, chunkAbc] [chunkedHead.text, encodeChunks [chunkAbc, chunkAbc]] →
      Undisturbed chunkedHead [chunkAbc, chunkAbc] [chunkedHead.text, encodeChunks [chunkAbc, chunkAbc]]) :=
  chunked_request request_handlers newParser chunkedHead [chunkAbc, chunkAbc] _ (fresh_init _ _) post_chunked
    (by decide) (by decide)

/-- The chunk arrives in two fragments, and the last chunk is taken for data. -/
theorem chunked_request_lost :
    ChunkedHead request_handlers newParser chunkedHead ∧
      [chunkedHead.text ++ ascii "3\r\nab", ascii "c\r\n0\r\n\r\n"].flatten =
        chunkedHead.text ++ encodeChunks [chunkAbc] ∧
      ¬ Decoded request_handlers newParser [chunkAbc]
        [chunkedHead.text ++ ascii "3\r\nab", ascii "c\r\n0\r\n\r\n"] := by
  refine ⟨post_chunked, by decide, fun hd => ?_⟩
  have hbody : (Http.fed request_handlers newParser
      [chunkedHead.text ++ ascii "3\r\nab", ascii "c\r\n0\r\n\r\n"]).m_partial_body = ascii "abc0" := by
    decide +kernel
  have := hbody.symm.trans hd.body
  revert this
  decide

end Libgs.Server
