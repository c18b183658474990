import Libgs.Server.NextRequest

/-!
# Bytes behind a request

What stands in the fragment behind the end of a request is in the buffer of the parser, and `reset` clears it.
-/

namespace Libgs.Server

open Lib Libgs.Http

/-- A new parser that has got these bytes and has not read them. -/
def holding (version : version_t) (b : Bytes) : RequestParser :=
  { RequestParser.init version with m_parser_base := (RequestParser.init version).m_parser_base.withSrc b }

/-- The parser with the fragments to come parses what follows as a new parser does that gets it from the first byte:
it holds all that has come of it, and each further append answers alike and leaves alike what has been parsed. -/
structure Resumes (version : version_t) (p : RequestParser) (zs : List Bytes) (following : Bytes) : Prop where
  bytes : p.m_parser_base.m_src_buf ++ zs.flatten = following
  alike : ∀ ws z, ws ++ [z] <+: zs →
    let fresh := fed (holding version p.m_parser_base.m_src_buf) ws
    AnyPast (append fresh z).obj (append (fed p ws) z).obj ∧
      (append (fed p ws) z).error = (append fresh z).error ∧ (append (fed p ws) z).value = (append fresh z).value

@[simp]
theorem reset_src (p : RequestParser) : (reset p).m_parser_base.m_src_buf = [] := rfl

theorem holding_nil (version : version_t) : holding version [] = .init version := rfl

theorem resumes_reset_iff (version : version_t) (p : RequestParser) (zs : List Bytes) (following : Bytes) :
    Resumes version (reset p) zs following ↔ zs.flatten = following := by
  constructor
  · rintro ⟨hbytes, -⟩
    simpa using hbytes
  · intro h
    refine ⟨by simpa using h, fun ws z _ => ?_⟩
    rw [reset_src, holding_nil]
    exact append_past (fed_past (reset_past version p) ws) z

theorem fed_request_finished (version : version_t) (p : RequestParser) (hpast : AnyPast (.init version) p) (h : Head)
    (body d : Bytes) (hr : WholeRequest request_handlers (RequestParser.init version).m_parser_base h body)
    (ys : List Bytes) (x : Bytes) (hne : ∀ y ∈ ys, y ≠ []) (hx : x ≠ [])
    (hsplit : ys.flatten ++ x = h.text ++ body ++ d) (hlt : ys.flatten.length < (h.text ++ body).length) :
    is_finished (fed p (ys ++ [x])) = true := by
  have hfinished : (fed (.init version) (ys ++ [x])).m_parser_base.m_state = .finished := by
    rw [fed_base]
    exact fed_finished h _ body d ys x (fresh_init _ _) hr hne hx hsplit hlt
  rw [← (fed_past hpast (ys ++ [x])).state] at hfinished
  simp [is_finished, Http.is_finished, hfinished]

/-- **Pipelining.** The fragment that ends a request finishes it. After the reset the parser resumes with what follows
if and only if the fragment ends where the request ends. -/
theorem resumes_iff (version : version_t) (rs : List request) (h : Head) (body following : Bytes)
    (hr : WholeRequest request_handlers (RequestParser.init version).m_parser_base h body)
    (ys zs : List Bytes) (x : Bytes) (hne : ∀ y ∈ ys, y ≠ []) (hx : x ≠ [])
    (hsplit : (ys ++ x :: zs).flatten = h.text ++ body ++ following)
    (hlt : ys.flatten.length < (h.text ++ body).length)
    (hle : (h.text ++ body).length ≤ (ys.flatten ++ x).length) :
    let p := fed (serve_all (.init version) rs) (ys ++ [x])
    is_finished p = true ∧
      (Resumes version (reset p) zs following ↔ (ys.flatten ++ x).length = (h.text ++ body).length) := by
  have hflat : (ys.flatten ++ x) ++ zs.flatten = (h.text ++ body) ++ following := by
    simpa using hsplit
  obtain ⟨d, hd⟩ : h.text ++ body <+: ys.flatten ++ x :=
    List.prefix_of_prefix_length_le ⟨following, hflat.symm⟩ (List.prefix_append _ _) hle
  have hfollowing : following = d ++ zs.flatten := by
    rw [← hd, List.append_assoc] at hflat
    exact (List.append_cancel_left hflat).symm
  refine ⟨fed_request_finished version _ (serve_all_past version rs) h body d hr ys x hne hx hd.symm hlt, ?_⟩
  rw [resumes_reset_iff, hfollowing, ← hd]
  simp

/-- One request in two pieces, and the next one behind it in pieces of their own -/
theorem resumes_iff_post :
    let p := fed (serve_all (.init 0) []) ([postHead.text ++ ascii "he"] ++ [ascii "llo"])
    is_finished p = true ∧
      (Resumes 0 (reset p) [postHead.text, ascii "hello"] (postHead.text ++ ascii "hello") ↔
        ([postHead.text ++ ascii "he"].flatten ++ ascii "llo").length = (postHead.text ++ ascii "hello").length) :=
  resumes_iff 0 [] postHead (ascii "hello") (postHead.text ++ ascii "hello") post_plain.toWholeRequest
    [postHead.text ++ ascii "he"] [postHead.text, ascii "hello"] (ascii "llo") (by decide) (by decide) (by decide)
    (by decide) (by decide)

/-- The first line of the next request has come with the end of the last one, and is lost: a new parser is finished
with it, this one takes a field for its first line. -/
theorem next_line_lost :
    let x := postHead.text ++ ascii "helloGET /b HTTP/1.1\r\n"
    let z := ascii "Host: c\r\n\r\n"
    let p := fed (serve_all (.init 0) []) [x]
    WholeRequest request_handlers (RequestParser.init 0).m_parser_base postHead (ascii "hello") ∧
      [x, z].flatten = postHead.text ++ ascii "hello" ++ ascii "GET /b HTTP/1.1\r\nHost: c\r\n\r\n" ∧
      is_finished p = true ∧
      ¬ Resumes 0 (reset p) [z] (ascii "GET /b HTTP/1.1\r\nHost: c\r\n\r\n") ∧
      is_finished (fed (reset p) [z]) = false ∧
      is_finished (fed (.init 0) [ascii "GET /b HTTP/1.1\r\n", z]) = true := by
  refine ⟨post_plain.toWholeRequest, by decide, by decide +kernel, ?_, by decide +kernel, by decide +kernel⟩
  rw [resumes_reset_iff]
  decide

end Libgs.Server
