import Libgs.Http.Fragments
import Libgs.Server.RequestParser

/-!
# A request in fragments, as the request parser sees it
-/

namespace Libgs.Server

open Lib Libgs.Http

def fed (p : RequestParser) (xs : List Bytes) : RequestParser := xs.foldl (fun p x => (append p x).obj) p

theorem append_base (p : RequestParser) (x : Bytes) :
    (append p x).obj.m_parser_base = (Http.append request_handlers p.m_parser_base x).obj ∧
      (append p x).error = (Http.append request_handlers p.m_parser_base x).error ∧
      (append p x).value = (Http.append request_handlers p.m_parser_base x).value := by
  unfold append
  dsimp only
  split <;> exact ⟨rfl, rfl, rfl⟩

theorem fed_base (p : RequestParser) (xs : List Bytes) :
    (fed p xs).m_parser_base = Http.fed request_handlers p.m_parser_base xs := by
  induction xs generalizing p with
  | nil => rfl
  | cons x xs ih =>
    show (fed (append p x).obj xs).m_parser_base =
      Http.fed request_handlers (Http.append request_handlers p.m_parser_base x).obj xs
    rw [ih, (append_base p x).1]

/-- **A plain request may arrive in any pieces.** The parser inside, with method, path, parameters,
version, headers, cookies, body and state, ends as after one append of everything; and the appends
that return true are those from the end of the head on. -/
theorem request_fragments (version : version_t) (h : Head) (body : Bytes) (xs : List Bytes)
    (hr : PlainRequest request_handlers (RequestParser.init version).m_parser_base h body)
    (hne : ∀ x ∈ xs, x ≠ []) (hxs : xs.flatten = h.text ++ body) :
    (fed (.init version) xs).m_parser_base = (append (.init version) (h.text ++ body)).obj.m_parser_base ∧
      ∀ ys x zs, xs = ys ++ x :: zs →
        (append (fed (.init version) ys) x).Clean (decide (h.text.length ≤ (ys.flatten ++ x).length)) := by
  have hp : Fresh (RequestParser.init version).m_parser_base := fresh_init _ _
  refine ⟨?_, fun ys x zs hsplit => ?_⟩
  · rw [fed_base, fed_eq_append h _ body xs hp hr hne hxs, (append_base _ _).1]
  · obtain ⟨herror, hvalue⟩ := append_fed_clean h _ body xs ys zs x hp hr hne hxs hsplit
    obtain ⟨-, he, hv⟩ := append_base (fed (.init version) ys) x
    rw [fed_base] at he hv
    exact ⟨he.trans herror, hv.trans hvalue⟩

/-- `POST /a?x=1 HTTP/1.1` with a cookie and a body of five bytes. -/
def postHead : Head where
  first := ascii "POST /a?x=1 HTTP/1.1"
  fields := [ascii "Content-Length: 5", ascii "Cookie: c=d"]
  first_line := by decide
  field_line := by decide

theorem post_plain : PlainRequest request_handlers (RequestParser.init 0).m_parser_base postHead (ascii "hello") where
  accepted := ⟨by rfl, by rfl⟩
  short := by decide
  plain := by decide +kernel
  exact_body := by rfl

theorem request_fragments_post :
    (fed (.init 0) [postHead.text.take 30, postHead.text.drop 30 ++ ascii "he", ascii "llo"]).m_parser_base =
        (append (.init 0) (postHead.text ++ ascii "hello")).obj.m_parser_base ∧
      ∀ ys x zs, [postHead.text.take 30, postHead.text.drop 30 ++ ascii "he", ascii "llo"] = ys ++ x :: zs →
        (append (fed (.init 0) ys) x).Clean (decide (postHead.text.length ≤ (ys.flatten ++ x).length)) :=
  request_fragments 0 postHead (ascii "hello") _ post_plain (by decide) (by decide)

end Libgs.Server
