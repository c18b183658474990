import Libgs.Http.Reuse
import Libgs.Server.RequestBodies
import Libgs.Server.Service

/-!
# Request boundaries on a connection

A client sends one request after the other, and the handlers read as much of the bodies as they like.
What they leave in the socket is read as the start of the next request.
-/

namespace Libgs.Server

open Lib Libgs.Http

/-! ## Requests -/

/-- What the handlers see of a request -/
structure request_view where
  method : method_t
  path : Bytes
  headers : headers_t

def viewOf (p : impl request_data) : request_view := ⟨p.captured.m_method, p.captured.m_path, p.m_headers⟩

/-- A request with its bytes, and no more behind them -/
structure Request where
  head : Head
  body : Bytes
  valid : WholeRequest request_handlers newParser head body

def Request.bytes (r : Request) : Bytes := r.head.text ++ r.body

/-- Its method, path and headers are those that a new parser finds. -/
def Request.view (r : Request) : request_view := viewOf (Http.append request_handlers newParser r.head.text).obj

/-! ## The connection with its socket -/

/-- What a handler does with the body: it reads from the socket or takes what the parser holds. -/
inductive body_read
  | recv (n : ℕ)
  | take_partial_body (size : ℕ)
  | take_body

/-- One read of the handler -/
def handle_one (s : RequestParser × Bytes) : body_read → RequestParser × Bytes
  | .recv n => if can_read_from_device s.1 then ((append s.1 (s.2.take n)).obj, s.2.drop n) else s
  | .take_partial_body size => ((take_partial_body s.1 size).2, s.2)
  | .take_body => ((take_body s.1).2, s.2)

/-- What a handler leaves of the parser and of the socket -/
def handle (p : RequestParser) (socket : Bytes) (reads : List body_read) : RequestParser × Bytes :=
  reads.foldl handle_one (p, socket)

/-- A connection, the bytes in its socket, and the views of the requests that were sent and that were
dispatched. -/
structure session where
  conn : connection
  socket : Bytes
  sent : List request_view
  seen : List request_view

def session.init (version : version_t) : session := ⟨.init version, [], [], []⟩

/-- A request on the connection, and what its handler does -/
structure exchange where
  request : Request
  first : ℕ
  reads : List body_read

/-- The client sends a request, and the loop takes a turn. -/
def exchange_turn (accepts : error_value → Bool) (keepalive_time : ℕ) (s : session) (e : exchange) : session :=
  let stream := s.socket ++ e.request.bytes
  let rest := stream.drop e.first
  let input : service_input := ⟨.data (stream.take e.first), fun p => .ok (handle p rest e.reads).1⟩
  { conn := service_turn accepts keepalive_time s.conn input
    socket :=
      match dispatched accepts s.conn input with
      | none => rest
      | some (p, _) => (handle p rest e.reads).2
    sent := s.sent ++ [e.request.view]
    seen := s.seen ++ ((dispatched accepts s.conn input).map fun d => viewOf d.1.m_parser_base).toList }

/-- The socket is empty when the request is sent, and the first read brings its whole head. -/
def InStep (s : session) (e : exchange) : Prop :=
  s.conn.is_open = true → s.socket = [] ∧ e.request.head.text.length ≤ e.first

/-! ## The parser after `reset` -/

/-- The parser as `reset` leaves it. -/
structure WasReset (p : RequestParser) : Prop where
  fresh : Fresh p
  headers : p.m_parser_base.m_headers = .empty
  data : p.m_parser_base.captured = { request_data.init with m_method := p.m_parser_base.captured.m_method }

theorem wasReset_init (version : version_t) : WasReset (.init version) := ⟨fresh_init _ _, rfl, rfl⟩

theorem wasReset_reset (p : RequestParser) : WasReset (reset p) := ⟨⟨rfl, rfl, rfl⟩, rfl, rfl⟩

theorem on_parse_begin_method (r : request_data) (m : method_t) (l : Bytes) (version : version_t)
    (h : (on_parse_begin r l none).Clean version) :
    on_parse_begin { r with m_method := m } l none = on_parse_begin r l none := by
  obtain ⟨method_part, u, v, hl, -, -⟩ := (on_parse_begin_spec r l).2.mp ⟨version, h⟩
  obtain ⟨method, hmethod⟩ := hl.method
  unfold on_parse_begin
  simp only [hl.parts, hl.http, not_true_eq_false, if_false, hmethod]

theorem append_request (p : RequestParser) (r : Request) (b : Bytes) (hp : WasReset p) :
    (append p (r.head.text ++ b)).Clean true ∧
      viewOf (append p (r.head.text ++ b)).obj.m_parser_base = r.view := by
  have hnew : Http.Fresh newParser := fresh_init _ _
  obtain ⟨q, hread, hq, hbody⟩ := whole_cases newParser r.head r.body hnew r.valid
  have hread' : r.head.read request_handlers p.m_parser_base =
      some (q.withLength p.m_parser_base.m_content_length) := by
    refine read_reused r.head newParser p.m_parser_base q on_parse_begin rfl hnew hp.fresh hp.headers ?_ hread
    intro version hc
    rw [hp.data]
    exact on_parse_begin_method request_data.init _ r.head.first version hc
  obtain ⟨hobj, he, hv⟩ := append_base p (r.head.text ++ b)
  have hview : r.view = ⟨q.captured.m_method, q.captured.m_path, q.m_headers⟩ := by
    have hcall := append_text r.head newParser q [] hnew hread
    rw [List.append_nil] at hcall
    unfold Request.view
    rw [hcall]
    rcases hbody with ⟨text, n, hfind, hston, -⟩ | ⟨hnone, -⟩
    · rw [set_read_body_length q [] text n hq hfind hston]
      rfl
    · rw [set_read_body_none q [] hnone]
      rfl
  rw [hview, Call.Clean, he, hv, hobj, append_text r.head p.m_parser_base _ b hp.fresh hread']
  rcases hbody with ⟨text, n, hfind, hston, -⟩ | ⟨hnone, -⟩
  · rw [set_read_body_length (q.withLength p.m_parser_base.m_content_length) b text n hq hfind hston]
    exact ⟨⟨rfl, rfl⟩, rfl⟩
  · rw [set_read_body_none (q.withLength p.m_parser_base.m_content_length) b hnone]
    exact ⟨⟨rfl, rfl⟩, rfl⟩

/-! ## Runs -/

/-- An open connection has dispatched what was sent; its parser was reset. -/
def Synchronised (s : session) : Prop :=
  s.seen <+: s.sent ∧ (s.conn.is_open = true → s.seen = s.sent ∧ WasReset s.conn.parser)

theorem service_turn_wasReset (accepts : error_value → Bool) (keepalive_time : ℕ) (s : connection) (t : service_input)
    (h : (service_turn accepts keepalive_time s t).is_open = true) :
    WasReset (service_turn accepts keepalive_time s t).parser := by
  cases hd : dispatched accepts s t with
  | none => simp [service_turn, hd] at h
  | some d =>
    cases hserve : t.serve d.1 with
    | error e => simp [service_turn, hd, hserve] at h
    | ok p =>
      by_cases hend : ¬ p.m_keep_alive ∨ keepalive_time = 0
      · simp only [service_turn, hd, hserve, hend, if_true] at h
        cases h
      · simp only [service_turn, hd, hserve, hend, if_false]
        exact wasReset_reset p

theorem dispatched_request (accepts : error_value → Bool) (s : connection) (r : Request) (b : Bytes)
    (serve : RequestParser → Except exception RequestParser) (hopen : s.is_open = true) (hs : WasReset s.parser) :
    ∃ p reported, dispatched accepts s ⟨.data (r.head.text ++ b), serve⟩ = some (p, reported) ∧
      viewOf p.m_parser_base = r.view := by
  obtain ⟨hclean, hview⟩ := append_request s.parser r b hs
  have hne : r.head.text ++ b ≠ [] := by simp [Head.text, crlf]
  have hrec := (receive_data accepts s.parser _ _ true hs.fresh).mpr ⟨hne, hclean, rfl⟩
  exact ⟨_, _, by rw [dispatched, if_pos hopen, hrec]; rfl, hview⟩

theorem exchange_synchronised (accepts : error_value → Bool) (keepalive_time : ℕ) (s : session) (e : exchange)
    (hs : Synchronised s) (hin : InStep s e) : Synchronised (exchange_turn accepts keepalive_time s e) := by
  obtain ⟨hpre, hopen⟩ := hs
  unfold Synchronised exchange_turn
  dsimp only
  by_cases hconn : s.conn.is_open = true
  · obtain ⟨hseen, hreset⟩ := hopen hconn
    obtain ⟨hsocket, hfirst⟩ := hin hconn
    obtain ⟨b, hb⟩ : ∃ b, (s.socket ++ e.request.bytes).take e.first = e.request.head.text ++ b := by
      rw [hsocket, List.nil_append, Request.bytes, List.take_append, List.take_of_length_le hfirst]
      exact ⟨_, rfl⟩
    rw [hb]
    obtain ⟨p, reported, hd, hview⟩ := dispatched_request accepts s.conn e.request b
      (fun p => .ok (handle p ((s.socket ++ e.request.bytes).drop e.first) e.reads).1) hconn hreset
    rw [hd, Option.map_some, hview, Option.toList_some, hseen]
    exact ⟨List.prefix_refl _, fun ho => ⟨rfl, service_turn_wasReset accepts keepalive_time _ _ ho⟩⟩
  · have hd : ∀ t, dispatched accepts s.conn t = none := fun t => by rw [dispatched, if_neg hconn]
    rw [hd]
    refine ⟨by simpa using hpre.trans (List.prefix_append _ _), fun ho => ?_⟩
    simp [service_turn, hd] at ho

/-- **Requests stay apart.** When every request finds an empty socket and has its head read at once,
the requests that are dispatched are the first ones that were sent, in their order. -/
theorem requests_in_step (accepts : error_value → Bool) (keepalive_time : ℕ) (version : version_t) (es : List exchange)
    (h : Guarded (exchange_turn accepts keepalive_time) InStep (.init version) es) :
    Throughout (exchange_turn accepts keepalive_time) (fun s => s.seen <+: s.sent) (.init version) es := by
  have hinv := throughout_of_inv (exchange_synchronised accepts keepalive_time) (.init version) es
    ⟨List.prefix_refl _, fun _ => ⟨rfl, wasReset_init version⟩⟩ h
  exact hinv.mono fun s hs => hs.1

/-- A request whose body is the text of another one -/
def smuggling : Request where
  head := ⟨ascii "POST /a HTTP/1.1", [ascii "Content-Length: 19"], by decide, by decide⟩
  body := ascii "GET /x HTTP/1.1\r\n\r\n"
  valid := ⟨⟨by rfl, by rfl⟩, by decide +kernel, by rfl⟩

def getB : Request where
  head := ⟨ascii "GET /b HTTP/1.1", [], by decide, by decide⟩
  body := []
  valid := ⟨⟨by rfl, by rfl⟩, by decide +kernel, by rfl⟩

theorem requests_in_step_two :
    Throughout (exchange_turn (fun _ => false) 5000) (fun s => s.seen <+: s.sent) (.init 0)
      [⟨smuggling, 65535, []⟩, ⟨getB, 65535, []⟩] :=
  requests_in_step (fun _ => false) 5000 0 [⟨smuggling, 65535, []⟩, ⟨getB, 65535, []⟩]
    (.cons (fun _ => ⟨rfl, by decide⟩) (.cons (fun _ => ⟨by decide +kernel, by decide⟩) (guarded_nil _)))

/-- The handler of the first request reads nothing of its body, and the second request dispatched is
the one in that body. -/
theorem body_read_as_request :
    ¬ Throughout (exchange_turn (fun _ => false) 5000) (fun s => s.seen <+: s.sent) (.init 0)
      [⟨smuggling, smuggling.head.text.length, []⟩, ⟨getB, 65535, []⟩] := by
  intro h
  have hpath := h.last.map (·.path)
  have hseen : (run (exchange_turn (fun _ => false) 5000) (.init 0)
      [⟨smuggling, smuggling.head.text.length, []⟩, ⟨getB, 65535, []⟩]).seen.map (·.path) =
        [ascii "/a", ascii "/x"] := by decide +kernel
  have hsent : (run (exchange_turn (fun _ => false) 5000) (.init 0)
      [⟨smuggling, smuggling.head.text.length, []⟩, ⟨getB, 65535, []⟩]).sent.map (·.path) =
        [ascii "/a", ascii "/b"] := by decide +kernel
  rw [hseen, hsent] at hpath
  revert hpath
  decide

end Libgs.Server
