import Libgs.Server.Completion
import Libgs.Server.Registration
import Libgs.Server.Service

/-!
# Dispatching a request

`call_on_request`, `call_on_default` and `multi_ctrlr_aop` of `http/server/detail/server.h`: which functions of the
application are called for a request, in which order, and what the server replies itself.
-/

namespace Libgs.Server

open Lib Libgs.Http

/-! ## The functions of the application -/

/-- What ends a function. Only a `std::exception` is caught; a call through a null pointer is undefined. -/
inductive thrown
  | std (ex : exception)
  | other
  | null_call
  deriving DecidableEq

/-- The response stands here with its header block. -/
structure context (υ : Type) where
  parser : RequestParser
  response : progress
  user : υ

/-- A function of the application changes its context in any way, and returns or throws. -/
abbrev func (υ α : Type) := context υ → context υ × Except thrown α

/-- The functions of an aspect -/
structure aop (υ : Type) where
  before : func υ Bool
  after : func υ Bool
  exception : exception → func υ Bool

/-- A controller: an aspect with a service -/
structure ctrlr_aop (υ : Type) extends aop υ where
  service : func υ Unit

variable {υ : Type}

/-- The loops of `multi_ctrlr_aop`. -/
def ask (hook : aop υ → func υ Bool) : List (aop υ) → func υ Bool
  | [], c => (c, .ok false)
  | aop :: m_aops, c =>
    match hook aop c with
    | (c, .ok false) => ask hook m_aops c
    | (c, r) => (c, r)

/-- A function with several aspects for one controller -/
def multi_ctrlr_aop (m_func : func υ Unit) (m_aops : List (aop υ)) : ctrlr_aop υ where
  before := ask (·.before) m_aops
  after := ask (·.after) m_aops
  exception ex := ask (·.exception ex) m_aops
  service := m_func

/-- What was registered: the handlers of the rules, and those for what is left -/
structure server (υ : Type) where
  m_request_handler_map : handler_table (ctrlr_aop υ)
  m_default_handler : Option (func υ Unit)
  m_service_error_handler : Option (exception → func υ Bool)

/-! ## What the server writes -/

/-- How a write of the server itself goes. -/
structure write_outcomes where
  header : write_outcome
  body : write_outcome

/-- The writes of `call_on_request` and of `call_on_default` -/
structure replies where
  filter : write_outcomes
  default : write_outcomes

namespace context

/-- An operation on the response -/
def respond (c : context υ) (op : response_op) : context υ := { c with response := progress_step c.response op }

/-- The text in front of an error of a write -/
def what : Bytes := ascii "libgs::http::server_response::write"

/-- A write with `use_awaitable` -/
def write (c : context υ) (body : Bytes) (o : write_outcomes) : context υ × Except thrown Unit :=
  let call := c.response.obj.co_write body none o.header o.body
  let c := c.respond (.write .co_write body o.header o.body)
  match call.value, call.error with
  | .error ex, _ => (c, .error (.std ex))
  | .ok _, some e => (c, .error (.std (.system_error e what)))
  | .ok _, none => (c, .ok ())

end context

/-- The methods that a rule has -/
def options_response_body (method : List method_t) : Bytes :=
  (((method_table.map (·.1)).filter (· ∈ method)).map fun m => method_string m ++ ascii ";").flatten.dropLast

/-- The page of a default reply -/
def def_html (title status : Bytes) : Bytes :=
  ascii "<!DOCTYPE html><html><head>\t<meta charset=\"utf-8\">\t<title>" ++ title ++
    ascii "</title></head><body>\t<h1>" ++ title ++ ascii "</h1>" ++ status ++
      ascii "\t<p>[ This is the server's default reply ]</p>\t<p>-----------------------------------------------</p>" ++
        ascii "\t<p>This is an open source C++ (ASIO) server.</p>" ++
          ascii "\t<a href=\"https://gitee.com/jin-xiaoqiang/libgs.git\" target=\"_blank\">" ++
            ascii "\t\tSource code repository (Gitee)\t</a></body></html>"

/-- The default reply to a status -/
def default_html (status : status_t) : Except exception Bytes :=
  if status = 200 then .ok (def_html (ascii "Welcome to LIBGS") [])
  else
    match status_description status with
    | .error ex => .error ex
    | .ok description =>
      .ok (def_html (ascii "LIBGS") (ascii "<h2>" ++ description ++ ascii " (" ++ digits 10 status ++ ascii ")</h2>"))

/-! ## The calls -/

namespace server

variable (srv : server υ)

/-- `throw ex` slices: it throws a copy of type `std::exception`. The exception itself stands for it here, since either
ends the process. -/
def call_on_service_error (ex : exception) : func υ Unit := fun c =>
  let c := c.respond (.set_status 500)
  match srv.m_service_error_handler with
  | none => (c, .error (.std ex))
  | some handler =>
    match handler ex c with
    | (c, .ok true) => (c, .ok ())
    | (c, .ok false) => (c, .error (.std ex))
    | (c, .error t) => (c, .error t)

/-- The `try` block of `call_on_request` -/
def call_ctrlr (aop : ctrlr_aop υ) : func υ Unit := fun c =>
  match aop.before c with
  | (c, .error t) => (c, .error t)
  | (c, .ok true) => (c, .ok ())
  | (c, .ok false) =>
    match aop.service c with
    | (c, .error t) => (c, .error t)
    | (c, .ok ()) =>
      match aop.after c with
      | (c, .error t) => (c, .error t)
      | (c, .ok _) => (c, .ok ())

/-- The handler of `call_on_request`: the aspects are asked first. -/
def catch_ctrlr (aop : ctrlr_aop υ) (ex : exception) : func υ Unit := fun c =>
  match aop.exception ex c with
  | (c, .error t) => (c, .error t)
  | (c, .ok true) => (c, .ok ())
  | (c, .ok false) => srv.call_on_service_error ex c

/-- The `try` block with its handler -/
def try_ctrlr (aop : ctrlr_aop υ) : func υ Unit := fun c =>
  match call_ctrlr aop c with
  | (c, .error (.std ex)) => srv.catch_ctrlr aop ex c
  | (c, r) => (c, r)

/-- The handler does not have the method of the request. -/
def refuse_method (handler : tk_handler (ctrlr_aop υ)) (o : write_outcomes) : func υ Unit := fun c =>
  let method := c.parser.m_parser_base.captured.m_method
  let text_plain := response_op.set_header header.content_type (ascii "text/plain")
  match (if method = .HEAD then (c.respond text_plain).write [] o else (c, .ok ())) with
  | (c, .error t) => (c, .error t)
  | (c, .ok ()) =>
    if method = .OPTIONS then (c.respond text_plain).write (options_response_body handler.method) o
    else (c.respond (.set_status 405), .ok ())

/-- What is done for the handler that was found -/
def call_handler (handler : tk_handler (ctrlr_aop υ)) (o : write_outcomes) : func υ Unit := fun c =>
  if c.parser.m_parser_base.captured.m_method ∉ handler.method then refuse_method handler o c
  else
    match handler.aop with
    | none => (c, .error .null_call)
    | some ctrlr => srv.try_ctrlr ctrlr.object c

/-- `call_on_request` -/
def call_on_request (o : write_outcomes) : func υ Unit := fun c =>
  match find_handler srv.m_request_handler_map.entries none int32_max c.parser with
  | .error ex => (c, .error (.std ex))
  | .ok (handler, p) =>
    let c := { c with parser := p }
    match handler.join with
    | none => (c.respond (.set_status 404), .ok ())
    | some handler => srv.call_handler handler o c

/-- The end of the `try` block of `call_on_default` -/
def write_default (o : write_outcomes) : func υ Unit := fun c =>
  match default_html c.response.obj.m_helper.m_status with
  | .error ex => (c, .error (.std ex))
  | .ok data => (c.respond (.set_header header.content_type (ascii "text/html"))).write data o

/-- The `try` block of `call_on_default` -/
def try_default (o : write_outcomes) : func υ Unit := fun c =>
  match srv.m_default_handler with
  | none => write_default o c
  | some m_default_handler =>
    match m_default_handler c with
    | (c, .error t) => (c, .error t)
    | (c, .ok ()) => if c.response.obj.is_finished then (c, .ok ()) else write_default o c

/-- `call_on_default` -/
def call_on_default (o : write_outcomes) : func υ Unit := fun c =>
  match srv.try_default o c with
  | (c, .error (.std ex)) => srv.call_on_service_error ex c
  | (c, r) => (c, r)

/-- What a turn of `do_tcp_service` does with a request -/
def serve (o : replies) : func υ Unit := fun c =>
  match srv.call_on_request o.filter c with
  | (c, .error t) => (c, .error t)
  | (c, .ok ()) => if c.response.obj.calls_default then srv.call_on_default o.default c else (c, .ok ())

end server

/-! ## What is called -/

/-- A call of a function of the application: of the controller of a rule, by the number of its aspect, or of the handler
of service errors. -/
inductive event
  | before (rule : Bytes) (i : ℕ) (r : Except thrown Bool)
  | service (rule : Bytes) (r : Except thrown Unit)
  | after (rule : Bytes) (i : ℕ) (r : Except thrown Bool)
  | exception (rule : Bytes) (i : ℕ) (ex : exception) (r : Except thrown Bool)
  | service_error (ex : exception) (r : Except thrown Bool)

/-- What `catch(const std::exception &ex)` catches -/
def caught {α : Type} : Except thrown α → Option exception
  | .error (.std ex) => some ex
  | _ => none

theorem caught_iff {α : Type} (r : Except thrown α) (ex : exception) : caught r = some ex ↔ r = .error (.std ex) := by
  cases r with
  | ok a => simp [caught]
  | error t =>
    cases t with
    | std ex' => simp [caught]
    | other | null_call => simp [caught]

namespace event

/-- Before the service, the service, or behind it -/
def phase : event → ℕ
  | before .. => 0
  | service .. => 1
  | after .. => 2
  | exception .. => 3
  | service_error .. => 4

/-- The number of the aspect -/
def index : event → ℕ
  | before _ i _ => i
  | after _ i _ => i
  | exception _ i _ _ => i
  | service .. => 0
  | service_error .. => 0

/-- The order in which the functions of a controller are called -/
def Precedes (e e' : event) : Prop := e.phase < e'.phase ∨ e.phase = e'.phase ∧ e.index < e'.index

/-- What the call throws into the `catch` block -/
def throws : event → Option Libgs.exception
  | before _ _ r => caught r
  | service _ r => caught r
  | after _ _ r => caught r
  | _ => none

/-- The event belongs to the rule. -/
def Of (rule : Bytes) : event → Prop
  | before rule' _ _ => rule' = rule
  | service rule' _ => rule' = rule
  | after rule' _ _ => rule' = rule
  | exception rule' _ _ _ => rule' = rule
  | service_error _ _ => True

end event

/-- One of the functions has thrown the exception. -/
def Thrown (ex : exception) (es : List event) : Prop := ∃ e ∈ es, e.throws = some ex

/-- The calls of a controller with `n` aspects that end with `r`: none is made twice; the service follows the aspects
that all say no beforehand; the aspects come behind it in turn until one says yes; and what is thrown is shown to one
aspect after another until one accepts it, then to the handler of service errors. -/
structure Orderly (rule : Bytes) (n : ℕ) (es : List event) (r : Except thrown Unit) : Prop where
  order : es.Pairwise event.Precedes
  own : ∀ e ∈ es, e.Of rule
  before : ∀ i r, .before rule i r ∈ es → i < n ∧ ∀ j < i, .before rule j (.ok false) ∈ es
  service : (∃ r, .service rule r ∈ es) ↔ ∀ i < n, .before rule i (.ok false) ∈ es
  after : ∀ i r, .after rule i r ∈ es →
    i < n ∧ .service rule (.ok ()) ∈ es ∧ ∀ j < i, .after rule j (.ok false) ∈ es
  shown : ∀ i ex r, .exception rule i ex r ∈ es →
    i < n ∧ Thrown ex es ∧ ∀ j < i, .exception rule j ex (.ok false) ∈ es
  service_error : ∀ ex r, .service_error ex r ∈ es → Thrown ex es ∧ ∀ j < n, .exception rule j ex (.ok false) ∈ es
  accepted : ∀ ex, Thrown ex es →
    (r = .ok () ↔ (∃ i, .exception rule i ex (.ok true) ∈ es) ∨ .service_error ex (.ok true) ∈ es)

/-- The functions write their calls into a log that is part of what the application keeps. -/
def Logs {α : Type} (log : υ → List event) (f : func υ α) (call : Except thrown α → event) : Prop :=
  ∀ c, log (f c).1.user = log c.user ++ [call (f c).2]

/-- The functions of the aspect log their calls. -/
structure LoggedAop (log : υ → List event) (rule : Bytes) (i : ℕ) (aop : aop υ) : Prop where
  before : Logs log aop.before (.before rule i)
  after : Logs log aop.after (.after rule i)
  exception : ∀ ex, Logs log (aop.exception ex) (.exception rule i ex)

/-- A controller with `n` aspects. One that is not made by the server is an aspect of its own. -/
def LoggedCtrlr (log : υ → List event) (rule : Bytes) (n : ℕ) (ctrlr : ctrlr_aop υ) : Prop :=
  ∃ m_func m_aops, ctrlr = multi_ctrlr_aop m_func m_aops ∧ m_aops.length = n ∧ Logs log m_func (.service rule) ∧
    ∀ i aop, m_aops[i]? = some aop → LoggedAop log rule i aop

/-- All functions of the application log their calls. -/
structure LoggedServer (log : υ → List event) (srv : server υ) : Prop where
  ctrlr : ∀ e ∈ srv.m_request_handler_map.entries, ∀ handler ctrlr, e.2 = some handler → handler.aop = some ctrlr →
    ∃ n, LoggedCtrlr log e.1 n ctrlr.object
  service_error : ∀ handler, srv.m_service_error_handler = some handler →
    ∀ ex, Logs log (handler ex) (.service_error ex)

/-! ## The loops -/

/-- The calls of a loop over `n` aspects: they say no one after another, up to the first that does not. -/
inductive Asked (call : ℕ → Except thrown Bool → event) (n : ℕ) : List event → Except thrown Bool → Prop
  | declined : Asked call n ((List.range n).map fun i => call i (.ok false)) (.ok false)
  | answered (m : ℕ) (r : Except thrown Bool) (hm : m < n) (hr : r ≠ .ok false) :
      Asked call n (((List.range m).map fun i => call i (.ok false)) ++ [call m r]) r

section

variable {call : ℕ → Except thrown Bool → event} {n : ℕ} {es : List event} {r : Except thrown Bool}

theorem Asked.cons (h : Asked (fun i => call (i + 1)) n es r) : Asked call (n + 1) (call 0 (.ok false) :: es) r := by
  cases h with
  | declined =>
    have hall : Asked call (n + 1) _ (.ok false) := .declined
    rwa [List.range_succ_eq_map, List.map_cons, List.map_map] at hall
  | answered m r hm hr =>
    have hall : Asked call (n + 1) _ r := .answered (m + 1) r (by omega) hr
    rwa [List.range_succ_eq_map, List.map_cons, List.map_map] at hall

theorem Asked.mem (h : Asked call n es r) {e : event} (he : e ∈ es) :
    ∃ i < n, (∃ r', e = call i r') ∧ ∀ j < i, call j (.ok false) ∈ es := by
  cases h with
  | declined =>
    obtain ⟨i, hi, rfl⟩ := List.mem_map.mp he
    have hlt := List.mem_range.mp hi
    exact ⟨i, hlt, ⟨_, rfl⟩, fun j hj => List.mem_map.mpr ⟨j, List.mem_range.mpr (hj.trans hlt), rfl⟩⟩
  | answered m r hm hr =>
    have hmem : ∀ j < m, call j (.ok false) ∈ ((List.range m).map fun i => call i (.ok false)) ++ [call m r] :=
      fun j hj => List.mem_append_left _ (List.mem_map.mpr ⟨j, List.mem_range.mpr hj, rfl⟩)
    rcases List.mem_append.mp he with he | he
    · obtain ⟨i, hi, rfl⟩ := List.mem_map.mp he
      have hlt := List.mem_range.mp hi
      exact ⟨i, hlt.trans hm, ⟨_, rfl⟩, fun j hj => hmem j (hj.trans hlt)⟩
    · obtain rfl := List.mem_singleton.mp he
      exact ⟨m, hm, ⟨_, rfl⟩, hmem⟩

theorem Asked.all (h : Asked call n es (.ok false)) (i : ℕ) (hi : i < n) : call i (.ok false) ∈ es := by
  cases h with
  | declined => exact List.mem_map.mpr ⟨i, List.mem_range.mpr hi, rfl⟩
  | answered m r hm hr => exact absurd rfl hr

theorem Asked.last (h : Asked call n es r) (hr : r ≠ .ok false) : ∃ i < n, call i r ∈ es := by
  cases h with
  | declined => exact absurd rfl hr
  | answered m r hm _ => exact ⟨m, hm, List.mem_append_right _ List.mem_cons_self⟩

theorem Asked.unique (h : Asked call n es r) (hinj : ∀ i j r r', call i r = call j r' → i = j ∧ r = r') {i : ℕ}
    {r' : Except thrown Bool} (he : call i r' ∈ es) : r' = .ok false ∨ r' = r := by
  cases h with
  | declined =>
    obtain ⟨j, -, heq⟩ := List.mem_map.mp he
    exact .inl (hinj _ _ _ _ heq).2.symm
  | answered m r hm hr =>
    rcases List.mem_append.mp he with he | he
    · obtain ⟨j, -, heq⟩ := List.mem_map.mp he
      exact .inl (hinj _ _ _ _ heq).2.symm
    · exact .inr (hinj _ _ _ _ (List.mem_singleton.mp he)).2

theorem Asked.thrown_iff (h : Asked call n es r) (hinj : ∀ i j r r', call i r = call j r' → i = j ∧ r = r')
    (hthrows : ∀ i r, (call i r).throws = caught r) (ex : Libgs.exception) : Thrown ex es ↔ r = .error (.std ex) := by
  constructor
  · rintro ⟨e, he, hex⟩
    obtain ⟨i, -, ⟨r', rfl⟩, -⟩ := h.mem he
    rw [hthrows, caught_iff] at hex
    subst hex
    rcases h.unique hinj he with hr | hr
    · cases hr
    · exact hr.symm
  · rintro rfl
    obtain ⟨i, -, he⟩ := h.last (by simp)
    exact ⟨_, he, by rw [hthrows, caught_iff]⟩

theorem Asked.ordered (h : Asked call n es r) {p : ℕ} (hphase : ∀ i r, (call i r).phase = p)
    (hindex : ∀ i r, (call i r).index = i) : es.Pairwise event.Precedes := by
  have hrange : ∀ m, ((List.range m).map fun i => call i (.ok false)).Pairwise event.Precedes := by
    intro m
    rw [List.pairwise_map]
    refine List.pairwise_lt_range.imp fun hlt => .inr ⟨?_, ?_⟩
    · rw [hphase, hphase]
    · rwa [hindex, hindex]
  cases h with
  | declined => exact hrange n
  | answered m r hm hr =>
    rw [List.pairwise_append]
    refine ⟨hrange m, List.pairwise_singleton _ _, fun e he e' he' => ?_⟩
    obtain ⟨i, hi, rfl⟩ := List.mem_map.mp he
    obtain rfl := List.mem_singleton.mp he'
    refine .inr ⟨by rw [hphase, hphase], ?_⟩
    rw [hindex, hindex]
    exact List.mem_range.mp hi

end

theorem ask_asked (log : υ → List event) (hook : aop υ → func υ Bool) (call : ℕ → Except thrown Bool → event)
    (m_aops : List (aop υ)) (h : ∀ i aop, m_aops[i]? = some aop → Logs log (hook aop) (call i)) (c : context υ) :
    ∃ es, log (ask hook m_aops c).1.user = log c.user ++ es ∧ Asked call m_aops.length es (ask hook m_aops c).2 := by
  induction m_aops generalizing call c with
  | nil => exact ⟨[], (List.append_nil _).symm, .declined⟩
  | cons aop m_aops ih =>
    have hfirst := h 0 aop rfl c
    unfold ask
    generalize hook aop c = d at hfirst ⊢
    obtain ⟨c', r⟩ := d
    by_cases hr : r = .ok false
    · subst hr
      obtain ⟨es, hlog, hasked⟩ := ih (fun i => call (i + 1)) (fun i aop hi => h (i + 1) aop hi) c'
      refine ⟨call 0 (.ok false) :: es, ?_, hasked.cons⟩
      dsimp only at hlog ⊢
      rw [hlog, hfirst, List.append_assoc]
      rfl
    · have hstop : Asked call (aop :: m_aops).length _ r := .answered 0 r (by simp) hr
      refine ⟨[call 0 r], ?_, ?_⟩
      · split
        · rename_i heq
          exact absurd (Prod.mk.inj heq).2 hr
        · rename_i heq
          obtain ⟨rfl, rfl⟩ := Prod.mk.inj heq
          exact hfirst
      · split
        · rename_i heq
          exact absurd (Prod.mk.inj heq).2 hr
        · rename_i heq
          obtain ⟨rfl, rfl⟩ := Prod.mk.inj heq
          exact hstop

/-! ## The two halves of the calls -/

/-- The calls that the `try` block makes -/
structure Begun (rule : Bytes) (n : ℕ) (es : List event) (r : Except thrown Unit) : Prop where
  order : es.Pairwise event.Precedes
  own : ∀ e ∈ es, e.Of rule
  phase : ∀ e ∈ es, e.phase < 3
  before : ∀ i r, .before rule i r ∈ es → i < n ∧ ∀ j < i, .before rule j (.ok false) ∈ es
  service : (∃ r, .service rule r ∈ es) ↔ ∀ i < n, .before rule i (.ok false) ∈ es
  after : ∀ i r, .after rule i r ∈ es →
    i < n ∧ .service rule (.ok ()) ∈ es ∧ ∀ j < i, .after rule j (.ok false) ∈ es
  thrown_iff : ∀ ex, Thrown ex es ↔ r = .error (.std ex)

/-- The calls that the `catch` block makes -/
structure Ended (rule : Bytes) (n : ℕ) (ex : exception) (es : List event) (r : Except thrown Unit) : Prop where
  order : es.Pairwise event.Precedes
  own : ∀ e ∈ es, e.Of rule
  phase : ∀ e ∈ es, 3 ≤ e.phase
  shown : ∀ i ex' r, .exception rule i ex' r ∈ es → i < n ∧ ex' = ex ∧ ∀ j < i, .exception rule j ex (.ok false) ∈ es
  service_error : ∀ ex' r, .service_error ex' r ∈ es → ex' = ex ∧ ∀ j < n, .exception rule j ex (.ok false) ∈ es
  accepted : r = .ok () ↔ (∃ i, .exception rule i ex (.ok true) ∈ es) ∨ .service_error ex (.ok true) ∈ es

theorem not_throws_of_phase {e : event} (h : 3 ≤ e.phase) : e.throws = none := by
  cases e with
  | before | service | after => exact absurd h (by simp [event.phase])
  | exception | service_error => rfl

variable {rule : Bytes} {n : ℕ} {es es' : List event} {ex : exception} {r : Except thrown Unit}

theorem Begun.orderly (h : Begun rule n es r) (hr : ∀ ex, r ≠ .error (.std ex)) : Orderly rule n es r where
  order := h.order
  own := h.own
  before := h.before
  service := h.service
  after := h.after
  shown i ex r he := absurd (h.phase _ he) (lt_irrefl 3)
  service_error ex r he := absurd (h.phase _ he) (by simp [event.phase])
  accepted ex hex := absurd ((h.thrown_iff ex).mp hex) (hr ex)

theorem Begun.orderly_of_ended (h : Begun rule n es (.error (.std ex))) (h' : Ended rule n ex es' r) :
    Orderly rule n (es ++ es') r := by
  have hleft : ∀ e ∈ es ++ es', e.phase < 3 → e ∈ es := by
    intro e he hlt
    rcases List.mem_append.mp he with he | he
    · exact he
    · exact absurd (h'.phase e he) (by omega)
  have hright : ∀ e ∈ es ++ es', 3 ≤ e.phase → e ∈ es' := by
    intro e he hle
    rcases List.mem_append.mp he with he | he
    · exact absurd (h.phase e he) (by omega)
    · exact he
  have hthrown : ∀ ex', Thrown ex' (es ++ es') ↔ ex' = ex := by
    intro ex'
    calc Thrown ex' (es ++ es') ↔ Thrown ex' es := by
          constructor
          · rintro ⟨e, he, hex⟩
            rcases List.mem_append.mp he with he | he
            · exact ⟨e, he, hex⟩
            · rw [not_throws_of_phase (h'.phase e he)] at hex
              cases hex
          · rintro ⟨e, he, hex⟩
            exact ⟨e, List.mem_append_left _ he, hex⟩
      _ ↔ ex' = ex := by
          rw [h.thrown_iff]
          simp [eq_comm]
  refine ⟨?_, ?_, ?_, ?_, ?_, ?_, ?_, ?_⟩
  · refine List.pairwise_append.mpr ⟨h.order, h'.order, fun e he e' he' => .inl ?_⟩
    have hlt := h.phase e he
    have hle := h'.phase e' he'
    omega
  · exact List.forall_mem_append.mpr ⟨h.own, h'.own⟩
  · intro i r he
    obtain ⟨hi, hall⟩ := h.before i r (hleft _ he (by simp [event.phase]))
    exact ⟨hi, fun j hj => List.mem_append_left _ (hall j hj)⟩
  · constructor
    · rintro ⟨r, he⟩ i hi
      exact List.mem_append_left _ (h.service.mp ⟨r, hleft _ he (by simp [event.phase])⟩ i hi)
    · intro hall
      obtain ⟨r, he⟩ := h.service.mpr fun i hi => hleft _ (hall i hi) (by simp [event.phase])
      exact ⟨r, List.mem_append_left _ he⟩
  · intro i r he
    obtain ⟨hi, hservice, hall⟩ := h.after i r (hleft _ he (by simp [event.phase]))
    exact ⟨hi, List.mem_append_left _ hservice, fun j hj => List.mem_append_left _ (hall j hj)⟩
  · intro i ex' r he
    obtain ⟨hi, rfl, hall⟩ := h'.shown i ex' r (hright _ he (by simp [event.phase]))
    exact ⟨hi, (hthrown _).mpr rfl, fun j hj => List.mem_append_right _ (hall j hj)⟩
  · intro ex' r he
    obtain ⟨rfl, hall⟩ := h'.service_error ex' r (hright _ he (by simp [event.phase]))
    exact ⟨(hthrown _).mpr rfl, fun j hj => List.mem_append_right _ (hall j hj)⟩
  · intro ex' hex'
    obtain rfl := (hthrown ex').mp hex'
    rw [h'.accepted]
    have hmem : ∀ e : event, 3 ≤ e.phase → (e ∈ es' ↔ e ∈ es ++ es') := by
      intro e hle
      exact ⟨fun he => List.mem_append_right _ he, fun he => hright e he hle⟩
    refine or_congr (exists_congr fun i => hmem _ ?_) (hmem _ ?_)
    · simp [event.phase]
    · simp [event.phase]

/-! ## The `try` block and the `catch` block -/

theorem multi_logs {log : υ → List event} {ctrlr : ctrlr_aop υ} (h : LoggedCtrlr log rule n ctrlr) :
    (∀ c, ∃ es, log (ctrlr.before c).1.user = log c.user ++ es ∧ Asked (.before rule) n es (ctrlr.before c).2) ∧
      Logs log ctrlr.service (.service rule) ∧
      (∀ c, ∃ es, log (ctrlr.after c).1.user = log c.user ++ es ∧ Asked (.after rule) n es (ctrlr.after c).2) ∧
      ∀ ex c, ∃ es, log (ctrlr.exception ex c).1.user = log c.user ++ es ∧
        Asked (fun i => .exception rule i ex) n es (ctrlr.exception ex c).2 := by
  obtain ⟨m_func, m_aops, rfl, rfl, hfunc, haops⟩ := h
  refine ⟨fun c => ?_, hfunc, fun c => ?_, fun ex c => ?_⟩
  · exact ask_asked log (·.before) (.before rule) m_aops (fun i aop hi => (haops i aop hi).before) c
  · exact ask_asked log (·.after) (.after rule) m_aops (fun i aop hi => (haops i aop hi).after) c
  · exact ask_asked log (·.exception ex) _ m_aops (fun i aop hi => (haops i aop hi).exception ex) c

theorem begun_of_stopped {r : Except thrown Bool} (h : Asked (.before rule) n es r) (hr : r ≠ .ok false) :
    Begun rule n es (r.map fun _ => ()) where
  order := h.ordered (p := 0) (fun _ _ => rfl) fun _ _ => rfl
  own e he := by
    obtain ⟨i, -, ⟨r', rfl⟩, -⟩ := h.mem he
    rfl
  phase e he := by
    obtain ⟨i, -, ⟨r', rfl⟩, -⟩ := h.mem he
    exact Nat.zero_lt_succ 2
  before i r' he := by
    obtain ⟨i', hi, ⟨r'', heq⟩, hall⟩ := h.mem he
    cases heq
    exact ⟨hi, hall⟩
  service := by
    refine iff_of_false ?_ fun hall => ?_
    · rintro ⟨r', he⟩
      obtain ⟨i, -, ⟨r'', heq⟩, -⟩ := h.mem he
      cases heq
    · cases h with
      | declined => exact hr rfl
      | answered m r hm _ =>
        have hm' := hall m hm
        rcases List.mem_append.mp hm' with he | he
        · obtain ⟨j, hj, heq⟩ := List.mem_map.mp he
          cases heq
          exact lt_irrefl _ (List.mem_range.mp hj)
        · cases List.mem_singleton.mp he
          exact hr rfl
  after i r' he := by
    obtain ⟨i', -, ⟨r'', heq⟩, -⟩ := h.mem he
    cases heq
  thrown_iff ex := by
    rw [h.thrown_iff (fun i j r r' heq => by cases heq; exact ⟨rfl, rfl⟩) (fun _ _ => rfl)]
    cases r <;> simp [Except.map]

theorem begun_of_served {as : List event} {rs : Except thrown Unit} (h : Asked (.before rule) n es (.ok false))
    (has : rs ≠ .ok () ∧ as = [] ∧ r = rs ∨
      rs = .ok () ∧ ∃ ra, Asked (.after rule) n as ra ∧ r = ra.map fun _ => ()) :
    Begun rule n (es ++ .service rule rs :: as) r := by
  have hbefore : ∀ e ∈ es, e.phase = 0 ∧ e.Of rule ∧ ∀ ex, e.throws ≠ some ex := by
    intro e he
    obtain ⟨i, -, ⟨r', rfl⟩, -⟩ := h.mem he
    refine ⟨rfl, rfl, fun ex hex => ?_⟩
    have hthrown : Thrown ex es := ⟨_, he, hex⟩
    rw [h.thrown_iff (fun i j r r' heq => by cases heq; exact ⟨rfl, rfl⟩) (fun _ _ => rfl)] at hthrown
    cases hthrown
  have hafter : ∀ e ∈ as, e.phase = 2 ∧ e.Of rule ∧ rs = .ok () ∧ ∃ i < n, (∃ r', e = .after rule i r') ∧
      ∀ j < i, .after rule j (.ok false) ∈ as := by
    intro e he
    rcases has with ⟨-, rfl, -⟩ | ⟨hrs, ra, hra, -⟩
    · cases he
    · obtain ⟨i, hi, ⟨r', rfl⟩, hall⟩ := hra.mem he
      exact ⟨rfl, rfl, hrs, i, hi, ⟨r', rfl⟩, hall⟩
  have horder : as.Pairwise event.Precedes := by
    rcases has with ⟨-, rfl, -⟩ | ⟨-, ra, hra, -⟩
    · exact .nil
    · exact hra.ordered (p := 2) (fun _ _ => rfl) fun _ _ => rfl
  have hthrown : ∀ ex, caught rs = some ex ∨ Thrown ex as ↔ r = .error (.std ex) := by
    intro ex
    rw [caught_iff]
    rcases has with ⟨-, rfl, rfl⟩ | ⟨rfl, ra, hra, rfl⟩
    · simp [Thrown]
    · rw [hra.thrown_iff (fun i j r r' heq => by cases heq; exact ⟨rfl, rfl⟩) (fun _ _ => rfl)]
      cases ra <;> simp [Except.map]
  have hleft : ∀ e ∈ es, e ∈ es ++ .service rule rs :: as := fun e he => List.mem_append_left _ he
  have hright : ∀ e ∈ as, e ∈ es ++ .service rule rs :: as :=
    fun e he => List.mem_append_right _ (List.mem_cons_of_mem _ he)
  refine ⟨?_, ?_, ?_, ?_, ?_, ?_, ?_⟩
  · refine List.pairwise_append.mpr ⟨h.ordered (p := 0) (fun _ _ => rfl) fun _ _ => rfl,
      List.pairwise_cons.mpr ⟨fun e he => .inl ?_, horder⟩, fun e he e' he' => .inl ?_⟩
    · rw [(hafter e he).1]
      exact one_lt_two
    · rw [(hbefore e he).1]
      rcases List.mem_cons.mp he' with rfl | he'
      · exact zero_lt_one
      · rw [(hafter e' he').1]
        exact zero_lt_two
  · intro e he
    rcases List.mem_append.mp he with he | he
    · exact (hbefore e he).2.1
    · rcases List.mem_cons.mp he with rfl | he
      · rfl
      · exact (hafter e he).2.1
  · intro e he
    rcases List.mem_append.mp he with he | he
    · simp [(hbefore e he).1]
    · rcases List.mem_cons.mp he with rfl | he
      · simp [event.phase]
      · simp [(hafter e he).1]
  · intro i r' he
    rcases List.mem_append.mp he with he | he
    · obtain ⟨i', hi, ⟨r'', heq⟩, hall⟩ := h.mem he
      cases heq
      exact ⟨hi, fun j hj => hleft _ (hall j hj)⟩
    · rcases List.mem_cons.mp he with heq | he
      · cases heq
      · cases (hafter _ he).1
  · exact iff_of_true ⟨rs, List.mem_append_right _ List.mem_cons_self⟩ fun i hi => hleft _ (h.all i hi)
  · intro i r' he
    rcases List.mem_append.mp he with he | he
    · cases (hbefore _ he).1
    · rcases List.mem_cons.mp he with heq | he
      · cases heq
      · obtain ⟨-, -, rfl, i', hi, ⟨r'', heq⟩, hall⟩ := hafter _ he
        cases heq
        exact ⟨hi, List.mem_append_right _ List.mem_cons_self, fun j hj => hright _ (hall j hj)⟩
  · intro ex
    rw [← hthrown]
    constructor
    · rintro ⟨e, he, hex⟩
      rcases List.mem_append.mp he with he | he
      · exact absurd hex ((hbefore e he).2.2 ex)
      · rcases List.mem_cons.mp he with rfl | he
        · exact .inl hex
        · exact .inr ⟨e, he, hex⟩
    · rintro (hex | ⟨e, he, hex⟩)
      · exact ⟨_, List.mem_append_right _ List.mem_cons_self, hex⟩
      · exact ⟨e, hright e he, hex⟩

theorem ended_of_asked {rx : Except thrown Bool} (h : Asked (fun i => .exception rule i ex) n es rx)
    (hr : rx ≠ .ok false ∧ r = rx.map (fun _ => ()) ∨ rx = .ok false ∧ r = .error (.std ex)) :
    Ended rule n ex es r where
  order := h.ordered (p := 3) (fun _ _ => rfl) fun _ _ => rfl
  own e he := by
    obtain ⟨i, -, ⟨r', rfl⟩, -⟩ := h.mem he
    rfl
  phase e he := by
    obtain ⟨i, -, ⟨r', rfl⟩, -⟩ := h.mem he
    exact le_refl 3
  shown i ex' r' he := by
    obtain ⟨i', hi, ⟨r'', heq⟩, hall⟩ := h.mem he
    cases heq
    exact ⟨hi, rfl, hall⟩
  service_error ex' r' he := by
    obtain ⟨i, -, ⟨r'', heq⟩, -⟩ := h.mem he
    cases heq
  accepted := by
    have hnone : .service_error ex (.ok true) ∉ es := by
      intro he
      obtain ⟨i, -, ⟨r', heq⟩, -⟩ := h.mem he
      cases heq
    rw [or_iff_left hnone]
    have hyes : (∃ i, .exception rule i ex (.ok true) ∈ es) ↔ rx = .ok true := by
      constructor
      · rintro ⟨i, he⟩
        rcases h.unique (fun i j r r' heq => by cases heq; exact ⟨rfl, rfl⟩) he with heq | heq
        · cases heq
        · exact heq.symm
      · rintro rfl
        obtain ⟨i, -, he⟩ := h.last (by simp)
        exact ⟨i, he⟩
    rw [hyes]
    rcases hr with ⟨hno, rfl⟩ | ⟨rfl, rfl⟩
    · cases rx with
      | ok b =>
        cases b with
        | true => exact iff_of_true rfl rfl
        | false => exact absurd rfl hno
      | error t => simp [Except.map]
    · simp

theorem ended_of_declined {rh : Except thrown Bool} (h : Asked (fun i => .exception rule i ex) n es (.ok false))
    (hr : r = .ok () ↔ rh = .ok true) : Ended rule n ex (es ++ [.service_error ex rh]) r := by
  have hasked : Ended rule n ex es (.error (.std ex)) := ended_of_asked h (.inr ⟨rfl, rfl⟩)
  have hmem : ∀ e, e ∈ es ++ [.service_error ex rh] ↔ e ∈ es ∨ e = .service_error ex rh := by simp
  refine ⟨?_, ?_, ?_, ?_, ?_, ?_⟩
  · refine List.pairwise_append.mpr ⟨hasked.order, List.pairwise_singleton _ _, fun e he e' he' => .inl ?_⟩
    obtain ⟨i, -, ⟨r', rfl⟩, -⟩ := h.mem he
    obtain rfl := List.mem_singleton.mp he'
    exact Nat.lt_succ_self 3
  · intro e he
    rcases (hmem e).mp he with he | rfl
    · exact hasked.own e he
    · trivial
  · intro e he
    rcases (hmem e).mp he with he | rfl
    · exact hasked.phase e he
    · exact Nat.le_succ 3
  · intro i ex' r' he
    rcases (hmem _).mp he with he | heq
    · obtain ⟨hi, rfl, hall⟩ := hasked.shown i ex' r' he
      exact ⟨hi, rfl, fun j hj => List.mem_append_left _ (hall j hj)⟩
    · cases heq
  · intro ex' r' he
    rcases (hmem _).mp he with he | heq
    · obtain ⟨i, -, ⟨r'', heq⟩, -⟩ := h.mem he
      cases heq
    · cases heq
      exact ⟨rfl, fun j hj => List.mem_append_left _ (h.all j hj)⟩
  · have hnone : ¬ ∃ i, .exception rule i ex (.ok true) ∈ es ++ [.service_error ex rh] := by
      rintro ⟨i, he⟩
      rcases (hmem _).mp he with he | heq
      · rcases h.unique (fun i j r r' heq => by cases heq; exact ⟨rfl, rfl⟩) he with heq | heq <;> cases heq
      · cases heq
    have herror : .service_error ex (.ok true) ∉ es := by
      intro he
      obtain ⟨i, -, ⟨r', heq⟩, -⟩ := h.mem he
      cases heq
    rw [or_iff_right hnone, hmem, or_iff_right herror, hr]
    simp [eq_comm]

/-! ## A request -/

variable {log : υ → List event}

theorem call_ctrlr_begun {ctrlr : ctrlr_aop υ} (h : LoggedCtrlr log rule n ctrlr) (c : context υ) :
    ∃ es, log (server.call_ctrlr ctrlr c).1.user = log c.user ++ es ∧
      Begun rule n es (server.call_ctrlr ctrlr c).2 := by
  obtain ⟨hbefore, hservice, hafter, -⟩ := multi_logs h
  obtain ⟨bs, hbs, hasked⟩ := hbefore c
  unfold server.call_ctrlr
  generalize ctrlr.before c = d at hbs hasked ⊢
  obtain ⟨c₁, rb⟩ := d
  cases rb with
  | error t => exact ⟨bs, hbs, begun_of_stopped hasked (by simp)⟩
  | ok b =>
    cases b with
    | true => exact ⟨bs, hbs, begun_of_stopped hasked (by simp)⟩
    | false =>
      have hs := hservice c₁
      dsimp only at hbs ⊢
      generalize ctrlr.service c₁ = d at hs ⊢
      obtain ⟨c₂, rs⟩ := d
      cases rs with
      | error t =>
        refine ⟨bs ++ [.service rule (.error t)], ?_, begun_of_served hasked (.inl ⟨by simp, rfl, rfl⟩)⟩
        exact hs.trans (by rw [hbs, List.append_assoc])
      | ok u =>
        obtain ⟨as, has, hasked'⟩ := hafter c₂
        dsimp only at hs has ⊢
        generalize ctrlr.after c₂ = d at has hasked' ⊢
        obtain ⟨c₃, ra⟩ := d
        refine ⟨bs ++ .service rule (.ok ()) :: as, ?_, begun_of_served hasked (.inr ⟨rfl, ra, hasked', ?_⟩)⟩
        · have hlog : log c₃.user = log c.user ++ (bs ++ .service rule (.ok ()) :: as) := by
            rw [has, hs, hbs]
            simp
          cases ra <;> exact hlog
        · cases ra <;> rfl

theorem catch_ctrlr_ended (srv : server υ) {ctrlr : ctrlr_aop υ} (h : LoggedCtrlr log rule n ctrlr)
    (hsrv : LoggedServer log srv) (ex : exception) (c : context υ) :
    ∃ es, log (srv.catch_ctrlr ctrlr ex c).1.user = log c.user ++ es ∧
      Ended rule n ex es (srv.catch_ctrlr ctrlr ex c).2 := by
  obtain ⟨-, -, -, hexception⟩ := multi_logs h
  obtain ⟨xs, hxs, hasked⟩ := hexception ex c
  unfold server.catch_ctrlr
  generalize ctrlr.exception ex c = d at hxs hasked ⊢
  obtain ⟨c₁, rx⟩ := d
  cases rx with
  | error t => exact ⟨xs, hxs, ended_of_asked hasked (.inl ⟨by simp, rfl⟩)⟩
  | ok b =>
    cases b with
    | true => exact ⟨xs, hxs, ended_of_asked hasked (.inl ⟨by simp, rfl⟩)⟩
    | false =>
      have herror := hsrv.service_error
      unfold server.call_on_service_error
      dsimp only at hxs ⊢
      cases hhandler : srv.m_service_error_handler with
      | none => exact ⟨xs, hxs, ended_of_asked hasked (.inr ⟨rfl, rfl⟩)⟩
      | some handler =>
        have hs := herror handler hhandler ex (c₁.respond (.set_status 500))
        dsimp only
        generalize handler ex (c₁.respond (.set_status 500)) = d at hs ⊢
        obtain ⟨c₂, rh⟩ := d
        have hlog : log c₂.user = log c.user ++ (xs ++ [.service_error ex rh]) :=
          hs.trans (by rw [context.respond, hxs, List.append_assoc])
        refine ⟨xs ++ [.service_error ex rh], ?_, ended_of_declined hasked ?_⟩
        · cases rh with
          | error t => exact hlog
          | ok b => cases b <;> exact hlog
        · cases rh with
          | error t => simp
          | ok b => cases b <;> simp

theorem try_ctrlr_orderly (srv : server υ) {ctrlr : ctrlr_aop υ} (h : LoggedCtrlr log rule n ctrlr)
    (hsrv : LoggedServer log srv) (c : context υ) :
    ∃ es, log (srv.try_ctrlr ctrlr c).1.user = log c.user ++ es ∧ Orderly rule n es (srv.try_ctrlr ctrlr c).2 := by
  obtain ⟨es, hlog, hbegun⟩ := call_ctrlr_begun h c
  unfold server.try_ctrlr
  generalize server.call_ctrlr ctrlr c = d at hlog hbegun ⊢
  obtain ⟨c₁, r⟩ := d
  cases r with
  | ok u => exact ⟨es, hlog, hbegun.orderly (by simp)⟩
  | error t =>
    cases t with
    | std ex =>
      obtain ⟨es', hlog', hended⟩ := catch_ctrlr_ended srv h hsrv ex c₁
      refine ⟨es ++ es', ?_, hbegun.orderly_of_ended hended⟩
      rw [← List.append_assoc, ← hlog]
      exact hlog'
    | other => exact ⟨es, hlog, hbegun.orderly (by simp)⟩
    | null_call => exact ⟨es, hlog, hbegun.orderly (by simp)⟩

theorem visited_mem {H : Type} (p : RequestParser) (es : List (Bytes × H)) (e : Bytes × H) (h : e ∈ visited p es) :
    e ∈ es := by
  induction es with
  | nil => exact h
  | cons d es ih =>
    unfold visited at h
    split at h
    · rw [List.mem_singleton.mp h]
      exact List.mem_cons_self
    · rcases List.mem_cons.mp h with rfl | h
      · exact List.mem_cons_self
      · exact List.mem_cons_of_mem _ (ih h)

theorem find_handler_best {H : Type} (es : List (Bytes × H)) (h : H) (p q : RequestParser)
    (hfind : find_handler es none int32_max p = .ok (some h, q)) :
    q = { p with m_path_args := last_args p es } ∧ ∃ rule, BestEntry p es (rule, h) ∧ (rule, h) ∈ es := by
  obtain ⟨hq, hh⟩ := find_handler_spec es none (some h) int32_max p q (by decide) hfind
  refine ⟨hq, ?_⟩
  rcases pick_spec (p.m_parser_base.captured.m_path ≠ []) (fun e => rule_weight p e.1) none int32_max
    (matching p es) with ⟨⟨rule, h'⟩, hpick, hbest⟩ | ⟨hpick, -⟩
  · rw [hpick, Option.map_some, Option.some.injEq] at hh
    obtain rfl : h = h' := hh
    obtain ⟨before, after, hsplit, -, -⟩ := hbest.split
    have hmem : (rule, h) ∈ matching p es := by simp [hsplit]
    exact ⟨rule, hbest, visited_mem p es _ (List.mem_filter.mp hmem).1⟩
  · rw [hpick] at hh
    cases hh

theorem write_user (c : context υ) (body : Bytes) (o : write_outcomes) : (c.write body o).1.user = c.user := by
  unfold context.write
  dsimp only
  split <;> rfl

theorem refuse_method_user (handler : tk_handler (ctrlr_aop υ)) (o : write_outcomes) (c : context υ) :
    (server.refuse_method handler o c).1.user = c.user := by
  unfold server.refuse_method
  dsimp only
  have hfirst : (if c.parser.m_parser_base.captured.m_method = .HEAD then
      (c.respond (.set_header header.content_type (ascii "text/plain"))).write [] o
    else (c, .ok ())).1.user = c.user := by
    split
    · exact write_user _ _ _
    · rfl
  split
  · rename_i c' t heq
    rw [heq] at hfirst
    exact hfirst
  · rename_i c' heq
    rw [heq] at hfirst
    split
    · rw [write_user]
      exact hfirst
    · exact hfirst

/-- **Which functions a request calls, and in which order.** Whatever the functions of the application do, a request
calls none of them, or those of one controller in their order: of the controller of the best rule, and only if it has
the method of the request. -/
theorem dispatch_orderly (srv : server υ) (log : υ → List event) (hsrv : LoggedServer log srv) (o : write_outcomes)
    (c : context υ) :
    ∃ es, log (srv.call_on_request o c).1.user = log c.user ++ es ∧
      (es = [] ∨ ∃ rule handler ctrlr n,
        BestEntry c.parser srv.m_request_handler_map.entries (rule, some handler) ∧ handler.aop = some ctrlr ∧
          c.parser.m_parser_base.captured.m_method ∈ handler.method ∧ LoggedCtrlr log rule n ctrlr.object ∧
            Orderly rule n es (srv.call_on_request o c).2) := by
  have hnone : ∀ c' : context υ, c'.user = c.user → log c'.user = log c.user ++ [] := by
    intro c' huser
    rw [huser, List.append_nil]
  unfold server.call_on_request
  cases hfind : find_handler srv.m_request_handler_map.entries none int32_max c.parser with
  | error ex => exact ⟨[], hnone _ rfl, .inl rfl⟩
  | ok found =>
    obtain ⟨handler, p⟩ := found
    dsimp only
    cases handler with
    | none => exact ⟨[], hnone _ rfl, .inl rfl⟩
    | some handler =>
      cases handler with
      | none => exact ⟨[], hnone _ rfl, .inl rfl⟩
      | some handler =>
        obtain ⟨rfl, rule, hbest, hmem⟩ := find_handler_best _ _ _ _ hfind
        dsimp only [Option.join_some]
        unfold server.call_handler
        dsimp only
        split
        · exact ⟨[], hnone _ (refuse_method_user _ _ _), .inl rfl⟩
        · rename_i hmethod
          cases haop : handler.aop with
          | none => exact ⟨[], hnone _ rfl, .inl rfl⟩
          | some ctrlr =>
            obtain ⟨n, hctrlr⟩ := hsrv.ctrlr _ hmem handler ctrlr rfl haop
            obtain ⟨es, hlog, horderly⟩ := try_ctrlr_orderly srv hctrlr hsrv
              { c with parser := { c.parser with m_path_args := last_args c.parser srv.m_request_handler_map.entries } }
            exact ⟨es, hlog, .inr ⟨rule, handler, ctrlr, n, hbest, haop, not_not.mp hmethod, hctrlr, horderly⟩⟩

/-- A function that only writes its call down -/
def recorded {α : Type} (call : Except thrown α → event) (r : Except thrown α) : func (List event) α := fun c =>
  ({ c with user := c.user ++ [call r] }, r)

/-- The second aspect throws beforehand, and accepts what it has thrown. -/
def twoAspects : ctrlr_aop (List event) :=
  multi_ctrlr_aop (recorded (.service (ascii "/a")) (.ok ()))
    [⟨recorded (.before (ascii "/a") 0) (.ok false), recorded (.after (ascii "/a") 0) (.ok false),
        fun ex => recorded (.exception (ascii "/a") 0 ex) (.ok false)⟩,
      ⟨recorded (.before (ascii "/a") 1) (.error (.std .out_of_range)), recorded (.after (ascii "/a") 1) (.ok false),
        fun ex => recorded (.exception (ascii "/a") 1 ex) (.ok true)⟩]

def twoAspectsServer : server (List event) where
  m_request_handler_map := ⟨[(ascii "/a", some ⟨[.GET], some ⟨0, twoAspects⟩⟩)], by decide⟩
  m_default_handler := none
  m_service_error_handler := none

theorem twoAspects_logged : LoggedServer id twoAspectsServer where
  ctrlr e he handler ctrlr hhandler haop := by
    obtain rfl := List.mem_singleton.mp he
    cases hhandler
    cases haop
    refine ⟨2, _, _, rfl, rfl, fun c => rfl, fun i aop hi => ?_⟩
    match i with
    | 0 =>
      cases hi
      exact ⟨fun c => rfl, fun c => rfl, fun ex c => rfl⟩
    | 1 =>
      cases hi
      exact ⟨fun c => rfl, fun c => rfl, fun ex c => rfl⟩
    | i + 2 => cases hi
  service_error handler hhandler := by cases hhandler

def getA : context (List event) :=
  ⟨(append (.init version.v11) (ascii "GET /a HTTP/1.1\r\n\r\n")).obj, progress.init version.v11 .empty, []⟩

def goodWrites : write_outcomes := ⟨goodWrite, goodWrite⟩

theorem dispatch_orderly_two :
    let es := [.before (ascii "/a") 0 (.ok false), .before (ascii "/a") 1 (.error (.std .out_of_range)),
      .exception (ascii "/a") 0 .out_of_range (.ok false), .exception (ascii "/a") 1 .out_of_range (.ok true)]
    (twoAspectsServer.call_on_request goodWrites getA).1.user = es ∧
      ∃ es, (twoAspectsServer.call_on_request goodWrites getA).1.user = getA.user ++ es ∧
        (es = [] ∨ ∃ rule handler ctrlr n,
          BestEntry getA.parser twoAspectsServer.m_request_handler_map.entries (rule, some handler) ∧
            handler.aop = some ctrlr ∧ getA.parser.m_parser_base.captured.m_method ∈ handler.method ∧
              LoggedCtrlr id rule n ctrlr.object ∧
                Orderly rule n es (twoAspectsServer.call_on_request goodWrites getA).2) :=
  ⟨by rfl, dispatch_orderly twoAspectsServer id twoAspects_logged goodWrites getA⟩

end Libgs.Server
