import Libgs.Lib.Run
import Libgs.Server.Exceptions

/-!
# The service loop of a connection

`do_tcp_service` of `http/server/detail/server.h` reads once for every request, and hands the parser
to `call_on_request` whatever `append` has returned.
-/

namespace Libgs.Server

open Lib Libgs.Http

inductive first_read
  | timed_out
  | data (buf : Bytes)
  | failed (error : error_value)

/-- `catch(std::system_error &ex)`. The loop goes on if the handler of server errors accepts the error;
an error that it does not accept is thrown again. -/
def goes_on (accepts : error_value → Bool) (code : error_value) : Bool :=
  code.value ≠ errc.bad_descriptor.value ∧ code.value ≠ errc.eof.value ∧ code.value ≠ errc.timed_out.value ∧
    accepts code = true

/-- The `try` block and its handler: the parser that `call_on_request` is given, and what `append` has
returned. `none` when the loop ends here, by a `break` or by an exception. -/
def receive (accepts : error_value → Bool) (p : RequestParser) : first_read → Option (RequestParser × Bool)
  | .timed_out => none
  | .failed e => if goes_on accepts e then some (p, false) else none
  | .data buf =>
    if buf = [] then none
    else
      let c := append p buf
      match c.value, c.error with
      | .ok res, none => some (c.obj, res)
      | .ok _, some _ => none
      | .error (.system_error code _), _ => if goes_on accepts code then some (c.obj, false) else none
      | .error _, _ => none

/-- One turn of the loop, as the socket and the handlers decide it: `serve` is `call_on_request` and
`call_on_default`. -/
structure service_input where
  read : first_read
  serve : RequestParser → Except exception RequestParser

structure connection where
  parser : RequestParser
  /-- `append` has returned true since the last `reset`. -/
  reported : Bool
  is_open : Bool

def connection.init (version : version_t) : connection := ⟨.init version, false, true⟩

/-- What `call_on_request` is called with in a turn, if it is. -/
def dispatched (accepts : error_value → Bool) (s : connection) (t : service_input) : Option (RequestParser × Bool) :=
  if s.is_open then (receive accepts s.parser t.read).map fun (p, res) => (p, s.reported || res) else none

def service_turn (accepts : error_value → Bool) (keepalive_time : ℕ) (s : connection) (t : service_input) :
    connection :=
  match dispatched accepts s t with
  | none => { s with is_open := false }
  | some (p, reported) =>
    match t.serve p with
    | .error _ => ⟨p, reported, false⟩
    | .ok p =>
      if ¬ p.m_keep_alive ∨ keepalive_time = 0 then ⟨p, reported, false⟩
      else ⟨reset p, false, true⟩

/-- `call_on_request` is only called with a completed header section. -/
def DispatchesComplete (accepts : error_value → Bool) (s : connection) (t : service_input) : Prop :=
  ∀ p reported, dispatched accepts s t = some (p, reported) → reported = true

/-- Data without error hold a whole head, and no failure is accepted. -/
def ReadsHead (accepts : error_value → Bool) (s : connection) (t : service_input) : Prop :=
  s.is_open = true →
    match t.read with
    | .timed_out => True
    | .failed e => goes_on accepts e = false
    | .data buf => buf ≠ [] → (∃ res, (append s.parser buf).Clean res) → ∃ (h : Head) (r : Bytes), buf = h.text ++ r

/-! ## The parser at the head of the loop -/

def Fresh (p : RequestParser) : Prop := Http.Fresh p.m_parser_base

theorem append_true_iff (p : RequestParser) (x : Bytes) (v : Bool) (hp : Fresh p) (hx : x ≠ [])
    (hc : (append p x).Clean v) : v = true ↔ ∃ (h : Head) (r : Bytes), x = h.text ++ r := by
  obtain ⟨-, he, hv⟩ := append_base p x
  exact Http.append_true_iff p.m_parser_base x v hp hx ⟨he ▸ hc.1, hv ▸ hc.2⟩

/-- At the head of an open connection's loop the parser is fresh. -/
def LoopHead (s : connection) : Prop := s.is_open = true → Fresh s.parser ∧ s.reported = false

theorem service_turn_loopHead (accepts : error_value → Bool) (keepalive_time : ℕ) (s : connection) (t : service_input) :
    LoopHead (service_turn accepts keepalive_time s t) := by
  unfold service_turn
  split
  · intro h
    cases h
  · split
    · intro h
      cases h
    · split
      · intro h
        cases h
      · exact fun _ => ⟨⟨rfl, rfl, rfl⟩, rfl⟩

theorem receive_data (accepts : error_value → Bool) (p q : RequestParser) (buf : Bytes) (res : Bool) (hp : Fresh p) :
    receive accepts p (.data buf) = some (q, res) ↔ buf ≠ [] ∧ (append p buf).Clean res ∧ q = (append p buf).obj := by
  have hns : NoSystemError (append p buf).value := by
    by_cases hbuf : buf = []
    · rw [(append_base p buf).2.2]
      rintro code what h
      simp [Http.append, hbuf, Call.ok] at h
    · rw [(append_base p buf).2.2, append_inHead _ buf hbuf (.inl hp.waiting)]
      exact parse_header_noSystemError _ (.inl hp.waiting)
  unfold receive
  by_cases hbuf : buf = []
  · simp [hbuf]
  · simp only [hbuf, if_false, ne_eq, not_false_eq_true, true_and]
    split
    · rename_i res' hv he
      simp [Call.Clean, hv, he, and_comm, eq_comm]
    · rename_i hv he
      simp [Call.Clean, he]
    · rename_i hv
      exact absurd hv (hns _ _)
    · rename_i hv
      simp [Call.Clean, hv]

theorem dispatches_complete_iff (accepts : error_value → Bool) (s : connection) (t : service_input) (hs : LoopHead s) :
    DispatchesComplete accepts s t ↔ ReadsHead accepts s t := by
  unfold DispatchesComplete ReadsHead dispatched
  by_cases hopen : s.is_open = true
  · obtain ⟨hp, hreported⟩ := hs hopen
    simp only [hopen, if_true, hreported, Bool.false_or, forall_true_left]
    cases t.read with
    | timed_out => simp [receive]
    | failed e => cases hg : goes_on accepts e <;> simp [receive, hg]
    | data buf =>
      simp only [Option.map_eq_some_iff, Prod.mk.injEq]
      constructor
      · rintro h hbuf ⟨res, hc⟩
        have hrec := (receive_data accepts s.parser _ buf res hp).mpr ⟨hbuf, hc, rfl⟩
        rw [← append_true_iff s.parser buf res hp hbuf hc]
        exact h _ res ⟨_, hrec, rfl, rfl⟩
      · rintro h p res ⟨⟨p', res'⟩, hrec, rfl, rfl⟩
        obtain ⟨hbuf, hc, -⟩ := (receive_data accepts s.parser p' buf res' hp).mp hrec
        exact (append_true_iff s.parser buf res' hp hbuf hc).mpr (h hbuf ⟨res', hc⟩)
  · simp [hopen]

/-- **Complete requests only.** Over the turns of a connection, `call_on_request` is always called with
a completed header section exactly when every read brings a whole head. -/
theorem service_dispatches_iff (accepts : error_value → Bool) (keepalive_time : ℕ) (version : version_t)
    (turns : List service_input) :
    Guarded (service_turn accepts keepalive_time) (DispatchesComplete accepts) (.init version) turns ↔
      Guarded (service_turn accepts keepalive_time) (ReadsHead accepts) (.init version) turns := by
  have hhead : Throughout (service_turn accepts keepalive_time) LoopHead (.init version) turns :=
    throughout_of_inv (G := fun _ _ => True) (fun s t _ _ => service_turn_loopHead accepts keepalive_time s t)
      (.init version) turns (fun _ => ⟨fresh_init version _, rfl⟩) fun _ _ _ _ => trivial
  constructor
  · intro h done t more hsplit
    exact (dispatches_complete_iff accepts _ t (hhead done (t :: more) hsplit)).mp (h done t more hsplit)
  · intro h done t more hsplit
    exact (dispatches_complete_iff accepts _ t (hhead done (t :: more) hsplit)).mpr (h done t more hsplit)

/-- Half of a request line arrives, and it is handed to the handlers. -/
theorem service_dispatches_part :
    ¬ Guarded (service_turn (fun _ => false) 5000) (DispatchesComplete fun _ => false) (.init 0)
      [⟨.data (ascii "GET / HT"), fun p => .ok p⟩] := by
  intro h
  have hsome : dispatched (fun _ => false) (.init 0) ⟨.data (ascii "GET / HT"), fun p => .ok p⟩ =
      some ((append (.init 0) (ascii "GET / HT")).obj, false) := by rfl
  cases h.head _ _ hsome

end Libgs.Server
