import Libgs.Server.Dispatch

/-!
# Every request is answered

The turns of `do_tcp_service` of `http/server/detail/server.h` with what the server writes in them: one response for
every request that is dispatched, and no request without a complete one.
-/

namespace Libgs.Server

open Lib Libgs.Http

/-! ## A connection with its responses -/

/-- The connection, what the application keeps, and the responses that have been made, in their order. When a turn ends
with an exception, `abd` is set and the process ends. -/
structure service (υ : Type) where
  connection : connection
  user : υ
  responses : List progress
  abd : Bool

/-- What comes from outside in a turn: a read, and how the writes of the server go -/
structure turn_input where
  read : first_read
  replies : replies

variable {υ : Type}

def service.init (version : version_t) (user : υ) : service υ := ⟨.init version, user, [], false⟩

def context.init (p : RequestParser) (user : υ) : context υ :=
  ⟨p, progress.init p.m_parser_base.m_version p.m_parser_base.m_headers, user⟩

/-- What is dispatched in a turn -/
def service.request (accepts : error_value → Bool) (s : service υ) (t : turn_input) : Option (RequestParser × Bool) :=
  dispatched accepts s.connection ⟨t.read, .ok⟩

/-- A turn of `do_tcp_service` -/
def request_turn (srv : server υ) (accepts : error_value → Bool) (keepalive_time : ℕ) (s : service υ) (t : turn_input) :
    service υ :=
  match s.request accepts t with
  | none => { s with connection := { s.connection with is_open := false } }
  | some (p, reported) =>
    match srv.serve t.replies (.init p s.user) with
    | (c, .error _) => ⟨⟨p, reported, false⟩, c.user, s.responses ++ [c.response], true⟩
    | (c, .ok ()) =>
      let connection : connection :=
        if ¬ c.parser.m_keep_alive ∨ keepalive_time = 0 then ⟨c.parser, reported, false⟩
        else ⟨reset c.parser, false, true⟩
      ⟨connection, c.user, s.responses ++ [c.response], s.abd⟩

theorem request_turn_connection (srv : server υ) (accepts : error_value → Bool) (keepalive_time : ℕ) (s : service υ)
    (t : turn_input) :
    ∃ serve, (request_turn srv accepts keepalive_time s t).connection =
      service_turn accepts keepalive_time s.connection ⟨t.read, serve⟩ := by
  refine ⟨fun p => match srv.serve t.replies (.init p s.user) with
    | (_, .error _) => .error .out_of_range
    | (c, .ok ()) => .ok c.parser, ?_⟩
  unfold request_turn service_turn
  have hrequest : ∀ serve, dispatched accepts s.connection ⟨t.read, serve⟩ = s.request accepts t := fun _ => rfl
  rw [hrequest]
  cases s.request accepts t with
  | none => rfl
  | some request =>
    obtain ⟨p, reported⟩ := request
    dsimp only
    generalize srv.serve t.replies (.init p s.user) = d
    obtain ⟨c, r⟩ := d
    cases r with
    | error e => rfl
    | ok u => rfl

/-! ## What a function of the application may do to a response -/

/-- Nothing is written yet, and neither a length nor a chunked coding has been set. -/
structure Ready (r : response) : Prop where
  state : r.pro_state = .header
  line : ∃ line, r.m_helper.status_line = .ok line
  request : r.m_helper.request_chunked = false
  length : r.m_helper.m_helper.m_headers.find header.content_length = none
  coding : ∀ text, r.m_helper.m_helper.m_headers.find header.transfer_encoding = some text →
    str_to_lower text ≠ string_pool.chunked

/-- A response that is ready stays so or is completed, and a complete one stays complete. -/
structure Proceeds (s s' : progress) : Prop where
  counted : Counted s → Counted s'
  ready : Counted s → Ready s.obj → Ready s'.obj ∨ Complete s'
  complete : Counted s → Complete s → Complete s'

theorem Proceeds.refl (s : progress) : Proceeds s s := ⟨id, fun _ h => .inl h, fun _ h => h⟩

theorem Proceeds.trans {s s' s'' : progress} (h : Proceeds s s') (h' : Proceeds s' s'') : Proceeds s s'' where
  counted hs := h'.counted (h.counted hs)
  ready hs hready := by
    rcases h.ready hs hready with hready | hcomplete
    · exact h'.ready (h.counted hs) hready
    · exact .inr (h'.complete (h.counted hs) hcomplete)
  complete hs hcomplete := h'.complete (h.counted hs) (h.complete hs hcomplete)

theorem Ready.declares {r : response} (h : Ready r) (size : ℕ) : r.declares size = some size := by
  obtain ⟨line, hline⟩ := h.line
  have hhelper : r.m_helper.header_helper.m_headers = r.m_helper.m_helper.m_headers.erase string_pool.set_cookie := by
    unfold response_helper.header_helper
    rw [if_neg (by simp [h.request])]
  unfold response.declares
  rw [hline, hhelper, OrderedMap.find_erase_ne _ _ _ (by decide), h.length, OrderedMap.find_erase_ne _ _ _ (by decide)]
  dsimp only
  cases hcoding : r.m_helper.m_helper.m_headers.find header.transfer_encoding with
  | none => rfl
  | some text => exact if_neg (h.coding text hcoding)

theorem Ready.set_status {r : response} (h : Ready r) {status : status_t} {text : Bytes}
    (htext : status_description status = .ok text) : Ready (r.set_status status) := by
  refine ⟨h.state, ?_, h.request, h.length, h.coding⟩
  obtain ⟨line, hline⟩ := h.line
  unfold response_helper.status_line at hline ⊢
  cases hversion : version_string r.m_helper.m_version with
  | error e =>
    rw [hversion] at hline
    cases hline
  | ok vs =>
    dsimp only [response.set_status]
    rw [hversion, htext]
    exact ⟨_, rfl⟩

theorem Ready.set_content_type {r : response} (h : Ready r) (value : Bytes) :
    Ready (r.set_header header.content_type value) := by
  have hfind : ∀ key, key_rank key ≠ key_rank (str_to_lower header.content_type) →
      (r.set_header header.content_type value).m_helper.m_helper.m_headers.find key =
        r.m_helper.m_helper.m_headers.find key := fun key hkey => OrderedMap.find_assign_ne _ _ _ _ hkey
  refine ⟨h.state, h.line, h.request, ?_, ?_⟩
  · rw [hfind _ (by decide)]
    exact h.length
  · intro text htext
    rw [hfind _ (by decide)] at htext
    exact h.coding text htext

/-- Neither the write of the header block nor that of the body fails. -/
def write_outcomes.Good (o : write_outcomes) : Prop := o.header.write = none ∧ o.body.write = none

section

variable (s : progress) (body : Bytes) (o : write_outcomes)

end

/-- The function returns, or throws what is caught. -/
def Continues {α : Type} (r : Except thrown α) : Prop := r ≠ .error .other ∧ r ≠ .error .null_call

theorem Continues.error {α β : Type} {t : thrown} (h : Continues (.error t : Except thrown α)) :
    Continues (.error t : Except thrown β) := by
  obtain ⟨hother, hnull⟩ := h
  exact ⟨fun heq => hother (by cases heq; rfl), fun heq => hnull (by cases heq; rfl)⟩

section

variable (srv : server υ)

def replies.Good (o : replies) : Prop := o.filter.Good ∧ o.default.Good

end

/-! ## The turns of a connection -/

end Libgs.Server
