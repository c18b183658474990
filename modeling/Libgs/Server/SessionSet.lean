import Libgs.Lib.OrderedMap
import Libgs.Server.Session

/-!
# The set of sessions

`basic_session_set` of `http/server/detail/session_set.h`. One thread runs its calls, the coroutines of its sessions and
their timeout handlers, in any order. So a call of one session is one step, and so is a section under the lock of the
map, whatever the lock itself is worth between threads.
-/

namespace Libgs.Server

open Lib

variable {id_t : Type}

/-- The statements of `make`: the session is constructed, put into the map, gets its handler and its lifecycle. -/
inductive make_pc
  | constructing
  | constructed
  | emplaced
  | bound
  | returned
  deriving DecidableEq

def make_pc.placed : make_pc → Bool
  | .constructing | .constructed => false
  | .emplaced | .bound | .returned => true

/-- `m_timeout_handle` is not empty. -/
def make_pc.handles : make_pc → Bool
  | .constructing | .constructed | .emplaced => false
  | .bound | .returned => true

/-- A session and the `make` that it comes from. `erasing` is a timeout handler that has not reached the map yet. -/
structure set_member (id_t : Type) where
  id : id_t
  session : basic_session
  make : make_pc
  erasing : Bool
  deriving DecidableEq

namespace set_member

def construct (id : id_t) (count : UInt64) : set_member id_t := ⟨id, .construct count, .constructing, false⟩

/-- No shared pointer owns the session before `make_shared` is over. -/
def enter (m : set_member id_t) : set_member id_t :=
  { m with session := m.session.enter (m.make ≠ .constructing) }

/-- The wait is over, and the coroutine goes on to the timeout handler. -/
def expires (others : Bool) (m : set_member id_t) : Bool :=
  match m.session.coroutine with
  | .waiting _ _ => others && !m.session.m_restart
  | _ => false

/-- An empty handler throws. -/
def wait_over (others : Bool) (m : set_member id_t) : set_member id_t :=
  if m.expires others then
    if m.make.handles then { m with session := m.session.wait_over others, erasing := true }
    else { m with session := { m.session with m_valid := false, coroutine := .ended } }
  else { m with session := m.session.wait_over others }

end set_member

/-- The map has the places of its sessions in the list of all that were made. -/
structure session_set (id_t : Type) [LinearOrder id_t] where
  m_session_map : OrderedMap (id : id_t → id_t) ℕ
  sessions : List (set_member id_t)

/-- What somebody who holds a session may call. -/
inductive session_call
  | expand
  | expand_by (seconds : UInt64)
  | set_lifecycle (seconds : UInt64)
  | invalidate
  deriving DecidableEq

def session_call.event : session_call → session_event
  | .expand => .expand
  | .expand_by seconds => .expand_by seconds
  | .set_lifecycle seconds => .set_lifecycle seconds
  | .invalidate => .invalidate

/-- `held` is whether a session is held outside of the map and of its `make`. -/
inductive set_event (id_t : Type)
  | make (id : id_t) (count : UInt64)
  | make_next (k : ℕ)
  | entered (k : ℕ)
  | wait_over (k : ℕ) (held : Bool)
  | erase (k : ℕ)
  | find (id : id_t)
  | call (k : ℕ) (call : session_call)
  deriving DecidableEq

namespace session_set

variable [LinearOrder id_t]

def init : session_set id_t := ⟨.empty, []⟩

def m_lifecycle : UInt64 := 60

/-- `use_count() != 1` in the coroutine of session `k` -/
def others (s : session_set id_t) (k : ℕ) (m : set_member id_t) (held : Bool) : Bool :=
  held || s.m_session_map.find m.id = some k || m.make ≠ .returned

def set (s : session_set id_t) (k : ℕ) (m : set_member id_t) : session_set id_t :=
  { s with sessions := s.sessions.set k m }

def make_next (s : session_set id_t) (k : ℕ) (m : set_member id_t) : session_set id_t :=
  match m.make with
  | .constructing => s.set k { m with make := .constructed }
  | .constructed =>
    { s.set k { m with make := .emplaced } with m_session_map := s.m_session_map.emplace m.id k }
  | .emplaced => s.set k { m with make := .bound }
  | .bound => s.set k { m with make := .returned, session := m.session.set_lifecycle m_lifecycle }
  | .returned => s

def erase (s : session_set id_t) (k : ℕ) (m : set_member id_t) : session_set id_t :=
  if m.erasing then { s.set k { m with erasing := false } with m_session_map := s.m_session_map.erase m.id } else s

/-- `get` and `get_or`; `get_or_make` is followed by `make` where nothing is found. -/
def find (s : session_set id_t) (id : id_t) : Option ℕ × session_set id_t :=
  match s.m_session_map.find id with
  | none => (none, s)
  | some k =>
    (some k, (s.sessions[k]?).elim s fun m => s.set k { m with session := m.session.expand })

/-- The turns of one thread. An event that cannot happen changes nothing. -/
def step (s : session_set id_t) : set_event id_t → session_set id_t
  | .make id count => { s with sessions := s.sessions ++ [.construct id count] }
  | .make_next k => (s.sessions[k]?).elim s (s.make_next k)
  | .entered k => (s.sessions[k]?).elim s fun m => s.set k m.enter
  | .wait_over k held => (s.sessions[k]?).elim s fun m => s.set k (m.wait_over (s.others k m held))
  | .erase k => (s.sessions[k]?).elim s (s.erase k)
  | .find id => (s.find id).2
  | .call k call => (s.sessions[k]?).elim s fun m => s.set k { m with session := m.session.step call.event }

end session_set

/-! ## What can be noticed -/

/-- A session is `asked` for when somebody wants it to live on, and `raised` when an exception ends its coroutine. -/
inductive session_notice (id_t : Type)
  | emplaced (k : ℕ)
  | armed (k : ℕ)
  | asked (k : ℕ)
  | timed_out (k : ℕ)
  | raised (k : ℕ)
  | erased (k : ℕ)
  | found (id : id_t) (result : Option ℕ)
  deriving DecidableEq

namespace session_set

variable [LinearOrder id_t]

def make_notices (k : ℕ) (m : set_member id_t) : List (session_notice id_t) :=
  match m.make with
  | .constructed => [.emplaced k]
  | .bound => [.asked k]
  | _ => []

def enter_notices (k : ℕ) (m : set_member id_t) : List (session_notice id_t) :=
  match m.session.coroutine with
  | .dispatched => if m.make ≠ .constructing then [.armed k] else [.raised k]
  | _ => []

def wait_notices (k : ℕ) (m : set_member id_t) (others : Bool) : List (session_notice id_t) :=
  match m.session.coroutine with
  | .waiting _ _ =>
    if ¬ others then []
    else if m.session.m_restart then [.armed k]
    else if m.make.handles then [.timed_out k]
    else [.timed_out k, .raised k]
  | _ => []

def notices (s : session_set id_t) : set_event id_t → List (session_notice id_t)
  | .make _ _ => []
  | .make_next k => (s.sessions[k]?).elim [] (make_notices k)
  | .entered k => (s.sessions[k]?).elim [] (enter_notices k)
  | .wait_over k held => (s.sessions[k]?).elim [] fun m => wait_notices k m (s.others k m held)
  | .erase k => (s.sessions[k]?).elim [] fun m => if m.erasing then [.erased k] else []
  | .find id => .found id (s.find id).1 :: ((s.find id).1.toList.map .asked)
  | .call k call =>
    (s.sessions[k]?).elim [] fun _ => if call = .invalidate then [] else [.asked k]

end session_set

/-! ## What a log says -/

section

variable {log : List (session_notice id_t)} {k : ℕ} {m : set_member id_t}

def session_notice.of : session_notice id_t → Option ℕ
  | .emplaced k | .armed k | .asked k | .timed_out k | .raised k | .erased k => some k
  | .found _ _ => none

/-- Since the timer was started last, somebody has asked for the session only if a restart is pending. -/
def Armed (log : List (session_notice id_t)) (k : ℕ) (restart : Bool) : Prop :=
  ∃ before after, log = before ++ .armed k :: after ∧ .armed k ∉ after ∧ (restart = false → .asked k ∉ after)

/-- What a notice says of those before it. The sessions are made under the ids in their order. -/
def Fitting (ids : List id_t) (log : List (session_notice id_t)) : session_notice id_t → Prop
  | .emplaced k => .emplaced k ∉ log
  | .timed_out k => .timed_out k ∉ log ∧ Armed log k false
  | .erased k => .timed_out k ∈ log ∧ .erased k ∉ log
  | .found id result => ∀ k, result = some k ↔ ids[k]? = some id ∧ .emplaced k ∈ log ∧ .erased k ∉ log
  | .armed _ | .asked _ | .raised _ => True

/-- Where the coroutine of session `k` is -/
inductive Timer (log : List (session_notice id_t)) (k : ℕ) (m : set_member id_t) : Prop
  | dispatched (coroutine : m.session.coroutine = .dispatched) (living : .timed_out k ∉ log)
  | waiting (seconds : UInt64) (cancelled : Bool) (coroutine : m.session.coroutine = .waiting seconds cancelled)
      (living : .timed_out k ∉ log) (armed : Armed log k m.session.m_restart)
  | ended (coroutine : m.session.coroutine = .ended)
      (why : m.erasing = true ∨ .erased k ∈ log ∨ .raised k ∈ log)

structure MemberInv (log : List (session_notice id_t)) (k : ℕ) (m : set_member id_t) : Prop where
  emplaced : .emplaced k ∈ log ↔ m.make.placed = true
  timer : Timer log k m
  called : m.erasing = true ∨ .erased k ∈ log → .timed_out k ∈ log ∧ m.make.handles = true
  once : m.erasing = true → .erased k ∉ log

theorem Armed.start (log : List (session_notice id_t)) (k : ℕ) (restart : Bool) :
    Armed (log ++ [.armed k]) k restart :=
  ⟨log, [], rfl, by simp, by simp⟩

theorem Armed.asked {restart : Bool} (h : Armed log k restart) : Armed (log ++ [.asked k]) k true := by
  obtain ⟨before, after, rfl, hlast, -⟩ := h
  exact ⟨before, after ++ [.asked k], by simp, by simpa using hlast, nofun⟩

theorem Armed.other {restart : Bool} (h : Armed log k restart) (x : session_notice id_t) (harmed : x ≠ .armed k)
    (hasked : x ≠ .asked k) : Armed (log ++ [x]) k restart := by
  obtain ⟨before, after, rfl, hlast, hnone⟩ := h
  refine ⟨before, after ++ [x], by simp, ?_, fun hrestart => ?_⟩
  · simpa using ⟨hlast, harmed.symm⟩
  · simpa using ⟨hnone hrestart, hasked.symm⟩

theorem MemberInv.other (h : MemberInv log k m) (x : session_notice id_t) (hx : x.of ≠ some k) :
    MemberInv (log ++ [x]) k m := by
  have hne : ∀ y : session_notice id_t, y.of = some k → y ≠ x := fun y hy heq => hx (heq ▸ hy)
  have hmem : ∀ y : session_notice id_t, y.of = some k → (y ∈ log ++ [x] ↔ y ∈ log) := fun y hy => by
    simp [hne y hy]
  refine ⟨?_, ?_, ?_, ?_⟩
  · rw [hmem _ rfl]
    exact h.emplaced
  · cases h.timer with
    | dispatched hco hliving => exact .dispatched hco (by rwa [hmem _ rfl])
    | waiting seconds cancelled hco hliving harmed =>
      exact .waiting seconds cancelled hco (by rwa [hmem _ rfl]) (harmed.other x (hne _ rfl).symm (hne _ rfl).symm)
    | ended hco hwhy => exact .ended hco (by rwa [hmem _ rfl, hmem _ rfl])
  · rw [hmem _ rfl, hmem _ rfl]
    exact h.called
  · rw [hmem _ rfl]
    exact h.once

theorem MemberInv.others (h : MemberInv log k m) (ns : List (session_notice id_t)) (hns : ∀ x ∈ ns, x.of ≠ some k) :
    MemberInv (log ++ ns) k m := by
  induction ns generalizing log with
  | nil => simpa using h
  | cons x ns ih =>
    obtain ⟨hx, hns⟩ := List.forall_mem_cons.mp hns
    have := ih (h.other x hx) hns
    rwa [List.append_assoc] at this

theorem MemberInv.advance (h : MemberInv log k m) (pc : make_pc) (hplaced : pc.placed = m.make.placed)
    (hhandles : m.make.handles = true → pc.handles = true) : MemberInv log k { m with make := pc } where
  emplaced := h.emplaced.trans (by rw [hplaced])
  timer := by
    cases h.timer with
    | dispatched hco hliving => exact .dispatched hco hliving
    | waiting seconds cancelled hco hliving harmed => exact .waiting seconds cancelled hco hliving harmed
    | ended hco hwhy => exact .ended hco hwhy
  called hin := ⟨(h.called hin).1, hhandles (h.called hin).2⟩
  once := h.once

theorem MemberInv.ask (h : MemberInv log k m) (session : basic_session) (hrestart : session.m_restart = true)
    (hco : session.coroutine = m.session.coroutine) :
    MemberInv (log ++ [.asked k]) k { m with session := session.cancel } := by
  refine ⟨by simpa using h.emplaced, ?_, by simpa using h.called, by simpa using h.once⟩
  cases h.timer with
  | dispatched hdispatched hliving =>
    refine .dispatched ?_ (by simpa using hliving)
    simp only [basic_session.cancel, hco, hdispatched]
  | waiting seconds cancelled hwaiting hliving harmed =>
    refine .waiting seconds true ?_ (by simpa using hliving) ?_
    · simp only [basic_session.cancel, hco, hwaiting]
    · simp only [basic_session.cancel, hco, hwaiting, hrestart]
      exact harmed.asked
  | ended hended hwhy =>
    refine .ended ?_ (by simpa using hwhy)
    simp only [basic_session.cancel, hco, hended]

theorem MemberInv.invalidate (h : MemberInv log k m) :
    MemberInv log k { m with session := m.session.invalidate } := by
  refine ⟨h.emplaced, ?_, h.called, h.once⟩
  cases h.timer with
  | dispatched hco hliving =>
    refine .dispatched ?_ hliving
    simp only [basic_session.invalidate, basic_session.cancel, hco]
  | waiting seconds cancelled hco hliving harmed =>
    refine .waiting seconds true ?_ hliving ?_
    · simp only [basic_session.invalidate, basic_session.cancel, hco]
    · simp only [basic_session.invalidate, basic_session.cancel, hco]
      exact harmed
  | ended hco hwhy =>
    refine .ended ?_ hwhy
    simp only [basic_session.invalidate, basic_session.cancel, hco]

theorem MemberInv.not_called (h : MemberInv log k m) (hliving : .timed_out k ∉ log) :
    m.erasing = false ∧ .erased k ∉ log :=
  ⟨Bool.eq_false_iff.mpr fun herasing => hliving (h.called (.inl herasing)).1,
    fun hin => hliving (h.called (.inr hin)).1⟩

theorem MemberInv.arm (h : MemberInv log k m) (hliving : .timed_out k ∉ log) :
    MemberInv (log ++ [.armed k]) k { m with session := m.session.arm } :=
  ⟨by simpa using h.emplaced, .waiting _ false rfl (by simpa using hliving) (.start _ _ _), by simpa using h.called,
    by simpa using h.once⟩

theorem MemberInv.time_out (h : MemberInv log k m) (hliving : .timed_out k ∉ log) (hhandles : m.make.handles = true)
    (session : basic_session) (hco : session.coroutine = .ended) :
    MemberInv (log ++ [.timed_out k]) k { m with session := session, erasing := true } :=
  ⟨by simpa using h.emplaced, .ended hco (.inl rfl), fun _ => ⟨by simp, hhandles⟩,
    fun _ => by simpa using (h.not_called hliving).2⟩

theorem MemberInv.stop (h : MemberInv log k m) (ns : List (session_notice id_t)) (session : basic_session)
    (hco : session.coroutine = .ended) (hns : ∀ x ∈ ns, x = .timed_out k ∨ x = .raised k)
    (hwhy : .erased k ∈ log ∨ .raised k ∈ ns) : MemberInv (log ++ ns) k { m with session := session } := by
  have hquiet : .emplaced k ∉ ns ∧ .erased k ∉ ns := by
    constructor <;> intro hin <;> rcases hns _ hin with heq | heq <;> cases heq
  refine ⟨by simpa [hquiet] using h.emplaced, .ended hco ?_, fun hin => ?_, by simpa [hquiet] using h.once⟩
  · rcases hwhy with hin | hin
    · exact .inr (.inl (List.mem_append_left _ hin))
    · exact .inr (.inr (List.mem_append_right _ hin))
  · obtain ⟨hout, hhandles⟩ := h.called (by simpa [hquiet] using hin)
    exact ⟨List.mem_append_left _ hout, hhandles⟩

theorem MemberInv.erase (h : MemberInv log k m) (herasing : m.erasing = true) :
    MemberInv (log ++ [.erased k]) k { m with erasing := false } := by
  have hout := (h.called (.inl herasing)).1
  refine ⟨by simpa using h.emplaced, ?_, fun _ => ?_, nofun⟩
  · cases h.timer with
    | dispatched hco hliving => exact absurd hout hliving
    | waiting seconds cancelled hco hliving harmed => exact absurd hout hliving
    | ended hco hwhy => exact .ended hco (.inr (.inl (by simp)))
  · exact ⟨List.mem_append_left _ hout, (h.called (.inl herasing)).2⟩

end

/-! ## One step -/

section

variable [LinearOrder id_t]

structure SetInv (ids : List id_t) (p : session_set id_t × List (session_notice id_t)) : Prop where
  made : p.1.sessions.map (·.id) <+: ids
  member : ∀ k m, p.1.sessions[k]? = some m → MemberInv p.2 k m
  mapped : ∀ id k, p.1.m_session_map.find id = some k ↔ ids[k]? = some id ∧ .emplaced k ∈ p.2 ∧ .erased k ∉ p.2
  known : ∀ x ∈ p.2, ∀ k, x.of = some k → k < p.1.sessions.length
  fitting : EachAfter (Fitting ids) p.2

variable {ids : List id_t} {s : session_set id_t} {log : List (session_notice id_t)} {k : ℕ} {m : set_member id_t}

theorem SetInv.id_of (h : SetInv ids (s, log)) (hm : s.sessions[k]? = some m) : ids[k]? = some m.id := by
  obtain ⟨more, hmore⟩ := h.made
  have hk := (List.getElem?_eq_some_iff.mp hm).1
  have hold : (s.sessions.map (·.id))[k]? = some m.id := by simp [hm]
  rw [← hmore, List.getElem?_append_left (by simpa using hk)]
  exact hold

omit [LinearOrder id_t] in
theorem set_ids {sessions : List (set_member id_t)} (hm : sessions[k]? = some m) {m' : set_member id_t}
    (hid : m'.id = m.id) : (sessions.set k m').map (·.id) = sessions.map (·.id) := by
  have hself : (sessions.map (·.id))[k]? = some m.id := by simp [hm]
  obtain ⟨hlt, hget⟩ := List.getElem?_eq_some_iff.mp hself
  rw [List.map_set, hid, ← hget, List.set_getElem_self]

theorem SetInv.change (h : SetInv ids (s, log)) (hm : s.sessions[k]? = some m) {m' : set_member id_t}
    (map' : OrderedMap (id : id_t → id_t) ℕ) (ns : List (session_notice id_t)) (hns : ∀ x ∈ ns, x.of = some k)
    (hmember : MemberInv (log ++ ns) k m')
    (hmap : ∀ id j, map'.find id = some j ↔ ids[j]? = some id ∧ .emplaced j ∈ log ++ ns ∧ .erased j ∉ log ++ ns)
    (hfit : EachAfter (Fitting ids) (log ++ ns)) (hid : m'.id = m.id) :
    SetInv ids (⟨map', s.sessions.set k m'⟩, log ++ ns) := by
  have hk := (List.getElem?_eq_some_iff.mp hm).1
  refine ⟨?_, fun j n hn => ?_, hmap, fun x hx j hj => ?_, hfit⟩
  · show (s.sessions.set k m').map (·.id) <+: ids
    rw [set_ids hm hid]
    exact h.made
  · by_cases hj : k = j
    · subst hj
      rw [show (session_set.mk map' (s.sessions.set k m')).sessions[k]? = some m' by simp [hk]] at hn
      rwa [← Option.some.inj hn]
    · have hold : s.sessions[j]? = some n := by
        rwa [show (session_set.mk map' (s.sessions.set k m')).sessions[j]? = s.sessions[j]? by simp [hj]] at hn
      refine (h.member j n hold).others ns fun x hx heq => hj ?_
      rw [hns x hx] at heq
      exact Option.some.inj heq
  · show j < (s.sessions.set k m').length
    rw [List.length_set]
    rcases List.mem_append.mp hx with hx | hx
    · exact h.known x hx j hj
    · rw [hns x hx] at hj
      obtain rfl := Option.some.inj hj
      exact hk

theorem SetInv.change_session (h : SetInv ids (s, log)) (hm : s.sessions[k]? = some m) {m' : set_member id_t}
    (ns : List (session_notice id_t)) (hns : ∀ x ∈ ns, x.of = some k)
    (hquiet : ∀ j, .emplaced j ∉ ns ∧ .erased j ∉ ns) (hmember : MemberInv (log ++ ns) k m')
    (hfit : EachAfter (Fitting ids) (log ++ ns)) (hid : m'.id = m.id) : SetInv ids (s.set k m', log ++ ns) := by
  refine h.change hm s.m_session_map ns hns hmember (fun id j => ?_) hfit hid
  rw [h.mapped]
  simp [hquiet j]

/-! ## The statements of `make` -/

theorem inv_make (h : SetInv ids (s, log)) (id : id_t) (count : UInt64)
    (hid : s.sessions.map (·.id) ++ [id] <+: ids) :
    SetInv ids ({ s with sessions := s.sessions ++ [.construct id count] }, log) := by
  have hunknown : ∀ x ∈ log, x.of ≠ some s.sessions.length := fun x hx heq =>
    absurd (h.known x hx _ heq) (lt_irrefl _)
  refine ⟨by simpa [set_member.construct] using hid, fun k m hm => ?_, h.mapped, fun x hx k hk => ?_, h.fitting⟩
  · rcases lt_trichotomy k s.sessions.length with hk | rfl | hk
    · refine h.member k m ?_
      rwa [List.getElem?_append_left hk] at hm
    · obtain rfl : set_member.construct id count = m := by simpa using hm
      refine ⟨?_, .dispatched rfl fun hin => hunknown _ hin rfl, ?_, nofun⟩
      · exact ⟨fun hin => absurd rfl (hunknown _ hin), nofun⟩
      · rintro (herasing | hin)
        · cases herasing
        · exact absurd rfl (hunknown _ hin)
    · have hnone : (s.sessions ++ [set_member.construct id count])[k]? = none := by
        rw [List.getElem?_eq_none_iff, List.length_append, List.length_singleton]
        omega
      exact absurd (hnone.symm.trans hm) nofun
  · have hk' : k < s.sessions.length := h.known x hx k hk
    show k < (s.sessions ++ [_]).length
    rw [List.length_append]
    omega


omit [LinearOrder id_t] in
theorem place_unique {j : ℕ} {id : id_t} (hids : ids.Nodup) (hj : ids[j]? = some id) (hk : ids[k]? = some id) : j = k :=
  (List.getElem?_inj (List.getElem?_eq_some_iff.mp hj).1 hids).mp (hj.trans hk.symm)

theorem SetInv.find_none (h : SetInv ids (s, log)) (hids : ids.Nodup) (hm : s.sessions[k]? = some m)
    (hpc : m.make = .constructed) : s.m_session_map.find m.id = none := by
  have hnot : .emplaced k ∉ log := fun hin => by
    have := (h.member k m hm).emplaced.mp hin
    simp [hpc, make_pc.placed] at this
  cases hfind : s.m_session_map.find m.id with
  | none => rfl
  | some j =>
    obtain ⟨hj, hplaced, -⟩ := (h.mapped _ _).mp hfind
    obtain rfl := place_unique hids hj (h.id_of hm)
    exact absurd hplaced hnot

theorem inv_make_next (h : SetInv ids (s, log)) (hids : ids.Nodup) (hm : s.sessions[k]? = some m) :
    SetInv ids (s.make_next k m, log ++ session_set.make_notices k m) := by
  have hmember := h.member k m hm
  unfold session_set.make_next session_set.make_notices
  cases hpc : m.make with
  | constructing =>
    have hnext := hmember.advance .constructed (by rw [hpc]; rfl) (by simp [hpc, make_pc.handles])
    exact h.change_session hm [] (by simp) (by simp) (by simpa using hnext) (by simpa using h.fitting) rfl
  | constructed =>
    have hnot : .emplaced k ∉ log := fun hin => by
      have := hmember.emplaced.mp hin
      simp [hpc, make_pc.placed] at this
    have hnever : .erased k ∉ log := fun hin => by
      have := (hmember.called (.inr hin)).2
      simp [hpc, make_pc.handles] at this
    refine h.change hm _ [.emplaced k] (by simp [session_notice.of]) ?_ ?_ (h.fitting.concat hnot) rfl
    · refine ⟨by simp [make_pc.placed], ?_, fun hin => ?_, by simpa using hmember.once⟩
      · cases hmember.timer with
        | dispatched hco hliving => exact .dispatched hco (by simpa using hliving)
        | waiting seconds cancelled hco hliving harmed =>
          exact .waiting seconds cancelled hco (by simpa using hliving) (harmed.other _ nofun nofun)
        | ended hco hwhy => exact .ended hco (by simpa using hwhy)
      · have := (hmember.called (by simpa using hin)).2
        simp [hpc, make_pc.handles] at this
    · intro id j
      have hid := h.id_of hm
      have hnone := h.find_none hids hm hpc
      rw [OrderedMap.emplace, OrderedMap.find_alter Function.injective_id, hnone, Option.getD_none,
        Function.update_apply]
      by_cases hsame : id = m.id
      · subst hsame
        rw [if_pos rfl]
        constructor
        · rintro heq
          obtain rfl := Option.some.inj heq
          exact ⟨hid, by simp, by simpa using hnever⟩
        · rintro ⟨hj, -, -⟩
          rw [place_unique hids hj hid]
      · have hother : ids[j]? = some id → j ≠ k := by
          rintro hj rfl
          exact hsame (Option.some.inj (hj.symm.trans hid))
        rw [if_neg hsame, h.mapped]
        refine and_congr_right fun hj => ?_
        simp [hother hj]
  | emplaced =>
    have hnext := hmember.advance .bound (by rw [hpc]; rfl) (by simp [hpc, make_pc.handles])
    exact h.change_session hm [] (by simp) (by simp) (by simpa using hnext) (by simpa using h.fitting) rfl
  | bound =>
    have hnext := (hmember.advance .returned (by rw [hpc]; rfl) (fun _ => rfl)).ask
      { m.session with m_second := session_set.m_lifecycle, m_restart := true } rfl rfl
    exact h.change_session hm [.asked k] (by simp [session_notice.of]) (by simp) hnext (h.fitting.concat trivial) rfl
  | returned => simpa using h

/-! ## The coroutine, the handler and the calls -/

theorem inv_enter (h : SetInv ids (s, log)) (hm : s.sessions[k]? = some m) :
    SetInv ids (s.set k m.enter, log ++ session_set.enter_notices k m) := by
  have hmember := h.member k m hm
  have hstays : m.session.coroutine ≠ .dispatched → m.enter = m := by
    intro hco
    unfold set_member.enter basic_session.enter
    cases hc : m.session.coroutine with
    | dispatched => exact absurd hc hco
    | waiting seconds cancelled => rfl
    | ended => rfl
  have hidle : m.session.coroutine ≠ .dispatched → SetInv ids (s.set k m.enter, log ++ []) := by
    intro hco
    rw [hstays hco]
    exact h.change_session hm [] (by simp) (by simp) (by simpa using hmember) (by simpa using h.fitting) rfl
  unfold session_set.enter_notices
  cases hmember.timer with
  | dispatched hco hliving =>
    simp only [hco]
    by_cases hpc : m.make = .constructing
    · have hend : m.enter = { m with session := { m.session with coroutine := .ended } } := by
        simp [set_member.enter, basic_session.enter, hco, hpc]
      rw [if_neg (not_not.mpr hpc), hend]
      exact h.change_session hm [.raised k] (by simp [session_notice.of]) (by simp)
        (hmember.stop [.raised k] { m.session with coroutine := .ended } rfl (by simp) (.inr (by simp)))
        (h.fitting.concat trivial) rfl
    · have harm : m.enter = { m with session := m.session.arm } := by
        simp [set_member.enter, basic_session.enter, hco, hpc]
      rw [if_pos hpc, harm]
      exact h.change_session hm [.armed k] (by simp [session_notice.of]) (by simp) (hmember.arm hliving)
        (h.fitting.concat trivial) rfl
  | waiting seconds cancelled hco hliving harmed =>
    simp only [hco]
    exact hidle (by simp [hco])
  | ended hco hwhy =>
    simp only [hco]
    exact hidle (by simp [hco])

theorem SetInv.alone (h : SetInv ids (s, log)) (hm : s.sessions[k]? = some m) (held : Bool)
    (halone : s.others k m held = false) : .erased k ∈ log := by
  simp only [session_set.others, Bool.or_eq_false_iff, decide_eq_false_iff_not, not_not] at halone
  obtain ⟨⟨-, hout⟩, hpc⟩ := halone
  by_contra hnever
  refine hout ((h.mapped _ _).mpr ⟨h.id_of hm, (h.member k m hm).emplaced.mpr ?_, hnever⟩)
  rw [hpc]
  rfl

theorem inv_wait_over (h : SetInv ids (s, log)) (hm : s.sessions[k]? = some m) (held : Bool) :
    SetInv ids (s.set k (m.wait_over (s.others k m held)),
      log ++ session_set.wait_notices k m (s.others k m held)) := by
  have hmember := h.member k m hm
  have hidle : (∀ seconds cancelled, m.session.coroutine ≠ .waiting seconds cancelled) →
      SetInv ids (s.set k (m.wait_over (s.others k m held)), log ++ []) := by
    intro hco
    have hstays : m.wait_over (s.others k m held) = m := by
      unfold set_member.wait_over set_member.expires basic_session.wait_over
      cases hc : m.session.coroutine with
      | waiting seconds cancelled => exact absurd hc (hco seconds cancelled)
      | dispatched => rfl
      | ended => rfl
    rw [hstays]
    exact h.change_session hm [] (by simp) (by simp) (by simpa using hmember) (by simpa using h.fitting) rfl
  unfold session_set.wait_notices
  cases hmember.timer with
  | dispatched hco hliving =>
    simp only [hco]
    exact hidle (by simp [hco])
  | ended hco hwhy =>
    simp only [hco]
    exact hidle (by simp [hco])
  | waiting seconds cancelled hco hliving harmed =>
    simp only [hco]
    cases hothers : s.others k m held with
    | false =>
      have hend : m.wait_over false = { m with session := { m.session with coroutine := .ended } } := by
        simp [set_member.wait_over, set_member.expires, basic_session.wait_over, hco]
      rw [hend]
      exact h.change_session hm [] (by simp) (by simp)
        (hmember.stop [] { m.session with coroutine := .ended } rfl (by simp) (.inl (h.alone hm held hothers)))
        (by simpa using h.fitting) rfl
    | true =>
      cases hrestart : m.session.m_restart with
      | true =>
        have harm : m.wait_over true = { m with session := m.session.arm } := by
          simp [set_member.wait_over, set_member.expires, basic_session.wait_over, hco, hrestart]
        rw [harm]
        exact h.change_session hm [.armed k] (by simp [session_notice.of]) (by simp) (hmember.arm hliving)
          (h.fitting.concat trivial) rfl
      | false =>
        rw [hrestart] at harmed
        have hfit : EachAfter (Fitting ids) (log ++ [.timed_out k]) := h.fitting.concat ⟨hliving, harmed⟩
        cases hhandles : m.make.handles with
        | true =>
          have hout : m.wait_over true = { m with session := m.session.wait_over true, erasing := true } := by
            simp [set_member.wait_over, set_member.expires, hco, hrestart, hhandles]
          rw [hout]
          refine h.change_session hm [.timed_out k] (by simp [session_notice.of]) (by simp)
            (hmember.time_out hliving hhandles _ ?_) hfit rfl
          simp [basic_session.wait_over, hco, hrestart]
        | false =>
          have hout : m.wait_over true =
              { m with session := { m.session with m_valid := false, coroutine := .ended } } := by
            simp [set_member.wait_over, set_member.expires, hco, hrestart, hhandles]
          rw [hout]
          have hraised : EachAfter (Fitting ids) (log ++ [.timed_out k] ++ [.raised k]) := hfit.concat trivial
          rw [List.append_assoc] at hraised
          exact h.change_session hm [.timed_out k, .raised k] (by simp [session_notice.of]) (by simp)
            (hmember.stop [.timed_out k, .raised k] { m.session with m_valid := false, coroutine := .ended } rfl
              (by simp) (.inr (by simp))) hraised rfl

theorem inv_erase (h : SetInv ids (s, log)) (hids : ids.Nodup) (hm : s.sessions[k]? = some m) :
    SetInv ids (s.erase k m, log ++ if m.erasing then [.erased k] else []) := by
  have hmember := h.member k m hm
  unfold session_set.erase
  cases herasing : m.erasing with
  | false => simpa using h
  | true =>
    have hid := h.id_of hm
    have hfit : EachAfter (Fitting ids) (log ++ [.erased k]) :=
      h.fitting.concat ⟨(hmember.called (.inl herasing)).1, hmember.once herasing⟩
    refine h.change hm _ [.erased k] (by simp [session_notice.of]) (hmember.erase herasing) (fun id j => ?_) hfit rfl
    by_cases hsame : id = m.id
    · subst hsame
      rw [OrderedMap.find_erase_self]
      constructor
      · nofun
      · rintro ⟨hj, -, hnever⟩
        obtain rfl := place_unique hids hj hid
        exact absurd (by simp) hnever
    · have hother : ids[j]? = some id → j ≠ k := by
        rintro hj rfl
        exact hsame (Option.some.inj (hj.symm.trans hid))
      rw [OrderedMap.find_erase_ne _ _ _ hsame, h.mapped]
      refine and_congr_right fun hj => ?_
      simp [hother hj]

theorem inv_ask (h : SetInv ids (s, log)) (hm : s.sessions[k]? = some m) (session : basic_session)
    (hrestart : session.m_restart = true) (hco : session.coroutine = m.session.coroutine) :
    SetInv ids (s.set k { m with session := session.cancel }, log ++ [.asked k]) :=
  h.change_session hm [.asked k] (by simp [session_notice.of]) (by simp)
    ((h.member k m hm).ask session hrestart hco) (h.fitting.concat trivial) rfl

theorem inv_call (h : SetInv ids (s, log)) (hm : s.sessions[k]? = some m) (call : session_call) :
    SetInv ids (s.set k { m with session := m.session.step call.event },
      log ++ if call = .invalidate then [] else [.asked k]) := by
  cases call with
  | expand => exact inv_ask h hm _ rfl rfl
  | expand_by seconds => exact inv_ask h hm _ rfl rfl
  | set_lifecycle seconds => exact inv_ask h hm _ rfl rfl
  | invalidate =>
    have hcancelled := (h.member k m hm).invalidate
    rw [← List.append_nil log] at hcancelled
    exact h.change_session hm [] (by simp) (by simp) hcancelled (by simpa using h.fitting) rfl

theorem inv_find (h : SetInv ids (s, log)) (id : id_t) :
    SetInv ids ((s.find id).2, log ++ .found id (s.find id).1 :: ((s.find id).1.toList.map .asked)) := by
  have hfound : SetInv ids (s, log ++ [.found id (s.m_session_map.find id)]) := by
    refine ⟨h.made, fun k m hm => (h.member k m hm).other _ nofun, fun id' k => ?_, fun x hx k hk => ?_,
      h.fitting.concat fun k => h.mapped id k⟩
    · rw [h.mapped]
      simp
    · rcases List.mem_append.mp hx with hx | hx
      · exact h.known x hx k hk
      · rw [List.mem_singleton.mp hx] at hk
        cases hk
  unfold session_set.find
  cases hfind : s.m_session_map.find id with
  | none =>
    rw [hfind] at hfound
    exact hfound
  | some k =>
    rw [hfind] at hfound
    have hk : k < s.sessions.length := h.known _ ((h.mapped id k).mp hfind).2.1 k rfl
    have hm : s.sessions[k]? = some s.sessions[k] := List.getElem?_eq_getElem hk
    have := inv_ask hfound hm { s.sessions[k].session with m_restart := true } rfl rfl
    rw [List.append_assoc] at this
    dsimp only
    rw [hm]
    exact this

/-! ## Every run -/

/-- The sessions are made under the ids that the list has. -/
def MadeUnder (ids : List id_t) (p : session_set id_t × List (session_notice id_t)) (event : set_event id_t) : Prop :=
  ∀ id count, event = .make id count → p.1.sessions.map (·.id) ++ [id] <+: ids

theorem inv_set_step (hids : ids.Nodup) (p : session_set id_t × List (session_notice id_t)) (event : set_event id_t)
    (h : SetInv ids p) (hmade : MadeUnder ids p event) :
    SetInv ids (logged session_set.step session_set.notices p event) := by
  obtain ⟨s, log⟩ := p
  have hnothing : SetInv ids (s, log ++ []) := by
    rw [List.append_nil]
    exact h
  unfold logged session_set.step session_set.notices
  cases event with
  | make id count =>
    have hnew := inv_make h id count (hmade id count rfl)
    rw [← List.append_nil log] at hnew
    exact hnew
  | find id => exact inv_find h id
  | make_next k =>
    cases hm : s.sessions[k]? with
    | none => simpa [hm] using hnothing
    | some m => simpa only [hm, Option.elim_some] using inv_make_next h hids hm
  | entered k =>
    cases hm : s.sessions[k]? with
    | none => simpa [hm] using hnothing
    | some m => simpa only [hm, Option.elim_some] using inv_enter h hm
  | wait_over k held =>
    cases hm : s.sessions[k]? with
    | none => simpa [hm] using hnothing
    | some m => simpa only [hm, Option.elim_some] using inv_wait_over h hm held
  | erase k =>
    cases hm : s.sessions[k]? with
    | none => simpa [hm] using hnothing
    | some m => simpa only [hm, Option.elim_some] using inv_erase h hids hm
  | call k call =>
    cases hm : s.sessions[k]? with
    | none => simpa [hm] using hnothing
    | some m => simpa only [hm, Option.elim_some] using inv_call h hm call

/-- The ids of the sessions that are made -/
def new_ids (events : List (set_event id_t)) : List id_t :=
  events.filterMap fun
    | .make id _ => some id
    | _ => none

theorem step_ids (s : session_set id_t) (event : set_event id_t) :
    (s.step event).sessions.map (·.id) = s.sessions.map (·.id) ++ new_ids [event] := by
  have hone : ∀ (k : ℕ) (f : set_member id_t → session_set id_t),
      (∀ m, s.sessions[k]? = some m → (f m).sessions.map (·.id) = s.sessions.map (·.id)) →
        ((s.sessions[k]?).elim s f).sessions.map (·.id) = s.sessions.map (·.id) ++ [] := by
    intro k f hf
    rw [List.append_nil]
    cases hm : s.sessions[k]? with
    | none => rfl
    | some m => exact hf m hm
  unfold session_set.step
  cases event with
  | make id count => simp [new_ids, set_member.construct]
  | make_next k =>
    refine hone k _ fun m hm => ?_
    unfold session_set.make_next
    cases m.make with
    | constructing => exact set_ids hm rfl
    | constructed => exact set_ids hm rfl
    | emplaced => exact set_ids hm rfl
    | bound => exact set_ids hm rfl
    | returned => rfl
  | entered k => exact hone k _ fun m hm => set_ids hm rfl
  | wait_over k held =>
    refine hone k _ fun m hm => set_ids hm ?_
    unfold set_member.wait_over
    split
    · split <;> rfl
    · rfl
  | erase k =>
    refine hone k _ fun m hm => ?_
    unfold session_set.erase
    split
    · exact set_ids hm rfl
    · rfl
  | find id =>
    show (s.find id).2.sessions.map (·.id) = _
    unfold session_set.find
    split
    · exact (List.append_nil _).symm
    · exact hone _ _ fun m hm => set_ids hm rfl
  | call k call => exact hone k _ fun m hm => set_ids hm rfl

theorem run_ids (s : session_set id_t) (log : List (session_notice id_t)) (events : List (set_event id_t)) :
    (run (logged session_set.step session_set.notices) (s, log) events).1.sessions.map (·.id) =
      s.sessions.map (·.id) ++ new_ids events := by
  induction events generalizing s log with
  | nil => simp [new_ids]
  | cons event events ih =>
    rw [run_cons]
    show (run _ (s.step event, log ++ s.notices event) events).1.sessions.map (·.id) = _
    rw [ih, step_ids, List.append_assoc]
    congr 1
    exact (List.filterMap_append (l := [event])).symm

/-- **Sessions live as long as they are asked for.** Whatever the calls of the set, the coroutines of its sessions and
their handlers do on one thread, and in whichever order, as long as no id is given twice: every lookup finds the session
that was made under the id, from its emplacement until its handler has erased it; a session times out at most once, and
only if nobody has asked for it since its timer was started last; it is erased once, after it timed out; and a session
stays in the map without a timer only on the way to its erasure, or where an exception ended its coroutine. -/
theorem sessions_found_while_asked (events : List (set_event id_t)) (hids : (new_ids events).Nodup) :
    let p := run (logged session_set.step session_set.notices) (.init, []) events
    EachAfter (Fitting (new_ids events)) p.2 ∧
      (∀ id k, p.1.m_session_map.find id = some k ↔
        (new_ids events)[k]? = some id ∧ .emplaced k ∈ p.2 ∧ .erased k ∉ p.2) ∧
      ∀ id k m, p.1.m_session_map.find id = some k → p.1.sessions[k]? = some m → m.session.coroutine = .ended →
        m.erasing = true ∨ .raised k ∈ p.2 := by
  have hinit : SetInv (new_ids events) (session_set.init, []) := by
    refine ⟨List.nil_prefix, nofun, fun id k => ⟨nofun, ?_⟩, nofun, eachAfter_nil _⟩
    rintro ⟨-, hin, -⟩
    cases hin
  have hguard : Guarded (logged session_set.step session_set.notices) (MadeUnder (new_ids events))
      (session_set.init, []) events := by
    intro done event more hsplit id count hevent
    rw [run_ids, hsplit, hevent]
    exact ⟨new_ids more, by simp [session_set.init, new_ids]⟩
  have hinv := (throughout_of_inv (inv_set_step hids) _ events hinit hguard).last
  refine ⟨hinv.fitting, hinv.mapped, fun id k m hfind hm hended => ?_⟩
  have hnever := ((hinv.mapped id k).mp hfind).2.2
  cases (hinv.member k m hm).timer with
  | dispatched hco => simp [hco] at hended
  | waiting seconds cancelled hco => simp [hco] at hended
  | ended hco hwhy =>
    rcases hwhy with herasing | hin | hraised
    · exact .inl herasing
    · exact absurd hin hnever
    · exact .inr hraised

end

/-- A session that is made, looked up once, and then left alone -/
def oneSession : List (set_event ℕ) :=
  [.make 7 30, .make_next 0, .make_next 0, .make_next 0, .make_next 0, .entered 0, .find 7, .wait_over 0 false,
    .wait_over 0 false, .erase 0, .find 7]

theorem sessions_found_while_asked_one :
    let p := run (logged session_set.step session_set.notices) (.init, []) oneSession
    p.2 = [.emplaced 0, .asked 0, .armed 0, .found 7 (some 0), .asked 0, .armed 0, .timed_out 0, .erased 0,
        .found 7 none] ∧
      EachAfter (Fitting (new_ids oneSession)) p.2 ∧
        (∀ id k, p.1.m_session_map.find id = some k ↔
          (new_ids oneSession)[k]? = some id ∧ .emplaced k ∈ p.2 ∧ .erased k ∉ p.2) ∧
        ∀ id k m, p.1.m_session_map.find id = some k → p.1.sessions[k]? = some m → m.session.coroutine = .ended →
          m.erasing = true ∨ .raised k ∈ p.2 :=
  ⟨by decide, sessions_found_while_asked oneSession (by decide)⟩

end Libgs.Server
