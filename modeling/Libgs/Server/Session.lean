import Libgs.Lib.Run

/-!
# Sessions and their timer

`basic_session<char>` of `http/server/detail/session.h`, with a timeout handler bound. The constructor
dispatches the coroutine that waits for the timer; every other call of `start` cancels the wait.
-/

namespace Libgs.Server

open Lib

/-- Where the coroutine is. A wait knows for how many seconds it was armed, and whether it is cancelled. -/
inductive session_loop
  | dispatched
  | waiting (seconds : UInt64) (cancelled : Bool)
  | ended
  deriving DecidableEq

/-- `handled` counts the calls of `m_timeout_handle`. -/
structure basic_session where
  m_second : UInt64
  m_valid : Bool
  m_restart : Bool
  coroutine : session_loop
  handled : ℕ
  deriving DecidableEq

namespace basic_session

def is_valid (s : basic_session) : Bool := s.m_valid

def cancel (s : basic_session) : basic_session :=
  match s.coroutine with
  | .waiting seconds _ => { s with coroutine := .waiting seconds true }
  | _ => s

def start (s : basic_session) : basic_session :=
  if s.m_restart then s.cancel
  else if s.m_valid then s
  else { s with coroutine := .dispatched }

/-- The constructor does not cast its duration. -/
def construct (count : UInt64) : basic_session :=
  start { m_second := count, m_valid := false, m_restart := false, coroutine := .ended, handled := 0 }

def invalidate (s : basic_session) : basic_session := { s with m_valid := false }.cancel

def set_lifecycle (seconds : UInt64) (s : basic_session) : basic_session :=
  let m_second := if seconds = 0 then 1 else seconds
  { s with m_second := m_second, m_restart := true }.start

def expand (s : basic_session) : basic_session := { s with m_restart := true }.start

def expand_by (seconds : UInt64) (s : basic_session) : basic_session :=
  { s with m_second := s.m_second + seconds }.expand

def arm (s : basic_session) : basic_session := { s with m_restart := false, coroutine := .waiting s.m_second false }

/-- The coroutine begins. `shared_from_this` throws when no shared pointer owns the session yet, as in its
constructor. -/
def enter (owned : Bool) (s : basic_session) : basic_session :=
  match s.coroutine with
  | .dispatched => if owned then s.arm else { s with coroutine := .ended }
  | _ => s

/-- The wait is over, expired or cancelled, and the coroutine goes on. `others` is `use_count() != 1`. -/
def wait_over (others : Bool) (s : basic_session) : basic_session :=
  match s.coroutine with
  | .waiting _ _ =>
    if ¬ others then { s with coroutine := .ended }
    else if s.m_restart then s.arm
    else { s with m_valid := false, handled := s.handled + 1, coroutine := .ended }
  | _ => s

end basic_session

inductive session_event
  | entered (owned : Bool)
  | wait_over (others : Bool)
  | expand
  | expand_by (seconds : UInt64)
  | set_lifecycle (seconds : UInt64)
  | invalidate
  deriving DecidableEq

/-- An event that cannot happen leaves the session as it is. -/
def basic_session.step (s : basic_session) : session_event → basic_session
  | .entered owned => s.enter owned
  | .wait_over others => s.wait_over others
  | .expand => s.expand
  | .expand_by seconds => s.expand_by seconds
  | .set_lifecycle seconds => s.set_lifecycle seconds
  | .invalidate => s.invalidate

/-! ## What a session is meant to be -/

inductive life_phase
  | unborn
  | alive
  | dead
  deriving DecidableEq

/-- A session lives from the start of its timer on. A restart that was asked for is pending until the timer
is started. -/
structure life where
  phase : life_phase
  pending : Bool
  handled : ℕ
  deriving DecidableEq

namespace life

def born : life := ⟨.unborn, false, 0⟩

def die (l : life) : life := { l with phase := .dead, handled := l.handled + 1 }

def step (l : life) : session_event → life
  | .entered owned =>
    if l.phase = .unborn then
      if owned then { l with phase := .alive, pending := false } else { l with phase := .dead }
    else l
  | .wait_over _ =>
    if l.phase = .alive then
      if l.pending then { l with pending := false } else l.die
    else l
  | .expand | .expand_by _ | .set_lifecycle _ => { l with pending := true }
  | .invalidate => if l.phase = .alive then l.die else l

end life

def lived (p : basic_session × life) (event : session_event) : basic_session × life :=
  (p.1.step event, p.2.step event)

/-- The session is valid exactly as long as it is alive, and the handler has run as often as it has died. -/
def Tracks (p : basic_session × life) : Prop :=
  (p.1.is_valid = true ↔ p.2.phase = .alive) ∧ p.1.handled = p.2.handled

instance (p : basic_session × life) : Decidable (Tracks p) := inferInstanceAs (Decidable (_ ∧ _))

/-- The step in which the timer is started for the first time. -/
def StartsTimer (p : basic_session × life) (event : session_event) : Prop :=
  p.1.coroutine = .dispatched ∧ event = .entered true

/-! ## No session is ever valid -/

namespace basic_session

@[simp] theorem cancel_valid (s : basic_session) : s.cancel.m_valid = s.m_valid := by
  unfold cancel
  split <;> rfl

@[simp] theorem cancel_handled (s : basic_session) : s.cancel.handled = s.handled := by
  unfold cancel
  split <;> rfl

theorem enter_valid (owned : Bool) (s : basic_session) : (s.enter owned).m_valid = s.m_valid := by
  unfold enter
  split
  · split <;> rfl
  · rfl

theorem wait_over_valid (others : Bool) (s : basic_session) (h : s.m_valid = false) :
    (s.wait_over others).m_valid = false := by
  unfold wait_over
  split
  · split
    · exact h
    · split
      · exact h
      · rfl
  · exact h

theorem step_valid (s : basic_session) (event : session_event) (h : s.m_valid = false) :
    (s.step event).m_valid = false := by
  cases event with
  | entered owned => exact (enter_valid owned s).trans h
  | wait_over others => exact wait_over_valid others s h
  | expand => exact (cancel_valid _).trans h
  | expand_by seconds => exact (cancel_valid _).trans h
  | set_lifecycle seconds => exact (cancel_valid _).trans h
  | invalidate => exact cancel_valid _

theorem never_valid (count : UInt64) (events : List session_event) :
    Throughout step (fun s => s.is_valid = false) (construct count) events :=
  throughout_of_step (fun s event h => step_valid s event h) _ events rfl

end basic_session

/-! ## Up to the start of the timer -/

/-- The coroutine has not begun, or it could not; there is no wait that can be over. -/
inductive Unstarted (p : basic_session × life) : Prop
  | dispatched (coroutine : p.1.coroutine = .dispatched) (phase : p.2.phase = .unborn)
  | ended (coroutine : p.1.coroutine = .ended) (phase : p.2.phase = .dead)

structure Untouched (p : basic_session × life) : Prop where
  valid : p.1.m_valid = false
  handled : p.1.handled = 0
  died : p.2.handled = 0
  unstarted : Unstarted p

theorem Untouched.tracks {p : basic_session × life} (h : Untouched p) : Tracks p := by
  refine ⟨?_, h.handled.trans h.died.symm⟩
  rcases h.unstarted with ⟨-, hphase⟩ | ⟨-, hphase⟩ <;> simp [basic_session.is_valid, h.valid, hphase]

theorem Untouched.call {p q : basic_session × life} (h : Untouched p) (hvalid : q.1.m_valid = false)
    (hsession : q.1.coroutine = p.1.coroutine ∧ q.1.handled = p.1.handled)
    (hlife : q.2.phase = p.2.phase ∧ q.2.handled = p.2.handled) : Untouched q where
  valid := hvalid
  handled := hsession.2.trans h.handled
  died := hlife.2.trans h.died
  unstarted := by
    rcases h.unstarted with ⟨hco, hphase⟩ | ⟨hco, hphase⟩
    · exact .dispatched (hsession.1.trans hco) (hlife.1.trans hphase)
    · exact .ended (hsession.1.trans hco) (hlife.1.trans hphase)

theorem Unstarted.cancel {p : basic_session × life} (h : Unstarted p) (s : basic_session)
    (hs : s.coroutine = p.1.coroutine) : s.cancel.coroutine = p.1.coroutine := by
  rw [← hs]
  unfold basic_session.cancel
  rcases h with ⟨hco, -⟩ | ⟨hco, -⟩ <;> simp only [hs, hco]

theorem Unstarted.not_alive {p : basic_session × life} (h : Unstarted p) : p.2.phase ≠ .alive := by
  rcases h with ⟨-, hphase⟩ | ⟨-, hphase⟩ <;> simp [hphase]

theorem untouched_step (p : basic_session × life) (event : session_event) (h : Untouched p)
    (hno : ¬ StartsTimer p event) : Untouched (lived p event) := by
  have hvalid := basic_session.step_valid p.1 event h.valid
  cases event with
  | entered owned =>
    rcases h.unstarted with ⟨hco, hphase⟩ | ⟨hco, hphase⟩
    · cases owned with
      | true => exact absurd ⟨hco, rfl⟩ hno
      | false =>
        refine ⟨hvalid, ?_, ?_, .ended ?_ ?_⟩
        · simp [lived, basic_session.step, basic_session.enter, hco, h.handled]
        · simp [lived, life.step, hphase, h.died]
        · simp [lived, basic_session.step, basic_session.enter, hco]
        · simp [lived, life.step, hphase]
    · refine h.call hvalid ?_ ?_
      · simp [lived, basic_session.step, basic_session.enter, hco]
      · simp [lived, life.step, hphase]
  | wait_over others =>
    refine h.call hvalid ?_ ?_
    · rcases h.unstarted with ⟨hco, -⟩ | ⟨hco, -⟩ <;> simp [lived, basic_session.step, basic_session.wait_over, hco]
    · simp [lived, life.step, h.unstarted.not_alive]
  | expand => exact h.call hvalid ⟨h.unstarted.cancel _ rfl, basic_session.cancel_handled _⟩ ⟨rfl, rfl⟩
  | expand_by seconds => exact h.call hvalid ⟨h.unstarted.cancel _ rfl, basic_session.cancel_handled _⟩ ⟨rfl, rfl⟩
  | set_lifecycle seconds => exact h.call hvalid ⟨h.unstarted.cancel _ rfl, basic_session.cancel_handled _⟩ ⟨rfl, rfl⟩
  | invalidate =>
    refine h.call hvalid ?_ ?_
    · exact ⟨h.unstarted.cancel _ rfl, basic_session.cancel_handled _⟩
    · simp [lived, life.step, h.unstarted.not_alive]

theorem started_not_tracked (p : basic_session × life) (event : session_event) (h : Untouched p)
    (hstart : StartsTimer p event) : ¬ Tracks (lived p event) := by
  obtain ⟨hco, rfl⟩ := hstart
  have hphase : p.2.phase = .unborn := by
    rcases h.unstarted with ⟨-, hphase⟩ | ⟨hended, -⟩
    · exact hphase
    · rw [hco] at hended
      cases hended
  have halive : (lived p (.entered true)).2.phase = .alive := by simp [lived, life.step, hphase]
  intro htracks
  have hvalid := basic_session.step_valid p.1 (.entered true) h.valid
  have := htracks.1.mpr halive
  simp [basic_session.is_valid, lived, hvalid] at this

/-- **When a session tracks its life.** In every run from its construction, a session is valid just as long as it is
alive, and its handler has run as often as it has died, in all states if and only if no step starts the timer. -/
theorem session_tracks_iff (count : UInt64) (events : List session_event) :
    Throughout lived Tracks (basic_session.construct count, .born) events ↔
      Guarded lived (fun p event => ¬ StartsTimer p event) (basic_session.construct count, .born) events := by
  have hfirst : Untouched (basic_session.construct count, .born) := ⟨rfl, rfl, rfl, .dispatched rfl rfl⟩
  refine throughout_iff_guarded (I := Untouched) (fun p event h _ hno => untouched_step p event h hno) ?_ _ _ hfirst
    hfirst.tracks
  intro p event h _
  constructor
  · intro htracks hstart
    exact started_not_tracked p event h hstart htracks
  · intro hno
    exact (untouched_step p event h hno).tracks

theorem session_never_tracks :
    ¬ ∀ (count : UInt64) (events : List session_event),
      Throughout lived Tracks (basic_session.construct count, .born) events := by
  intro hall
  have htracks := (hall 60 [.entered true]).last
  revert htracks
  decide

/-! ## The handler -/

/-- The coroutine is where the life of the session is, and knows of the same restarts. -/
inductive Coupled (p : basic_session × life) : Prop
  | unborn (coroutine : p.1.coroutine = .dispatched) (phase : p.2.phase = .unborn)
  | alive (seconds : UInt64) (cancelled : Bool) (coroutine : p.1.coroutine = .waiting seconds cancelled)
      (phase : p.2.phase = .alive) (restart : p.1.m_restart = p.2.pending)
  | dead (coroutine : p.1.coroutine = .ended) (phase : p.2.phase = .dead)

/-- A session that somebody holds on to and does not invalidate. -/
def HeldOn (event : session_event) : Prop := event ≠ .invalidate ∧ event ≠ .wait_over false

theorem Coupled.restarted {p : basic_session × life} (h : Coupled p) (m_second : UInt64) :
    Coupled ({ p.1 with m_second := m_second, m_restart := true }.cancel, { p.2 with pending := true }) := by
  unfold basic_session.cancel
  rcases h with ⟨hco, hphase⟩ | ⟨seconds, cancelled, hco, hphase, -⟩ | ⟨hco, hphase⟩
  · simp only [hco]
    exact .unborn rfl hphase
  · simp only [hco]
    exact .alive seconds true rfl hphase rfl
  · simp only [hco]
    exact .dead rfl hphase

theorem coupled_step (p : basic_session × life) (event : session_event) (h : Coupled p ∧ p.1.handled = p.2.handled)
    (hheld : HeldOn event) : Coupled (lived p event) ∧ (lived p event).1.handled = (lived p event).2.handled := by
  obtain ⟨hcoupled, hhandled⟩ := h
  cases event with
  | expand => exact ⟨hcoupled.restarted _, (basic_session.cancel_handled _).trans hhandled⟩
  | expand_by seconds => exact ⟨hcoupled.restarted _, (basic_session.cancel_handled _).trans hhandled⟩
  | set_lifecycle seconds => exact ⟨hcoupled.restarted _, (basic_session.cancel_handled _).trans hhandled⟩
  | invalidate => exact absurd rfl hheld.1
  | entered owned =>
    unfold lived basic_session.step basic_session.enter life.step
    rcases hcoupled with ⟨hco, hphase⟩ | ⟨seconds, cancelled, hco, hphase, hrestart⟩ | ⟨hco, hphase⟩
    · cases owned with
      | true =>
        simp only [hco, hphase, if_true]
        exact ⟨.alive p.1.m_second false rfl rfl rfl, hhandled⟩
      | false =>
        simp only [hco, hphase, if_true, Bool.false_eq_true, if_false]
        exact ⟨.dead rfl rfl, hhandled⟩
    · simp only [hco, hphase, reduceCtorEq, if_false]
      exact ⟨.alive seconds cancelled hco hphase hrestart, hhandled⟩
    · simp only [hco, hphase, reduceCtorEq, if_false]
      exact ⟨.dead hco hphase, hhandled⟩
  | wait_over others =>
    obtain rfl : others = true := by
      cases others with
      | true => rfl
      | false => exact absurd rfl hheld.2
    unfold lived basic_session.step basic_session.wait_over life.step
    rcases hcoupled with ⟨hco, hphase⟩ | ⟨seconds, cancelled, hco, hphase, hrestart⟩ | ⟨hco, hphase⟩
    · simp only [hco, hphase, reduceCtorEq, if_false]
      exact ⟨.unborn hco hphase, hhandled⟩
    · simp only [hco, hphase, if_true, not_true_eq_false, if_false, hrestart]
      split
      · exact ⟨.alive p.1.m_second false rfl rfl rfl, hhandled⟩
      · exact ⟨.dead rfl rfl, congrArg (· + 1) hhandled⟩
    · simp only [hco, hphase, reduceCtorEq, if_false]
      exact ⟨.dead hco hphase, hhandled⟩

/-- **The handler runs when the session dies.** In every run in which somebody holds on to the session and
nobody invalidates it, the handler has run as often as the session has died. -/
theorem handler_tracks (count : UInt64) (events : List session_event) (h : ∀ event ∈ events, HeldOn event) :
    Throughout lived (fun p => p.1.handled = p.2.handled) (basic_session.construct count, .born) events := by
  have hguard : Guarded lived (fun _ event => HeldOn event) (basic_session.construct count, .born) events := by
    intro done event more hsplit
    exact h event (by rw [hsplit]; simp)
  have hrun := throughout_of_inv (P := fun p : basic_session × life => Coupled p ∧ p.1.handled = p.2.handled)
    (fun p event hp hheld => coupled_step p event hp hheld) (basic_session.construct count, .born) events
    ⟨.unborn rfl rfl, rfl⟩ hguard
  exact hrun.mono fun p hp => hp.2

end Libgs.Server
