import Libgs.Lib.Run
import Libgs.Sync.CoMutex
import Mathlib.Algebra.Group.Nat.Defs
import Mathlib.Data.Fintype.Basic

/-!
# The coroutine semaphore

`co_basic_semaphore` of `core/coro/detail/semaphore.h`, step by step as `co_mutex`.
-/

namespace Libgs.Sync.co_semaphore

open Lib

/-! ## The semaphore and its callers -/

/-- The three ways to ask for a permit -/
inductive request
  | try_acquire
  | acquire
  /-- `try_acquire_for` and `try_acquire_until` -/
  | try_acquire_x
  deriving DecidableEq, Repr

/-- Where a coroutine stands in the code; `n` is the number of permits it still has to release. -/
inductive pc
  | idle
  /-- `impl::try_acquire` -/
  | load (r : request)
  | cas (r : request) (counter : ℕ)
  | emplace (timed : Bool)
  | waiting (timed : Bool) (w : ℕ)
  /-- The first lines of `release` -/
  | check (n : ℕ)
  /-- The loop of `release_one` -/
  | dequeue (n : ℕ)
  | wake (n w : ℕ)
  | grant (n w : ℕ)
  | add (n : ℕ)
  deriving DecidableEq, Repr

/-- The counter, the wake-ups, and the place of every coroutine -/
structure system (ι : Type) where
  m_counter : ℕ
  wake_ups : wake_ups
  pcs : ι → pc

def size_max : ℕ := 2 ^ 64

/-- The constructor -/
def create {ι : Type} (max_v initial_count : ℕ) : Except String (system ι) :=
  if initial_count > max_v then
    .error "libgs::co_basic_semaphore: Initial count is greater than max value."
  else .ok ⟨initial_count, .init, fun _ => .idle⟩

inductive op
  | request (r : request)
  | release (n : ℕ)
  deriving DecidableEq, Repr

/-- A coroutine begins a call or takes its next step, or a timer has an event. -/
inductive action (ι : Type)
  | call (i : ι) (o : op)
  | step (i : ι) (spurious : Bool)
  | tick (w : ℕ) (e : timer_event)

def enter : pc → op → pc
  | .idle, .request r => .load r
  | .idle, .release n => .check n
  | p, _ => p

/-- Where a request goes on when there is no permit -/
def request.refused : request → pc
  | .try_acquire => .idle
  | .acquire => .emplace false
  | .try_acquire_x => .emplace true

/-- `release()` of a binary semaphore takes no count. -/
def release_refused (max_v counter n : ℕ) : Bool :=
  if max_v = 1 then counter = 1 else n = 0 ∨ n > (max_v + size_max - counter) % size_max

def release_count (max_v n : ℕ) : ℕ := if max_v = 1 then 1 else n

/-- The loop of `release` goes on while there are permits to release. -/
def next_release : ℕ → pc
  | 0 | 1 => .idle
  | n + 1 => .dequeue n

variable {ι : Type} [DecidableEq ι]

def system.goto (s : system ι) (i : ι) (p : pc) : system ι := { s with pcs := Function.update s.pcs i p }

/-- The next step of a coroutine that stands at the given place -/
def advance (max_v : ℕ) (s : system ι) (i : ι) (spurious : Bool) : pc → system ι
  | .idle => s
  | .load r => if s.m_counter = 0 then s.goto i r.refused else s.goto i (.cas r s.m_counter)
  | .cas r counter =>
    if s.m_counter = counter ∧ ¬ spurious then { s.goto i .idle with m_counter := counter - 1 }
    else s.goto i r.refused
  | .emplace timed =>
    { s.goto i (.waiting timed s.wake_ups.made) with wake_ups := s.wake_ups.emplace timed }
  | .waiting _ w => if s.wake_ups.resumed w = [] then s else s.goto i .idle
  | .check n =>
    if release_refused max_v s.m_counter n then s.goto i .idle
    else s.goto i (.dequeue (release_count max_v n))
  | .dequeue n =>
    match s.wake_ups.m_wait_queue with
    | [] => s.goto i (.add n)
    | w :: rest => { s.goto i (.wake n w) with wake_ups := { s.wake_ups with m_wait_queue := rest } }
  | .wake n w =>
    if s.wake_ups.m_finished w then { s.goto i (.dequeue n) with wake_ups := s.wake_ups.drop w }
    else { s.goto i (.grant n w) with wake_ups := s.wake_ups.finish w }
  | .grant n w => { s.goto i (next_release n) with wake_ups := (s.wake_ups.resume w true).drop w }
  | .add n => { s.goto i (next_release n) with m_counter := (s.m_counter + 1) % size_max }

def step (max_v : ℕ) (s : system ι) : action ι → system ι
  | .call i o => s.goto i (enter (s.pcs i) o)
  | .step i spurious => advance max_v s i spurious (s.pcs i)
  | .tick w e => { s with wake_ups := s.wake_ups.tick w e }

@[simp] theorem goto_pcs (s : system ι) (i j : ι) (p : pc) :
    (s.goto i p).pcs j = if j = i then p else s.pcs j :=
  Function.update_apply ..

/-! ## No lost wake-up -/

/-- The coroutine is in no call, or suspended in one. -/
def pc.quiet : pc → Bool
  | .idle | .waiting _ _ => true
  | _ => false

/-- When all calls are over, nobody waits while there is a permit. -/
def NoneLost (s : system ι) : Prop := (∀ i, (s.pcs i).quiet = true) → s.m_counter ≠ 0 → ¬ s.wake_ups.Pending

def pc.adding : pc → Bool
  | .add _ => true
  | _ => false

/-- A waiter joins the queue only while there is no permit and nobody is about to add one. -/
def Careful (s : system ι) : action ι → Prop
  | .step i _ => ∀ timed, s.pcs i = .emplace timed → s.m_counter = 0 ∧ ∀ j, (s.pcs j).adding = false
  | _ => True

instance [Fintype ι] (s : system ι) (a : action ι) : Decidable (Careful s a) :=
  match a with
  | .step i _ =>
    inferInstanceAs (Decidable (∀ timed, s.pcs i = .emplace timed → s.m_counter = 0 ∧ ∀ j, (s.pcs j).adding = false))
  | .call _ _ => isTrue trivial
  | .tick _ _ => isTrue trivial

structure Inv (s : system ι) : Prop where
  pending : s.wake_ups.Pending → s.m_counter = 0 ∧ ∀ j, (s.pcs j).adding = false
  loaded : ∀ i r counter, s.pcs i = .cas r counter → counter ≠ 0

omit [DecidableEq ι] in
theorem Inv.none_lost {s : system ι} (h : Inv s) : NoneLost s := fun _ hc hw => hc (h.pending hw).1

omit [DecidableEq ι] in
theorem inv_create {max_v initial_count : ℕ} {s : system ι} (h : create max_v initial_count = .ok s) : Inv s := by
  unfold create at h
  split at h
  · cases h
  · cases h
    exact ⟨fun hw => absurd hw wake_ups.not_pending_init, by simp⟩

theorem loaded_goto {s : system ι} (h : ∀ j r counter, s.pcs j = .cas r counter → counter ≠ 0) {i : ι} {p : pc}
    (hcas : ∀ r counter, p = .cas r counter → counter ≠ 0) :
    ∀ j r counter, (s.goto i p).pcs j = .cas r counter → counter ≠ 0 := by
  intro j r counter hj
  by_cases hji : j = i
  · exact hcas r counter (by simpa [hji] using hj)
  · exact h j r counter (by simpa [hji] using hj)

theorem Inv.goto {s : system ι} (h : Inv s) (i : ι) (p : pc)
    (hadd : p.adding = true → ¬ s.wake_ups.Pending)
    (hcas : ∀ r counter, p = .cas r counter → counter ≠ 0) : Inv (s.goto i p) := by
  constructor
  · intro hw
    obtain ⟨hzero, hnone⟩ := h.pending hw
    refine ⟨hzero, fun j => ?_⟩
    by_cases hji : j = i
    · rw [goto_pcs, if_pos hji]
      exact Bool.eq_false_iff.mpr fun hp => hadd hp hw
    · simpa [hji] using hnone j
  · exact loaded_goto h.loaded hcas

omit [DecidableEq ι] in
theorem Inv.queue {s : system ι} (h : Inv s) (u : wake_ups) (hu : u.Pending → s.wake_ups.Pending) :
    Inv { s with wake_ups := u } :=
  ⟨fun hw => h.pending (hu hw), h.loaded⟩

omit [DecidableEq ι] in
theorem Inv.count {s : system ι} (h : Inv s) (n : ℕ) (hnone : ¬ s.wake_ups.Pending) :
    Inv { s with m_counter := n } :=
  ⟨fun hw => absurd hw hnone, h.loaded⟩

omit [DecidableEq ι] in
theorem Inv.join {s : system ι} (h : Inv s) (u : wake_ups)
    (hclosed : s.m_counter = 0 ∧ ∀ j, (s.pcs j).adding = false) : Inv { s with wake_ups := u } :=
  ⟨fun _ => hclosed, h.loaded⟩

theorem refused_cases (r : request) : r.refused = .idle ∨ ∃ timed, r.refused = .emplace timed := by
  cases r with
  | try_acquire => exact .inl rfl
  | acquire => exact .inr ⟨false, rfl⟩
  | try_acquire_x => exact .inr ⟨true, rfl⟩

theorem next_release_cases (n : ℕ) : next_release n = .idle ∨ ∃ m, next_release n = .dequeue m := by
  unfold next_release
  split
  · exact .inl rfl
  · exact .inl rfl
  · exact .inr ⟨_, rfl⟩

theorem Inv.refuse {s : system ι} (h : Inv s) (i : ι) (r : request) : Inv (s.goto i r.refused) := by
  obtain hp | ⟨timed, hp⟩ := refused_cases r
  all_goals rw [hp]
  · exact h.goto i .idle (by simp [pc.adding]) (by simp)
  · exact h.goto i (.emplace timed) (by simp [pc.adding]) (by simp)

theorem Inv.next {s : system ι} (h : Inv s) (i : ι) (n : ℕ) : Inv (s.goto i (next_release n)) := by
  obtain hp | ⟨m, hp⟩ := next_release_cases n
  all_goals rw [hp]
  · exact h.goto i .idle (by simp [pc.adding]) (by simp)
  · exact h.goto i (.dequeue m) (by simp [pc.adding]) (by simp)

theorem inv_call (s : system ι) (i : ι) (o : op) (h : Inv s) : Inv (s.goto i (enter (s.pcs i) o)) := by
  cases hpc : s.pcs i with
  | idle =>
    cases o with
    | request r => exact h.goto i (.load r) (by simp [pc.adding]) (by simp)
    | release n => exact h.goto i (.check n) (by simp [pc.adding]) (by simp)
  | _ =>
    have hsame : s.goto i (s.pcs i) = s := by simp [system.goto]
    rw [hpc] at hsame
    exact (congrArg Inv hsame).mpr h

theorem inv_step (max_v : ℕ) (s : system ι) (a : action ι) (h : Inv s) (hc : Careful s a) : Inv (step max_v s a) := by
  cases a with
  | call i o => exact inv_call s i o h
  | tick w e => exact h.queue _ wake_ups.Pending.of_tick
  | step i spurious =>
    show Inv (advance max_v s i spurious (s.pcs i))
    cases hpc : s.pcs i with
    | idle => exact h
    | load r =>
      rw [advance]
      split
      · -- There is no permit.
        exact h.refuse i r
      · rename_i hcounter
        refine h.goto i (.cas r s.m_counter) (by simp [pc.adding]) ?_
        rintro r' counter hr
        obtain ⟨-, rfl⟩ := pc.cas.inj hr
        exact hcounter
    | cas r counter =>
      rw [advance]
      split
      · -- The exchange takes a permit, which nobody waited for.
        rename_i hok
        have hnone : ¬ s.wake_ups.Pending :=
          fun hw => h.loaded i r counter hpc (hok.1.symm.trans (h.pending hw).1)
        exact (h.goto i .idle (by simp [pc.adding]) (by simp)).count (counter - 1) hnone
      · exact h.refuse i r
    | emplace timed =>
      -- A waiter joins with care: no permit is there or on its way.
      obtain ⟨hzero, hadd⟩ := hc timed hpc
      refine (h.goto i (.waiting timed s.wake_ups.made) (by simp [pc.adding]) (by simp)).join _ ⟨hzero, fun j => ?_⟩
      by_cases hji : j = i
      · simp [hji, pc.adding]
      · simpa [hji] using hadd j
    | waiting timed w =>
      rw [advance]
      split
      · exact h
      · exact h.goto i .idle (by simp [pc.adding]) (by simp)
    | check n =>
      rw [advance]
      split
      · exact h.goto i .idle (by simp [pc.adding]) (by simp)
      · exact h.goto i (.dequeue _) (by simp [pc.adding]) (by simp)
    | dequeue n =>
      cases hq : s.wake_ups.m_wait_queue with
      | nil =>
        -- Nobody waits, and the permit goes to the counter.
        have hnone := wake_ups.not_pending_of_empty hq
        simp only [advance, hq]
        exact h.goto i (.add n) (fun _ => hnone) (by simp)
      | cons w rest =>
        simp only [advance, hq]
        exact (h.goto i (.wake n w) (by simp [pc.adding]) (by simp)).queue _ (wake_ups.Pending.of_dequeue hq)
    | wake n w =>
      rw [advance]
      split
      · -- The timer of this waiter was first.
        exact (h.goto i (.dequeue n) (by simp [pc.adding]) (by simp)).queue _ id
      · exact (h.goto i (.grant n w) (by simp [pc.adding]) (by simp)).queue _ wake_ups.Pending.of_finish
    | grant n w => exact (h.next i n).queue _ id
    | add n =>
      have hnone : ¬ s.wake_ups.Pending := fun hw => by simpa [hpc, pc.adding] using (h.pending hw).2 i
      exact (h.next i n).count _ hnone

/-- No wake-up is lost in the coroutine lock, and none in the semaphore, while waiters join the queue with care. -/
theorem none_lost_of_careful (mutex_acts : List (co_mutex.action ι))
    (hmutex : Guarded co_mutex.step co_mutex.Careful co_mutex.init mutex_acts) (max_v initial_count : ℕ) (s : system ι)
    (hs : create max_v initial_count = .ok s) (acts : List (action ι)) (hacts : Guarded (step max_v) Careful s acts) :
    Throughout co_mutex.step co_mutex.NoneLost co_mutex.init mutex_acts ∧ Throughout (step max_v) NoneLost s acts := by
  constructor
  · exact co_mutex.throughout_none_lost mutex_acts hmutex
  · have hinv : Throughout (step max_v) Inv s acts := throughout_of_inv (inv_step max_v) s acts (inv_create hs) hacts
    exact hinv.mono fun _ h => h.none_lost

/-- A waiter joins the queue before the release begins. -/
theorem none_lost_of_careful_waiter :
    Throughout co_mutex.step co_mutex.NoneLost (co_mutex.init : co_mutex.system (Fin 2))
        [.call 0 (.request .lock), .step 0 false, .call 1 (.request .lock), .step 1 false, .step 1 false,
          .call 0 .unlock, .step 0 false, .step 0 false, .step 0 false, .step 1 false] ∧
      Throughout (step 1) NoneLost (⟨0, .init, fun _ => .idle⟩ : system (Fin 2))
        [.call 1 (.request .acquire), .step 1 false, .step 1 false, .call 0 (.release 1), .step 0 false,
          .step 0 false, .step 0 false, .step 0 false, .step 1 false] := by
  exact none_lost_of_careful _ (by decide) 1 0 _ rfl _ (by decide)

/-- The release runs to its end between the failed attempt and the place in the queue. -/
theorem waiter_left_behind :
    ¬ (∀ acts : List (co_mutex.action (Fin 2)), Throughout co_mutex.step co_mutex.NoneLost co_mutex.init acts) ∧
      ¬ (∀ acts : List (action (Fin 2)), Throughout (step 1) NoneLost ⟨1, .init, fun _ => .idle⟩ acts) := by
  constructor
  · intro h
    have hlast := (h [.call 0 (.request .lock), .step 0 false, .call 1 (.request .lock), .step 1 false,
      .call 0 .unlock, .step 0 false, .step 0 false, .step 1 false]).last
    exact hlast (by decide) rfl ⟨0, by decide, rfl⟩
  · intro h
    have hlast := (h [.call 0 (.request .acquire), .step 0 false, .step 0 false, .call 1 (.request .acquire),
      .step 1 false, .call 0 (.release 1), .step 0 false, .step 0 false, .step 0 false, .step 1 false]).last
    exact hlast (by decide) (by decide) ⟨0, by decide, rfl⟩

end Libgs.Sync.co_semaphore
