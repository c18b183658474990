import Libgs.Lib.Run
import Libgs.Sync.WakeUp
import Mathlib.Data.Fintype.Basic

/-!
# The coroutine mutex

`co_mutex` of `core/coro/detail/mutex.h`. Every atomic operation is a step of its own and the waiter queue is a
FIFO queue. A coroutine is suspended at `waiting` until the handler of its wake-up has been called. The pointer that
`unlock` takes out of the queue goes out of scope at the end of its turn, and the wake-up with it.
-/

namespace Libgs.Sync.co_mutex

open Lib

/-! ## The mutex and its callers -/

/-- The three ways to ask for the mutex -/
inductive request
  | try_lock
  | lock
  /-- `try_lock_for` and `try_lock_until` -/
  | try_lock_x
  deriving DecidableEq, Repr

/-- Where a coroutine stands in the code -/
inductive pc
  | idle
  /-- The exchange of `impl::try_lock` -/
  | cas (r : request)
  | emplace (timed : Bool)
  | waiting (timed : Bool) (w : ℕ)
  | holding
  /-- The loop of `unlock` -/
  | dequeue
  /-- The call of a wake-up: before `test_and_set`, and after it -/
  | wake (w : ℕ)
  | grant (w : ℕ)
  | store
  deriving DecidableEq, Repr

/-- The flag, the wake-ups, and the place of every coroutine -/
structure system (ι : Type) where
  m_native_handle : Bool
  wake_ups : wake_ups
  pcs : ι → pc

def init {ι : Type} : system ι := ⟨false, .init, fun _ => .idle⟩

/-- The calls of the mutex -/
inductive op
  | request (r : request)
  | unlock
  deriving DecidableEq, Repr

/-- A coroutine begins a call or takes its next step, or the timer of a wake-up does. A weak exchange may fail
spuriously. -/
inductive action (ι : Type)
  | call (i : ι) (o : op)
  | step (i : ι) (spurious : Bool)
  | tick (w : ℕ) (e : timer_event)

/-- Only the owner calls `unlock`. -/
def enter : pc → op → pc
  | .idle, .request r => .cas r
  | .holding, .unlock => .dequeue
  | p, _ => p

/-- Where a request goes on when the exchange has failed -/
def request.refused : request → pc
  | .try_lock => .idle
  | .lock => .emplace false
  | .try_lock_x => .emplace true

variable {ι : Type} [DecidableEq ι]

def system.goto (s : system ι) (i : ι) (p : pc) : system ι := { s with pcs := Function.update s.pcs i p }

/-- `lock` returns however it is resumed. -/
def advance (s : system ι) (i : ι) (spurious : Bool) : pc → system ι
  | .idle | .holding => s
  | .cas r =>
    if ¬ s.m_native_handle ∧ ¬ spurious then { s.goto i .holding with m_native_handle := true }
    else s.goto i r.refused
  | .emplace timed =>
    { s.goto i (.waiting timed s.wake_ups.made) with wake_ups := s.wake_ups.emplace timed }
  | .waiting timed w =>
    match s.wake_ups.resumed w with
    | [] => s
    | success :: _ => s.goto i (if timed ∧ ¬ success then .idle else .holding)
  | .dequeue =>
    match s.wake_ups.m_wait_queue with
    | [] => s.goto i .store
    | w :: rest => { s.goto i (.wake w) with wake_ups := { s.wake_ups with m_wait_queue := rest } }
  | .wake w =>
    if s.wake_ups.m_finished w then { s.goto i .dequeue with wake_ups := s.wake_ups.drop w }
    else { s.goto i (.grant w) with wake_ups := s.wake_ups.finish w }
  | .grant w => { s.goto i .idle with wake_ups := (s.wake_ups.resume w true).drop w }
  | .store => { s.goto i .idle with m_native_handle := false }

/-- One atomic step of a coroutine, or an event of a timer -/
def step (s : system ι) : action ι → system ι
  | .call i o => s.goto i (enter (s.pcs i) o)
  | .step i spurious => advance s i spurious (s.pcs i)
  | .tick w e => { s with wake_ups := s.wake_ups.tick w e }

@[simp] theorem goto_pcs (s : system ι) (i j : ι) (p : pc) :
    (s.goto i p).pcs j = if j = i then p else s.pcs j :=
  Function.update_apply ..

@[simp] theorem goto_handle (s : system ι) (i : ι) (p : pc) : (s.goto i p).m_native_handle = s.m_native_handle := rfl
@[simp] theorem goto_wake_ups (s : system ι) (i : ι) (p : pc) : (s.goto i p).wake_ups = s.wake_ups := rfl

theorem advance_pcs_of_ne (s : system ι) (i j : ι) (spurious : Bool) (p : pc) (hj : j ≠ i) :
    (advance s i spurious p).pcs j = s.pcs j := by
  unfold advance
  repeat' split
  all_goals simp [hj]

/-! ## Ownership -/

/-- Between a successful acquisition and the last step of `unlock` -/
def pc.owner : pc → Bool
  | .holding | .dequeue | .wake _ | .grant _ | .store => true
  | _ => false

/-- A coroutine owns the mutex from its exchange, or from the moment it is resumed as the new owner, to the last
step of its `unlock`. -/
def Owns (s : system ι) (i : ι) : Prop :=
  (s.pcs i).owner = true ∨ ∃ timed w, s.pcs i = .waiting timed w ∧ true ∈ s.wake_ups.resumed w

/-- No two coroutines own the mutex. -/
def Exclusive (s : system ι) : Prop := ∀ i j, Owns s i → Owns s j → i = j

/-- No waiter is resumed twice, as the new owner or by its timer. -/
def ResumedOnce (s : system ι) : Prop := ∀ w, (s.wake_ups.resumed w).length ≤ 1

/-- No handler of a timer runs when its wake-up has been destroyed. -/
def Alive (s : system ι) : action ι → Prop
  | .tick w e => s.wake_ups.Alive w e
  | _ => True

instance (s : system ι) : DecidablePred (Alive s)
  | .tick w e => inferInstanceAs (Decidable (s.wake_ups.Alive w e))
  | .call _ _ | .step _ _ => isTrue trivial

/-! ## The invariant -/

/-- The flag of the wake-up has been set for a new owner, who is not yet resumed. -/
def Claimed (s : system ι) (w : ℕ) : Prop := ∃ i, s.pcs i = .grant w

/-- What holds of the flag, the queue and the places in every state -/
structure Inv (s : system ι) : Prop where
  once : s.wake_ups.Once (Claimed s)
  wake_made : ∀ i w, s.pcs i = .wake w → w < s.wake_ups.made
  waiting_made : ∀ i timed w, s.pcs i = .waiting timed w → w < s.wake_ups.made
  waiting_unique : ∀ i j timed timed' w, s.pcs i = .waiting timed w → s.pcs j = .waiting timed' w → i = j
  untimed : ∀ i w, s.pcs i = .waiting false w → s.wake_ups.m_timer w = .off ∧ false ∉ s.wake_ups.resumed w
  /-- A waiter stays until it is resumed. -/
  stays : ∀ w < s.wake_ups.made, s.wake_ups.resumed w = [] → ∃ i timed, s.pcs i = .waiting timed w
  exclusive : Exclusive s
  locked : ∀ i, Owns s i → s.m_native_handle = true

omit [DecidableEq ι] in
theorem not_owns_init (i : ι) : ¬ Owns init i := by
  unfold Owns
  simp [init, pc.owner]

omit [DecidableEq ι] in
theorem inv_init : Inv (init : system ι) := by
  constructor
  · exact wake_ups.once_init _ fun w ⟨i, hi⟩ => by simp [init] at hi
  · simp [init]
  · simp [init]
  · simp [init]
  · simp [init]
  · simp [init, wake_ups.init]
  · exact fun i _ hi => absurd hi (not_owns_init i)
  · exact fun i hi => absurd hi (not_owns_init i)

theorem owns_goto_of_ne {s : system ι} {i j : ι} (h : j ≠ i) (p : pc) : Owns (s.goto i p) j ↔ Owns s j := by
  unfold Owns
  simp [h]

theorem Inv.goto {s : system ι} (h : Inv s) (i : ι) (p : pc) (hwait : ∀ timed w, p ≠ .waiting timed w)
    (hgrant : ∀ w, p ≠ .grant w) (hwake : ∀ w, p = .wake w → w < s.wake_ups.made)
    (hleft : ∀ timed w, s.pcs i = .waiting timed w → s.wake_ups.resumed w ≠ [])
    (hown : p.owner = true → s.m_native_handle = true ∧ ∀ j, Owns s j → j = i) : Inv (s.goto i p) := by
  have hwaiting : ∀ j timed w, (s.goto i p).pcs j = .waiting timed w → s.pcs j = .waiting timed w := by
    intro j timed w hj
    by_cases hji : j = i
    · simp only [goto_pcs, hji, if_true] at hj
      exact absurd hj (hwait timed w)
    · simpa [hji] using hj
  have howns : ∀ j, Owns (s.goto i p) j → j = i ∧ p.owner = true ∨ j ≠ i ∧ Owns s j := by
    intro j hj
    by_cases hji : j = i
    · refine .inl ⟨hji, ?_⟩
      rcases hj with hj | ⟨timed, w, hj, -⟩
      · simpa [hji] using hj
      · simp only [goto_pcs, hji, if_true] at hj
        exact absurd hj (hwait timed w)
    · exact .inr ⟨hji, (owns_goto_of_ne hji p).mp hj⟩
  constructor
  · refine h.once.mono fun w ⟨j, hj⟩ => ?_
    by_cases hji : j = i
    · simp only [goto_pcs, hji, if_true] at hj
      exact absurd hj (hgrant w)
    · exact ⟨j, by simpa [hji] using hj⟩
  · intro j w hj
    by_cases hji : j = i
    · exact hwake w (by simpa [hji] using hj)
    · exact h.wake_made j w (by simpa [hji] using hj)
  · exact fun j timed w hj => h.waiting_made j timed w (hwaiting j timed w hj)
  · exact fun j k timed timed' w hj hk =>
      h.waiting_unique j k timed timed' w (hwaiting j timed w hj) (hwaiting k timed' w hk)
  · exact fun j w hj => h.untimed j w (hwaiting j false w hj)
  · intro w hw hr
    obtain ⟨j, timed, hj⟩ := h.stays w hw hr
    have hji : j ≠ i := by
      rintro rfl
      exact hleft timed w hj hr
    exact ⟨j, timed, by simpa [hji] using hj⟩
  · intro j k hj hk
    obtain ⟨hji, hp⟩ | ⟨hji, hjs⟩ := howns j hj <;> obtain ⟨hki, hp⟩ | ⟨hki, hks⟩ := howns k hk
    · rw [hji, hki]
    · exact absurd ((hown hp).2 k hks) hki
    · exact absurd ((hown hp).2 j hjs) hji
    · exact h.exclusive j k hjs hks
  · intro j hj
    obtain ⟨-, hp⟩ | ⟨-, hj⟩ := howns j hj
    · exact (hown hp).1
    · exact h.locked j hj

omit [DecidableEq ι] in
theorem Inv.flag {s : system ι} (h : Inv s) (b : Bool) (hno : ∀ i, ¬ Owns s i) :
    Inv { s with m_native_handle := b } :=
  ⟨h.once, h.wake_made, h.waiting_made, h.waiting_unique, h.untimed, h.stays, h.exclusive,
    fun i hi => absurd hi (hno i)⟩

omit [DecidableEq ι] in
theorem Inv.not_owns {s : system ι} (h : Inv s) (hfree : s.m_native_handle = false) (i : ι) : ¬ Owns s i := by
  intro hi
  have := h.locked i hi
  rw [hfree] at this
  cases this

theorem Inv.take {s : system ι} (h : Inv s) (i : ι) (hi : ∀ timed w, s.pcs i ≠ .waiting timed w)
    (hfree : s.m_native_handle = false) : Inv { s.goto i .holding with m_native_handle := true } := by
  have hno := h.not_owns hfree
  have hset : Inv { s with m_native_handle := true } := h.flag true hno
  exact hset.goto i .holding (by simp) (by simp) (by simp) (fun timed w hw => absurd hw (hi timed w))
    fun _ => ⟨rfl, fun j hj => absurd hj (hno j)⟩

theorem Inv.leave {s : system ι} (h : Inv s) (i : ι) (hi : s.pcs i = .store) :
    Inv { s.goto i .idle with m_native_handle := false } := by
  have howns : Owns s i := .inl (by rw [hi]; rfl)
  have hidle : Inv (s.goto i .idle) :=
    h.goto i .idle (by simp) (by simp) (by simp) (by simp [hi]) (by simp [pc.owner])
  apply hidle.flag
  intro j hj
  by_cases hji : j = i
  · simp [Owns, hji, pc.owner] at hj
  · exact hji (h.exclusive j i ((owns_goto_of_ne hji .idle).mp hj) howns)

theorem Inv.emplace {s : system ι} (h : Inv s) (i : ι) (timed : Bool) (hi : s.pcs i = .emplace timed) :
    Inv { s.goto i (.waiting timed s.wake_ups.made) with wake_ups := s.wake_ups.emplace timed } := by
  set s' := { s.goto i (.waiting timed s.wake_ups.made) with wake_ups := s.wake_ups.emplace timed } with hs'
  have hfresh : s.wake_ups.resumed s.wake_ups.made = [] := (h.once.offered.fresh _ (Nat.le_refl _)).2.2
  have hwaiting : ∀ j t v, s'.pcs j = .waiting t v →
      (j = i ∧ t = timed ∧ v = s.wake_ups.made) ∨ (v ≠ s.wake_ups.made ∧ s.pcs j = .waiting t v) := by
    intro j t v hj
    by_cases hji : j = i
    · simp only [hs', goto_pcs, hji, if_true, pc.waiting.injEq] at hj
      exact .inl ⟨hji, hj.1.symm, hj.2.symm⟩
    · have hj : s.pcs j = .waiting t v := by simpa [hs', hji] using hj
      exact .inr ⟨Nat.ne_of_lt (h.waiting_made j t v hj), hj⟩
  have howns : ∀ j, Owns s' j → Owns s j := by
    rintro j (hj | ⟨t, v, hj, hr⟩)
    · by_cases hji : j = i
      · simp [hs', hji, pc.owner] at hj
      · exact .inl (by simpa [hs', hji] using hj)
    · obtain ⟨-, -, rfl⟩ | ⟨-, hj⟩ := hwaiting j t v hj
      · simp [hs', hfresh] at hr
      · exact .inr ⟨t, v, hj, hr⟩
  constructor
  · refine (h.once.emplace timed).mono fun w ⟨j, hj⟩ => ⟨j, ?_⟩
    by_cases hji : j = i <;> simp [hs', hji] at hj
    exact hj
  · intro j w hj
    by_cases hji : j = i <;> simp [hs', hji] at hj
    exact Nat.lt_succ_of_lt (h.wake_made j w hj)
  · intro j t v hj
    obtain ⟨-, -, rfl⟩ | ⟨-, hj⟩ := hwaiting j t v hj
    · exact Nat.lt_succ_self _
    · exact Nat.lt_succ_of_lt (h.waiting_made j t v hj)
  · intro j k t t' v hj hk
    obtain ⟨rfl, -, hv⟩ | ⟨hv, hj⟩ := hwaiting j t v hj <;> obtain ⟨rfl, -, hv'⟩ | ⟨hv', hk⟩ := hwaiting k t' v hk
    · rfl
    · exact absurd hv hv'
    · exact absurd hv' hv
    · exact h.waiting_unique j k t t' v hj hk
  · intro j v hj
    obtain ⟨-, rfl, rfl⟩ | ⟨hv, hj⟩ := hwaiting j false v hj
    · simp [hs', hfresh]
    · simpa [hs', hv] using h.untimed j v hj
  · intro v hv hr
    by_cases hnew : v = s.wake_ups.made
    · exact ⟨i, timed, by simp [hs', hnew]⟩
    · obtain ⟨j, t, hj⟩ := h.stays v (Nat.lt_of_le_of_ne (Nat.le_of_lt_succ hv) hnew) hr
      have hji : j ≠ i := by
        rintro rfl
        simp [hi] at hj
      exact ⟨j, t, by simpa [hs', hji] using hj⟩
  · exact fun j k hj hk => h.exclusive j k (howns j hj) (howns k hk)
  · exact fun j hj => h.locked j (howns j hj)

theorem waiting_goto {s : system ι} {i : ι} {p : pc} (hfrom : ∀ timed w, s.pcs i ≠ .waiting timed w)
    (hto : ∀ timed w, p ≠ .waiting timed w) (j : ι) (timed : Bool) (w : ℕ) :
    (s.goto i p).pcs j = .waiting timed w ↔ s.pcs j = .waiting timed w := by
  by_cases hji : j = i
  · rw [hji]
    exact iff_of_false (by simp [hto timed w]) (hfrom timed w)
  · simp [hji]

theorem wake_goto {s : system ι} {i : ι} {p : pc} (hto : ∀ w, p ≠ .wake w) {j : ι} {w : ℕ}
    (hj : (s.goto i p).pcs j = .wake w) : s.pcs j = .wake w := by
  by_cases hji : j = i
  · simp only [goto_pcs, hji, if_true] at hj
    exact absurd hj (hto w)
  · simpa [hji] using hj

theorem Inv.finish {s : system ι} (h : Inv s) (i : ι) (w : ℕ) (hi : s.pcs i = .wake w)
    (hw : s.wake_ups.m_finished w = false) :
    Inv { s.goto i (.grant w) with wake_ups := s.wake_ups.finish w } := by
  set s' := { s.goto i (.grant w) with wake_ups := s.wake_ups.finish w } with hs'
  have hwaiting : ∀ j t v, s'.pcs j = .waiting t v ↔ s.pcs j = .waiting t v := waiting_goto (by simp [hi]) (by simp)
  have howns : ∀ j, Owns s' j → Owns s j := by
    rintro j (hj | ⟨t, v, hj, hr⟩)
    · by_cases hji : j = i
      · exact .inl (by simp [hji, hi, pc.owner])
      · exact .inl (by simpa [hs', hji] using hj)
    · exact .inr ⟨t, v, (hwaiting j t v).mp hj, hr⟩
  constructor
  · refine (h.once.finish w (h.wake_made i w hi) hw).mono fun v ⟨j, hj⟩ => ?_
    by_cases hji : j = i
    · exact .inr (by simpa [hs', hji, eq_comm] using hj)
    · exact .inl ⟨j, by simpa [hs', hji] using hj⟩
  · exact fun j v hj => h.wake_made j v (wake_goto (by simp) hj)
  · exact fun j t v hj => h.waiting_made j t v ((hwaiting j t v).mp hj)
  · exact fun j k t t' v hj hk => h.waiting_unique j k t t' v ((hwaiting j t v).mp hj) ((hwaiting k t' v).mp hk)
  · exact fun j v hj => h.untimed j v ((hwaiting j false v).mp hj)
  · intro v hv hr
    obtain ⟨j, t, hj⟩ := h.stays v hv hr
    exact ⟨j, t, (hwaiting j t v).mpr hj⟩
  · exact fun j k hj hk => h.exclusive j k (howns j hj) (howns k hk)
  · exact fun j hj => h.locked j (howns j hj)

theorem Inv.resume {s : system ι} (h : Inv s) (i : ι) (w : ℕ) (hi : s.pcs i = .grant w) :
    Inv { s.goto i .idle with wake_ups := s.wake_ups.resume w true } := by
  set s' := { s.goto i .idle with wake_ups := s.wake_ups.resume w true } with hs'
  have hown : Owns s i := .inl (by rw [hi]; rfl)
  have hf := (h.once.offered.claim w ⟨i, hi⟩).1
  obtain ⟨hr, ht⟩ := h.once.claim w ⟨i, hi⟩
  have hwaiting : ∀ j t v, s'.pcs j = .waiting t v ↔ s.pcs j = .waiting t v := waiting_goto (by simp [hi]) (by simp)
  have howns : ∀ j, Owns s' j → ∃ t, s.pcs j = .waiting t w := by
    rintro j (hj | ⟨t, v, hj, hv⟩)
    · by_cases hji : j = i
      · simp [hs', hji, pc.owner] at hj
      · exact absurd (h.exclusive j i (.inl (by simpa [hs', hji] using hj)) hown) hji
    · rw [hwaiting] at hj
      by_cases hvw : v = w
      · exact ⟨t, hvw ▸ hj⟩
      · have hji : j = i := h.exclusive j i (.inr ⟨t, v, hj, by simpa [hs', hvw] using hv⟩) hown
        rw [hji, hi] at hj
        cases hj
  constructor
  · refine (h.once.resume w true hf hr ht).mono fun v ⟨j, hj⟩ => ?_
    by_cases hji : j = i <;> simp [hs', hji] at hj
    refine ⟨⟨j, hj⟩, ?_⟩
    rintro rfl
    exact hji (h.exclusive j i (.inl (by rw [hj]; rfl)) hown)
  · exact fun j v hj => h.wake_made j v (wake_goto (by simp) hj)
  · exact fun j t v hj => h.waiting_made j t v ((hwaiting j t v).mp hj)
  · exact fun j k t t' v hj hk => h.waiting_unique j k t t' v ((hwaiting j t v).mp hj) ((hwaiting k t' v).mp hk)
  · intro j v hj
    obtain ⟨hoff, hno⟩ := h.untimed j v ((hwaiting j false v).mp hj)
    refine ⟨by simp [hs', hoff], ?_⟩
    by_cases hvw : v = w
    · simp [hs', hvw, hr]
    · simpa [hs', hvw] using hno
  · intro v hv hrv
    have hvw : v ≠ w := by
      rintro rfl
      simp [hs'] at hrv
    obtain ⟨j, t, hj⟩ := h.stays v hv (by simpa [hs', hvw] using hrv)
    exact ⟨j, t, (hwaiting j t v).mpr hj⟩
  · intro j k hj hk
    obtain ⟨t, hj⟩ := howns j hj
    obtain ⟨t', hk⟩ := howns k hk
    exact h.waiting_unique j k t t' w hj hk
  · exact fun _ _ => h.locked i hown

omit [DecidableEq ι] in
theorem Inv.drop {s : system ι} (h : Inv s) (w : ℕ) : Inv { s with wake_ups := s.wake_ups.drop w } :=
  ⟨h.once.drop w, h.wake_made, h.waiting_made, h.waiting_unique, h.untimed, h.stays, h.exclusive, h.locked⟩

omit [DecidableEq ι] in
theorem Inv.tick {s : system ι} (h : Inv s) {w : ℕ} {e : timer_event} (halive : s.wake_ups.Alive w e) :
    Inv { s with wake_ups := s.wake_ups.tick w e } := by
  have howns : ∀ i, Owns { s with wake_ups := s.wake_ups.tick w e } i → Owns s i := by
    rintro i (hi | ⟨timed, v, hi, hr⟩)
    · exact .inl hi
    · exact .inr ⟨timed, v, hi, (wake_ups.true_mem_tick_resumed w v e).mp hr⟩
  constructor
  · exact h.once.tick halive
  · simpa using h.wake_made
  · simpa using h.waiting_made
  · exact h.waiting_unique
  · intro i v hi
    obtain ⟨hoff, hr⟩ := h.untimed i v hi
    obtain ⟨hoff', hr'⟩ := wake_ups.tick_untimed halive hoff
    exact ⟨hoff', by rwa [hr']⟩
  · intro v hv hr
    exact h.stays v (by simpa using hv) (wake_ups.resumed_of_tick hr)
  · exact fun i j hi hj => h.exclusive i j (howns i hi) (howns j hj)
  · exact fun i hi => h.locked i (howns i hi)

theorem inv_call (s : system ι) (i : ι) (o : op) (h : Inv s) : Inv (s.goto i (enter (s.pcs i) o)) := by
  cases hpc : s.pcs i with
  | idle =>
    cases o with
    | request r => exact h.goto i (.cas r) (by simp) (by simp) (by simp) (by simp [hpc]) (by simp [pc.owner])
    | unlock => exact h.goto i .idle (by simp) (by simp) (by simp) (by simp [hpc]) (by simp [pc.owner])
  | holding =>
    have hown : Owns s i := .inl (by rw [hpc]; rfl)
    have hstill : s.m_native_handle = true ∧ ∀ j, Owns s j → j = i :=
      ⟨h.locked i hown, fun j hj => h.exclusive j i hj hown⟩
    cases o with
    | request r => exact h.goto i .holding (by simp) (by simp) (by simp) (by simp [hpc]) fun _ => hstill
    | unlock => exact h.goto i .dequeue (by simp) (by simp) (by simp) (by simp [hpc]) fun _ => hstill
  | _ =>
    have hsame : s.goto i (s.pcs i) = s := by simp [system.goto]
    rw [hpc] at hsame
    exact (congrArg Inv hsame).mpr h

theorem inv_step (s : system ι) (a : action ι) (h : Inv s) (halive : Alive s a) : Inv (step s a) := by
  cases a with
  | call i o => exact inv_call s i o h
  | tick w e => exact h.tick halive
  | step i spurious =>
    show Inv (advance s i spurious (s.pcs i))
    have hstill : Owns s i → s.m_native_handle = true ∧ ∀ j, Owns s j → j = i :=
      fun hown => ⟨h.locked i hown, fun j hj => h.exclusive j i hj hown⟩
    cases hpc : s.pcs i with
    | idle => exact h
    | holding => exact h
    | cas r =>
      rw [advance]
      split
      · -- The exchange takes a free mutex.
        rename_i hfree
        exact h.take i (by simp [hpc]) (by simpa using hfree.1)
      · -- The request is refused, or goes on to the queue.
        cases r <;>
          exact h.goto i _ (by simp [request.refused]) (by simp [request.refused]) (by simp [request.refused])
            (by simp [hpc]) (by simp [request.refused, pc.owner])
    | emplace timed => exact h.emplace i timed hpc
    | waiting timed w =>
      cases hr : s.wake_ups.resumed w with
      | nil => simpa [advance, hr] using h
      | cons success more =>
        have hgo : advance s i spurious (.waiting timed w) =
            s.goto i (if timed ∧ ¬ success then .idle else .holding) := by simp [advance, hr]
        have hleft : ∀ t v, s.pcs i = .waiting t v → s.wake_ups.resumed v ≠ [] := by
          intro t v hv
          obtain ⟨rfl, rfl⟩ := pc.waiting.inj (hpc.symm.trans hv)
          simp [hr]
        rw [hgo]
        by_cases hrefused : timed ∧ ¬ success
        · -- The timer was first.
          rw [if_pos hrefused]
          exact h.goto i .idle (by simp) (by simp) (by simp) hleft (by simp [pc.owner])
        · -- The owner has handed the mutex over.
          have hsuccess : success = true := by
            cases success with
            | true => rfl
            | false =>
              obtain rfl : timed = false := by simpa using hrefused
              exact absurd (by simp [hr]) (h.untimed i w hpc).2
          rw [if_neg hrefused]
          exact h.goto i .holding (by simp) (by simp) (by simp) hleft
            fun _ => hstill (.inr ⟨timed, w, hpc, by simp [hr, hsuccess]⟩)
    | dequeue =>
      have hown := hstill (.inl (by rw [hpc]; rfl))
      cases hq : s.wake_ups.m_wait_queue with
      | nil =>
        -- Nobody waits.
        simp only [advance, hq]
        exact h.goto i .store (by simp) (by simp) (by simp) (by simp [hpc]) fun _ => hown
      | cons w rest =>
        have hmade : w < s.wake_ups.made := h.once.offered.queued w (by simp [hq])
        have hrest : Inv { s with wake_ups := { s.wake_ups with m_wait_queue := rest } } :=
          ⟨h.once.dequeue hq, h.wake_made, h.waiting_made, h.waiting_unique, h.untimed, h.stays, h.exclusive, h.locked⟩
        simp only [advance, hq]
        exact hrest.goto i (.wake w) (by simp) (by simp) (by simpa using hmade) (by simp [hpc]) fun _ => hown
    | wake w =>
      rw [advance]
      split
      · -- The timer of this waiter was first, and the loop takes the next one.
        have hgone : Inv (s.goto i .dequeue) := h.goto i .dequeue (by simp) (by simp) (by simp) (by simp [hpc])
          fun _ => hstill (.inl (by rw [hpc]; rfl))
        exact hgone.drop w
      · -- From here on the waiter is the next owner.
        rename_i hw
        exact h.finish i w hpc (by simpa using hw)
    | grant w => exact (h.resume i w hpc).drop w
    | store => exact h.leave i hpc

/-- **Mutual exclusion and single resumption**, while no handler outlives its wake-up. -/
theorem exclusive_and_resumed_once_of_alive (acts : List (action ι)) (halive : Guarded step Alive init acts) :
    Throughout step (fun s => Exclusive s ∧ ResumedOnce s) init acts := by
  have hinv : Throughout step Inv init acts := throughout_of_inv inv_step init acts inv_init halive
  exact hinv.mono fun _ hs => ⟨hs.exclusive, hs.once.once⟩

/-- A waiter times out while the owner is about to call it, and another one gets the lock. -/
theorem exclusive_and_resumed_once_of_alive_timeout :
    Throughout step (fun s => Exclusive s ∧ ResumedOnce s) (init : system (Fin 3))
      [.call 0 (.request .lock), .step 0 false, .call 1 (.request .try_lock_x), .step 1 false, .step 1 false,
        .tick 0 .start, .call 2 (.request .lock), .step 2 false, .step 2 false, .tick 0 .expire, .call 0 .unlock,
        .step 0 false, .tick 0 (.run 0), .tick 0 (.dispatch 0), .step 0 false, .step 0 false, .step 0 false,
        .step 0 false, .step 1 false, .step 2 false] :=
  exclusive_and_resumed_once_of_alive _ (by decide)

/-- The handler of a timer that has expired too late finds the wake-up of a later waiter in the memory of its own.
`lock` returns to that waiter, and the mutex has two owners. -/
theorem late_handler_resumes_another :
    ¬ ∀ acts : List (action (Fin 3)), Throughout step (fun s => Exclusive s ∧ ResumedOnce s) init acts := by
  intro h
  obtain ⟨hexclusive, -⟩ := (h [.call 0 (.request .lock), .step 0 false, .call 1 (.request .try_lock_x), .step 1 false,
    .step 1 false, .tick 0 .start, .tick 0 .expire, .call 0 .unlock, .step 0 false, .step 0 false, .step 0 false,
    .step 1 false, .call 2 (.request .lock), .step 2 false, .step 2 false, .tick 0 (.run 1), .tick 0 (.dispatch 1),
    .step 2 false]).last
  have := hexclusive 1 2 (.inl (by decide)) (.inl (by decide))
  cases this

/-! ## What a step does to ownership -/

theorem owns_goto {s : system ι} {i : ι} {p : pc} (hwait : ∀ timed w, p ≠ .waiting timed w)
    (hi : p.owner = true ↔ Owns s i) (j : ι) : Owns (s.goto i p) j ↔ Owns s j := by
  by_cases hji : j = i
  · rw [hji, ← hi]
    unfold Owns
    simp [hwait]
  · exact owns_goto_of_ne hji p

/-- The ownership stays as it is, or a free mutex is taken, or it is handed over, or given up. -/
inductive Ownership (s s' : system ι) : Prop
  | same (howns : ∀ j, Owns s' j ↔ Owns s j) (hflag : s'.m_native_handle = s.m_native_handle)
  | taken (hfree : s.m_native_handle = false) (i : ι) (hi : Owns s' i)
  | handed_over (i : ι) (w : ℕ) (hi : s.pcs i = .grant w) (j : ι) (hj : Owns s' j)
  | given_up (i : ι) (hi : s.pcs i = .store) (hflag : s'.m_native_handle = false)

omit [DecidableEq ι] in
theorem owns_iff {s : system ι} {i : ι} (h : ∀ timed w, s.pcs i ≠ .waiting timed w) :
    Owns s i ↔ (s.pcs i).owner = true := by
  unfold Owns
  simp [h]

theorem Ownership.goto {s : system ι} (i : ι) (p : pc) (hfrom : ∀ timed w, s.pcs i ≠ .waiting timed w)
    (hto : ∀ timed w, p ≠ .waiting timed w) (howner : p.owner = (s.pcs i).owner) (u : wake_ups)
    (hu : u.resumed = s.wake_ups.resumed) : Ownership s { s.goto i p with wake_ups := u } := by
  refine .same (fun j => ?_) rfl
  have hgoto : Owns { s.goto i p with wake_ups := u } j ↔ Owns (s.goto i p) j := by simp [Owns, hu]
  exact hgoto.trans (owns_goto hto (by rw [howner, owns_iff hfrom]) j)

theorem call_ownership (s : system ι) (i : ι) (o : op) : Ownership s (s.goto i (enter (s.pcs i) o)) := by
  cases hpc : s.pcs i with
  | idle =>
    cases o with
    | request r => exact .goto i (.cas r) (by simp [hpc]) (by simp) (by simp [hpc, pc.owner]) _ rfl
    | unlock => exact .goto i .idle (by simp [hpc]) (by simp) (by simp [hpc]) _ rfl
  | holding =>
    cases o with
    | request r => exact .goto i .holding (by simp [hpc]) (by simp) (by simp [hpc]) _ rfl
    | unlock => exact .goto i .dequeue (by simp [hpc]) (by simp) (by simp [hpc, pc.owner]) _ rfl
  | _ =>
    have hsame : s.goto i (s.pcs i) = s := by simp [system.goto]
    rw [hpc] at hsame
    exact (congrArg (Ownership s) hsame).mpr (.same (fun _ => .rfl) rfl)

theorem step_ownership (s : system ι) (a : action ι) (h : Inv s) : Ownership s (step s a) := by
  cases a with
  | call i o => exact call_ownership s i o
  | tick w e => exact .same (fun j => by simp [Owns, step]) rfl
  | step i spurious =>
    show Ownership s (advance s i spurious (s.pcs i))
    cases hpc : s.pcs i with
    | idle => exact .same (fun _ => .rfl) rfl
    | holding => exact .same (fun _ => .rfl) rfl
    | cas r =>
      rw [advance]
      split
      · -- The exchange takes a free mutex.
        rename_i hfree
        exact .taken (by simpa using hfree.1) i (.inl (by simp [pc.owner]))
      · cases r <;>
          exact .goto i _ (by simp [hpc]) (by simp [request.refused]) (by simp [hpc, pc.owner, request.refused]) _ rfl
    | emplace timed =>
      have hfresh : s.wake_ups.resumed s.wake_ups.made = [] :=
        (h.once.offered.fresh _ (Nat.le_refl _)).2.2
      refine .same (fun j => ?_) rfl
      by_cases hji : j = i
      · rw [hji]
        simp [Owns, advance, hpc, pc.owner, hfresh]
      · simp [Owns, advance, hji]
    | waiting timed w =>
      cases hr : s.wake_ups.resumed w with
      | nil => simpa [advance, hr] using Ownership.same (fun _ => .rfl) rfl
      | cons success more =>
        obtain rfl : more = [] := by
          have := h.once.once w
          rw [hr] at this
          exact List.eq_nil_of_length_eq_zero (by simpa using this)
        -- Whoever is resumed with success is the owner already.
        have hown : Owns s i ↔ success = true := by simp [Owns, hpc, pc.owner, hr, eq_comm]
        have huntimed : timed = false → success = true := by
          rintro rfl
          have := (h.untimed i w hpc).2
          simpa [hr] using this
        simp only [advance, hr]
        refine .same (owns_goto (by split <;> simp) ?_) rfl
        rw [hown]
        cases timed <;> cases success <;> simp_all [pc.owner]
    | dequeue =>
      simp only [advance]
      split
      · exact .goto i .store (by simp [hpc]) (by simp) (by simp [hpc, pc.owner]) _ rfl
      · exact .goto i (.wake _) (by simp [hpc]) (by simp) (by simp [hpc, pc.owner]) _ rfl
    | wake w =>
      rw [advance]
      split
      · exact .goto i .dequeue (by simp [hpc]) (by simp) (by simp [hpc, pc.owner]) _ rfl
      · exact .goto i (.grant w) (by simp [hpc]) (by simp) (by simp [hpc, pc.owner]) _ rfl
    | grant w =>
      -- The ownership goes to the coroutine that waits for this wake-up.
      have hf := (h.once.offered.claim w ⟨i, hpc⟩).1
      have hr := (h.once.claim w ⟨i, hpc⟩).1
      obtain ⟨j, timed, hj⟩ := h.stays w (h.once.offered.lt_made (.inl hf)) hr
      have hji : j ≠ i := by
        rintro rfl
        simp [hpc] at hj
      exact .handed_over i w hpc j (.inr ⟨timed, w, by simpa [advance, hji] using hj, by simp [advance]⟩)
    | store => exact .given_up i hpc rfl

theorem owned_step (s : system ι) (a : action ι) (h : Inv s) (ho : s.m_native_handle = true → ∃ i, Owns s i)
    (hflag : (step s a).m_native_handle = true) : ∃ i, Owns (step s a) i := by
  cases step_ownership s a h with
  | same howns hsame =>
    obtain ⟨i, hi⟩ := ho (hsame ▸ hflag)
    exact ⟨i, (howns i).mpr hi⟩
  | taken _ i hi => exact ⟨i, hi⟩
  | handed_over _ _ _ j hj => exact ⟨j, hj⟩
  | given_up i hi hclear =>
    rw [hclear] at hflag
    cases hflag

theorem sealed_step (s : system ι) (a : action ι) (h : Inv s) (hlocked : s.m_native_handle = true)
    (hgrant : ∀ i w, s.pcs i ≠ .grant w) (hstore : ∀ i, s.pcs i ≠ .store) :
    (step s a).m_native_handle = true ∧ ∀ i, Owns (step s a) i ↔ Owns s i := by
  cases step_ownership s a h with
  | same howns hsame => exact ⟨hsame.trans hlocked, howns⟩
  | taken hfree => simp [hlocked] at hfree
  | handed_over i w hi => exact absurd hi (hgrant i w)
  | given_up i hi => exact absurd hi (hstore i)

/-! ## No lost wake-up -/

/-- The coroutine is in no call, or suspended in one. -/
def pc.quiet : pc → Bool
  | .idle | .holding | .waiting _ _ => true
  | _ => false

/-- The mutex is not free while a waiter is left in the queue and nobody does anything. -/
def NoneLost (s : system ι) : Prop :=
  (∀ i, (s.pcs i).quiet = true) → s.m_native_handle = false → ¬ s.wake_ups.Pending

/-- A waiter joins the queue only while the flag is set and no `unlock` that has seen the queue empty is about to
clear it. -/
def Careful (s : system ι) : action ι → Prop
  | .step i _ => ∀ timed, s.pcs i = .emplace timed → s.m_native_handle = true ∧ ∀ j, s.pcs j ≠ .store
  | _ => True

instance [Fintype ι] (s : system ι) (a : action ι) : Decidable (Careful s a) :=
  match a with
  | .step i _ =>
    inferInstanceAs (Decidable (∀ timed, s.pcs i = .emplace timed → s.m_native_handle = true ∧ ∀ j, s.pcs j ≠ .store))
  | .call _ _ => isTrue trivial
  | .tick _ _ => isTrue trivial

/-- Nobody can miss a waiter that is in the queue. -/
def Served (s : system ι) : Prop := s.wake_ups.Pending → s.m_native_handle = true ∧ ∀ j, s.pcs j ≠ .store

omit [DecidableEq ι] in
theorem Served.none_lost {s : system ι} (h : Served s) : NoneLost s := by
  intro _ hfree hw
  simp [(h hw).1] at hfree

theorem Served.goto {s : system ι} (h : Served s) (i : ι) (p : pc)
    (hp : p = .store → s.wake_ups.Pending → s.pcs i = .store) : Served (s.goto i p) := by
  intro hw
  obtain ⟨hlocked, hnone⟩ := h hw
  refine ⟨hlocked, fun j hj => ?_⟩
  by_cases hji : j = i
  · exact hnone i (hp (by simpa [hji] using hj) hw)
  · exact hnone j (by simpa [hji] using hj)

omit [DecidableEq ι] in
theorem Served.queue {s : system ι} (h : Served s) (u : wake_ups) (hu : u.Pending → s.wake_ups.Pending) :
    Served { s with wake_ups := u } :=
  fun hw => h (hu hw)

theorem served_call (s : system ι) (i : ι) (o : op) (h : Served s) : Served (s.goto i (enter (s.pcs i) o)) := by
  apply h.goto
  cases hpc : s.pcs i with
  | store => exact fun _ _ => rfl
  | _ => cases o <;> simp [enter]

theorem served_step (s : system ι) (a : action ι) (h : Served s) (hc : Careful s a) : Served (step s a) := by
  cases a with
  | call i o => exact served_call s i o h
  | tick w e => exact h.queue _ wake_ups.Pending.of_tick
  | step i spurious =>
    show Served (advance s i spurious (s.pcs i))
    cases hpc : s.pcs i with
    | idle => exact h
    | holding => exact h
    | cas r =>
      rw [advance]
      split
      · rename_i hfree
        intro hw
        simp [(h hw).1] at hfree
      · exact h.goto i _ (by cases r <;> simp [request.refused])
    | emplace timed =>
      obtain ⟨hlocked, hnone⟩ := hc timed hpc
      refine fun _ => ⟨hlocked, fun j => ?_⟩
      by_cases hji : j = i
      · simp [advance, hji]
      · simpa [advance, hji] using hnone j
    | waiting timed w =>
      rw [advance]
      split
      · exact h
      · rename_i success _ _
        exact h.goto i _ (by cases timed <;> cases success <;> simp)
    | dequeue =>
      cases hq : s.wake_ups.m_wait_queue with
      | nil =>
        have hnone := wake_ups.not_pending_of_empty hq
        simp only [advance, hq]
        exact h.goto i .store fun _ hw => absurd hw hnone
      | cons w rest =>
        simp only [advance, hq]
        exact (h.goto i (.wake w) (by simp)).queue _ (wake_ups.Pending.of_dequeue hq)
    | wake w =>
      rw [advance]
      split
      · exact h.goto i .dequeue (by simp)
      · exact (h.goto i (.grant w) (by simp)).queue _ wake_ups.Pending.of_finish
    | grant w => exact (h.goto i .idle (by simp)).queue _ id
    | store => exact fun hw => absurd hpc ((h hw).2 i)

theorem throughout_none_lost (acts : List (action ι)) (h : Guarded step Careful init acts) :
    Throughout step NoneLost init acts := by
  have hstart : Served (init : system ι) := fun hw => absurd hw wake_ups.not_pending_init
  have hserved : Throughout step Served init acts := throughout_of_inv served_step init acts hstart h
  exact hserved.mono fun _ hs => hs.none_lost

end Libgs.Sync.co_mutex
