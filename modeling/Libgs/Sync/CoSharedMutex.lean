import Libgs.Sync.CoMutex
import Mathlib.Algebra.Group.Nat.Defs

/-!
# The coroutine reader-writer lock

`co_shared_mutex` of `core/coro/detail/shared_mutex.h` over `co_mutex`. Its timed calls do not compile: `co_mutex`
has no `try_lock` with a timeout.
-/

namespace Libgs.Sync.co_shared_mutex

open Lib

/-! ## The lock and its callers -/

/-- Where a coroutine stands in the shared calls. In `none` it is in none of them, and in `first` it is in
the calls of the native mutex as the first reader, or holds it as such. -/
inductive role
  | none
  /-- `++m_read_count` in `lock_shared` or, where it may not block, in `try_lock_shared` -/
  | add (blocking : Bool)
  | first
  /-- A reader that has passed by the native mutex -/
  | joined
  | leave_load
  | leave_cas (counter : ℕ)
  deriving DecidableEq, Repr

/-- The counter of the readers, the native mutex, and what every coroutine is about -/
structure system (ι : Type) where
  m_read_count : ℕ
  m_native_handle : co_mutex.system ι
  roles : ι → role

def init {ι : Type} : system ι := ⟨0, co_mutex.init, fun _ => .none⟩

def uint_max : ℕ := 2 ^ 32

inductive op
  | lock
  | try_lock
  | unlock
  | lock_shared
  | try_lock_shared
  | unlock_shared
  deriving DecidableEq, Repr

/-- A coroutine begins a call or takes its next step, or a timer has an event. -/
inductive action (ι : Type)
  | call (i : ι) (o : op)
  | step (i : ι) (spurious : Bool)
  | tick (w : ℕ) (e : timer_event)

variable {ι : Type} [DecidableEq ι]

/-- The coroutine goes to a place in the shared calls and to one in those of the native mutex. -/
def system.goto (s : system ι) (i : ι) (r : role) (p : co_mutex.pc) : system ι :=
  { s with m_native_handle := s.m_native_handle.goto i p, roles := Function.update s.roles i r }

/-- Only a holder unlocks, and only its own kind. A first reader that leaves does not unlock the native mutex. -/
def call (s : system ι) (i : ι) (o : op) : system ι :=
  match s.roles i, s.m_native_handle.pcs i, o with
  | .none, .idle, .lock => s.goto i .none (.cas .lock)
  | .none, .idle, .try_lock => s.goto i .none (.cas .try_lock)
  | .none, .holding, .unlock => s.goto i .none .dequeue
  | .none, .idle, .lock_shared => s.goto i (.add true) .idle
  | .none, .idle, .try_lock_shared => s.goto i (.add false) .idle
  | .first, .holding, .unlock_shared => s.goto i .leave_load .idle
  | .joined, _, .unlock_shared => s.goto i .leave_load .idle
  | _, _, _ => s

/-- The coroutine takes its step in the native mutex. -/
def native_step (s : system ι) (i : ι) (spurious : Bool) : system ι :=
  { s with m_native_handle := co_mutex.step s.m_native_handle (.step i spurious) }

def advance (s : system ι) (i : ι) (spurious : Bool) : role → system ι
  | .none => native_step s i spurious
  | .add blocking =>
    let count := (s.m_read_count + 1) % uint_max
    let next :=
      if count = 1 then s.goto i .first (.cas (if blocking then .lock else .try_lock))
      else s.goto i .joined .idle
    { next with m_read_count := count }
  | .first =>
    let next := native_step s i spurious
    if next.m_native_handle.pcs i = .idle then { next with roles := Function.update s.roles i .none } else next
  | .joined => s
  | .leave_load =>
    if s.m_read_count = 0 then s.goto i .none .dequeue else s.goto i (.leave_cas s.m_read_count) .idle
  | .leave_cas counter =>
    let next := s.goto i .none .idle
    if s.m_read_count = counter ∧ ¬ spurious then { next with m_read_count := counter - 1 } else next

def step (s : system ι) : action ι → system ι
  | .call i o => call s i o
  | .step i spurious => advance s i spurious (s.roles i)
  | .tick w e => { s with m_native_handle := co_mutex.step s.m_native_handle (.tick w e) }

@[simp] theorem goto_roles (s : system ι) (i j : ι) (r : role) (p : co_mutex.pc) :
    (s.goto i r p).roles j = if j = i then r else s.roles j :=
  Function.update_apply ..

@[simp] theorem goto_native (s : system ι) (i : ι) (r : role) (p : co_mutex.pc) :
    (s.goto i r p).m_native_handle = s.m_native_handle.goto i p := rfl

/-! ## A reader-writer lock -/

/-- The coroutine owns the lock alone. -/
def Writes (s : system ι) (i : ι) : Prop := s.roles i = .none ∧ s.m_native_handle.pcs i = .holding

/-- The coroutine owns the lock as a reader. -/
def Reads (s : system ι) (i : ι) : Prop :=
  s.roles i = .joined ∨ s.roles i = .first ∧ s.m_native_handle.pcs i = .holding

/-- A reader that has passed by the native mutex or is in `unlock_shared` -/
def role.inside : role → Bool
  | .joined | .leave_load | .leave_cas _ => true
  | _ => false

/-- A holder of either kind, from the moment it becomes one to the last step of its unlocking -/
def Holds (s : system ι) (i : ι) : Prop := co_mutex.Owns s.m_native_handle i ∨ (s.roles i).inside = true

/-- A writer is in alone, and when every holder has released the lock a writer's `try_lock` succeeds. -/
structure ReadersWriter (s : system ι) : Prop where
  exclusive : ∀ i j, Writes s i → Writes s j ∨ Reads s j → i = j
  available : (∀ i, ¬ Holds s i) → ∀ i, s.roles i = .none → s.m_native_handle.pcs i = .idle →
    Writes (run step s [.call i .try_lock, .step i false]) i

/-- A reader passes by a nonzero counter only while another reader is in, it leaves only while another one is in,
and the counter it leaves is not zero. -/
def Careful (s : system ι) : action ι → Prop
  | .call i o => o = .unlock_shared → Reads s i → ∃ j, j ≠ i ∧ Reads s j
  | .step i _ =>
    (∀ blocking, s.roles i = .add blocking → (s.m_read_count + 1) % uint_max ≠ 1 → ∃ j, Reads s j) ∧
      (s.roles i = .leave_load → s.m_read_count ≠ 0)
  | .tick _ _ => True

instance (s : system ι) (i : ι) : Decidable (Reads s i) :=
  inferInstanceAs (Decidable (s.roles i = .joined ∨ s.roles i = .first ∧ s.m_native_handle.pcs i = .holding))

instance [Fintype ι] (s : system ι) (a : action ι) : Decidable (Careful s a) :=
  match a with
  | .call i o => inferInstanceAs (Decidable (o = .unlock_shared → Reads s i → ∃ j, j ≠ i ∧ Reads s j))
  | .step i _ => inferInstanceAs (Decidable (
      (∀ blocking, s.roles i = .add blocking → (s.m_read_count + 1) % uint_max ≠ 1 → ∃ j, Reads s j) ∧
        (s.roles i = .leave_load → s.m_read_count ≠ 0)))
  | .tick _ _ => isTrue trivial

/-! ## The invariant -/

/-- Where the shared calls leave a coroutine in those of the native mutex -/
def role.allows : role → co_mutex.pc → Bool
  | .none, _ => true
  | .first, .cas _ | .first, .emplace _ | .first, .waiting _ _ | .first, .holding => true
  | .first, _ => false
  | _, .idle => true
  | _, _ => false

structure Inv (s : system ι) : Prop where
  native : co_mutex.Inv s.m_native_handle
  allowed : ∀ i, (s.roles i).allows (s.m_native_handle.pcs i) = true
  /-- The native mutex is locked while a reader is in, and no writer owns it. -/
  locked : (∃ i, Reads s i) →
    s.m_native_handle.m_native_handle = true ∧ ∀ i, co_mutex.Owns s.m_native_handle i → s.roles i = .first
  owned : (∃ i, Reads s i) ∨
    (s.m_native_handle.m_native_handle = true → ∃ i, co_mutex.Owns s.m_native_handle i)

omit [DecidableEq ι] in
theorem inv_init : Inv (init : system ι) := by
  have hnone : ¬ ∃ i, Reads (init : system ι) i := by
    rintro ⟨i, hi⟩
    simp [Reads, init] at hi
  refine ⟨co_mutex.inv_init, fun _ => rfl, fun h => absurd h hnone, .inr ?_⟩
  simp [init, co_mutex.init]

omit [DecidableEq ι] in
theorem Inv.exclusive {s : system ι} (h : Inv s) (i j : ι) (hi : Writes s i) (hj : Writes s j ∨ Reads s j) : i = j := by
  have hown : co_mutex.Owns s.m_native_handle i := .inl (by rw [hi.2]; rfl)
  rcases hj with hj | hj
  · exact h.native.exclusive i j hown (.inl (by rw [hj.2]; rfl))
  · have := (h.locked ⟨j, hj⟩).2 i hown
    simp [hi.1] at this

omit [DecidableEq ι] in
theorem Reads.holds {s : system ι} {i : ι} (h : Reads s i) : Holds s i := by
  rcases h with h | ⟨-, h⟩
  · exact .inr (by rw [h]; rfl)
  · exact .inl (.inl (by rw [h]; rfl))

theorem Inv.available {s : system ι} (h : Inv s) (hfree : ∀ i, ¬ Holds s i) (i : ι) (hr : s.roles i = .none)
    (hi : s.m_native_handle.pcs i = .idle) : Writes (run step s [.call i .try_lock, .step i false]) i := by
  have hflag : s.m_native_handle.m_native_handle = false := by
    rcases h.owned with ⟨j, hj⟩ | howned
    · exact absurd hj.holds (hfree j)
    · by_contra hlocked
      obtain ⟨j, hj⟩ := howned (by simpa using hlocked)
      exact hfree j (.inl hj)
  simp [run, step, call, hr, hi, advance, native_step, co_mutex.step, co_mutex.advance, hflag, Writes]

omit [DecidableEq ι] in
theorem Inv.nobody_unlocks {s : system ι} (h : Inv s) (hr : ∃ i, Reads s i) (i : ι) (p : co_mutex.pc)
    (hi : s.m_native_handle.pcs i = p) (hp : p.owner = true) : p = .holding := by
  have hfirst := (h.locked hr).2 i (.inl (by rw [hi]; exact hp))
  have hallowed := h.allowed i
  rw [hfirst, hi] at hallowed
  cases p <;> simp_all [role.allows, co_mutex.pc.owner]

omit [DecidableEq ι] in
theorem Reads.of_eq {s s' : system ι} {i : ι} (h : Reads s i) (hr : s'.roles i = s.roles i)
    (hp : s'.m_native_handle.pcs i = s.m_native_handle.pcs i) : Reads s' i := by
  unfold Reads
  rw [hr, hp]
  exact h

theorem Inv.goto {s : system ι} (h : Inv s) (i : ι) (r : role) (p : co_mutex.pc) (n : ℕ)
    (hfrom : ∀ timed w, s.m_native_handle.pcs i ≠ .waiting timed w) (hto : p = .idle ∨ ∃ q, p = .cas q)
    (hallows : r.allows p = true) (hjoin : r = .joined → ∃ j, Reads s j)
    (hleave : Reads s i → ∃ j, j ≠ i ∧ Reads s j)
    (hown : co_mutex.Owns s.m_native_handle i → ∃ j, Reads s j) :
    Inv { s.goto i r p with m_read_count := n } := by
  set s' := { s.goto i r p with m_read_count := n } with hs'
  have hother : ∀ j, j ≠ i → (Reads s' j ↔ Reads s j) := by
    intro j hj
    have hroles : s'.roles j = s.roles j := by simp [hs', hj]
    have hpcs : s'.m_native_handle.pcs j = s.m_native_handle.pcs j := by simp [hs', hj]
    exact ⟨fun h => h.of_eq hroles.symm hpcs.symm, fun h => h.of_eq hroles hpcs⟩
  have hreads : (∃ j, Reads s' j) → ∃ j, Reads s j := by
    rintro ⟨j, hj⟩
    by_cases hji : j = i
    · rcases hj with hj | ⟨-, hj⟩
      · exact hjoin (by simpa [hs', hji] using hj)
      · rcases hto with rfl | ⟨q, rfl⟩ <;> simp [hs', hji] at hj
    · exact ⟨j, (hother j hji).mp hj⟩
  have hkeep : (∃ j, Reads s j) → ∃ j, Reads s' j := by
    rintro ⟨j, hj⟩
    by_cases hji : j = i
    · obtain ⟨k, hki, hk⟩ := hleave (hji ▸ hj)
      exact ⟨k, (hother k hki).mpr hk⟩
    · exact ⟨j, (hother j hji).mpr hj⟩
  have howns : ∀ j, co_mutex.Owns s'.m_native_handle j ↔ j ≠ i ∧ co_mutex.Owns s.m_native_handle j := by
    intro j
    by_cases hji : j = i
    · rcases hto with rfl | ⟨q, rfl⟩ <;> simp [hs', hji, co_mutex.Owns, co_mutex.pc.owner]
    · exact (co_mutex.owns_goto_of_ne hji p).trans (by simp [hji])
  constructor
  · apply h.native.goto
    · rcases hto with rfl | ⟨q, rfl⟩ <;> simp
    · rcases hto with rfl | ⟨q, rfl⟩ <;> simp
    · rcases hto with rfl | ⟨q, rfl⟩ <;> simp
    · exact fun timed w hw => absurd hw (hfrom timed w)
    · rcases hto with rfl | ⟨q, rfl⟩ <;> simp [co_mutex.pc.owner]
  · intro j
    by_cases hji : j = i
    · simpa [hs', hji] using hallows
    · simpa [hs', hji] using h.allowed j
  · intro hr
    obtain ⟨hlocked, hfirst⟩ := h.locked (hreads hr)
    refine ⟨hlocked, fun j hj => ?_⟩
    obtain ⟨hji, hj⟩ := (howns j).mp hj
    simpa [hs', hji] using hfirst j hj
  · rcases h.owned with hr | howned
    · exact .inl (hkeep hr)
    · by_cases hi : co_mutex.Owns s.m_native_handle i
      · exact .inl (hkeep (hown hi))
      · refine .inr fun hlocked => ?_
        obtain ⟨j, hj⟩ := howned hlocked
        refine ⟨j, (howns j).mpr ⟨?_, hj⟩⟩
        rintro rfl
        exact hi hj

theorem Inv.native_step {s : system ι} (h : Inv s) (a : co_mutex.action ι) (roles : ι → role)
    (halive : co_mutex.Alive s.m_native_handle a)
    (hallowed : ∀ j, (roles j).allows ((co_mutex.step s.m_native_handle a).pcs j) = true)
    (hjoined : ∀ j, roles j = .joined → s.roles j = .joined)
    (hfirst : ∀ j, s.roles j = .first → co_mutex.Owns (co_mutex.step s.m_native_handle a) j → roles j = .first)
    (hkeep : ∀ j, Reads s j →
      Reads { s with m_native_handle := co_mutex.step s.m_native_handle a, roles := roles } j) :
    Inv { s with m_native_handle := co_mutex.step s.m_native_handle a, roles := roles } := by
  have hnative : co_mutex.Inv (co_mutex.step s.m_native_handle a) := co_mutex.inv_step _ a h.native halive
  by_cases hr : ∃ j, Reads s j
  · obtain ⟨hlocked, hown⟩ := h.locked hr
    have hgrant : ∀ i w, s.m_native_handle.pcs i ≠ .grant w := fun i w hi => by cases h.nobody_unlocks hr i _ hi rfl
    have hstore : ∀ i, s.m_native_handle.pcs i ≠ .store := fun i hi => by cases h.nobody_unlocks hr i _ hi rfl
    obtain ⟨hstill, howns⟩ := co_mutex.sealed_step s.m_native_handle a h.native hlocked hgrant hstore
    obtain ⟨j, hj⟩ := hr
    exact ⟨hnative, hallowed, fun _ => ⟨hstill, fun k hk => hfirst k (hown k ((howns k).mp hk)) hk⟩,
      .inl ⟨j, hkeep j hj⟩⟩
  · refine ⟨hnative, hallowed, ?_, .inr ?_⟩
    · rintro ⟨j, hj | ⟨hfirst, hj⟩⟩
      · exact absurd ⟨j, .inl (hjoined j hj)⟩ hr
      · have hown : co_mutex.Owns (co_mutex.step s.m_native_handle a) j := .inl (by rw [hj]; rfl)
        refine ⟨hnative.locked j hown, fun k hk => ?_⟩
        rw [hnative.exclusive k j hk hown]
        exact hfirst
    · exact co_mutex.owned_step _ a h.native (h.owned.resolve_left hr)

omit [DecidableEq ι] in
theorem not_reads {s : system ι} {i : ι} (h : s.roles i ≠ .joined) (hfirst : s.roles i ≠ .first) : ¬ Reads s i := by
  rintro (hi | ⟨hi, -⟩)
  · exact h hi
  · exact hfirst hi

omit [DecidableEq ι] in
theorem not_owns {s : system ι} {i : ι} (h : s.m_native_handle.pcs i = .idle) :
    ¬ co_mutex.Owns s.m_native_handle i := by
  rw [co_mutex.owns_iff (by simp [h]), h]
  simp [co_mutex.pc.owner]

omit [DecidableEq ι] in
theorem not_holds {s : system ι} {i : ι} (hr : s.roles i = .none) (hp : s.m_native_handle.pcs i = .idle) :
    ¬ Holds s i := by
  rintro (h | h)
  · exact not_owns hp h
  · rw [hr] at h
    cases h

theorem Inv.native_alone {s : system ι} (h : Inv s) (i : ι) (a : co_mutex.action ι) (hr : s.roles i = .none)
    (halive : co_mutex.Alive s.m_native_handle a)
    (hother : ∀ j, j ≠ i → (co_mutex.step s.m_native_handle a).pcs j = s.m_native_handle.pcs j) :
    Inv { s with m_native_handle := co_mutex.step s.m_native_handle a } := by
  apply h.native_step a s.roles halive
  · intro j
    by_cases hji : j = i
    · simp [hji, hr, role.allows]
    · rw [hother j hji]
      exact h.allowed j
  · exact fun _ => id
  · exact fun _ hj _ => hj
  · intro j hj
    have hji : j ≠ i := by
      rintro rfl
      exact not_reads (by simp [hr]) (by simp [hr]) hj
    exact hj.of_eq rfl (hother j hji)

theorem Inv.pass {s : system ι} (h : Inv s) (i : ι) (r : role) (p : co_mutex.pc) (n : ℕ)
    (hi : s.m_native_handle.pcs i = .idle) (hr : s.roles i ≠ .joined) (hto : p = .idle ∨ ∃ q, p = .cas q)
    (hallows : r.allows p = true) (hjoin : r = .joined → ∃ j, Reads s j) :
    Inv { s.goto i r p with m_read_count := n } := by
  refine h.goto i r p n (by simp [hi]) hto hallows hjoin ?_ fun hown => absurd hown (not_owns hi)
  rintro (hj | ⟨-, hj⟩)
  · exact absurd hj hr
  · simp [hi] at hj

theorem Inv.call {s : system ι} (h : Inv s) (i : ι) (o : op) (hc : Careful s (.call i o)) : Inv (call s i o) := by
  unfold co_shared_mutex.call
  split
  · rename_i hr hi
    exact h.pass i .none (.cas .lock) s.m_read_count hi (by simp [hr]) (.inr ⟨_, rfl⟩) rfl (by simp)
  · rename_i hr hi
    exact h.pass i .none (.cas .try_lock) s.m_read_count hi (by simp [hr]) (.inr ⟨_, rfl⟩) rfl (by simp)
  · rename_i hr hi
    have hsame : Function.update s.roles i .none = s.roles := by rw [← hr, Function.update_eq_self]
    have hother : ∀ j, j ≠ i → (s.m_native_handle.goto i .dequeue).pcs j = s.m_native_handle.pcs j :=
      fun j hj => by simp [hj]
    have hstep : co_mutex.step s.m_native_handle (.call i .unlock) = s.m_native_handle.goto i .dequeue := by
      simp [co_mutex.step, hi, co_mutex.enter]
    have hinv := h.native_alone i (.call i .unlock) hr trivial
    rw [hstep] at hinv
    unfold system.goto
    rw [hsame]
    exact hinv hother
  · rename_i hr hi
    exact h.pass i (.add true) .idle s.m_read_count hi (by simp [hr]) (.inl rfl) rfl (by simp)
  · rename_i hr hi
    exact h.pass i (.add false) .idle s.m_read_count hi (by simp [hr]) (.inl rfl) rfl (by simp)
  · rename_i hr hi
    have hreads : Reads s i := .inr ⟨hr, hi⟩
    exact h.goto i .leave_load .idle s.m_read_count (by simp [hi]) (.inl rfl) rfl (by simp) (hc rfl)
      fun _ => ⟨i, hreads⟩
  · rename_i hr
    have hidle : s.m_native_handle.pcs i = .idle := by
      have := h.allowed i
      rw [hr] at this
      unfold role.allows at this
      split at this <;> simp_all
    have hreads : Reads s i := .inl hr
    exact h.goto i .leave_load .idle s.m_read_count (by simp [hidle]) (.inl rfl) rfl (by simp) (hc rfl)
      fun _ => ⟨i, hreads⟩
  · exact h

theorem first_step (m : co_mutex.system ι) (i : ι) (spurious : Bool) (h : role.first.allows (m.pcs i) = true)
    (hnot : (co_mutex.step m (.step i spurious)).pcs i ≠ .idle) :
    role.first.allows ((co_mutex.step m (.step i spurious)).pcs i) = true := by
  have hstep : co_mutex.step m (.step i spurious) = co_mutex.advance m i spurious (m.pcs i) := rfl
  rw [hstep] at hnot ⊢
  cases hpc : m.pcs i with
  | cas r =>
    rw [hpc] at hnot
    simp only [co_mutex.advance] at hnot ⊢
    by_cases hfree : ¬ m.m_native_handle ∧ ¬ spurious
    · simp [hfree, role.allows]
    · rw [if_neg hfree] at hnot ⊢
      cases r <;> simp_all [co_mutex.request.refused, role.allows]
  | emplace timed => simp [co_mutex.advance, role.allows]
  | waiting timed w =>
    rw [hpc] at hnot
    simp only [co_mutex.advance] at hnot ⊢
    split at hnot
    · simp [hpc, role.allows]
    · rename_i success _ _
      cases timed <;> cases success <;> simp_all [role.allows]
  | holding => simp [co_mutex.advance, hpc, role.allows]
  | _ => simp [hpc, role.allows] at h

/-! ### Timers

None is ever started: without timed calls nobody waits with one, or is about to. -/

def timed : co_mutex.pc → Bool
  | .cas .try_lock_x | .emplace true => true
  | _ => false

structure Untimed (m : co_mutex.system ι) : Prop where
  off : ∀ w, m.wake_ups.m_timer w = .off
  never : ∀ i, timed (m.pcs i) = false

omit [DecidableEq ι] in
theorem untimed_init : Untimed (co_mutex.init : co_mutex.system ι) := ⟨fun _ => rfl, fun _ => rfl⟩

theorem Untimed.goto {m : co_mutex.system ι} (h : Untimed m) (i : ι) (p : co_mutex.pc) (hp : timed p = false) :
    Untimed (m.goto i p) := by
  refine ⟨h.off, fun j => ?_⟩
  by_cases hji : j = i
  · simpa [hji] using hp
  · simpa [hji] using h.never j

omit [DecidableEq ι] in
theorem Untimed.queue {m : co_mutex.system ι} (h : Untimed m) (u : wake_ups) (hu : ∀ w, u.m_timer w = .off) :
    Untimed { m with wake_ups := u } :=
  ⟨hu, h.never⟩

theorem Untimed.advance {m : co_mutex.system ι} (h : Untimed m) (i : ι) (spurious : Bool) :
    Untimed (co_mutex.advance m i spurious (m.pcs i)) := by
  have hi := h.never i
  cases hpc : m.pcs i with
  | idle => exact h
  | holding => exact h
  | cas r =>
    rw [co_mutex.advance]
    split
    · exact ⟨(h.goto i .holding rfl).off, (h.goto i .holding rfl).never⟩
    · rw [hpc] at hi
      exact h.goto i _ (by cases r <;> simp_all [co_mutex.request.refused, timed])
  | emplace timed' =>
    rw [hpc] at hi
    obtain rfl : timed' = false := by
      cases timed' <;> simp_all [timed]
    exact (h.goto i (.waiting false m.wake_ups.made) rfl).queue _ fun w => by simp [h.off]
  | waiting timed' w =>
    rw [co_mutex.advance]
    split
    · exact h
    · exact h.goto i _ (by split <;> rfl)
  | dequeue =>
    cases hq : m.wake_ups.m_wait_queue with
    | nil =>
      simp only [co_mutex.advance, hq]
      exact h.goto i .store rfl
    | cons w rest =>
      simp only [co_mutex.advance, hq]
      exact (h.goto i (.wake w) rfl).queue _ h.off
  | wake w =>
    rw [co_mutex.advance]
    split
    · exact (h.goto i .dequeue rfl).queue _ h.off
    · exact (h.goto i (.grant w) rfl).queue _ h.off
  | grant w => exact (h.goto i .idle rfl).queue _ fun v => by simp [h.off]
  | store => exact ⟨(h.goto i .idle rfl).off, (h.goto i .idle rfl).never⟩

omit [DecidableEq ι] in
theorem Untimed.tick {m : co_mutex.system ι} (h : Untimed m) (w : ℕ) (e : timer_event) :
    { m with wake_ups := m.wake_ups.tick w e } = m := by
  rw [wake_ups.tick_off e (h.off w)]

theorem untimed_call (s : system ι) (i : ι) (o : op) (h : Untimed s.m_native_handle) :
    Untimed (call s i o).m_native_handle := by
  unfold co_shared_mutex.call
  split
  all_goals first | exact h | exact h.goto i _ rfl

theorem untimed_advance (s : system ι) (i : ι) (spurious : Bool) (h : Untimed s.m_native_handle) :
    Untimed (advance s i spurious (s.roles i)).m_native_handle := by
  cases hr : s.roles i with
  | none => exact h.advance i spurious
  | add blocking =>
    by_cases hfirst : (s.m_read_count + 1) % uint_max = 1
    · simp only [advance, hfirst, if_true]
      exact h.goto i _ (by cases blocking <;> rfl)
    · simp only [advance, hfirst, if_false]
      exact h.goto i .idle rfl
  | first =>
    have hnext : Untimed (native_step s i spurious).m_native_handle := h.advance i spurious
    dsimp only [advance]
    split
    · exact hnext
    · exact hnext
  | joined => exact h
  | leave_load =>
    rw [advance]
    split
    · exact h.goto i .dequeue rfl
    · exact h.goto i .idle rfl
  | leave_cas counter =>
    dsimp only [advance]
    split
    · exact h.goto i .idle rfl
    · exact h.goto i .idle rfl

theorem untimed_step (s : system ι) (a : action ι) (h : Untimed s.m_native_handle) :
    Untimed (step s a).m_native_handle := by
  cases a with
  | call i o => exact untimed_call s i o h
  | step i spurious => exact untimed_advance s i spurious h
  | tick w e => exact (congrArg Untimed (h.tick w e)).mpr h

theorem inv_step (s : system ι) (a : action ι) (h : Inv s) (hu : Untimed s.m_native_handle) (hc : Careful s a) :
    Inv (step s a) := by
  cases a with
  | call i o => exact h.call i o hc
  | tick w e =>
    have hsame : step s (.tick w e) = s := by
      rw [step, co_mutex.step, hu.tick w e]
    rwa [hsame]
  | step i spurious =>
    unfold Careful at hc
    show Inv (advance s i spurious (s.roles i))
    have hother : ∀ j, j ≠ i → (co_mutex.step s.m_native_handle (.step i spurious)).pcs j = s.m_native_handle.pcs j :=
      fun j hj => co_mutex.advance_pcs_of_ne _ i j spurious _ hj
    have hidle : (s.roles i ≠ .none ∧ s.roles i ≠ .first) → s.m_native_handle.pcs i = .idle := by
      rintro ⟨hnone, hfirst⟩
      have := h.allowed i
      unfold role.allows at this
      split at this <;> simp_all
    cases hr : s.roles i with
    | none => exact h.native_alone i (.step i spurious) hr trivial hother
    | add blocking =>
      -- The first reader goes for the native mutex. Any other joins the readers that are in, by the condition.
      have hi := hidle (by simp [hr])
      by_cases hfirst : (s.m_read_count + 1) % uint_max = 1
      · have hinv := h.pass i .first (.cas (if blocking then .lock else .try_lock)) 1 hi (by simp [hr]) (.inr ⟨_, rfl⟩)
          rfl (by simp)
        simpa [advance, hfirst] using hinv
      · have hinv := h.pass i .joined .idle ((s.m_read_count + 1) % uint_max) hi (by simp [hr]) (.inl rfl) rfl
          fun _ => hc.1 blocking hr hfirst
        simpa [advance, hfirst] using hinv
    | first =>
      have hin : role.first.allows (s.m_native_handle.pcs i) = true := by
        have := h.allowed i
        rwa [hr] at this
      by_cases hnext : (co_mutex.step s.m_native_handle (.step i spurious)).pcs i = .idle
      -- `try_lock` of the native mutex has failed, and the reader is out again.
      · have hgo : advance s i spurious .first =
            { s with m_native_handle := co_mutex.step s.m_native_handle (.step i spurious),
                     roles := Function.update s.roles i .none } := by
          simp [advance, co_shared_mutex.native_step, hnext]
        rw [hgo]
        apply h.native_step (.step i spurious) (Function.update s.roles i .none) trivial
        · intro j
          by_cases hji : j = i
          · simp [hji, role.allows]
          · rw [hother j hji, Function.update_of_ne hji]
            exact h.allowed j
        · intro j hj
          by_cases hji : j = i
          · simp [hji] at hj
          · simpa [hji] using hj
        · intro j hj hown
          have hji : j ≠ i := by
            rintro rfl
            rw [co_mutex.owns_iff (by simp [hnext]), hnext] at hown
            cases hown
          rwa [Function.update_of_ne hji]
        · intro j hj
          have hji : j ≠ i := by
            rintro rfl
            rcases hj with hj | ⟨-, hj⟩
            · simp [hr] at hj
            · simp [co_mutex.step, hj, co_mutex.advance] at hnext
          exact hj.of_eq (Function.update_of_ne hji ..) (hother j hji)
      · have hgo : advance s i spurious .first =
            { s with m_native_handle := co_mutex.step s.m_native_handle (.step i spurious) } := by
          simp [advance, co_shared_mutex.native_step, hnext]
        rw [hgo]
        -- It goes on as the first reader, in the calls of the native mutex or holding it.
        apply h.native_step (.step i spurious) s.roles trivial
        · intro j
          by_cases hji : j = i
          · rw [hji, hr]
            exact first_step s.m_native_handle i spurious hin hnext
          · rw [hother j hji]
            exact h.allowed j
        · exact fun _ => id
        · exact fun _ hj _ => hj
        · intro j hj
          by_cases hji : j = i
          · rcases hj with hj | ⟨hf, hj⟩
            · exact .inl hj
            · rw [hji] at hj hf ⊢
              exact .inr ⟨hf, by simp [co_mutex.step, hj, co_mutex.advance]⟩
          · exact hj.of_eq rfl (hother j hji)
    | joined => exact h
    | leave_load =>
      -- The counter is not zero, by the condition, and the native mutex is left alone.
      have hi := hidle (by simp [hr])
      rw [advance, if_neg (hc.2 hr)]
      exact h.pass i (.leave_cas s.m_read_count) .idle s.m_read_count hi (by simp [hr]) (.inl rfl) rfl (by simp)
    | leave_cas counter =>
      have hi := hidle (by simp [hr])
      rw [advance]
      split
      · exact h.pass i .none .idle (counter - 1) hi (by simp [hr]) (.inl rfl) rfl (by simp)
      · exact h.pass i .none .idle s.m_read_count hi (by simp [hr]) (.inl rfl) rfl (by simp)

/-- A reader-writer lock throughout a run in which readers come and go while another one is in. -/
theorem readers_writer_of_careful (acts : List (action ι)) (h : Guarded step Careful init acts) :
    Throughout step ReadersWriter init acts := by
  have hinv : Throughout step (fun s => Inv s ∧ Untimed s.m_native_handle) init acts :=
    throughout_of_inv (fun s a h hc => ⟨inv_step s a h.1 h.2 hc, untimed_step s a h.2⟩) init acts
      ⟨inv_init, untimed_init⟩ h
  exact hinv.mono fun _ hs => ⟨hs.1.exclusive, hs.1.available⟩

/-- A second reader joins the first, and the first leaves. -/
theorem readers_writer_of_careful_readers :
    Throughout step ReadersWriter (init : system (Fin 2))
      [.call 0 .lock_shared, .step 0 false, .step 0 false, .call 1 .lock_shared, .step 1 false,
        .call 0 .unlock_shared, .step 0 false, .step 0 false] :=
  readers_writer_of_careful _ (by decide)

/-- The only reader leaves, and no writer gets in after it. -/
theorem locked_after_last_reader :
    ¬ ∀ acts : List (action (Fin 2)), Throughout step ReadersWriter init acts := by
  intro h
  have hlast := (h [.call 0 .lock_shared, .step 0 false, .step 0 false, .call 0 .unlock_shared, .step 0 false,
    .step 0 false]).last
  have hfree := hlast.available (fun i => not_holds (by revert i; decide) (by revert i; decide)) 1 rfl rfl
  cases hfree.2

end Libgs.Sync.co_shared_mutex
