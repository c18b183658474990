import Libgs.Lib.Run
import Mathlib.Algebra.Group.Nat.Defs
import Mathlib.Logic.Function.Basic

/-!
# The spinning reader-writer lock

`spin_shared_mutex` of `core/detail/shared_mutex.h` over `spin_mutex` of `core/detail/spin_mutex.h`. Every
access to an atomic variable is a step of its own, and the parties `ι` take their steps in any order.
-/

namespace Libgs.Sync.spin_shared_mutex

open Lib

/-! ## The lock and its callers -/

inductive kind
  | exclusive
  | shared
  deriving DecidableEq, Repr

inductive pc
  | idle
  /-- The loop of `spin_mutex::lock` -/
  | load (k : kind)
  | store (k : kind)
  /-- `spin_mutex::try_lock` -/
  | cas (k : kind)
  | holding (k : kind)
  /-- `++m_read_count` in `lock_shared` or, where it may not block, in `try_lock_shared` -/
  | add (blocking : Bool)
  | leave_load
  | leave_cas (counter : ℕ)
  /-- `spin_mutex::unlock` -/
  | unlock
  deriving DecidableEq, Repr

structure system (ι : Type) where
  m_read_count : ℕ
  m_native_handle : Bool
  pcs : ι → pc

def init {ι : Type} : system ι := ⟨0, false, fun _ => .idle⟩

def uint_max : ℕ := 2 ^ 32

inductive op
  | lock
  | try_lock
  | unlock
  | lock_shared
  | try_lock_shared
  | unlock_shared
  deriving DecidableEq, Repr

/-- A party begins a call, or takes the next step of the call it is in. A weak exchange may fail
spuriously. -/
inductive action (ι : Type)
  | call (i : ι) (o : op)
  | step (i : ι) (spurious : Bool)

/-- Only a holder calls `unlock`, and only of its own kind. -/
def enter : pc → op → pc
  | .idle, .lock => .load .exclusive
  | .idle, .try_lock => .cas .exclusive
  | .idle, .lock_shared => .add true
  | .idle, .try_lock_shared => .add false
  | .holding .exclusive, .unlock => .unlock
  | .holding .shared, .unlock_shared => .leave_load
  | p, _ => p

variable {ι : Type} [DecidableEq ι]

def system.goto (s : system ι) (i : ι) (p : pc) : system ι := { s with pcs := Function.update s.pcs i p }

@[simp] theorem goto_pcs (s : system ι) (i j : ι) (p : pc) :
    (s.goto i p).pcs j = if j = i then p else s.pcs j := by
  unfold system.goto
  exact Function.update_apply s.pcs i p j

@[simp] theorem goto_handle (s : system ι) (i : ι) (p : pc) : (s.goto i p).m_native_handle = s.m_native_handle := rfl

/-- The next step of a party that stands at the given place. -/
def advance (s : system ι) (i : ι) (spurious : Bool) : pc → system ι
  | .idle | .holding _ => s
  | .load k => if s.m_native_handle then s else s.goto i (.store k)
  | .store k => { s.goto i (.holding k) with m_native_handle := true }
  | .cas k =>
    if ¬ s.m_native_handle ∧ ¬ spurious then { s.goto i (.holding k) with m_native_handle := true }
    else s.goto i .idle
  | .add blocking =>
    let count := (s.m_read_count + 1) % uint_max
    let next :=
      if count = 1 then if blocking then pc.load .shared else .cas .shared
      else .holding .shared
    { s.goto i next with m_read_count := count }
  | .leave_load => if s.m_read_count = 0 then s.goto i .idle else s.goto i (.leave_cas s.m_read_count)
  | .leave_cas counter =>
    if s.m_read_count = counter ∧ ¬ spurious then { s.goto i .unlock with m_read_count := counter - 1 }
    else s.goto i .idle
  | .unlock => { s.goto i .idle with m_native_handle := false }

def step (s : system ι) : action ι → system ι
  | .call i o => s.goto i (enter (s.pcs i) o)
  | .step i spurious => advance s i spurious (s.pcs i)

/-! ## Mutual exclusion -/

/-- A writer is alone in the lock. -/
def Exclusive (s : system ι) : Prop :=
  ∀ i j k, s.pcs i = .holding .exclusive → s.pcs j = .holding k → i = j

/-- A reader is in until its decrement. -/
def pc.inside : pc → Bool
  | .holding .shared | .leave_load | .leave_cas _ => true
  | _ => false

/-- The flag is still clear when it is set; a reader passes by a nonzero counter only while another
reader is in; and a reader that decrements the counter is the last one in. -/
def Careful (s : system ι) : action ι → Prop
  | .call _ _ => True
  | .step i spurious =>
    match s.pcs i with
    | .store _ => s.m_native_handle = false
    | .add _ => (s.m_read_count + 1) % uint_max ≠ 1 → ∃ j, (s.pcs j).inside = true
    | .leave_cas counter => s.m_read_count = counter → spurious = false → ∀ j, (s.pcs j).inside = true → j = i
    | _ => True

/-- Who has locked the native lock: a reader with the other readers, or one party alone. -/
def pc.alone : pc → Bool
  | .holding .exclusive | .unlock => true
  | _ => false

theorem pc.alone_of_inside (p : pc) (h : p.inside = true) : p.alone = false := by
  cases p with
  | holding k =>
    cases k with
    | exclusive => cases h
    | shared => rfl
  | unlock => cases h
  | _ => rfl

/-- Only readers share the native lock, and it is locked while anyone has it. -/
structure Inv (s : system ι) : Prop where
  locked : ∀ i, (s.pcs i).inside = true ∨ (s.pcs i).alone = true → s.m_native_handle = true
  alone : ∀ i j, (s.pcs i).alone = true → (s.pcs j).inside = true ∨ (s.pcs j).alone = true → j = i

omit [DecidableEq ι] in
theorem Inv.exclusive {s : system ι} (h : Inv s) : Exclusive s := by
  intro i j k hi hj
  have hin : (s.pcs j).inside = true ∨ (s.pcs j).alone = true := by
    rw [hj]
    cases k
    · exact .inr rfl
    · exact .inl rfl
  exact (h.alone i j (by rw [hi]; rfl) hin).symm

omit [DecidableEq ι] in
theorem inv_init : Inv (init : system ι) := by
  constructor
  · intro i h
    simp [init, pc.inside, pc.alone] at h
  · intro i j h
    simp [init, pc.alone] at h

omit [DecidableEq ι] in
theorem Inv.unlocked {s : system ι} (h : Inv s) (hs : s.m_native_handle = false) (i : ι) :
    (s.pcs i).inside = false ∧ (s.pcs i).alone = false := by
  have := h.locked i
  rw [hs] at this
  simpa using this

theorem Inv.goto_free {s : system ι} (h : Inv s) (i : ι) (p : pc) (hp : p.inside = false) (ha : p.alone = false) :
    Inv (s.goto i p) := by
  constructor
  · intro j hj
    apply h.locked j
    by_cases hji : j = i <;> simp_all
  · intro j k hj hk
    by_cases hji : j = i
    · simp_all
    · by_cases hki : k = i
      · simp_all
      · simp only [goto_pcs, hji, hki, if_false] at hj hk
        exact h.alone j k hj hk

theorem Inv.take {s : system ι} (h : Inv s) (i : ι) (p : pc) (hs : s.m_native_handle = false) :
    Inv { s.goto i p with m_native_handle := true } := by
  constructor
  · exact fun _ _ => rfl
  · intro j k hj hk
    obtain ⟨hji, hja⟩ := h.unlocked hs j
    obtain ⟨hki, hka⟩ := h.unlocked hs k
    by_cases hj' : j = i <;> by_cases hk' : k = i <;> simp_all

theorem Inv.join {s : system ι} (h : Inv s) (i j : ι) (p : pc) (hp : p.alone = false) (hj : (s.pcs j).inside = true) :
    Inv (s.goto i p) := by
  have hnone : ∀ k, (s.pcs k).alone = false := by
    intro k
    by_contra hk
    rw [Bool.not_eq_false] at hk
    obtain rfl := h.alone k j hk (.inl hj)
    rw [pc.alone_of_inside _ hj] at hk
    cases hk
  constructor
  · exact fun _ _ => h.locked j (.inl hj)
  · intro k l hk
    by_cases hki : k = i <;> simp_all

theorem Inv.leave {s : system ι} (h : Inv s) (i : ι) (hi : (s.pcs i).inside = true)
    (honly : ∀ j, (s.pcs j).inside = true → j = i) : Inv (s.goto i .unlock) := by
  have hlone : ∀ j, (s.pcs j).inside = true ∨ (s.pcs j).alone = true → j = i := by
    rintro j (hj | hj)
    · exact honly j hj
    · exact (h.alone j i hj (.inl hi)).symm
  have hafter : ∀ j, ((s.goto i .unlock).pcs j).inside = true ∨ ((s.goto i .unlock).pcs j).alone = true → j = i := by
    intro j hj
    by_cases hji : j = i
    · exact hji
    · simp only [goto_pcs, hji, if_false] at hj
      exact hlone j hj
  constructor
  · exact fun _ _ => h.locked i (.inl hi)
  · exact fun j k hj hk => (hafter k hk).trans (hafter j (.inr hj)).symm

theorem Inv.release {s : system ι} (h : Inv s) (i : ι) (hi : (s.pcs i).alone = true) :
    Inv { s.goto i .idle with m_native_handle := false } := by
  have hafter : ∀ j, ¬ (((s.goto i .idle).pcs j).inside = true ∨ ((s.goto i .idle).pcs j).alone = true) := by
    intro j hj
    by_cases hji : j = i
    · simp [hji, pc.inside, pc.alone] at hj
    · simp only [goto_pcs, hji, if_false] at hj
      exact hji (h.alone i j hi hj)
  constructor
  · exact fun j hj => absurd hj (hafter j)
  · exact fun j _ hj _ => absurd (.inr hj) (hafter j)

theorem Inv.stay {s : system ι} (h : Inv s) (i : ι) (p : pc) (hi : (s.pcs i).alone = true) :
    Inv (s.goto i p) := by
  constructor
  · exact fun _ _ => h.locked i (.inr hi)
  · intro j k hj hk
    have hbefore : ∀ l, ((s.goto i p).pcs l).inside = true ∨ ((s.goto i p).pcs l).alone = true → l = i := by
      intro l hl
      by_cases hli : l = i
      · exact hli
      · simp only [goto_pcs, hli, if_false] at hl
        exact h.alone i l hi hl
    exact (hbefore k hk).trans (hbefore j (.inr hj)).symm

omit [DecidableEq ι] in
theorem Inv.count {s : system ι} (h : Inv s) (n : ℕ) : Inv { s with m_read_count := n } := ⟨h.locked, h.alone⟩

theorem inv_call (s : system ι) (i : ι) (o : op) (h : Inv s) : Inv (s.goto i (enter (s.pcs i) o)) := by
  cases hpc : s.pcs i with
  | idle => exact h.goto_free i _ (by cases o <;> rfl) (by cases o <;> rfl)
  | holding k =>
    cases k with
    | exclusive =>
      have halone : (s.pcs i).alone = true := by rw [hpc]; rfl
      exact h.stay i _ halone
    | shared =>
      have hin : (s.pcs i).inside = true := by rw [hpc]; rfl
      exact h.join i i _ (by cases o <;> rfl) hin
  | _ =>
    have hsame : s.goto i (s.pcs i) = s := by simp [system.goto]
    rw [hpc] at hsame
    exact (congrArg Inv hsame).mpr h

theorem inv_step (s : system ι) (a : action ι) (h : Inv s) (hc : Careful s a) : Inv (step s a) := by
  cases a with
  | call i o => exact inv_call s i o h
  | step i spurious =>
    unfold Careful at hc
    show Inv (advance s i spurious (s.pcs i))
    cases hpc : s.pcs i with
    | idle => exact h
    | holding k => exact h
    | load k =>
      rw [advance]
      split
      · exact h
      · exact h.goto_free i _ rfl rfl
    | store k =>
      simp only [hpc] at hc
      exact h.take i _ hc
    | cas k =>
      rw [advance]
      split
      · rename_i hfree
        exact h.take i _ (by simpa using hfree.1)
      · exact h.goto_free i _ rfl rfl
    | add blocking =>
      simp only [hpc] at hc
      by_cases hfirst : (s.m_read_count + 1) % uint_max = 1
      · cases blocking with
        | false => simpa [advance, hfirst] using (h.goto_free i (.cas .shared) rfl rfl).count 1
        | true => simpa [advance, hfirst] using (h.goto_free i (.load .shared) rfl rfl).count 1
      · obtain ⟨j, hj⟩ := hc hfirst
        simpa [advance, hfirst] using (h.join i j (.holding .shared) rfl hj).count _
    | leave_load =>
      rw [advance]
      split
      · exact h.goto_free i _ rfl rfl
      · exact h.join i i _ rfl (by rw [hpc]; rfl)
    | leave_cas counter =>
      simp only [hpc] at hc
      rw [advance]
      split
      · rename_i hok
        exact (h.leave i (by rw [hpc]; rfl) (hc hok.1 (by simpa using hok.2))).count _
      · exact h.goto_free i _ rfl rfl
    | unlock => exact h.release i (by rw [hpc]; rfl)

/-- No writer is in with anyone else throughout a run whose steps are careful. -/
theorem exclusive_of_careful (acts : List (action ι)) (h : Guarded step Careful init acts) :
    Throughout step Exclusive init acts := by
  have hinv : Throughout step Inv init acts := throughout_of_inv inv_step init acts inv_init h
  exact hinv.mono fun _ hs => hs.exclusive

/-- Two readers are in while a writer tries, and then waits. -/
theorem exclusive_of_careful_readers :
    Throughout step Exclusive (init : system (Fin 3))
      [.call 0 .lock_shared, .step 0 false, .step 0 false, .step 0 false, .call 1 .lock_shared, .step 1 false,
        .call 2 .try_lock, .step 2 false, .call 2 .lock, .step 2 false, .step 2 false] := by
  apply exclusive_of_careful
  repeat' apply Guarded.cons
  all_goals first
    | exact guarded_nil _
    | simp [Careful, step, advance, enter, init, uint_max, pc.inside, system.goto, Fin.exists_fin_succ]

theorem two_writers_in :
    ¬ ∀ acts : List (action (Fin 2)), Throughout step Exclusive init acts := by
  intro h
  have hlast := (h [.call 0 .lock, .call 1 .lock, .step 0 false, .step 1 false, .step 0 false, .step 1 false]).last
  have := hlast 0 1 .exclusive rfl rfl
  cases this

end Libgs.Sync.spin_shared_mutex
