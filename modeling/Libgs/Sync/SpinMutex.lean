import Libgs.Lib.Run
import Mathlib.Logic.Function.Basic

/-!
# The spinning lock

`spin_mutex` of `core/detail/spin_mutex.h`. Every access to the flag is a step of its own, and the threads `ι` take
their steps in any order.
-/

namespace Libgs.Sync.spin_mutex

open Lib

/-! ## The lock and its callers -/

inductive pc
  | idle
  /-- The loop of `lock` -/
  | load
  | store
  /-- `try_lock` -/
  | cas
  | holding
  | unlock
  deriving DecidableEq, Repr

structure system (ι : Type) where
  m_native_handle : Bool
  pcs : ι → pc

def init {ι : Type} : system ι := ⟨false, fun _ => .idle⟩

inductive op
  | lock
  | try_lock
  | unlock
  deriving DecidableEq, Repr

/-- A thread begins a call, or takes the next step of the call it is in. A weak exchange may fail spuriously. -/
inductive action (ι : Type)
  | call (i : ι) (o : op)
  | step (i : ι) (spurious : Bool)

/-- Only a holder calls `unlock`. -/
def enter : pc → op → pc
  | .idle, .lock => .load
  | .idle, .try_lock => .cas
  | .holding, .unlock => .unlock
  | p, _ => p

variable {ι : Type} [DecidableEq ι]

def system.goto (s : system ι) (i : ι) (p : pc) : system ι := { s with pcs := Function.update s.pcs i p }

/-- The thread goes on and leaves the flag as `b`. -/
def system.set (s : system ι) (i : ι) (p : pc) (b : Bool) : system ι := { s.goto i p with m_native_handle := b }

def advance (s : system ι) (i : ι) (spurious : Bool) : pc → system ι
  | .idle | .holding => s
  | .load => if s.m_native_handle then s else s.goto i .store
  | .store => s.set i .holding true
  | .cas => if ¬ s.m_native_handle ∧ ¬ spurious then s.set i .holding true else s.goto i .idle
  | .unlock => s.set i .idle false

def step (s : system ι) : action ι → system ι
  | .call i o => s.goto i (enter (s.pcs i) o)
  | .step i spurious => advance s i spurious (s.pcs i)

@[simp] theorem goto_pcs (s : system ι) (i j : ι) (p : pc) : (s.goto i p).pcs j = if j = i then p else s.pcs j :=
  Function.update_apply ..

@[simp] theorem set_pcs (s : system ι) (i j : ι) (p : pc) (b : Bool) :
    (s.set i p b).pcs j = if j = i then p else s.pcs j :=
  Function.update_apply ..

/-! ## Mutual exclusion -/

/-- The thread is in until its `unlock` has cleared the flag. -/
def pc.inside : pc → Bool
  | .holding | .unlock => true
  | _ => false

def Exclusive (s : system ι) : Prop := ∀ i j, (s.pcs i).inside = true → (s.pcs j).inside = true → i = j

/-- The flag that `lock` has seen clear is still clear when it is set. -/
def Careful (s : system ι) : action ι → Prop
  | .call _ _ => True
  | .step i _ => s.pcs i = .store → s.m_native_handle = false

instance (s : system ι) (a : action ι) : Decidable (Careful s a) :=
  match a with
  | .call _ _ => isTrue trivial
  | .step i _ => inferInstanceAs (Decidable (s.pcs i = .store → s.m_native_handle = false))

def Inv (s : system ι) : Prop := s.m_native_handle = true ↔ ∃ i, (s.pcs i).inside = true

omit [DecidableEq ι] in
theorem inv_init : Inv (init : system ι) := by
  constructor
  · intro h
    cases h
  · rintro ⟨i, hi⟩
    cases hi

omit [DecidableEq ι] in
theorem Inv.nobody {s : system ι} (h : Inv s) : s.m_native_handle = false ↔ ∀ i, (s.pcs i).inside = false := by
  have hnot := not_congr h
  simpa using hnot

/-- What a step does with the lock. Who comes in finds the flag clear exactly if the step is careful. -/
inductive Moves (s : system ι) (a : action ι) : system ι → Prop
  | stay (s' : system ι) (hflag : s'.m_native_handle = s.m_native_handle)
      (hinside : ∀ j, (s'.pcs j).inside = (s.pcs j).inside) (hcareful : Careful s a) : Moves s a s'
  | enter (i : ι) (hout : (s.pcs i).inside = false) (hcareful : Careful s a ↔ s.m_native_handle = false) :
      Moves s a (s.set i .holding true)
  | leave (i : ι) (hin : (s.pcs i).inside = true) (hcareful : Careful s a) : Moves s a (s.set i .idle false)

theorem moves_goto {s : system ι} {a : action ι} (i : ι) (p : pc) (h : p.inside = (s.pcs i).inside)
    (hcareful : Careful s a) : Moves s a (s.goto i p) := by
  refine .stay _ rfl (fun j => ?_) hcareful
  rw [goto_pcs]
  split
  · rename_i hji
    rw [hji, h]
  · rfl

theorem inside_enter (p : pc) (o : op) : (enter p o).inside = p.inside := by
  cases p <;> cases o <;> rfl

theorem step_moves (s : system ι) (a : action ι) : Moves s a (step s a) := by
  cases a with
  | call i o => exact moves_goto i _ (inside_enter _ o) trivial
  | step i spurious =>
    show Moves s (.step i spurious) (advance s i spurious (s.pcs i))
    have hcareful : s.pcs i ≠ .store → Careful s (.step i spurious) := fun hne h => absurd h hne
    cases hpc : s.pcs i with
    | idle | holding => exact .stay s rfl (fun _ => rfl) (hcareful (by simp [hpc]))
    | load =>
      rw [advance]
      split
      · exact .stay s rfl (fun _ => rfl) (hcareful (by simp [hpc]))
      · exact moves_goto i _ (by rw [hpc]; rfl) (hcareful (by simp [hpc]))
    | store => exact .enter i (by rw [hpc]; rfl) ⟨fun h => h hpc, fun h _ => h⟩
    | cas =>
      rw [advance]
      split
      · rename_i hfree
        have hclear : s.m_native_handle = false := Bool.eq_false_iff.mpr hfree.1
        exact .enter i (by rw [hpc]; rfl) ⟨fun _ => hclear, fun _ => hcareful (by simp [hpc])⟩
      · exact moves_goto i _ (by rw [hpc]; rfl) (hcareful (by simp [hpc]))
    | unlock => exact .leave i (by rw [hpc]; rfl) (hcareful (by simp [hpc]))

theorem exclusive_enter {s : system ι} {i : ι} (hout : (s.pcs i).inside = false) :
    Exclusive (s.set i .holding true) ↔ ∀ j, (s.pcs j).inside = false := by
  have hin : ((s.set i .holding true).pcs i).inside = true := by
    rw [set_pcs, if_pos rfl]
    rfl
  constructor
  · intro h j
    by_cases hji : j = i
    · rw [hji, hout]
    · refine Bool.eq_false_iff.mpr fun hj => hji (h j i ?_ hin)
      rw [set_pcs, if_neg hji]
      exact hj
  · intro h
    have hone : ∀ j, ((s.set i .holding true).pcs j).inside = true → j = i := by
      intro j hj
      by_contra hji
      rw [set_pcs, if_neg hji, h j] at hj
      cases hj
    exact fun j k hj hk => (hone j hj).trans (hone k hk).symm

theorem nobody_leave {s : system ι} {i : ι} (h : Exclusive s) (hin : (s.pcs i).inside = true) (j : ι) :
    ((s.set i .idle false).pcs j).inside = false := by
  rw [set_pcs]
  split
  · rfl
  · rename_i hji
    exact Bool.eq_false_iff.mpr fun hj => hji (h j i hj hin)

theorem inv_step (s : system ι) (a : action ι) (h : Inv s) (hx : Exclusive s) : Inv (step s a) := by
  have hmoves := step_moves s a
  generalize step s a = s' at hmoves
  cases hmoves with
  | stay _ hflag hinside _ =>
    unfold Inv at h ⊢
    simp only [hflag, hinside]
    exact h
  | enter i _ _ =>
    refine ⟨fun _ => ⟨i, ?_⟩, fun _ => rfl⟩
    rw [set_pcs, if_pos rfl]
    rfl
  | leave i hin _ =>
    constructor
    · intro hflag
      cases hflag
    · rintro ⟨j, hj⟩
      rw [nobody_leave hx hin j] at hj
      cases hj

theorem exclusive_step (s : system ι) (a : action ι) (h : Inv s) (hx : Exclusive s) :
    Exclusive (step s a) ↔ Careful s a := by
  have hmoves := step_moves s a
  generalize step s a = s' at hmoves
  cases hmoves with
  | stay _ _ hinside hcareful =>
    refine iff_of_true ?_ hcareful
    unfold Exclusive at hx ⊢
    simp only [hinside]
    exact hx
  | enter i hout hcareful => rw [exclusive_enter hout, hcareful, h.nobody]
  | leave i hin hcareful =>
    refine iff_of_true (fun j k hj _ => ?_) hcareful
    rw [nobody_leave hx hin j] at hj
    cases hj

/-- **Mutual exclusion.** At most one thread is in throughout a run if and only if `lock` never sets a flag that another
thread has set since `lock` saw it clear. -/
theorem exclusive_iff_careful (acts : List (action ι)) :
    Throughout step Exclusive init acts ↔ Guarded step Careful init acts := by
  have hinit : Exclusive (init : system ι) := fun i j hi _ => by cases hi
  exact throughout_iff_guarded (fun s a h hx _ => inv_step s a h hx) exclusive_step init acts inv_init hinit

theorem two_threads_in : ¬ ∀ acts : List (action (Fin 2)), Throughout step Exclusive init acts := by
  intro h
  have hlast := (h [.call 0 .lock, .call 1 .lock, .step 0 false, .step 1 false, .step 0 false, .step 1 false]).last
  have := hlast 0 1 rfl rfl
  cases this

end Libgs.Sync.spin_mutex
