import Libgs.Sync.CoSemaphore
import Mathlib.Algebra.BigOperators.Group.Finset.Basic
import Mathlib.Data.Fintype.Powerset

/-!
# The bound of the coroutine semaphore

`release` of `co_basic_semaphore` compares the counter with the greatest value once, and adds the permits one by one
afterwards.
-/

namespace Libgs.Sync.co_semaphore

open Lib

variable {ι : Type}

/-! ## What is still to be added -/

def pc.left : pc → ℕ
  | .dequeue n | .wake n _ | .grant n _ | .add n => n
  | _ => 0

def pc.releasing : pc → Bool
  | .dequeue _ | .wake _ _ | .grant _ _ | .add _ => true
  | _ => false

/-- What some coroutines may still add together -/
def pending (s : system ι) (J : Finset ι) : ℕ := ∑ j ∈ J, (s.pcs j).left

/-- With all that is still to be added, the counter stays within the bound. -/
structure Room (max_v : ℕ) (s : system ι) : Prop where
  within : ∀ J, s.m_counter + pending s J ≤ max_v
  left : ∀ i, (s.pcs i).releasing = true → 0 < (s.pcs i).left

theorem Room.bounded {max_v : ℕ} {s : system ι} (h : Room max_v s) : s.m_counter ≤ max_v := h.within ∅

theorem room_create {max_v initial_count : ℕ} {s : system ι} (h : create max_v initial_count = .ok s) :
    Room max_v s := by
  unfold create at h
  split at h
  · cases h
  · rename_i hle
    cases h
    refine ⟨fun J => ?_, by simp [pc.releasing]⟩
    have hnone : pending (⟨initial_count, .init, fun _ => .idle⟩ : system ι) J = 0 := Finset.sum_eq_zero fun _ _ => rfl
    rw [hnone]
    exact Nat.le_of_not_lt hle

/-- `release` takes the permits that it is to add for free: together with those that other releases have still to add,
they do not fit. -/
def Checked (max_v : ℕ) (s : system ι) : action ι → Prop
  | .step i _ =>
    match s.pcs i with
    | .check n => release_refused max_v s.m_counter n = false →
        ∀ J, s.m_counter + pending s J + release_count max_v n ≤ max_v
    | _ => True
  | _ => True

instance [Fintype ι] [DecidableEq ι] (max_v : ℕ) (s : system ι) (a : action ι) : Decidable (Checked max_v s a) := by
  unfold Checked
  split
  · split <;> infer_instance
  · infer_instance

/-- A release that does not fit is refused, and the counter is left as it is. -/
def Refuses [DecidableEq ι] (max_v : ℕ) (s : system ι) : Prop :=
  ∀ i n spurious, s.pcs i = .check n → max_v < s.m_counter + release_count max_v n →
    step max_v s (.step i spurious) = s.goto i .idle

/-! ## Steps -/

variable [DecidableEq ι] {max_v : ℕ} {s s' : system ι} {i : ι} {p : pc}

theorem pending_of_mem (J : Finset ι) (hpcs : s'.pcs = Function.update s.pcs i p) (hi : i ∈ J) :
    pending s' J = p.left + pending s (J.erase i) := by
  unfold pending
  rw [← Finset.add_sum_erase J _ hi, hpcs, Function.update_self]
  congr 1
  refine Finset.sum_congr rfl fun j hj => ?_
  rw [Function.update_of_ne (Finset.ne_of_mem_erase hj)]

theorem pending_of_notMem (J : Finset ι) (hpcs : s'.pcs = Function.update s.pcs i p) (hi : i ∉ J) :
    pending s' J = pending s J := by
  refine Finset.sum_congr rfl fun j hj => ?_
  have hji : j ≠ i := fun h => hi (h ▸ hj)
  rw [hpcs, Function.update_of_ne hji]

theorem releasing_goto (h : Room max_v s) (hpcs : s'.pcs = Function.update s.pcs i p)
    (hp : p.releasing = true → 0 < p.left) (j : ι) (hj : (s'.pcs j).releasing = true) : 0 < (s'.pcs j).left := by
  rw [hpcs] at hj ⊢
  by_cases hji : j = i
  · rw [hji, Function.update_self] at hj ⊢
    exact hp hj
  · rw [Function.update_of_ne hji] at hj ⊢
    exact h.left j hj

theorem Room.next (h : Room max_v s) (p : pc) (hpcs : s'.pcs = Function.update s.pcs i p)
    (hcount : s'.m_counter + p.left ≤ s.m_counter + (s.pcs i).left) (hp : p.releasing = true → 0 < p.left) :
    Room max_v s' := by
  refine ⟨fun J => ?_, releasing_goto h hpcs hp⟩
  by_cases hi : i ∈ J
  · have hold : s.m_counter + pending s J ≤ max_v := h.within J
    unfold pending at hold
    rw [← Finset.add_sum_erase J _ hi] at hold
    rw [pending_of_mem J hpcs hi, pending]
    omega
  · have hold : s.m_counter + pending s (insert i J) ≤ max_v := h.within (insert i J)
    unfold pending at hold
    rw [Finset.sum_insert hi] at hold
    rw [pending_of_notMem J hpcs hi, pending]
    omega

theorem Room.begin (h : Room max_v s) (n : ℕ) (hpos : 0 < n)
    (hfits : ∀ J, s.m_counter + pending s J + n ≤ max_v) : Room max_v (s.goto i (.dequeue n)) := by
  refine ⟨fun J => ?_, releasing_goto (p := .dequeue n) h rfl fun _ => hpos⟩
  by_cases hi : i ∈ J
  · have hothers := hfits (J.erase i)
    rw [pending_of_mem (p := .dequeue n) J rfl hi]
    show s.m_counter + (n + pending s (J.erase i)) ≤ max_v
    omega
  · rw [pending_of_notMem (p := .dequeue n) J rfl hi]
    exact h.within J

theorem next_release_left (n : ℕ) : (next_release n).left = n - 1 := by
  unfold next_release
  split <;> rfl

theorem next_release_releasing (n : ℕ) (h : (next_release n).releasing = true) : 0 < (next_release n).left := by
  rcases n with _ | _ | n
  · cases h
  · cases h
  · exact Nat.succ_pos n

theorem request.refused_left (r : request) : r.refused.left = 0 ∧ r.refused.releasing = false := by
  cases r <;> exact ⟨rfl, rfl⟩

theorem release_count_pos {counter n : ℕ} (h : release_refused max_v counter n = false) :
    0 < release_count max_v n := by
  unfold release_refused at h
  unfold release_count
  split
  · exact Nat.one_pos
  · rename_i hone
    rw [if_neg hone] at h
    simp only [decide_eq_false_iff_not, not_or] at h
    exact Nat.pos_of_ne_zero h.1

theorem room_call (h : Room max_v s) (o : op) : Room max_v (s.goto i (enter (s.pcs i) o)) := by
  have hsame : (enter (s.pcs i) o).left = (s.pcs i).left ∧ (enter (s.pcs i) o).releasing = (s.pcs i).releasing := by
    cases s.pcs i <;> cases o <;> exact ⟨rfl, rfl⟩
  refine h.next _ rfl ?_ fun hrel => ?_
  · rw [hsame.1]
    rfl
  · rw [hsame.1]
    exact h.left i (hsame.2.symm.trans hrel)

theorem room_step (hmax : max_v < size_max) (a : action ι) (h : Room max_v s) (hc : Checked max_v s a) :
    Room max_v (step max_v s a) := by
  cases a with
  | call i o => exact room_call h o
  | tick w e => exact ⟨h.within, h.left⟩
  | step i spurious =>
    unfold Checked at hc
    show Room max_v (advance max_v s i spurious (s.pcs i))
    have hleft := h.left i
    cases hpc : s.pcs i with
    | idle => exact h
    | load r =>
      rw [advance]
      split
      · exact h.next r.refused rfl (by rw [r.refused_left.1]; exact Nat.le_add_right _ _)
          (by rw [r.refused_left.2]; simp)
      · exact h.next (.cas r s.m_counter) rfl (Nat.le_add_right _ _) (by simp [pc.releasing])
    | cas r counter =>
      rw [advance]
      split
      · rename_i hok
        refine h.next .idle rfl ?_ (by simp [pc.releasing])
        show counter - 1 + 0 ≤ _
        rw [hok.1]
        omega
      · exact h.next r.refused rfl (by rw [r.refused_left.1]; exact Nat.le_add_right _ _)
          (by rw [r.refused_left.2]; simp)
    | emplace timed => exact h.next (.waiting timed s.wake_ups.made) rfl (Nat.le_add_right _ _) (by simp [pc.releasing])
    | waiting timed w =>
      rw [advance]
      split
      · exact h
      · exact h.next .idle rfl (Nat.le_add_right _ _) (by simp [pc.releasing])
    | check n =>
      simp only [hpc] at hc
      rw [advance]
      split
      · exact h.next .idle rfl (Nat.le_add_right _ _) (by simp [pc.releasing])
      · rename_i hpass
        have hpass' : release_refused max_v s.m_counter n = false := Bool.eq_false_iff.mpr hpass
        exact h.begin _ (release_count_pos hpass') (hc hpass')
    | dequeue n =>
      rw [hpc] at hleft
      cases hq : s.wake_ups.m_wait_queue with
      | nil =>
        simp only [advance, hq]
        exact h.next (.add n) rfl (by rw [hpc]; exact Nat.le_refl _) hleft
      | cons w rest =>
        simp only [advance, hq]
        exact h.next (.wake n w) rfl (by rw [hpc]; exact Nat.le_refl _) hleft
    | wake n w =>
      rw [hpc] at hleft
      rw [advance]
      split
      · exact h.next (.dequeue n) rfl (by rw [hpc]; exact Nat.le_refl _) hleft
      · exact h.next (.grant n w) rfl (by rw [hpc]; exact Nat.le_refl _) hleft
    | grant n w =>
      refine h.next (next_release n) rfl ?_ (next_release_releasing n)
      rw [next_release_left, hpc]
      show s.m_counter + (n - 1) ≤ s.m_counter + n
      omega
    | add n =>
      rw [hpc] at hleft
      have hpos : 0 < n := hleft rfl
      have hfits : s.m_counter + n ≤ max_v := by
        have := h.within {i}
        unfold pending at this
        rwa [Finset.sum_singleton, hpc] at this
      refine h.next (next_release n) rfl ?_ (next_release_releasing n)
      rw [next_release_left, hpc]
      show (s.m_counter + 1) % size_max + (n - 1) ≤ s.m_counter + n
      rw [Nat.mod_eq_of_lt (by omega)]
      omega

/-! ## The bound -/

theorem refuses_of_bounded (hmax : max_v < size_max) (h : s.m_counter ≤ max_v) : Refuses max_v s := by
  intro i n spurious hpc hover
  have hrefused : release_refused max_v s.m_counter n = true := by
    unfold release_refused
    unfold release_count at hover
    by_cases hone : max_v = 1
    · rw [if_pos hone] at hover ⊢
      simp only [decide_eq_true_eq]
      omega
    · rw [if_neg hone] at hover ⊢
      have hrest : (max_v + size_max - s.m_counter) % size_max = max_v - s.m_counter := by
        rw [show max_v + size_max - s.m_counter = max_v - s.m_counter + size_max by omega, Nat.add_mod_right]
        exact Nat.mod_eq_of_lt (by omega)
      rw [hrest]
      simp only [decide_eq_true_eq]
      omega
  show advance max_v s i spurious (s.pcs i) = _
  rw [hpc, advance, if_pos hrefused]

/-- **The bound of the semaphore.** In a run in which no release passes the check while what is still to be added by
others takes its room, the counter stays within the bound, and a release that does not fit is refused. -/
theorem bounded_of_checked (max_v initial_count : ℕ) (hmax : max_v < size_max) (s : system ι)
    (hs : create max_v initial_count = .ok s) (acts : List (action ι))
    (h : Guarded (step max_v) (Checked max_v) s acts) :
    Throughout (step max_v) (fun s => s.m_counter ≤ max_v ∧ Refuses max_v s) s acts := by
  have hroom : Throughout (step max_v) (Room max_v) s acts :=
    throughout_of_inv (fun s a hs hc => room_step hmax a hs hc) s acts (room_create hs) h
  exact hroom.mono fun s hs => ⟨hs.bounded, refuses_of_bounded hmax hs.bounded⟩

/-- One release begins when the other has ended; the second one is refused. -/
theorem bounded_of_checked_two :
    Throughout (step 2) (fun s : system (Fin 2) => s.m_counter ≤ 2 ∧ Refuses 2 s) ⟨0, .init, fun _ => .idle⟩
      [.call 0 (.release 2), .step 0 false, .step 0 false, .step 0 false, .step 0 false, .step 0 false,
        .call 1 (.release 1), .step 1 false] :=
  bounded_of_checked 2 0 (by decide) _ rfl _ (by decide +kernel)

/-- Two releases pass the check before either adds its permit. -/
theorem two_releases_pass :
    ¬ ∀ acts : List (action (Fin 2)), Throughout (step 2) (fun s => s.m_counter ≤ 2 ∧ Refuses 2 s)
      ⟨0, .init, fun _ => .idle⟩ acts := by
  intro h
  have hlast := (h [.call 0 (.release 2), .step 0 false, .call 1 (.release 1), .step 1 false, .step 0 false,
    .step 0 false, .step 0 false, .step 0 false, .step 1 false, .step 1 false]).last.1
  revert hlast
  decide

end Libgs.Sync.co_semaphore
