import Libgs.Sync.CoSemaphore
import Mathlib.Data.Finset.Card
import Mathlib.Data.Finset.Range

/-!
# The permits of the coroutine semaphore

What has been acquired and released, counted along a run of `co_basic_semaphore`.
-/

namespace Libgs.Sync

namespace wake_ups

/-- The wake-ups resumed with a permit -/
def handed_over (u : wake_ups) : ℕ := ((Finset.range u.made).filter fun w => true ∈ u.resumed w).card

theorem handed_over_emplace {u : wake_ups} (timed : Bool) (hfresh : u.resumed u.made = []) :
    (u.emplace timed).handed_over = u.handed_over := by
  unfold handed_over
  rw [emplace_made, emplace_resumed, Finset.range_add_one, Finset.filter_insert, if_neg (by simp [hfresh])]

theorem handed_over_resume {u : wake_ups} {w : ℕ} (hmade : w < u.made) (hr : true ∉ u.resumed w) :
    (u.resume w true).handed_over = u.handed_over + 1 := by
  have hinsert : ((Finset.range u.made).filter fun v => true ∈ (u.resume w true).resumed v) =
      insert w ((Finset.range u.made).filter fun v => true ∈ u.resumed v) := by
    ext v
    by_cases hvw : v = w <;> simp [hvw, hmade]
  unfold handed_over
  rw [resume_made, hinsert, Finset.card_insert_of_notMem (by simp [hr])]

@[simp] theorem handed_over_drop (u : wake_ups) (w : ℕ) : (u.drop w).handed_over = u.handed_over := rfl

@[simp] theorem handed_over_tick (u : wake_ups) (w : ℕ) (e : timer_event) :
    (u.tick w e).handed_over = u.handed_over := by
  unfold handed_over
  rw [tick_made]
  exact congrArg Finset.card (Finset.filter_congr fun v _ => true_mem_tick_resumed w v e)

end wake_ups

namespace co_semaphore

open Lib

variable {ι : Type}

/-! ## Handing permits over -/

def Claimed (s : system ι) (w : ℕ) : Prop := ∃ i n, s.pcs i = .grant n w

/-- A wake-up that a releaser has claimed has not been resumed by one. -/
structure Handing (s : system ι) : Prop where
  offered : s.wake_ups.Offered (Claimed s)
  wake_made : ∀ i n w, s.pcs i = .wake n w → w < s.wake_ups.made
  claim_unique : ∀ i j n m w, s.pcs i = .grant n w → s.pcs j = .grant m w → i = j
  loaded : ∀ i r counter, s.pcs i = .cas r counter → counter ≠ 0

theorem handing_create {max_v initial_count : ℕ} {s : system ι} (h : create max_v initial_count = .ok s) :
    Handing s := by
  unfold create at h
  split at h
  · cases h
  · cases h
    exact ⟨wake_ups.offered_init _ fun w ⟨i, n, hi⟩ => by simp at hi, by simp, by simp, by simp⟩

variable [DecidableEq ι]

@[simp] theorem goto_counter (s : system ι) (i : ι) (p : pc) : (s.goto i p).m_counter = s.m_counter := rfl
@[simp] theorem goto_wake_ups (s : system ι) (i : ι) (p : pc) : (s.goto i p).wake_ups = s.wake_ups := rfl

theorem Handing.goto {s : system ι} (h : Handing s) (i : ι) (p : pc) (hgrant : ∀ n w, p ≠ .grant n w)
    (hwake : ∀ n w, p = .wake n w → w < s.wake_ups.made) (hcas : ∀ r counter, p = .cas r counter → counter ≠ 0) :
    Handing (s.goto i p) := by
  have hclaim : ∀ j n w, (s.goto i p).pcs j = .grant n w → s.pcs j = .grant n w := by
    intro j n w hj
    by_cases hji : j = i
    · simp only [goto_pcs, hji, if_true] at hj
      exact absurd hj (hgrant n w)
    · simpa [hji] using hj
  constructor
  · exact h.offered.mono fun w ⟨j, n, hj⟩ => ⟨j, n, hclaim j n w hj⟩
  · intro j n w hj
    by_cases hji : j = i
    · exact hwake n w (by simpa [hji] using hj)
    · exact h.wake_made j n w (by simpa [hji] using hj)
  · exact fun j k n m w hj hk => h.claim_unique j k n m w (hclaim j n w hj) (hclaim k m w hk)
  · exact loaded_goto h.loaded hcas

omit [DecidableEq ι] in
theorem Handing.queue {s : system ι} (h : Handing s) (u : wake_ups) (hu : u.Offered (Claimed s))
    (hmade : s.wake_ups.made ≤ u.made) : Handing { s with wake_ups := u } :=
  ⟨hu, fun i n w hi => Nat.lt_of_lt_of_le (h.wake_made i n w hi) hmade, h.claim_unique, h.loaded⟩

omit [DecidableEq ι] in
theorem Handing.count {s : system ι} (h : Handing s) (n : ℕ) : Handing { s with m_counter := n } :=
  ⟨h.offered, h.wake_made, h.claim_unique, h.loaded⟩

theorem Handing.refuse {s : system ι} (h : Handing s) (i : ι) (r : request) : Handing (s.goto i r.refused) := by
  obtain hp | ⟨timed, hp⟩ := refused_cases r
  all_goals rw [hp]
  · exact h.goto i .idle (by simp) (by simp) (by simp)
  · exact h.goto i (.emplace timed) (by simp) (by simp) (by simp)

theorem Handing.next {s : system ι} (h : Handing s) (i : ι) (n : ℕ) : Handing (s.goto i (next_release n)) := by
  obtain hp | ⟨m, hp⟩ := next_release_cases n
  all_goals rw [hp]
  · exact h.goto i .idle (by simp) (by simp) (by simp)
  · exact h.goto i (.dequeue m) (by simp) (by simp) (by simp)

theorem Handing.finish {s : system ι} (h : Handing s) (i : ι) (n w : ℕ) (hi : s.pcs i = .wake n w)
    (hw : s.wake_ups.m_finished w = false) :
    Handing { s.goto i (.grant n w) with wake_ups := s.wake_ups.finish w } := by
  have hclaim : ∀ j m v, (s.goto i (.grant n w)).pcs j = .grant m v → j = i ∧ v = w ∨ j ≠ i ∧ s.pcs j = .grant m v := by
    intro j m v hj
    by_cases hji : j = i
    · simp only [goto_pcs, hji, if_true, pc.grant.injEq] at hj
      exact .inl ⟨hji, hj.2.symm⟩
    · exact .inr ⟨hji, by simpa [hji] using hj⟩
  have hnone : ∀ j m, s.pcs j ≠ .grant m w := fun j m hj => by
    simp [(h.offered.claim w ⟨j, m, hj⟩).1] at hw
  constructor
  · refine (h.offered.finish w (h.wake_made i n w hi) hw).mono fun v ⟨j, m, hj⟩ => ?_
    obtain ⟨-, hv⟩ | ⟨-, hj⟩ := hclaim j m v hj
    · exact .inr hv
    · exact .inl ⟨j, m, hj⟩
  · intro j m v hj
    by_cases hji : j = i <;> simp [hji] at hj
    exact h.wake_made j m v hj
  · intro j k m m' v hj hk
    obtain ⟨hji, hv⟩ | ⟨-, hj⟩ := hclaim j m v hj <;> obtain ⟨hki, hv'⟩ | ⟨-, hk⟩ := hclaim k m' v hk
    · rw [hji, hki]
    · exact absurd (hv ▸ hk) (hnone k m')
    · exact absurd (hv' ▸ hj) (hnone j m)
    · exact h.claim_unique j k m m' v hj hk
  · intro j r counter hj
    by_cases hji : j = i <;> simp [hji] at hj
    exact h.loaded j r counter hj

theorem Handing.resume {s : system ι} (h : Handing s) (i : ι) (n w : ℕ) (hi : s.pcs i = .grant n w) :
    Handing { s.goto i (next_release n) with wake_ups := s.wake_ups.resume w true } := by
  have hf := (h.offered.claim w ⟨i, n, hi⟩).1
  have hnext := h.next i n
  refine ⟨?_, hnext.wake_made, hnext.claim_unique, hnext.loaded⟩
  refine (h.offered.resume w true (h.offered.lt_made (.inl hf)) (.inl hf)).mono fun v ⟨j, m, hj⟩ => ?_
  have hji : j ≠ i := by
    rintro rfl
    obtain hp | ⟨k, hp⟩ := next_release_cases n <;> simp [hp] at hj
  have hclaim : s.pcs j = .grant m v := by simpa [hji] using hj
  refine ⟨⟨j, m, hclaim⟩, ?_⟩
  rintro rfl
  exact absurd (h.claim_unique j i m n v hclaim hi) hji

omit [DecidableEq ι] in
theorem Handing.drop {s : system ι} (h : Handing s) (w : ℕ) : Handing { s with wake_ups := s.wake_ups.drop w } :=
  h.queue _ (h.offered.drop w) (Nat.le_refl _)

theorem handing_step (max_v : ℕ) (s : system ι) (a : action ι) (h : Handing s) : Handing (step max_v s a) := by
  cases a with
  | call i o =>
    show Handing (s.goto i (enter (s.pcs i) o))
    cases hpc : s.pcs i with
    | idle =>
      cases o with
      | request r => exact h.goto i (.load r) (by simp) (by simp) (by simp)
      | release n => exact h.goto i (.check n) (by simp) (by simp) (by simp)
    | _ =>
      have hsame : s.goto i (s.pcs i) = s := by simp [system.goto]
      rw [hpc] at hsame
      exact (congrArg Handing hsame).mpr h
  | tick w e => exact h.queue _ (h.offered.tick w e) (by simp)
  | step i spurious =>
    show Handing (advance max_v s i spurious (s.pcs i))
    cases hpc : s.pcs i with
    | idle => exact h
    | load r =>
      rw [advance]
      split
      · exact h.refuse i r
      · -- A permit is seen, so that the exchange takes it from a counter that is not zero.
        rename_i hcounter
        refine h.goto i (.cas r s.m_counter) (by simp) (by simp) ?_
        rintro r' counter hr
        obtain ⟨-, rfl⟩ := pc.cas.inj hr
        exact hcounter
    | cas r counter =>
      rw [advance]
      split
      · exact (h.goto i .idle (by simp) (by simp) (by simp)).count (counter - 1)
      · exact h.refuse i r
    | emplace timed =>
      exact (h.goto i (.waiting timed s.wake_ups.made) (by simp) (by simp) (by simp)).queue _
        ((h.goto i (.waiting timed s.wake_ups.made) (by simp) (by simp) (by simp)).offered.emplace timed)
        (Nat.le_succ _)
    | waiting timed w =>
      rw [advance]
      split
      · exact h
      · exact h.goto i .idle (by simp) (by simp) (by simp)
    | check n =>
      rw [advance]
      split
      · exact h.goto i .idle (by simp) (by simp) (by simp)
      · exact h.goto i (.dequeue _) (by simp) (by simp) (by simp)
    | dequeue n =>
      cases hq : s.wake_ups.m_wait_queue with
      | nil =>
        -- Nobody waits.
        simp only [advance, hq]
        exact h.goto i (.add n) (by simp) (by simp) (by simp)
      | cons w rest =>
        have hmade : w < s.wake_ups.made := h.offered.queued w (by simp [hq])
        have hrest := h.queue { s.wake_ups with m_wait_queue := rest } (h.offered.dequeue hq) (Nat.le_refl _)
        simp only [advance, hq]
        exact hrest.goto i (.wake n w) (by simp) (by simpa using hmade) (by simp)
    | wake n w =>
      rw [advance]
      split
      · -- The timer of this waiter was first, and the wake-up is gone.
        exact (h.goto i (.dequeue n) (by simp) (by simp) (by simp)).drop w
      · -- The permit is for this waiter.
        rename_i hw
        exact h.finish i n w hpc (by simpa using hw)
    | grant n w => exact (h.resume i n w hpc).drop w
    | add n => exact (h.next i n).count _

/-! ## The account -/

/-- The semaphore, with what was granted by the exchange and what was released -/
structure account (ι : Type) where
  semaphore : system ι
  /-- Acquisitions granted by the exchange in `try_acquire` -/
  exchanged : ℕ
  /-- Calls of `release_one` that have come to their end -/
  released : ℕ

def account.opened (s : system ι) : account ι := ⟨s, 0, 0⟩

/-- The acquisitions granted so far, by the exchange or by a wake-up -/
def account.granted (s : account ι) : ℕ := s.exchanged + s.semaphore.wake_ups.handed_over

/-- The step takes a permit from the counter. -/
def exchanges (s : system ι) : action ι → Bool
  | .step i spurious =>
    match s.pcs i with
    | .cas _ counter => s.m_counter = counter ∧ ¬ spurious
    | _ => false
  | _ => false

/-- The step is the last one of a `release_one`. -/
def completes (s : system ι) : action ι → Bool
  | .step i _ =>
    match s.pcs i with
    | .grant _ _ | .add _ => true
    | _ => false
  | _ => false

def account.step (max_v : ℕ) (s : account ι) (a : action ι) : account ι where
  semaphore := co_semaphore.step max_v s.semaphore a
  exchanged := s.exchanged + (exchanges s.semaphore a).toNat
  released := s.released + (completes s.semaphore a).toNat

/-- No permit is lost, and none is made. -/
def Conserved (initial_count : ℕ) (s : account ι) : Prop :=
  s.semaphore.m_counter + s.granted = initial_count + s.released

/-- No more is granted than was there, and no exchange takes a permit from a counter of zero. -/
def Covered (initial_count : ℕ) (s : account ι) : Prop :=
  s.granted ≤ initial_count + s.released ∧ ∀ i r counter, s.semaphore.pcs i = .cas r counter → counter ≠ 0

/-- A permit is added to a counter that has not reached the greatest value of a `size_t`. -/
def Fits (s : account ι) : action ι → Prop
  | .step i _ => ∀ n, s.semaphore.pcs i = .add n → s.semaphore.m_counter + 1 < size_max
  | _ => True

inductive Booked (s s' : account ι) (a : action ι) : Prop
  /-- A permit moves, or nothing does. -/
  | moved (hsum : s'.semaphore.m_counter + s'.granted + s.released = s.semaphore.m_counter + s.granted + s'.released)
    (hfits : Fits s a)
  /-- A permit is put back. -/
  | added (hcounter : s'.semaphore.m_counter = (s.semaphore.m_counter + 1) % size_max)
    (hgranted : s'.granted = s.granted) (hreleased : s'.released = s.released + 1)
    (hfits : Fits s a ↔ s.semaphore.m_counter + 1 < size_max)

theorem advance_still (max_v : ℕ) {s : system ι} {i : ι} {spurious : Bool} {p : pc}
    (hcas : ∀ r counter, p = .cas r counter → ¬ (s.m_counter = counter ∧ ¬ spurious))
    (hemplace : ∀ timed, p ≠ .emplace timed) (hgrant : ∀ n w, p ≠ .grant n w) (hadd : ∀ n, p ≠ .add n) :
    (advance max_v s i spurious p).m_counter = s.m_counter ∧
      (advance max_v s i spurious p).wake_ups.handed_over = s.wake_ups.handed_over := by
  unfold advance
  split
  · exact ⟨rfl, rfl⟩
  · split <;> exact ⟨rfl, rfl⟩
  · rename_i r counter
    rw [if_neg (hcas r counter rfl)]
    exact ⟨rfl, rfl⟩
  · rename_i timed
    exact absurd rfl (hemplace timed)
  · split <;> exact ⟨rfl, rfl⟩
  · split <;> exact ⟨rfl, rfl⟩
  · split <;> exact ⟨rfl, rfl⟩
  · split <;> exact ⟨rfl, rfl⟩
  · rename_i n w
    exact absurd rfl (hgrant n w)
  · rename_i n
    exact absurd rfl (hadd n)

theorem booked_still (max_v : ℕ) (s : account ι) {i : ι} {spurious : Bool}
    (hcas : ∀ r counter, s.semaphore.pcs i = .cas r counter → ¬ (s.semaphore.m_counter = counter ∧ ¬ spurious))
    (hemplace : ∀ timed, s.semaphore.pcs i ≠ .emplace timed) (hgrant : ∀ n w, s.semaphore.pcs i ≠ .grant n w)
    (hadd : ∀ n, s.semaphore.pcs i ≠ .add n) : Booked s (s.step max_v (.step i spurious)) (.step i spurious) := by
  have hexchange : exchanges s.semaphore (.step i spurious) = false := by
    simp only [exchanges]
    split
    · rename_i r counter hc
      exact decide_eq_false (hcas r counter hc)
    · rfl
  have hreturn : completes s.semaphore (.step i spurious) = false := by
    simp only [completes]
  obtain ⟨hcounter, hover⟩ := advance_still (i := i) max_v hcas hemplace hgrant hadd
  refine .moved ?_ fun n hn => absurd hn (hadd n)
  simp only [account.step, account.granted, step, hexchange, hreturn, hcounter, hover, Bool.toNat_false, Nat.add_zero]

theorem booked_exchange (max_v : ℕ) (s : account ι) {i : ι} {spurious : Bool} {r : request} {counter : ℕ}
    (hpc : s.semaphore.pcs i = .cas r counter) (hcounter : counter ≠ 0)
    (hok : s.semaphore.m_counter = counter ∧ ¬ spurious) :
    Booked s (s.step max_v (.step i spurious)) (.step i spurious) := by
  have hexchange : exchanges s.semaphore (.step i spurious) = true := by simpa [exchanges, hpc] using hok
  have hreturn : completes s.semaphore (.step i spurious) = false := by simp [completes, hpc]
  have hnext : step max_v s.semaphore (.step i spurious) =
      { s.semaphore.goto i .idle with m_counter := counter - 1 } := by
    rw [step, hpc, advance, if_pos hok]
  refine .moved ?_ fun n hn => by simp [hpc] at hn
  simp only [account.step, account.granted, hexchange, hreturn, hnext, Bool.toNat_true, Bool.toNat_false,
    goto_wake_ups, hok.1]
  omega

theorem booked_grant (max_v : ℕ) (s : account ι) {i : ι} {spurious : Bool} {n w : ℕ} (h : Handing s.semaphore)
    (hpc : s.semaphore.pcs i = .grant n w) : Booked s (s.step max_v (.step i spurious)) (.step i spurious) := by
  have hexchange : exchanges s.semaphore (.step i spurious) = false := by simp [exchanges, hpc]
  have hreturn : completes s.semaphore (.step i spurious) = true := by simp [completes, hpc]
  obtain ⟨hf, hr⟩ := h.offered.claim w ⟨i, n, hpc⟩
  have hover := wake_ups.handed_over_resume (h.offered.lt_made (.inl hf)) hr
  have hnext : step max_v s.semaphore (.step i spurious) =
      { s.semaphore.goto i (next_release n) with wake_ups := (s.semaphore.wake_ups.resume w true).drop w } := by
    rw [step, hpc, advance]
  refine .moved ?_ fun n hn => by simp [hpc] at hn
  simp only [account.step, account.granted, hexchange, hreturn, hnext, Bool.toNat_true, Bool.toNat_false, goto_counter,
    wake_ups.handed_over_drop, hover]
  omega

theorem booked_add (max_v : ℕ) (s : account ι) {i : ι} {spurious : Bool} {n : ℕ}
    (hpc : s.semaphore.pcs i = .add n) : Booked s (s.step max_v (.step i spurious)) (.step i spurious) := by
  have hexchange : exchanges s.semaphore (.step i spurious) = false := by simp [exchanges, hpc]
  have hreturn : completes s.semaphore (.step i spurious) = true := by simp [completes, hpc]
  have hnext : step max_v s.semaphore (.step i spurious) =
      { s.semaphore.goto i (next_release n) with m_counter := (s.semaphore.m_counter + 1) % size_max } := by
    rw [step, hpc, advance]
  refine .added ?_ ?_ ?_ (by simp [Fits, hpc])
  · simp only [account.step, hnext]
  · simp only [account.step, account.granted, hexchange, hnext, Bool.toNat_false, goto_wake_ups, Nat.add_zero]
  · simp only [account.step, hreturn, Bool.toNat_true]

theorem booked_step (max_v : ℕ) (s : account ι) (a : action ι) (h : Handing s.semaphore) :
    Booked s (s.step max_v a) a := by
  cases a with
  | call i o => exact .moved rfl trivial
  | tick w e =>
    refine .moved ?_ trivial
    simp only [account.step, account.granted, step, exchanges, completes, Bool.toNat_false, Nat.add_zero,
      wake_ups.handed_over_tick]
  | step i spurious =>
    cases hpc : s.semaphore.pcs i with
    | cas r counter =>
      by_cases hok : s.semaphore.m_counter = counter ∧ ¬ spurious
      · exact booked_exchange max_v s hpc (h.loaded i r counter hpc) hok
      · refine booked_still max_v s (fun r' counter' hc => ?_) (by simp [hpc]) (by simp [hpc]) (by simp [hpc])
        obtain ⟨-, rfl⟩ := pc.cas.inj (hpc.symm.trans hc)
        exact hok
    | emplace timed =>
      have hfresh : s.semaphore.wake_ups.resumed s.semaphore.wake_ups.made = [] :=
        (h.offered.fresh _ (Nat.le_refl _)).2.2
      refine .moved ?_ fun n hn => by simp [hpc] at hn
      simp only [account.step, account.granted, step, hpc, advance, exchanges, completes, Bool.toNat_false,
        Nat.add_zero, goto_counter, wake_ups.handed_over_emplace timed hfresh]
    | grant n w => exact booked_grant max_v s h hpc
    | add n => exact booked_add max_v s hpc
    | _ => exact booked_still max_v s (by simp [hpc]) (by simp [hpc]) (by simp [hpc]) (by simp [hpc])

/-! ## Conservation -/

theorem conserved_step (max_v initial_count : ℕ) (s : account ι) (a : action ι) (h : Handing s.semaphore)
    (hs : Conserved initial_count s) : Conserved initial_count (s.step max_v a) ↔ Fits s a := by
  unfold Conserved at hs ⊢
  cases booked_step max_v s a h with
  | moved hsum hfits =>
    refine ⟨fun _ => hfits, fun _ => ?_⟩
    omega
  | added hcounter hgranted hreleased hfits =>
    rw [hfits, hcounter, hgranted, hreleased]
    constructor
    · intro heq
      -- A counter that begins again at zero is too small for the permits put back.
      have := Nat.mod_lt (s.semaphore.m_counter + 1) (show 0 < size_max by decide)
      omega
    · intro hlt
      rw [Nat.mod_eq_of_lt hlt]
      omega

theorem covered_step (max_v initial_count : ℕ) (s : account ι) (a : action ι) (h : Handing s.semaphore)
    (hs : s.semaphore.m_counter + s.granted ≤ initial_count + s.released) :
    (s.step max_v a).semaphore.m_counter + (s.step max_v a).granted ≤ initial_count + (s.step max_v a).released := by
  cases booked_step max_v s a h with
  | moved hsum _ => omega
  | added hcounter hgranted hreleased _ =>
    have := Nat.mod_le (s.semaphore.m_counter + 1) size_max
    omega

/-- **Permits are conserved.** In a run, the counter and the granted acquisitions are the initial count and the
completed releases in every state, if and only if no release adds to a counter at the greatest value. In every run, no
more is granted than was there, and the counter does not go below zero. -/
theorem permits_conserved_iff (max_v initial_count : ℕ) (s : system ι) (hs : create max_v initial_count = .ok s)
    (acts : List (action ι)) :
    (Throughout (account.step max_v) (Conserved initial_count) (.opened s) acts ↔
      Guarded (account.step max_v) Fits (.opened s) acts) ∧
      Throughout (account.step max_v) (Covered initial_count) (.opened s) acts := by
  have hhanding := handing_create hs
  have hopened : Conserved initial_count (account.opened s) := by
    unfold create at hs
    split at hs
    · cases hs
    · cases hs
      rfl
  constructor
  · exact throughout_iff_guarded (I := fun s : account ι => Handing s.semaphore)
      (fun s a h _ _ => handing_step max_v s.semaphore a h) (fun s a h => conserved_step max_v initial_count s a h)
      (.opened s) acts hhanding hopened
  · have hinv : Throughout (account.step max_v) (fun s => Handing s.semaphore ∧
        s.semaphore.m_counter + s.granted ≤ initial_count + s.released) (.opened s) acts :=
      throughout_of_step (fun s a h => ⟨handing_step max_v s.semaphore a h.1,
        covered_step max_v initial_count s a h.1 h.2⟩) _ acts ⟨hhanding, le_of_eq hopened⟩
    exact hinv.mono fun s h => ⟨le_trans (Nat.le_add_left _ _) h.2, h.1.loaded⟩

/-- One permit is taken by the exchange, and the other coroutine times out. -/
theorem permits_conserved_iff_timeout :
    let s : system (Fin 2) := ⟨1, .init, fun _ => .idle⟩
    let acts : List (action (Fin 2)) :=
      [.call 0 (.request .acquire), .step 0 false, .step 0 false, .call 1 (.request .try_acquire_x), .step 1 false,
       .step 1 false, .tick 0 .start, .tick 0 .expire, .call 0 (.release 1), .step 0 false, .step 0 false,
       .tick 0 (.run 0), .tick 0 (.dispatch 0), .step 0 false, .step 0 false, .step 0 false]
    (Throughout (account.step 2) (Conserved 1) (.opened s) acts ↔ Guarded (account.step 2) Fits (.opened s) acts) ∧
      Throughout (account.step 2) (Covered 1) (.opened s) acts :=
  permits_conserved_iff 2 1 _ rfl _

/-- Two releases find room for one permit each, and the counter begins again at zero. -/
theorem counter_wraps :
    let s : system (Fin 2) := ⟨size_max - 2, .init, fun _ => .idle⟩
    let acts : List (action (Fin 2)) :=
      [.call 0 (.release 1), .call 1 (.release 1), .step 0 false, .step 1 false, .step 0 false, .step 1 false,
       .step 0 false, .step 1 false]
    create (size_max - 1) (size_max - 2) = .ok s ∧
      (run (account.step (size_max - 1)) (.opened s) acts).semaphore.m_counter = 0 ∧
      ¬ Conserved (size_max - 2) (run (account.step (size_max - 1)) (.opened s) acts) := by
  refine ⟨rfl, by decide, ?_⟩
  unfold Conserved
  decide

end co_semaphore

end Libgs.Sync
