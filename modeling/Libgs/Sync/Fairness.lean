import Libgs.Sync.Permits

/-!
# First come, first served

The waiters of `co_mutex` and `co_basic_semaphore` are named by their places in the queue, so that `v < w` says that `v`
came first. The queue is FIFO and one step takes a waiter out of it, which `lock_free_queue` itself does not always give
to two releasers at a time.
-/

namespace Libgs.Sync

/-! ## Places -/

section

variable {ι α : Type} {place : α → Option ℕ} {pcs : ι → α} {i : ι} {b : α} {w : ℕ}

/-- A coroutine is at a place that belongs to the waiter. -/
def Stands (place : α → Option ℕ) (pcs : ι → α) (w : ℕ) : Prop := ∃ i, place (pcs i) = some w

variable [DecidableEq ι]

theorem stands_update (v : ℕ) :
    Stands place (Function.update pcs i b) v ↔ place b = some v ∨ ∃ j, j ≠ i ∧ place (pcs j) = some v :=
  Function.exists_update_iff pcs fun _ p => place p = some v

theorem stands_same (h : place b = place (pcs i)) : Stands place (Function.update pcs i b) = Stands place pcs := by
  have hplaces : ∀ j, place (Function.update pcs i b j) = place (pcs j) := by
    intro j
    by_cases hji : j = i <;> simp [hji, h]
  ext v
  simp only [Stands, hplaces]

theorem stands_enter (hfrom : place (pcs i) = none) (hto : place b = some w) (v : ℕ) :
    Stands place (Function.update pcs i b) v ↔ Stands place pcs v ∨ v = w := by
  have hne : ∀ j, place (pcs j) = some v → j ≠ i := by
    rintro j hj rfl
    rw [hfrom] at hj
    cases hj
  rw [stands_update, hto, Option.some_inj, or_comm, eq_comm]
  exact or_congr_left (exists_congr fun j => and_iff_right_of_imp (hne j))

theorem stands_leave (hfrom : place (pcs i) = some w) {v : ℕ} (h : Stands place pcs v) :
    v = w ∨ Stands place (Function.update pcs i b) v := by
  obtain ⟨j, hj⟩ := h
  by_cases hji : j = i
  · rw [hji, hfrom, Option.some_inj] at hj
    exact .inl hj.symm
  · exact .inr ((stands_update v).mpr (.inr ⟨j, hji, hj⟩))

theorem stands_left (hto : place b = none) {v : ℕ} (h : Stands place (Function.update pcs i b) v) :
    Stands place pcs v := by
  obtain hb | ⟨j, -, hj⟩ := (stands_update v).mp h
  · rw [hto] at hb
    cases hb
  · exact ⟨j, hj⟩

end

/-! ## The order of the waiters -/

namespace wake_ups

variable {u u' : wake_ups} {taken taken' claimed claimed' : ℕ → Prop}

/-- A releaser has chosen the waiter, or it has been resumed already. -/
def Handed (u : wake_ups) (claimed : ℕ → Prop) (w : ℕ) : Prop := claimed w ∨ true ∈ u.resumed w

/-- The timer has won, or has resumed the waiter. -/
def TimedOut (u : wake_ups) (w : ℕ) : Prop := u.m_timer w = .won ∨ false ∈ u.resumed w

/-- A waiter that a releaser has `taken` out of the queue is asked next whether it has timed out. -/
structure Ordered (u : wake_ups) (taken claimed : ℕ → Prop) : Prop where
  sorted : u.m_wait_queue.Pairwise (· < ·)
  kept : ∀ w < u.made, w ∈ u.m_wait_queue ∨ taken w ∨ u.m_finished w = true
  ahead : ∀ w, taken w ∨ u.Handed claimed w → ∀ v ∈ u.m_wait_queue, w < v
  settled : ∀ w, u.m_finished w = true → u.Handed claimed w ∨ u.TimedOut w

theorem ordered_init (htaken : ∀ w, ¬ taken w) (hclaimed : ∀ w, ¬ claimed w) : init.Ordered taken claimed := by
  constructor <;> simp [init, Handed, htaken, hclaimed]

theorem Ordered.served (h : u.Ordered taken claimed) {v w : ℕ} (hw : taken w ∨ u.Handed claimed w) (hv : v < u.made)
    (hvw : v < w) : taken v ∨ u.Handed claimed v ∨ u.TimedOut v := by
  obtain hq | ht | hf := h.kept v hv
  · have := h.ahead w hw v hq
    omega
  · exact .inl ht
  · exact .inr (h.settled v hf)

theorem Offered.handed_made (h : u.Offered claimed) {w : ℕ} (hw : u.Handed claimed w) : w < u.made := by
  apply h.lt_made
  rcases hw with hw | hw
  · exact .inl (h.claim w hw).1
  · by_contra hopen
    rw [not_or, Bool.not_eq_true] at hopen
    exact h.unfinished w hopen.1 hw

theorem Handed.mono (hr : ∀ w, true ∈ u'.resumed w ↔ true ∈ u.resumed w) (hc : ∀ w, claimed w → claimed' w) {w : ℕ}
    (hw : u.Handed claimed w) : u'.Handed claimed' w :=
  hw.imp (hc w) (hr w).mpr

theorem Ordered.next (h : u.Ordered taken claimed) (hq : u'.m_wait_queue = u.m_wait_queue) (hmade : u'.made = u.made)
    (hkept : ∀ w, taken w ∨ u.m_finished w = true → taken' w ∨ u'.m_finished w = true)
    (hahead : ∀ w, taken' w ∨ u'.Handed claimed' w → taken w ∨ u.Handed claimed w)
    (hsettled : ∀ w, u'.m_finished w = true → u'.Handed claimed' w ∨ u'.TimedOut w) : u'.Ordered taken' claimed' := by
  constructor
  · rw [hq]
    exact h.sorted
  · intro w hw
    rw [hmade] at hw
    rw [hq]
    exact (h.kept w hw).imp_right (hkept w)
  · intro w hw
    rw [hq]
    exact h.ahead w (hahead w hw)
  · exact hsettled

theorem Ordered.emplace (h : u.Ordered taken claimed) (ho : u.Offered claimed) (htaken : ∀ w, taken w → w < u.made)
    (timed : Bool) : (u.emplace timed).Ordered taken claimed := by
  constructor
  · rw [emplace_queue, List.pairwise_append]
    refine ⟨h.sorted, List.pairwise_singleton .., fun v hv w hw => ?_⟩
    rw [List.mem_singleton.mp hw]
    exact ho.queued v hv
  · intro w hw
    rw [emplace_queue, List.mem_append, List.mem_singleton, emplace_finished]
    by_cases hnew : w = u.made
    · exact .inl (.inr hnew)
    · rw [emplace_made] at hw
      exact (h.kept w (by omega)).imp_left .inl
  · intro w hw v hv
    rw [emplace_queue, List.mem_append, List.mem_singleton] at hv
    rcases hv with hv | rfl
    · exact h.ahead w hw v hv
    · exact hw.elim (htaken w) ho.handed_made
  · intro w hw
    refine (h.settled w hw).imp_right fun hout => ?_
    have hne : w ≠ u.made := Nat.ne_of_lt (ho.lt_made (.inl hw))
    simpa [TimedOut, hne] using hout

theorem Ordered.dequeue (h : u.Ordered taken claimed) {w : ℕ} {rest : List ℕ} (hq : u.m_wait_queue = w :: rest)
    (htaken : ∀ v, taken v ∨ v = w ↔ taken' v) : Ordered { u with m_wait_queue := rest } taken' claimed := by
  obtain ⟨hfirst, hsorted⟩ := List.pairwise_cons.mp (hq ▸ h.sorted)
  constructor
  · exact hsorted
  · intro v hv
    show v ∈ rest ∨ taken' v ∨ u.m_finished v = true
    rw [← htaken]
    obtain hin | ht | hf := h.kept v hv
    · rw [hq, List.mem_cons] at hin
      exact hin.elim (fun hvw => .inr (.inl (.inr hvw))) .inl
    · exact .inr (.inl (.inl ht))
    · exact .inr (.inr hf)
  · intro v hv x hx
    have hmem : x ∈ u.m_wait_queue := hq ▸ List.mem_cons_of_mem w hx
    rw [← htaken] at hv
    rcases hv with (hv | rfl) | hv
    · exact h.ahead v (.inl hv) x hmem
    · exact hfirst x hx
    · exact h.ahead v (.inr hv) x hmem
  · exact h.settled

theorem TimedOut.tick {w v : ℕ} {e : timer_event} (halive : u.Alive w e) (h : u.TimedOut v) :
    (u.tick w e).TimedOut v := by
  cases e with
  | start =>
    rw [wake_ups.tick]
    split
    · rename_i hmade
      refine h.imp_left fun hv => ?_
      have hne : v ≠ w := by
        rintro rfl
        simp [hmade] at hv
      simpa [hne] using hv
    · exact h
  | expire =>
    rw [wake_ups.tick]
    split
    · rename_i harmed
      refine h.imp_left fun hv => ?_
      have hne : v ≠ w := by
        rintro rfl
        simp [harmed] at hv
      simpa [hne] using hv
    · exact h
  | run x =>
    rw [wake_ups.tick]
    split
    · rename_i hexpired
      have hne : u.m_timer v = .won → v ≠ w := by
        rintro hv rfl
        simp [hexpired.1] at hv
      split
      · exact h.imp_left fun hv => by simpa [hne hv] using hv
      · exact h.imp_left fun hv => by simpa [hne hv] using hv
    · exact h
  | dispatch x =>
    rw [wake_ups.tick]
    split
    · rename_i hwon
      obtain rfl : x = w := by
        have hfreed : u.freed w = none := halive
        simpa [lies_iff, hfreed] using hwon.2
      by_cases hvx : v = x
      · exact .inr (by simp [hvx])
      · unfold TimedOut at *
        simpa [hvx] using h
    · exact h

theorem Ordered.tick (h : u.Ordered taken claimed) {w : ℕ} {e : timer_event} (halive : u.Alive w e) :
    (u.tick w e).Ordered taken claimed := by
  have hhanded : ∀ v, (u.tick w e).Handed claimed v ↔ u.Handed claimed v :=
    fun v => or_congr_right (true_mem_tick_resumed w v e)
  apply h.next
  · obtain heq | ⟨t, -, -, heq⟩ | ⟨-, -, heq⟩ | ⟨-, heq⟩ := tick_cases_alive halive
    all_goals rw [heq]
    all_goals rfl
  · exact tick_made w e
  · exact fun v hv => hv.imp_right (finished_tick e)
  · exact fun v hv => hv.imp_right (hhanded v).mp
  · intro v hf
    rw [hhanded]
    have hold : u.m_finished v = true → u.Handed claimed v ∨ (u.tick w e).TimedOut v :=
      fun hf => (h.settled v hf).imp_right (.tick halive)
    obtain heq | ⟨t, -, -, heq⟩ | ⟨-, -, heq⟩ | ⟨-, heq⟩ := tick_cases_alive halive
    all_goals rw [heq] at hf hold ⊢
    · exact hold hf
    · exact hold hf
    -- The timer has won the waiter, which has timed out with it.
    · by_cases hvw : v = w
      · exact .inr (.inl (by simp [hvw]))
      · exact hold (by simpa [hvw] using hf)
    · exact hold hf

/-! ### What a coroutine does to it -/

section

variable {ι α : Type} [DecidableEq ι] {waking granting : α → Option ℕ} {pcs : ι → α} {i : ι} {b : α} {w : ℕ}

theorem Ordered.goto (h : u.Ordered (Stands waking pcs) (Stands granting pcs)) (hwaking : waking b = waking (pcs i))
    (hgranting : granting b = granting (pcs i)) :
    u.Ordered (Stands waking (Function.update pcs i b)) (Stands granting (Function.update pcs i b)) := by
  rwa [stands_same hwaking, stands_same hgranting]

theorem Ordered.take_out (h : u.Ordered (Stands waking pcs) (Stands granting pcs)) {rest : List ℕ}
    (hq : u.m_wait_queue = w :: rest) (hfrom : waking (pcs i) = none) (hto : waking b = some w)
    (hgranting : granting b = granting (pcs i)) :
    Ordered { u with m_wait_queue := rest } (Stands waking (Function.update pcs i b))
      (Stands granting (Function.update pcs i b)) := by
  rw [stands_same hgranting]
  exact h.dequeue hq fun v => (stands_enter hfrom hto v).symm

theorem Ordered.skip (h : u.Ordered (Stands waking pcs) (Stands granting pcs)) (hw : u.m_finished w = true)
    (hfrom : waking (pcs i) = some w) (hto : waking b = none) (hgranting : granting b = granting (pcs i)) :
    u.Ordered (Stands waking (Function.update pcs i b)) (Stands granting (Function.update pcs i b)) := by
  rw [stands_same hgranting]
  apply h.next rfl rfl
  · rintro v (hv | hf)
    · obtain rfl | hv := stands_leave hfrom hv
      · exact .inr hw
      · exact .inl hv
    · exact .inr hf
  · exact fun v hv => hv.imp_left (stands_left hto)
  · exact h.settled

theorem handed_finish (hfrom : granting (pcs i) = none) (hto : granting b = some w) (v : ℕ) :
    (u.finish w).Handed (Stands granting (Function.update pcs i b)) v ↔ u.Handed (Stands granting pcs) v ∨ v = w := by
  unfold Handed
  rw [stands_enter hfrom hto, or_right_comm, finish_resumed]

theorem finished_finish {v : ℕ} (h : u.m_finished v = true) : (u.finish w).m_finished v = true := by simp [h]

theorem Ordered.finish (h : u.Ordered (Stands waking pcs) (Stands granting pcs)) (hfrom : waking (pcs i) = some w)
    (hto : waking b = none) (hgranting : granting (pcs i) = none) (hgranted : granting b = some w) :
    (u.finish w).Ordered (Stands waking (Function.update pcs i b)) (Stands granting (Function.update pcs i b)) := by
  apply h.next (u.finish_queue w) (u.finish_made w)
  · rintro v (hv | hf)
    · obtain rfl | hv := stands_leave hfrom hv
      · exact .inr (by simp)
      · exact .inl hv
    · exact .inr (finished_finish hf)
  · rintro v (hv | hv)
    · exact .inl (stands_left hto hv)
    · obtain hv | rfl := (handed_finish hgranting hgranted v).mp hv
      · exact .inr hv
      · exact .inl ⟨i, hfrom⟩
  · intro v hv
    by_cases hvw : v = w
    · exact .inl ((handed_finish hgranting hgranted v).mpr (.inr hvw))
    · have hf : u.m_finished v = true := by simpa [hvw] using hv
      exact (h.settled v hf).imp_left fun hv => (handed_finish hgranting hgranted v).mpr (.inl hv)

theorem handed_resume (hfrom : granting (pcs i) = some w) (hto : granting b = none) (v : ℕ) :
    (u.resume w true).Handed (Stands granting (Function.update pcs i b)) v ↔ u.Handed (Stands granting pcs) v := by
  constructor
  · rintro (hv | hv)
    · exact .inl (stands_left hto hv)
    · by_cases hvw : v = w
      · exact .inl ⟨i, hvw ▸ hfrom⟩
      · exact .inr (by simpa [hvw] using hv)
  · rintro (hv | hv)
    · obtain rfl | hv := stands_leave hfrom hv
      · exact .inr (by simp)
      · exact .inl hv
    · refine .inr ?_
      by_cases hvw : v = w
      · simp [hvw]
      · simpa [hvw] using hv

theorem Ordered.drop (h : u.Ordered taken claimed) (w : ℕ) : (u.drop w).Ordered taken claimed :=
  ⟨h.sorted, h.kept, h.ahead, h.settled⟩

theorem Ordered.resume (h : u.Ordered (Stands waking pcs) (Stands granting pcs)) (hfrom : granting (pcs i) = some w)
    (hto : granting b = none) (hwaking : waking b = waking (pcs i)) :
    (u.resume w true).Ordered (Stands waking (Function.update pcs i b))
      (Stands granting (Function.update pcs i b)) := by
  rw [stands_same hwaking]
  apply h.next (u.resume_queue w true) (u.resume_made w true)
  · exact fun v hv => hv
  · exact fun v hv => hv.imp_right (handed_resume hfrom hto v).mp
  · intro v hv
    refine (h.settled v hv).imp (handed_resume hfrom hto v).mpr fun hout => hout.imp (fun hwon => ?_) fun hr => ?_
    · have hkeep : ¬ (v = w ∧ u.m_timer w = .armed) := by
        rintro ⟨rfl, harmed⟩
        simp [harmed] at hwon
      rw [resume_timer, if_neg hkeep]
      exact hwon
    · by_cases hvw : v = w
      · simp [hvw, hvw ▸ hr]
      · simpa [hvw] using hr

end

end wake_ups

/-! ## The mutex -/

namespace co_mutex

open Lib

variable {ι : Type}

def pc.waking : pc → Option ℕ
  | .wake w => some w
  | _ => none

def pc.granting : pc → Option ℕ
  | .grant w => some w
  | _ => none

theorem waking_iff (p : pc) (w : ℕ) : p.waking = some w ↔ p = .wake w := by
  cases p <;> simp [pc.waking]

theorem granting_iff (p : pc) (w : ℕ) : p.granting = some w ↔ p = .grant w := by
  cases p <;> simp [pc.granting]

/-- The waiter was chosen as owner, or resumed as owner. -/
def system.Handed (s : system ι) : ℕ → Prop := s.wake_ups.Handed (Stands pc.granting s.pcs)

/-- Whoever is handed the mutex, all who waited before it have been handed it already, or have given up. -/
def FirstServed (s : system ι) : Prop := ∀ w, s.Handed w → ∀ v < w, s.Handed v ∨ s.wake_ups.TimedOut v

structure Fair (s : system ι) : Prop where
  ordered : s.wake_ups.Ordered (Stands pc.waking s.pcs) (Stands pc.granting s.pcs)
  finished : ∀ w, s.Handed w → ∀ v < w, s.wake_ups.m_finished v = true

theorem Fair.first_served {s : system ι} (h : Fair s) : FirstServed s :=
  fun w hw v hvw => h.ordered.settled v (h.finished w hw v hvw)

theorem fair_init : Fair (init : system ι) := by
  constructor
  · exact wake_ups.ordered_init (by simp [Stands, init, pc.waking]) (by simp [Stands, init, pc.granting])
  · intro w hw
    simp [system.Handed, wake_ups.Handed, Stands, init, wake_ups.init, pc.granting] at hw

theorem Inv.offered_stands {s : system ι} (h : Inv s) : s.wake_ups.Offered (Stands pc.granting s.pcs) :=
  h.once.offered.mono fun w ⟨i, hi⟩ => ⟨i, (granting_iff _ w).mp hi⟩

theorem Fair.flag {s : system ι} (h : Fair s) (b : Bool) : Fair { s with m_native_handle := b } :=
  ⟨h.ordered, h.finished⟩

theorem Fair.emplace {s : system ι} (h : Fair s) (hinv : Inv s) (timed : Bool) :
    Fair { s with wake_ups := s.wake_ups.emplace timed } := by
  have hmade : ∀ w, Stands pc.waking s.pcs w → w < s.wake_ups.made :=
    fun w ⟨i, hi⟩ => hinv.wake_made i w ((waking_iff _ w).mp hi)
  exact ⟨h.ordered.emplace hinv.offered_stands hmade timed, h.finished⟩

theorem Fair.drop {s : system ι} (h : Fair s) (w : ℕ) : Fair { s with wake_ups := s.wake_ups.drop w } :=
  ⟨h.ordered.drop w, h.finished⟩

theorem Fair.tick {s : system ι} (h : Fair s) {w : ℕ} {e : timer_event} (halive : s.wake_ups.Alive w e) :
    Fair { s with wake_ups := s.wake_ups.tick w e } := by
  refine ⟨h.ordered.tick halive, fun v hv x hxv => ?_⟩
  have hold : s.Handed v := hv.imp_right (wake_ups.true_mem_tick_resumed w v e).mp
  exact wake_ups.finished_tick e (h.finished v hold x hxv)

variable [DecidableEq ι]

theorem Fair.goto {s : system ι} (h : Fair s) (i : ι) (p : pc) (hwaking : p.waking = (s.pcs i).waking)
    (hgranting : p.granting = (s.pcs i).granting) : Fair (s.goto i p) := by
  refine ⟨h.ordered.goto hwaking hgranting, ?_⟩
  show ∀ w, s.wake_ups.Handed (Stands pc.granting (Function.update s.pcs i p)) w → _
  rw [stands_same hgranting]
  exact h.finished

theorem Fair.dequeue {s : system ι} (h : Fair s) (i : ι) (hi : s.pcs i = .dequeue) {w : ℕ} {rest : List ℕ}
    (hq : s.wake_ups.m_wait_queue = w :: rest) :
    Fair { s.goto i (.wake w) with wake_ups := { s.wake_ups with m_wait_queue := rest } } := by
  have hsame : pc.granting (.wake w) = (s.pcs i).granting := by rw [hi]; rfl
  refine ⟨h.ordered.take_out hq (by rw [hi]; rfl) rfl hsame, ?_⟩
  show ∀ w', s.wake_ups.Handed (Stands pc.granting (Function.update s.pcs i (.wake w))) w' → _
  rw [stands_same hsame]
  exact h.finished

theorem Fair.skip {s : system ι} (h : Fair s) (i : ι) {w : ℕ} (hi : s.pcs i = .wake w)
    (hw : s.wake_ups.m_finished w = true) : Fair (s.goto i .dequeue) := by
  have hsame : pc.granting .dequeue = (s.pcs i).granting := by rw [hi]; rfl
  refine ⟨h.ordered.skip hw (by rw [hi]; rfl) rfl hsame, ?_⟩
  show ∀ w', s.wake_ups.Handed (Stands pc.granting (Function.update s.pcs i .dequeue)) w' → _
  rw [stands_same hsame]
  exact h.finished

theorem Fair.finish {s : system ι} (h : Fair s) (hinv : Inv s) (i : ι) {w : ℕ} (hi : s.pcs i = .wake w) :
    Fair { s.goto i (.grant w) with wake_ups := s.wake_ups.finish w } := by
  have hnone : (s.pcs i).granting = none := by rw [hi]; rfl
  have hfrom : (s.pcs i).waking = some w := by rw [hi]; rfl
  have hown : Owns s i := .inl (by rw [hi]; rfl)
  refine ⟨h.ordered.finish hfrom rfl hnone rfl, fun x hx v hvx => ?_⟩
  apply wake_ups.finished_finish
  obtain hx | rfl := (wake_ups.handed_finish hnone rfl x).mp hx
  · exact h.finished x hx v hvx
  · obtain hq | ⟨j, hj⟩ | hf := h.ordered.kept v (Nat.lt_trans hvx (hinv.wake_made i x hi))
    · have := h.ordered.ahead x (.inl ⟨i, hfrom⟩) v hq
      omega
    · rw [waking_iff] at hj
      obtain rfl : j = i := hinv.exclusive j i (.inl (by rw [hj]; rfl)) hown
      rw [hi, pc.wake.injEq] at hj
      omega
    · exact hf

theorem Fair.resume {s : system ι} (h : Fair s) (i : ι) {w : ℕ} (hi : s.pcs i = .grant w) :
    Fair { s.goto i .idle with wake_ups := s.wake_ups.resume w true } := by
  have hfrom : (s.pcs i).granting = some w := by rw [hi]; rfl
  refine ⟨h.ordered.resume hfrom rfl (by rw [hi]; rfl), fun x hx => ?_⟩
  exact h.finished x ((wake_ups.handed_resume hfrom rfl x).mp hx)

theorem fair_call (s : system ι) (i : ι) (o : op) (h : Fair s) : Fair (s.goto i (enter (s.pcs i) o)) := by
  apply h.goto
  · cases s.pcs i <;> cases o <;> rfl
  · cases s.pcs i <;> cases o <;> rfl

theorem fair_step (s : system ι) (a : action ι) (hinv : Inv s) (h : Fair s) (halive : Alive s a) :
    Fair (step s a) := by
  cases a with
  | call i o => exact fair_call s i o h
  | tick w e => exact h.tick halive
  | step i spurious =>
    show Fair (advance s i spurious (s.pcs i))
    cases hpc : s.pcs i with
    | idle => exact h
    | holding => exact h
    | cas r =>
      rw [advance]
      split
      · exact (h.goto i .holding (by rw [hpc]; rfl) (by rw [hpc]; rfl)).flag true
      · exact h.goto i r.refused (by rw [hpc]; cases r <;> rfl) (by rw [hpc]; cases r <;> rfl)
    | emplace timed =>
      -- The new waiter stands behind all others.
      have hjoined : Fair { s with wake_ups := s.wake_ups.emplace timed } := h.emplace hinv timed
      exact hjoined.goto i (.waiting timed s.wake_ups.made) (by rw [hpc]; rfl) (by rw [hpc]; rfl)
    | waiting timed w =>
      rw [advance]
      split
      · exact h
      · exact h.goto i _ (by rw [hpc]; split <;> rfl) (by rw [hpc]; split <;> rfl)
    | dequeue =>
      cases hq : s.wake_ups.m_wait_queue with
      | nil =>
        -- Nobody waits.
        simp only [advance, hq]
        exact h.goto i .store (by rw [hpc]; rfl) (by rw [hpc]; rfl)
      | cons w rest =>
        simp only [advance, hq]
        exact h.dequeue i hpc hq
    | wake w =>
      rw [advance]
      split
      · -- The waiter has timed out.
        rename_i hw
        exact (h.skip i hpc hw).drop w
      · exact h.finish hinv i hpc
    | grant w => exact (h.resume i hpc).drop w
    | store => exact (h.goto i .idle (by rw [hpc]; rfl) (by rw [hpc]; rfl)).flag false

/-- **First come, first served**, where no handler of a timer runs when its wake-up has been destroyed. -/
theorem first_come_first_served (acts : List (action ι)) (halive : Guarded step Alive init acts) :
    Throughout step FirstServed init acts := by
  have hfair : Throughout step (fun s => Inv s ∧ Fair s) init acts :=
    throughout_of_inv (fun s a h ha => ⟨inv_step s a h.1 ha, fair_step s a h.1 h.2 ha⟩) init acts
      ⟨inv_init, fair_init⟩ halive
  exact hfair.mono fun _ hs => hs.2.first_served

/-- The first of two waiters times out, and the second is handed the lock. -/
theorem first_come_first_served_timeout :
    Throughout step FirstServed (init : system (Fin 3))
      [.call 0 (.request .lock), .step 0 false, .call 1 (.request .try_lock_x), .step 1 false, .step 1 false,
        .tick 0 .start, .call 2 (.request .lock), .step 2 false, .step 2 false, .tick 0 .expire, .tick 0 (.run 0),
        .tick 0 (.dispatch 0), .call 0 .unlock, .step 0 false, .step 0 false, .step 0 false, .step 0 false,
        .step 0 false] :=
  first_come_first_served _ (by decide)

end co_mutex

/-! ## The semaphore -/

namespace co_semaphore

open Lib

variable {ι : Type}

def pc.waking : pc → Option ℕ
  | .wake _ w => some w
  | _ => none

def pc.granting : pc → Option ℕ
  | .grant _ w => some w
  | _ => none

def system.Handed (s : system ι) : ℕ → Prop := s.wake_ups.Handed (Stands pc.granting s.pcs)

/-- A waiter is overtaken only while a releaser that has taken it out of the queue is about to resume it. Unlike the
mutex, the semaphore can be released by several coroutines at a time. -/
def InTurn (s : system ι) : Prop :=
  ∀ w, s.Handed w → ∀ v < w, s.Handed v ∨ s.wake_ups.TimedOut v ∨ ∃ i n, s.pcs i = .wake n v

/-- No handler of a timer runs when its wake-up has been destroyed. -/
def Alive (s : system ι) : action ι → Prop
  | .tick w e => s.wake_ups.Alive w e
  | _ => True

instance (s : system ι) : DecidablePred (Alive s)
  | .tick w e => inferInstanceAs (Decidable (s.wake_ups.Alive w e))
  | .call _ _ | .step _ _ => isTrue trivial

def Queued (s : system ι) : Prop := s.wake_ups.Ordered (Stands pc.waking s.pcs) (Stands pc.granting s.pcs)

theorem waking_iff (p : pc) (w : ℕ) : p.waking = some w ↔ ∃ n, p = .wake n w := by
  cases p <;> simp [pc.waking]

theorem granting_iff (p : pc) (w : ℕ) : p.granting = some w ↔ ∃ n, p = .grant n w := by
  cases p <;> simp [pc.granting]

theorem Handing.offered_stands {s : system ι} (h : Handing s) : s.wake_ups.Offered (Stands pc.granting s.pcs) :=
  h.offered.mono fun w ⟨i, hi⟩ => ⟨i, (granting_iff _ w).mp hi⟩

theorem Queued.in_turn {s : system ι} (h : Queued s) (hs : Handing s) : InTurn s := by
  intro w hw v hvw
  have hmade : w < s.wake_ups.made := hs.offered_stands.handed_made hw
  obtain ⟨i, hi⟩ | hv | hv := h.served (.inr hw) (Nat.lt_trans hvw hmade) hvw
  · exact .inr (.inr ⟨i, (waking_iff _ v).mp hi⟩)
  · exact .inl hv
  · exact .inr (.inl hv)

theorem queued_create {max_v initial_count : ℕ} {s : system ι} (h : create max_v initial_count = .ok s) :
    Queued s := by
  unfold create at h
  split at h
  · cases h
  · cases h
    exact wake_ups.ordered_init (by simp [Stands, pc.waking]) (by simp [Stands, pc.granting])

variable [DecidableEq ι]

theorem Queued.goto {s : system ι} (h : Queued s) (i : ι) (p : pc) (hwaking : p.waking = (s.pcs i).waking)
    (hgranting : p.granting = (s.pcs i).granting) : Queued (s.goto i p) :=
  wake_ups.Ordered.goto h hwaking hgranting

theorem next_release_none (n : ℕ) : (next_release n).waking = none ∧ (next_release n).granting = none := by
  obtain hp | ⟨m, hp⟩ := next_release_cases n
  all_goals rw [hp]
  all_goals exact ⟨rfl, rfl⟩

theorem queued_step (max_v : ℕ) (s : system ι) (a : action ι) (hs : Handing s) (h : Queued s) (halive : Alive s a) :
    Queued (step max_v s a) := by
  cases a with
  | call i o =>
    apply h.goto
    · cases s.pcs i <;> cases o <;> rfl
    · cases s.pcs i <;> cases o <;> rfl
  | tick w e => exact wake_ups.Ordered.tick h halive
  | step i spurious =>
    show Queued (advance max_v s i spurious (s.pcs i))
    cases hpc : s.pcs i with
    | idle => exact h
    | load r =>
      rw [advance]
      split
      · exact h.goto i r.refused (by rw [hpc]; cases r <;> rfl) (by rw [hpc]; cases r <;> rfl)
      · exact h.goto i (.cas r s.m_counter) (by rw [hpc]; rfl) (by rw [hpc]; rfl)
    | cas r counter =>
      rw [advance]
      split
      · exact h.goto i .idle (by rw [hpc]; rfl) (by rw [hpc]; rfl)
      · exact h.goto i r.refused (by rw [hpc]; cases r <;> rfl) (by rw [hpc]; cases r <;> rfl)
    | emplace timed =>
      have hmade : ∀ w, Stands pc.waking s.pcs w → w < s.wake_ups.made := by
        rintro w ⟨j, hj⟩
        obtain ⟨n, hj⟩ := (waking_iff _ w).mp hj
        exact hs.wake_made j n w hj
      -- The new waiter stands behind all others.
      have hjoined := wake_ups.Ordered.emplace h hs.offered_stands hmade timed
      exact hjoined.goto (by rw [hpc]; rfl) (by rw [hpc]; rfl)
    | waiting timed w =>
      rw [advance]
      split
      · exact h
      · exact h.goto i .idle (by rw [hpc]; rfl) (by rw [hpc]; rfl)
    | check n =>
      rw [advance]
      split
      · exact h.goto i .idle (by rw [hpc]; rfl) (by rw [hpc]; rfl)
      · exact h.goto i (.dequeue _) (by rw [hpc]; rfl) (by rw [hpc]; rfl)
    | dequeue n =>
      cases hq : s.wake_ups.m_wait_queue with
      | nil =>
        -- Nobody waits.
        simp only [advance, hq]
        exact h.goto i (.add n) (by rw [hpc]; rfl) (by rw [hpc]; rfl)
      | cons w rest =>
        simp only [advance, hq]
        exact wake_ups.Ordered.take_out h hq (by rw [hpc]; rfl) rfl (by rw [hpc]; rfl)
    | wake n w =>
      rw [advance]
      split
      · -- The waiter has timed out.
        rename_i hw
        exact (wake_ups.Ordered.skip h hw (by rw [hpc]; rfl) rfl (by rw [hpc]; rfl)).drop w
      · exact wake_ups.Ordered.finish h (by rw [hpc]; rfl) rfl (by rw [hpc]; rfl) rfl
    | grant n w =>
      obtain ⟨hwaking, hgranting⟩ := next_release_none n
      exact (wake_ups.Ordered.resume h (by rw [hpc]; rfl) hgranting (by rw [hpc, hwaking]; rfl)).drop w
    | add n =>
      obtain ⟨hwaking, hgranting⟩ := next_release_none n
      exact h.goto i (next_release n) (by rw [hpc, hwaking]; rfl) (by rw [hpc, hgranting]; rfl)

/-- **Permits are handed out in turn**, where no handler of a timer runs when its wake-up has been destroyed. -/
theorem handed_in_turn (max_v initial_count : ℕ) (s : system ι) (hs : create max_v initial_count = .ok s)
    (acts : List (action ι)) (halive : Guarded (step max_v) Alive s acts) :
    Throughout (step max_v) InTurn s acts := by
  have hall : Throughout (step max_v) (fun s => Handing s ∧ Queued s) s acts :=
    throughout_of_inv (fun s a h ha => ⟨handing_step max_v s a h.1, queued_step max_v s a h.1 h.2 ha⟩) s acts
      ⟨handing_create hs, queued_create hs⟩ halive
  exact hall.mono fun _ h => h.2.in_turn h.1

/-- One releaser is held up between the queue and the wake-up, and another one overtakes it. -/
theorem handed_in_turn_two :
    Throughout (step 3) InTurn (⟨0, .init, fun _ => .idle⟩ : system (Fin 4))
      [.call 0 (.request .acquire), .step 0 false, .step 0 false, .call 1 (.request .acquire), .step 1 false,
        .step 1 false, .call 2 (.release 1), .step 2 false, .step 2 false, .call 3 (.release 1), .step 3 false,
        .step 3 false, .step 3 false, .step 3 false] :=
  handed_in_turn 3 0 _ rfl _ (by decide)

end co_semaphore

end Libgs.Sync
