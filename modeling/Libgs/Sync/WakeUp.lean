import Mathlib.Logic.Function.Basic
import Mathlib.Data.List.Basic

/-!
# Waiters and their wake-ups

`co_lock_wake_up` of `core/coro/detail/wake_up.h` and the queue of them that `co_mutex` and
`co_basic_semaphore` keep. A wake-up is named by the order in which it was made. The queue holds the only pointer to it:
it is destroyed when the `unlock` that has taken it out has called it. The handler of its timer captures `this`, and
keeps nothing alive.
-/

namespace Libgs.Sync

inductive timer
  | off
  /-- Between `m_wait_queue.emplace` and `start_timer` -/
  | made
  | armed
  /-- Its handler is queued, and `cancel` comes too late. -/
  | expired
  /-- The handler has set `m_finished` first and is to dispatch the handler of the waiter. -/
  | won
  deriving DecidableEq, Repr

structure wake_ups where
  made : ℕ
  m_finished : ℕ → Bool
  m_timer : ℕ → timer
  /-- What the handler of a wake-up was called with -/
  resumed : ℕ → List Bool
  m_wait_queue : List ℕ
  /-- How many had been made when the pointer that the queue held went out of scope -/
  freed : ℕ → Option ℕ

/-- The handler runs at what lies where its `this` points, which the two last events name. -/
inductive timer_event
  | start
  | expire
  | run (v : ℕ)
  | dispatch (v : ℕ)
  deriving DecidableEq, Repr

namespace wake_ups

def init : wake_ups := ⟨0, fun _ => false, fun _ => .off, fun _ => [], [], fun _ => none⟩

def emplace (u : wake_ups) (timed : Bool) : wake_ups :=
  { u with
    made := u.made + 1
    m_timer := Function.update u.m_timer u.made (if timed then .made else .off)
    m_wait_queue := u.m_wait_queue ++ [u.made] }

/-- `operator()` up to `test_and_set`, where that finds the flag clear -/
def finish (u : wake_ups) (w : ℕ) : wake_ups := { u with m_finished := Function.update u.m_finished w true }

/-- `operator()` after `test_and_set`: it cancels a timer that has not expired yet. -/
def resume (u : wake_ups) (w : ℕ) (success : Bool) : wake_ups :=
  { u with
    m_timer := if u.m_timer w = .armed then Function.update u.m_timer w .off else u.m_timer
    resumed := Function.update u.resumed w (u.resumed w ++ [success]) }

/-- The pointer that the queue held goes out of scope. -/
def drop (u : wake_ups) (w : ℕ) : wake_ups := { u with freed := Function.update u.freed w (some u.made) }

def set_timer (u : wake_ups) (w : ℕ) (t : timer) : wake_ups := { u with m_timer := Function.update u.m_timer w t }

/-- The memory of a destroyed wake-up is left as it was, or holds one made since. -/
def lies (u : wake_ups) (w v : ℕ) : Bool := v = w ∨ (u.freed w).any fun n => n ≤ v ∧ v < u.made

/-- What the timer of a wake-up does next. Its handler asks whether there was an error, and not whether the wake-up is
still there. -/
def tick (u : wake_ups) (w : ℕ) : timer_event → wake_ups
  | .start => if u.m_timer w = .made then u.set_timer w .armed else u
  | .expire => if u.m_timer w = .armed then u.set_timer w .expired else u
  | .run v =>
    if u.m_timer w = .expired ∧ u.lies w v then
      if u.m_finished v then u.set_timer w .off else (u.finish v).set_timer w .won
    else u
  | .dispatch v =>
    if u.m_timer w = .won ∧ u.lies w v then (u.set_timer w .off).resume v false else u

/-- A handler runs only while its wake-up is there. -/
def Alive (u : wake_ups) (w : ℕ) : timer_event → Prop
  | .run _ | .dispatch _ => u.freed w = none
  | _ => True

instance (u : wake_ups) (w : ℕ) : DecidablePred (u.Alive w)
  | .start | .expire => isTrue trivial
  | .run _ | .dispatch _ => inferInstanceAs (Decidable (u.freed w = none))

variable (u : wake_ups)

@[simp] theorem emplace_made (timed : Bool) : (u.emplace timed).made = u.made + 1 := rfl
@[simp] theorem emplace_finished (timed : Bool) : (u.emplace timed).m_finished = u.m_finished := rfl
@[simp] theorem emplace_resumed (timed : Bool) : (u.emplace timed).resumed = u.resumed := rfl
@[simp] theorem emplace_queue (timed : Bool) : (u.emplace timed).m_wait_queue = u.m_wait_queue ++ [u.made] := rfl

@[simp] theorem emplace_timer (timed : Bool) (v : ℕ) :
    (u.emplace timed).m_timer v = if v = u.made then if timed then .made else .off else u.m_timer v :=
  Function.update_apply ..

@[simp] theorem finish_made (w : ℕ) : (u.finish w).made = u.made := rfl
@[simp] theorem finish_timer (w : ℕ) : (u.finish w).m_timer = u.m_timer := rfl
@[simp] theorem finish_resumed (w : ℕ) : (u.finish w).resumed = u.resumed := rfl
@[simp] theorem finish_queue (w : ℕ) : (u.finish w).m_wait_queue = u.m_wait_queue := rfl

@[simp] theorem finish_finished (w v : ℕ) : (u.finish w).m_finished v = if v = w then true else u.m_finished v :=
  Function.update_apply ..

@[simp] theorem resume_made (w : ℕ) (b : Bool) : (u.resume w b).made = u.made := rfl
@[simp] theorem resume_finished (w : ℕ) (b : Bool) : (u.resume w b).m_finished = u.m_finished := rfl
@[simp] theorem resume_queue (w : ℕ) (b : Bool) : (u.resume w b).m_wait_queue = u.m_wait_queue := rfl

@[simp] theorem resume_timer (w v : ℕ) (b : Bool) :
    (u.resume w b).m_timer v = if v = w ∧ u.m_timer w = .armed then .off else u.m_timer v := by
  by_cases harmed : u.m_timer w = .armed <;> simp [resume, harmed, Function.update_apply]

@[simp] theorem resume_resumed (w v : ℕ) (b : Bool) :
    (u.resume w b).resumed v = if v = w then u.resumed w ++ [b] else u.resumed v :=
  Function.update_apply ..

@[simp] theorem drop_made (w : ℕ) : (u.drop w).made = u.made := rfl
@[simp] theorem drop_finished (w : ℕ) : (u.drop w).m_finished = u.m_finished := rfl
@[simp] theorem drop_timer (w : ℕ) : (u.drop w).m_timer = u.m_timer := rfl
@[simp] theorem drop_resumed (w : ℕ) : (u.drop w).resumed = u.resumed := rfl
@[simp] theorem drop_queue (w : ℕ) : (u.drop w).m_wait_queue = u.m_wait_queue := rfl

@[simp] theorem set_timer_made (w : ℕ) (t : timer) : (u.set_timer w t).made = u.made := rfl
@[simp] theorem set_timer_finished (w : ℕ) (t : timer) : (u.set_timer w t).m_finished = u.m_finished := rfl
@[simp] theorem set_timer_resumed (w : ℕ) (t : timer) : (u.set_timer w t).resumed = u.resumed := rfl
@[simp] theorem set_timer_queue (w : ℕ) (t : timer) : (u.set_timer w t).m_wait_queue = u.m_wait_queue := rfl

@[simp] theorem set_timer_timer (w v : ℕ) (t : timer) :
    (u.set_timer w t).m_timer v = if v = w then t else u.m_timer v :=
  Function.update_apply ..

/-! ## What a timer does -/

variable {u}

theorem lies_iff (w v : ℕ) : u.lies w v = true ↔ v = w ∨ ∃ n, u.freed w = some n ∧ n ≤ v ∧ v < u.made := by
  simp [lies, Option.any_eq_true]

theorem lies_lt_made {w v : ℕ} (h : u.lies w v = true) (hw : w < u.made) : v < u.made := by
  obtain rfl | ⟨n, -, -, hv⟩ := (lies_iff w v).mp h
  · exact hw
  · exact hv

theorem tick_cases (w : ℕ) (e : timer_event) :
    u.tick w e = u ∨ (∃ t, t ≠ .won ∧ u.m_timer w ≠ .off ∧ u.tick w e = u.set_timer w t) ∨
      (∃ v, e = .run v ∧ u.m_timer w = .expired ∧ u.lies w v = true ∧ u.m_finished v = false ∧
        u.tick w e = (u.finish v).set_timer w .won) ∨
      (∃ v, e = .dispatch v ∧ u.m_timer w = .won ∧ u.lies w v = true ∧
        u.tick w e = (u.set_timer w .off).resume v false) := by
  cases e with
  | start =>
    by_cases h : u.m_timer w = .made
    · exact .inr (.inl ⟨.armed, by simp, by simp [h], by simp [tick, h]⟩)
    · exact .inl (by simp [tick, h])
  | expire =>
    by_cases h : u.m_timer w = .armed
    · exact .inr (.inl ⟨.expired, by simp, by simp [h], by simp [tick, h]⟩)
    · exact .inl (by simp [tick, h])
  | run v =>
    by_cases h : u.m_timer w = .expired ∧ u.lies w v
    · cases hf : u.m_finished v with
      | true => exact .inr (.inl ⟨.off, by simp, by simp [h.1], by simp [tick, h, hf]⟩)
      | false => exact .inr (.inr (.inl ⟨v, rfl, h.1, h.2, hf, by simp [tick, h, hf]⟩))
    · exact .inl (by rw [tick, if_neg h])
  | dispatch v =>
    by_cases h : u.m_timer w = .won ∧ u.lies w v
    · exact .inr (.inr (.inr ⟨v, rfl, h.1, h.2, by rw [tick, if_pos h]⟩))
    · exact .inl (by rw [tick, if_neg h])

theorem tick_cases_alive {w : ℕ} {e : timer_event} (h : u.Alive w e) :
    u.tick w e = u ∨ (∃ t, t ≠ .won ∧ u.m_timer w ≠ .off ∧ u.tick w e = u.set_timer w t) ∨
      (u.m_timer w = .expired ∧ u.m_finished w = false ∧ u.tick w e = (u.finish w).set_timer w .won) ∨
      (u.m_timer w = .won ∧ u.tick w e = (u.set_timer w .off).resume w false) := by
  have hlies : ∀ v, u.freed w = none → u.lies w v = true → v = w := by
    intro v hfreed hv
    simpa [lies_iff, hfreed] using hv
  obtain heq | hset | ⟨v, rfl, hexpired, hv, hf, heq⟩ | ⟨v, rfl, hwon, hv, heq⟩ := tick_cases (u := u) w e
  · exact .inl heq
  · exact .inr (.inl hset)
  · obtain rfl := hlies v h hv
    exact .inr (.inr (.inl ⟨hexpired, hf, heq⟩))
  · obtain rfl := hlies v h hv
    exact .inr (.inr (.inr ⟨hwon, heq⟩))

theorem tick_off {w : ℕ} (e : timer_event) (h : u.m_timer w = .off) : u.tick w e = u := by
  cases e <;> simp [tick, h]

@[simp] theorem tick_made (w : ℕ) (e : timer_event) : (u.tick w e).made = u.made := by
  obtain heq | ⟨t, -, -, heq⟩ | ⟨v, -, -, -, -, heq⟩ | ⟨v, -, -, -, heq⟩ := tick_cases (u := u) w e
  all_goals rw [heq]
  all_goals rfl

@[simp] theorem true_mem_tick_resumed (w x : ℕ) (e : timer_event) :
    true ∈ (u.tick w e).resumed x ↔ true ∈ u.resumed x := by
  obtain heq | ⟨t, -, -, heq⟩ | ⟨v, -, -, -, -, heq⟩ | ⟨v, -, -, -, heq⟩ := tick_cases (u := u) w e
  all_goals rw [heq]
  · rfl
  · rfl
  · by_cases hxv : x = v <;> simp [hxv]

theorem finished_tick {w x : ℕ} (e : timer_event) (h : u.m_finished x = true) : (u.tick w e).m_finished x = true := by
  obtain heq | ⟨t, -, -, heq⟩ | ⟨v, -, -, -, -, heq⟩ | ⟨v, -, -, -, heq⟩ := tick_cases (u := u) w e
  all_goals rw [heq]
  all_goals simp [h]

theorem resumed_of_tick {w x : ℕ} {e : timer_event} (h : (u.tick w e).resumed x = []) : u.resumed x = [] := by
  obtain heq | ⟨t, -, -, heq⟩ | ⟨v, -, -, -, -, heq⟩ | ⟨v, -, -, -, heq⟩ := tick_cases (u := u) w e
  all_goals rw [heq] at h
  · exact h
  · exact h
  · exact h
  · by_cases hxv : x = v <;> simp [hxv] at h
    exact h

theorem tick_untimed {w v : ℕ} {e : timer_event} (halive : u.Alive w e) (h : u.m_timer v = .off) :
    (u.tick w e).m_timer v = .off ∧ (u.tick w e).resumed v = u.resumed v := by
  have hne : u.m_timer w ≠ .off → v ≠ w := by
    rintro hw rfl
    exact hw h
  obtain heq | ⟨t, -, hw, heq⟩ | ⟨hw, -, heq⟩ | ⟨hw, heq⟩ := tick_cases_alive halive
  all_goals rw [heq]
  · exact ⟨h, rfl⟩
  · exact ⟨by simp [hne hw, h], rfl⟩
  · exact ⟨by simp [hne (by simp [hw]), h], rfl⟩
  · have hvw := hne (by simp [hw])
    exact ⟨by simp [hvw, h], by simp [hvw]⟩

/-! ## One hand-over -/

/-- A releaser that has set the flag of a wake-up and not resumed it yet has claimed it. Whatever the timers do, no
wake-up that is claimed or has its flag clear has been resumed by a releaser. -/
structure Offered (u : wake_ups) (claimed : ℕ → Prop) : Prop where
  queued : ∀ w ∈ u.m_wait_queue, w < u.made
  fresh : ∀ w, u.made ≤ w → u.m_finished w = false ∧ u.m_timer w = .off ∧ u.resumed w = []
  claim : ∀ w, claimed w → u.m_finished w = true ∧ true ∉ u.resumed w
  unfinished : ∀ w, u.m_finished w = false → true ∉ u.resumed w

theorem offered_init (claimed : ℕ → Prop) (h : ∀ w, ¬ claimed w) : init.Offered claimed := by
  constructor <;> simp [init, h]

section
variable {claimed : ℕ → Prop}

theorem Offered.mono (h : u.Offered claimed) {claimed' : ℕ → Prop} (hc : ∀ w, claimed' w → claimed w) :
    u.Offered claimed' :=
  ⟨h.queued, h.fresh, fun w hw => h.claim w (hc w hw), h.unfinished⟩

theorem Offered.lt_made (h : u.Offered claimed) {w : ℕ} (hw : u.m_finished w = true ∨ u.m_timer w ≠ .off) :
    w < u.made := by
  by_contra hge
  obtain ⟨hf, ht, -⟩ := h.fresh w (by omega)
  rcases hw with hw | hw
  · simp [hf] at hw
  · exact hw ht

theorem Offered.emplace (h : u.Offered claimed) (timed : Bool) : (u.emplace timed).Offered claimed := by
  refine ⟨fun w hw => ?_, fun w hw => ?_, h.claim, h.unfinished⟩
  · rcases List.mem_append.mp hw with hw | hw
    · exact Nat.lt_succ_of_lt (h.queued w hw)
    · rw [List.mem_singleton.mp hw]
      exact Nat.lt_succ_self _
  · have hne : w ≠ u.made := by
      rintro rfl
      exact absurd hw (by simp)
    simpa [hne] using h.fresh w (Nat.le_of_succ_le hw)

theorem Offered.dequeue (h : u.Offered claimed) {w : ℕ} {rest : List ℕ} (hq : u.m_wait_queue = w :: rest) :
    Offered { u with m_wait_queue := rest } claimed :=
  ⟨fun v hv => h.queued v (by rw [hq]; exact List.mem_cons_of_mem w hv), h.fresh, h.claim, h.unfinished⟩

theorem Offered.drop (h : u.Offered claimed) (w : ℕ) : (u.drop w).Offered claimed :=
  ⟨h.queued, h.fresh, h.claim, h.unfinished⟩

theorem Offered.set_timer (h : u.Offered claimed) (w : ℕ) (t : timer) (hw : u.m_timer w ≠ .off) :
    (u.set_timer w t).Offered claimed := by
  refine ⟨h.queued, fun v hv => ?_, h.claim, h.unfinished⟩
  have hvw : v ≠ w := by
    rintro rfl
    exact hw (h.fresh v hv).2.1
  simpa [hvw] using h.fresh v hv

theorem Offered.finish (h : u.Offered claimed) (w : ℕ) (hmade : w < u.made) (hw : u.m_finished w = false) :
    (u.finish w).Offered fun v => claimed v ∨ v = w := by
  refine ⟨h.queued, fun v hv => ?_, fun v hv => ?_, fun v hv => ?_⟩
  · have hvw : v ≠ w := Nat.ne_of_gt (Nat.lt_of_lt_of_le hmade hv)
    simpa [hvw] using h.fresh v hv
  · rcases hv with hv | rfl
    · obtain ⟨hf, hr⟩ := h.claim v hv
      exact ⟨by simp [hf], hr⟩
    · exact ⟨by simp, h.unfinished v hw⟩
  · by_cases hvw : v = w <;> simp [hvw] at hv
    exact h.unfinished v hv

theorem Offered.resume (h : u.Offered claimed) (w : ℕ) (b : Bool) (hmade : w < u.made)
    (hw : u.m_finished w = true ∨ b = false) : (u.resume w b).Offered fun v => claimed v ∧ (v = w → b = false) := by
  refine ⟨h.queued, fun v hv => ?_, fun v ⟨hv, hb⟩ => ?_, fun v hv => ?_⟩
  · have hvw : v ≠ w := Nat.ne_of_gt (Nat.lt_of_lt_of_le hmade hv)
    simpa [hvw] using h.fresh v hv
  · obtain ⟨hf, hr⟩ := h.claim v hv
    refine ⟨hf, ?_⟩
    by_cases hvw : v = w
    · simpa [hvw, hb hvw] using hvw ▸ hr
    · simpa [hvw] using hr
  · have hr := h.unfinished v hv
    by_cases hvw : v = w
    · have hb : b = false := hw.resolve_left fun hf => by simp [← hvw, show u.m_finished v = false from hv] at hf
      simpa [hvw, hb] using hvw ▸ hr
    · simpa [hvw] using hr

theorem Offered.tick (h : u.Offered claimed) (w : ℕ) (e : timer_event) : (u.tick w e).Offered claimed := by
  obtain heq | ⟨t, -, hoff, heq⟩ | ⟨v, -, hexpired, hv, hf, heq⟩ | ⟨v, -, hwon, hv, heq⟩ := tick_cases (u := u) w e
  all_goals rw [heq]
  · exact h
  · exact h.set_timer w t hoff
  · have hmade : v < u.made := lies_lt_made hv (h.lt_made (.inr (by simp [hexpired])))
    exact ((h.finish v hmade hf).mono fun x => .inl).set_timer w .won (by simp [hexpired])
  · have hmade : v < u.made := lies_lt_made hv (h.lt_made (.inr (by simp [hwon])))
    exact ((h.set_timer w .off (by simp [hwon])).resume v false hmade (.inr rfl)).mono fun x hx => ⟨hx, fun _ => rfl⟩

end

/-! ## One resumption -/

/-- While handlers run in time, who sets the flag of a wake-up first has the right to resume it, once. -/
structure Once (u : wake_ups) (claimed : ℕ → Prop) : Prop where
  offered : u.Offered claimed
  claim : ∀ w, claimed w → u.resumed w = [] ∧ u.m_timer w ≠ .won
  won : ∀ w, u.m_timer w = .won → u.m_finished w = true ∧ u.resumed w = []
  unfinished : ∀ w, u.m_finished w = false → u.resumed w = []
  once : ∀ w, (u.resumed w).length ≤ 1

theorem once_init (claimed : ℕ → Prop) (h : ∀ w, ¬ claimed w) : init.Once claimed := by
  refine ⟨offered_init claimed h, ?_, ?_, ?_, ?_⟩ <;> simp [init, h]

section
variable {claimed : ℕ → Prop}

theorem Once.mono (h : u.Once claimed) {claimed' : ℕ → Prop} (hc : ∀ w, claimed' w → claimed w) :
    u.Once claimed' :=
  ⟨h.offered.mono hc, fun w hw => h.claim w (hc w hw), h.won, h.unfinished, h.once⟩

theorem Once.emplace (h : u.Once claimed) (timed : Bool) : (u.emplace timed).Once claimed := by
  have htimer : ∀ v, (u.emplace timed).m_timer v = .won → u.m_timer v = .won := by
    intro v hv
    by_cases hnew : v = u.made
    · cases timed <;> simp [hnew] at hv
    · simpa [hnew] using hv
  refine ⟨h.offered.emplace timed, fun w hw => ?_, fun w hw => h.won w (htimer w hw), h.unfinished, h.once⟩
  obtain ⟨hr, ht⟩ := h.claim w hw
  exact ⟨hr, fun hwon => ht (htimer w hwon)⟩

theorem Once.dequeue (h : u.Once claimed) {w : ℕ} {rest : List ℕ} (hq : u.m_wait_queue = w :: rest) :
    Once { u with m_wait_queue := rest } claimed :=
  ⟨h.offered.dequeue hq, h.claim, h.won, h.unfinished, h.once⟩

theorem Once.drop (h : u.Once claimed) (w : ℕ) : (u.drop w).Once claimed :=
  ⟨h.offered.drop w, h.claim, h.won, h.unfinished, h.once⟩

theorem Once.set_timer (h : u.Once claimed) (w : ℕ) (t : timer) (ht : t ≠ .won) (hw : u.m_timer w ≠ .off) :
    (u.set_timer w t).Once claimed := by
  have htimer : ∀ v, (u.set_timer w t).m_timer v = .won → u.m_timer v = .won := by
    intro v hv
    by_cases hvw : v = w <;> simp_all
  refine ⟨h.offered.set_timer w t hw, fun v hv => ?_, fun v hv => h.won v (htimer v hv), h.unfinished, h.once⟩
  obtain ⟨hr, hwon⟩ := h.claim v hv
  exact ⟨hr, fun hv => hwon (htimer v hv)⟩

theorem Once.finish (h : u.Once claimed) (w : ℕ) (hmade : w < u.made) (hw : u.m_finished w = false) :
    (u.finish w).Once fun v => claimed v ∨ v = w := by
  have hnot : u.m_timer w ≠ .won := fun ht => by simp [(h.won w ht).1] at hw
  refine ⟨h.offered.finish w hmade hw, ?_, fun v hv => ?_, fun v hv => ?_, h.once⟩
  · rintro v (hv | rfl)
    · exact h.claim v hv
    · exact ⟨h.unfinished v hw, hnot⟩
  · obtain ⟨hf, hr⟩ := h.won v hv
    exact ⟨by simp [hf], hr⟩
  · by_cases hvw : v = w <;> simp [hvw] at hv
    exact h.unfinished v hv

theorem Once.expire (h : u.Once claimed) (w : ℕ) (hexpired : u.m_timer w = .expired) (hw : u.m_finished w = false) :
    ((u.finish w).set_timer w .won).Once claimed := by
  have hmade : w < u.made := h.offered.lt_made (.inr (by simp [hexpired]))
  have hnot : ¬ claimed w := fun hc => by simp [(h.offered.claim w hc).1] at hw
  have hset : (u.finish w).Once claimed := (h.finish w hmade hw).mono fun v => .inl
  refine ⟨hset.offered.set_timer w .won (by simp [hexpired]), fun v hv => ?_, fun v hv => ?_, hset.unfinished,
    hset.once⟩
  · have hvw : v ≠ w := by
      rintro rfl
      exact hnot hv
    simpa [hvw] using hset.claim v hv
  · by_cases hvw : v = w
    · rw [hvw]
      exact ⟨by simp, h.unfinished w hw⟩
    · exact hset.won v (by simpa [hvw] using hv)

theorem Once.resume (h : u.Once claimed) (w : ℕ) (b : Bool) (hf : u.m_finished w = true) (hr : u.resumed w = [])
    (ht : u.m_timer w ≠ .won) : (u.resume w b).Once fun v => claimed v ∧ v ≠ w := by
  have htimer : ∀ v, (u.resume w b).m_timer v = .won → u.m_timer v = .won := by
    intro v hv
    by_cases hcancel : v = w ∧ u.m_timer w = .armed <;> simp [hcancel] at hv
    exact hv
  refine ⟨(h.offered.resume w b (h.offered.lt_made (.inl hf)) (.inl hf)).mono fun v hv =>
    ⟨hv.1, fun hvw => absurd hvw hv.2⟩, ?_, fun v hv => ?_, fun v hv => ?_, fun v => ?_⟩
  · rintro v ⟨hv, hvw⟩
    obtain ⟨hrv, hwon⟩ := h.claim v hv
    exact ⟨by simpa [hvw] using hrv, fun hv => hwon (htimer v hv)⟩
  · have hvw : v ≠ w := by
      rintro rfl
      exact ht (htimer v hv)
    simpa [hvw] using h.won v (htimer v hv)
  · have hvw : v ≠ w := by
      rintro rfl
      simp [hf] at hv
    simpa [hvw] using h.unfinished v hv
  · by_cases hvw : v = w
    · simp [hvw, hr]
    · simpa [hvw] using h.once v

theorem Once.tick (h : u.Once claimed) {w : ℕ} {e : timer_event} (halive : u.Alive w e) :
    (u.tick w e).Once claimed := by
  obtain heq | ⟨t, ht, hoff, heq⟩ | ⟨hexpired, hw, heq⟩ | ⟨hwon, heq⟩ := tick_cases_alive halive
  · rwa [heq]
  · rw [heq]
    exact h.set_timer w t ht hoff
  · rw [heq]
    exact h.expire w hexpired hw
  · obtain ⟨hf, hr⟩ := h.won w hwon
    have hnot : ∀ v, claimed v → v ≠ w := by
      rintro v hv rfl
      exact (h.claim v hv).2 hwon
    have hoff : (u.set_timer w .off).Once claimed := h.set_timer w .off (by simp) (by simp [hwon])
    rw [heq]
    exact (hoff.resume w false hf hr (by simp)).mono fun v hv => ⟨hv, hnot v hv⟩

end

/-! ## Waiters in the queue -/

/-- The queue holds a waiter that has not timed out. -/
def Pending (u : wake_ups) : Prop := ∃ w ∈ u.m_wait_queue, u.m_finished w = false

theorem not_pending_of_empty (h : u.m_wait_queue = []) : ¬ u.Pending := by
  rintro ⟨w, hw, -⟩
  simp [h] at hw

theorem not_pending_init : ¬ init.Pending := not_pending_of_empty rfl

theorem Pending.of_finish {w : ℕ} (h : (u.finish w).Pending) : u.Pending := by
  obtain ⟨v, hv, hf⟩ := h
  refine ⟨v, hv, ?_⟩
  by_cases hvw : v = w <;> simp [hvw] at hf
  exact hf

theorem Pending.of_tick {w : ℕ} {e : timer_event} (h : (u.tick w e).Pending) : u.Pending := by
  obtain heq | ⟨t, -, -, heq⟩ | ⟨v, -, -, -, -, heq⟩ | ⟨v, -, -, -, heq⟩ := tick_cases (u := u) w e
  all_goals rw [heq] at h
  · exact h
  · exact h
  · exact Pending.of_finish h
  · exact h

theorem Pending.of_dequeue {w : ℕ} {rest : List ℕ} (hq : u.m_wait_queue = w :: rest)
    (h : Pending { u with m_wait_queue := rest }) : u.Pending := by
  obtain ⟨v, hv, hf⟩ := h
  exact ⟨v, by rw [hq]; exact List.mem_cons_of_mem w hv, hf⟩

end wake_ups

end Libgs.Sync
