import Libgs.Sync.CoMutex

/-!
# Guards of the coroutine mutex

`co_unique_lock` of `core/coro/detail/mutex.h`, any number of them on one `co_mutex`. A guard is used by one coroutine
at a time. What it knows of the mutex is the pointer, and that says nothing about who owns the mutex. Its callers know
more: what their requests have answered.
-/

namespace Libgs.Sync.co_unique_lock

open Lib co_mutex

/-! ## The guards -/

/-- The guards and the mutex. The second place of a guard in the code of the mutex is for a request it makes while it
owns the mutex already. -/
structure state (γ : Type) where
  mutex : system (γ × Bool)
  alive : γ → Bool
  /-- The pointer is to the mutex. -/
  m_mutex : γ → Bool
  /-- The right side of the move assignment to a guard that is still unlocking -/
  moving : γ → Option γ
  busy : γ → Bool

def init {γ : Type} : state γ := ⟨co_mutex.init, fun _ => false, fun _ => false, fun _ => none, fun _ => false⟩

inductive action (γ : Type)
  | construct (g : γ)
  | move_construct (g other : γ)
  | move_assign (g other : γ)
  | request (g : γ) (r : request)
  | unlock (g : γ)
  | destruct (g : γ)
  /-- The call that is under way in a place takes its next step. -/
  | step (i : γ × Bool) (spurious : Bool)
  | tick (w : ℕ) (e : timer_event)

def resting (p : pc) : Bool := p = .idle ∨ p = .holding

namespace state

variable {γ : Type} [DecidableEq γ]

def settled (s : state γ) (g : γ) : Bool := resting (s.mutex.pcs (g, false)) ∧ resting (s.mutex.pcs (g, true))

def ready (s : state γ) (g : γ) : Bool := s.alive g ∧ ¬ s.busy g ∧ s.moving g = none ∧ s.settled g

def release (s : state γ) (g : γ) : state γ :=
  { s with mutex := (s.mutex.goto (g, true) .idle).goto (g, false) .dequeue }

def take_over (s : state γ) (g other : γ) : state γ :=
  { s with
    mutex := (((s.mutex.goto (other, true) .idle).goto (other, false) .idle).goto (g, true) .idle).goto (g, false)
      (s.mutex.pcs (other, false))
    m_mutex := Function.update (Function.update s.m_mutex g (s.m_mutex other)) other false }

end state

variable {γ : Type} [DecidableEq γ]

/-- A guard without a mutex has nothing to wait for: its requests return at once. -/
def step (s : state γ) : action γ → state γ
  | .construct g =>
    if ¬ s.alive g ∧ s.settled g then
      { s with alive := Function.update s.alive g true, m_mutex := Function.update s.m_mutex g true }
    else s
  | .move_construct g other =>
    if g ≠ other ∧ ¬ s.alive g ∧ s.settled g ∧ s.ready other then
      { s.take_over g other with alive := Function.update s.alive g true }
    else s
  | .move_assign g other =>
    if g ≠ other ∧ s.ready g ∧ s.ready other then
      if s.m_mutex g then
        { s.release g with
          moving := Function.update s.moving g (some other), busy := Function.update s.busy other true }
      else s.take_over g other
    else s
  | .request g r =>
    if s.ready g ∧ s.m_mutex g then
      { s with mutex := s.mutex.goto (g, decide (s.mutex.pcs (g, false) = .holding)) (.cas r) }
    else s
  | .unlock g => if s.ready g ∧ s.m_mutex g then s.release g else s
  | .destruct g =>
    if s.ready g then
      { (if s.m_mutex g then s.release g else s) with alive := Function.update s.alive g false }
    else s
  | .step i spurious =>
    match s.moving i.1 with
    | some other =>
      if i.2 = false ∧ s.mutex.pcs i = .idle then
        { s.take_over i.1 other with
          moving := Function.update s.moving i.1 none, busy := Function.update s.busy other false }
      else { s with mutex := advance s.mutex i spurious (s.mutex.pcs i) }
    | none => { s with mutex := advance s.mutex i spurious (s.mutex.pcs i) }
  | .tick w e => { s with mutex := co_mutex.step s.mutex (.tick w e) }

/-- The guard that calls the `unlock` of the mutex in this step -/
def unlocks (s : state γ) : action γ → Option γ
  | .unlock g | .destruct g => if s.ready g ∧ s.m_mutex g then some g else none
  | .move_assign g other => if g ≠ other ∧ s.ready g ∧ s.ready other ∧ s.m_mutex g then some g else none
  | _ => none

/-! ## Ownership -/

/-- The mutex is the guard's, through a request of its own or of a guard it was moved from. -/
def GuardOwns (s : state γ) (g : γ) : Prop := ∃ again, Owns s.mutex (g, again)

def Exclusive (s : state γ) : Prop := ∀ g h, GuardOwns s g → GuardOwns s h → g = h

/-- No handler of a timer runs when its wake-up has been destroyed. -/
def Alive (s : state γ) : action γ → Prop
  | .tick w e => s.mutex.wake_ups.Alive w e
  | _ => True

instance (s : state γ) : DecidablePred (Alive s)
  | .tick w e => inferInstanceAs (Decidable (s.mutex.wake_ups.Alive w e))
  | .construct _ | .move_construct _ _ | .move_assign _ _ | .request _ _ | .unlock _ | .destruct _ | .step _ _ =>
    isTrue trivial

/-! ## What the callers see -/

/-- What the callers of the guards know of: their own calls, and the answers to their requests -/
inductive notice (γ : Type)
  | constructed (g : γ)
  /-- A request at the mutex has returned, from `lock` always with success. -/
  | answered (g : γ) (granted : Bool)
  | unlocked (g : γ)
  | moved (g other : γ)

/-- A request returns where the place in it is left for one outside. -/
def answer (s : state γ) (i : γ × Bool) (spurious : Bool) : List (notice γ) :=
  match s.mutex.pcs i, (advance s.mutex i spurious (s.mutex.pcs i)).pcs i with
  | .cas _, .holding | .waiting _ _, .holding => [.answered i.1 true]
  | .cas _, .idle | .waiting _ _, .idle => [.answered i.1 false]
  | _, _ => []

/-- What they learn by the step -/
def notices (s : state γ) : action γ → List (notice γ)
  | .construct g => if ¬ s.alive g ∧ s.settled g then [.constructed g] else []
  | .move_construct g other => if g ≠ other ∧ ¬ s.alive g ∧ s.settled g ∧ s.ready other then [.moved g other] else []
  | .move_assign g other =>
    if g ≠ other ∧ s.ready g ∧ s.ready other then
      if s.m_mutex g then [.unlocked g] else [.moved g other]
    else []
  | .unlock g | .destruct g => if s.ready g ∧ s.m_mutex g then [.unlocked g] else []
  | .step i spurious =>
    match s.moving i.1 with
    | some other => if i.2 = false ∧ s.mutex.pcs i = .idle then [.moved i.1 other] else answer s i spurious
    | none => answer s i spurious
  | .request _ _ | .tick _ _ => []

/-- The record behind a notice -/
def notice.enter (granted : γ → Bool) : notice γ → γ → Bool
  | .constructed g | .unlocked g => Function.update granted g false
  | .answered g success => Function.update granted g (granted g || success)
  | .moved g other => Function.update (Function.update granted g (granted other)) other false

/-- A request through the guard has been granted, by the record of its callers, and it has not unlocked since. -/
def granted (log : List (notice γ)) : γ → Bool := log.foldl notice.enter fun _ => false

/-- The calls and their answers, kept beside the guards -/
def observed : state γ × List (notice γ) → action γ → state γ × List (notice γ) := logged step notices

/-- A guard unlocks only after a request through it was granted, with no `unlock` since. -/
def Careful (p : state γ × List (notice γ)) (a : action γ) : Prop :=
  ∀ g, unlocks p.1 a = some g → granted p.2 g = true

instance (p : state γ × List (notice γ)) (a : action γ) : Decidable (Careful p a) :=
  match h : unlocks p.1 a with
  | none => isTrue fun g hg => by simp [h] at hg
  | some g => decidable_of_iff (granted p.2 g = true) (by simp [Careful, h])

/-! ## The invariant -/

structure Inv (s : state γ) : Prop where
  mutex : co_mutex.Inv s.mutex
  /-- Only who owns the mutex is in the second place. -/
  again : ∀ g, s.mutex.pcs (g, true) ≠ .idle → s.mutex.pcs (g, false) = .holding
  /-- The right side of a move assignment is not used while the left side unlocks. -/
  source : ∀ g other, s.moving g = some other → g ≠ other ∧ s.busy other = true ∧ s.alive other = true ∧
    s.settled other = true ∧ s.mutex.pcs (g, true) = .idle ∧ ∀ h, s.moving h = some other → h = g

omit [DecidableEq γ] in
theorem inv_init : Inv (init : state γ) := by
  constructor
  · exact co_mutex.inv_init
  · simp [init, co_mutex.init]
  · simp [init]

omit [DecidableEq γ] in
theorem settled_iff (s : state γ) (g : γ) : s.settled g = true ↔
    (s.mutex.pcs (g, false) = .idle ∨ s.mutex.pcs (g, false) = .holding) ∧
      (s.mutex.pcs (g, true) = .idle ∨ s.mutex.pcs (g, true) = .holding) := by
  simp [state.settled, resting]

omit [DecidableEq γ] in
theorem ready_iff (s : state γ) (g : γ) : s.ready g = true ↔
    s.alive g = true ∧ s.busy g = false ∧ s.moving g = none ∧ s.settled g = true := by
  simp [state.ready]

omit [DecidableEq γ] in
theorem Inv.again_idle {s : state γ} (h : Inv s) {g : γ} (hg : s.settled g = true) : s.mutex.pcs (g, true) = .idle := by
  rcases ((settled_iff s g).mp hg).2 with hidle | hholding
  · exact hidle
  · have hmain : s.mutex.pcs (g, false) = .holding := h.again g (by simp [hholding])
    have := h.mutex.exclusive (g, false) (g, true) (.inl (by rw [hmain]; rfl)) (.inl (by rw [hholding]; rfl))
    simp at this

omit [DecidableEq γ] in
theorem owner_alone {m : system (γ × Bool)} (h : co_mutex.Inv m) {i : γ × Bool} (hi : m.pcs i = .holding) :
    m.m_native_handle = true ∧ ∀ j, Owns m j → j = i := by
  have hown : Owns m i := .inl (by rw [hi]; rfl)
  exact ⟨h.locked i hown, fun j hj => h.exclusive j i hj hown⟩

omit [DecidableEq γ] in
theorem not_owns_idle {m : system (γ × Bool)} {i : γ × Bool} (hi : m.pcs i = .idle) : ¬ Owns m i := by
  unfold Owns
  simp [hi, pc.owner]

theorem owns_of_goto_idle {m : system (γ × Bool)} {i j : γ × Bool} (hj : Owns (m.goto i .idle) j) :
    j ≠ i ∧ Owns m j := by
  have hji : j ≠ i := by
    rintro rfl
    exact not_owns_idle (by simp) hj
  exact ⟨hji, (owns_goto_of_ne hji .idle).mp hj⟩

theorem goto_rest {m : system (γ × Bool)} (h : co_mutex.Inv m) (i : γ × Bool) (p : pc)
    (hi : m.pcs i = .idle ∨ m.pcs i = .holding) (hwait : ∀ timed w, p ≠ .waiting timed w) (hgrant : ∀ w, p ≠ .grant w)
    (hwake : ∀ w, p ≠ .wake w)
    (hown : p.owner = true → m.m_native_handle = true ∧ ∀ j, Owns m j → j = i) : co_mutex.Inv (m.goto i p) := by
  refine h.goto i p hwait hgrant (fun w hw => absurd hw (hwake w)) (fun timed w hw => ?_) hown
  rcases hi with hi | hi <;> simp [hi] at hw

theorem release_inv {s : state γ} (h : Inv s) {g : γ} (hg : s.settled g = true)
    (hholding : s.mutex.pcs (g, false) = .holding) : co_mutex.Inv (s.release g).mutex := by
  have hfirst : co_mutex.Inv (s.mutex.goto (g, true) .idle) :=
    goto_rest h.mutex (g, true) .idle (.inl (h.again_idle hg)) (by simp) (by simp) (by simp) (by simp [pc.owner])
  have hmain : (s.mutex.goto (g, true) .idle).pcs (g, false) = .holding := by simp [hholding]
  exact goto_rest hfirst (g, false) .dequeue (.inr hmain) (by simp) (by simp) (by simp)
    fun _ => owner_alone hfirst hmain

theorem take_over_inv {s : state γ} (h : Inv s) {g other : γ} (hne : g ≠ other) (hother : s.settled other = true)
    (hmain : s.mutex.pcs (g, false) = .idle ∨ s.mutex.pcs (g, false) = .holding)
    (hagain : s.mutex.pcs (g, true) = .idle) : co_mutex.Inv (s.take_over g other).mutex := by
  have hfree := h.again_idle hother
  have hrest := ((settled_iff s other).mp hother).1
  have hne' : other ≠ g := hne.symm
  have h1 : co_mutex.Inv (s.mutex.goto (other, true) .idle) :=
    goto_rest h.mutex (other, true) .idle (.inl hfree) (by simp) (by simp) (by simp) (by simp [pc.owner])
  have h2 : co_mutex.Inv ((s.mutex.goto (other, true) .idle).goto (other, false) .idle) :=
    goto_rest h1 (other, false) .idle (by simpa using hrest) (by simp) (by simp) (by simp) (by simp [pc.owner])
  have h3 : co_mutex.Inv (((s.mutex.goto (other, true) .idle).goto (other, false) .idle).goto (g, true) .idle) :=
    goto_rest h2 (g, true) .idle (.inl (by simp [hne, hagain])) (by simp) (by simp) (by simp) (by simp [pc.owner])
  refine goto_rest h3 (g, false) _ (by simpa [hne] using hmain) ?_ ?_ ?_ ?_
  · rcases hrest with hrest | hrest <;> simp [hrest]
  · rcases hrest with hrest | hrest <;> simp [hrest]
  · rcases hrest with hrest | hrest <;> simp [hrest]
  · intro howner
    have hholding : s.mutex.pcs (other, false) = .holding := by
      rcases hrest with hrest | hrest
      · rw [hrest] at howner
        cases howner
      · exact hrest
    obtain ⟨hlocked, halone⟩ := owner_alone h.mutex hholding
    refine ⟨hlocked, fun j hj => ?_⟩
    obtain ⟨-, hj⟩ := owns_of_goto_idle hj
    obtain ⟨hj', hj⟩ := owns_of_goto_idle hj
    exact absurd (halone j (owns_of_goto_idle hj).2) hj'

/-! ## The steps -/

omit [DecidableEq γ] in
theorem Inv.not_source {s : state γ} (h : Inv s) {g other k : γ} (hk : s.moving k = some other)
    (hg : s.busy g = false ∨ s.alive g = false) : other ≠ g := by
  obtain ⟨-, hbusy, halive, -⟩ := h.source k other hk
  rintro rfl
  rcases hg with hg | hg
  · simp [hbusy] at hg
  · simp [halive] at hg

@[simp] theorem release_pcs (s : state γ) (g : γ) (j : γ × Bool) : (s.release g).mutex.pcs j =
    if j = (g, false) then .dequeue else if j = (g, true) then .idle else s.mutex.pcs j := by
  simp [state.release]

@[simp] theorem release_alive (s : state γ) (g : γ) : (s.release g).alive = s.alive := rfl
@[simp] theorem release_busy (s : state γ) (g : γ) : (s.release g).busy = s.busy := rfl
@[simp] theorem release_moving (s : state γ) (g : γ) : (s.release g).moving = s.moving := rfl

theorem release_settled {s : state γ} {g other : γ} (h : s.settled other = true) (hne : other ≠ g) :
    (s.release g).settled other = true := by
  rw [settled_iff] at h ⊢
  simpa [hne] using h

@[simp] theorem take_over_pcs (s : state γ) (g other : γ) (j : γ × Bool) : (s.take_over g other).mutex.pcs j =
    if j = (g, false) then s.mutex.pcs (other, false) else if j = (g, true) then .idle
    else if j = (other, false) then .idle else if j = (other, true) then .idle else s.mutex.pcs j := by
  simp [state.take_over]

@[simp] theorem take_over_alive (s : state γ) (g other : γ) : (s.take_over g other).alive = s.alive := rfl
@[simp] theorem take_over_busy (s : state γ) (g other : γ) : (s.take_over g other).busy = s.busy := rfl
@[simp] theorem take_over_moving (s : state γ) (g other : γ) : (s.take_over g other).moving = s.moving := rfl

theorem take_over_settled {s : state γ} (g : γ) {other o : γ} (hother : s.settled other = true)
    (h : s.settled o = true) : (s.take_over g other).settled o = true := by
  rw [settled_iff] at hother h ⊢
  by_cases hog : o = g
  · simpa [hog] using hother.1
  · by_cases hoo : o = other
    · subst hoo
      simp [hog]
    · simpa [hog, hoo] using h

theorem take_over_again {s : state γ} (h : Inv s) (g other k : γ)
    (hk : (s.take_over g other).mutex.pcs (k, true) ≠ .idle) :
    (s.take_over g other).mutex.pcs (k, false) = .holding := by
  have hkg : k ≠ g := by
    rintro rfl
    simp at hk
  have hko : k ≠ other := by
    rintro rfl
    simp at hk
  simp only [take_over_pcs, Prod.mk.injEq, hkg, hko, false_and, if_false] at hk ⊢
  exact h.again k hk

theorem inv_take_over {s : state γ} (h : Inv s) {g other : γ} (hne : g ≠ other) (hg : s.settled g = true)
    (hother : s.settled other = true) : Inv (s.take_over g other) := by
  constructor
  · exact take_over_inv h hne hother ((settled_iff s g).mp hg).1 (h.again_idle hg)
  · exact take_over_again h g other
  · intro k o hk
    obtain ⟨hko, hbusy, halive, hsettled, hagain, hunique⟩ := h.source k o hk
    refine ⟨hko, hbusy, halive, take_over_settled g hother hsettled, ?_, hunique⟩
    simp [hagain]

theorem inv_release {s : state γ} (h : Inv s) {g : γ} (hready : s.ready g = true)
    (hholding : s.mutex.pcs (g, false) = .holding) : Inv (s.release g) := by
  obtain ⟨-, hfree, -, hsettled⟩ := (ready_iff s g).mp hready
  constructor
  · exact release_inv h hsettled hholding
  · intro k hk
    have hkg : k ≠ g := by
      rintro rfl
      simp at hk
    simp only [release_pcs, Prod.mk.injEq, hkg, false_and, if_false] at hk ⊢
    exact h.again k hk
  · intro k o hk
    have hog : o ≠ g := h.not_source hk (.inl hfree)
    obtain ⟨hko, hbusy, halive, hsettled, hagain, hunique⟩ := h.source k o hk
    refine ⟨hko, hbusy, halive, release_settled hsettled hog, ?_, hunique⟩
    simp [hagain]

theorem inv_request {s : state γ} (h : Inv s) {g : γ} (r : request) (hready : s.ready g = true) :
    Inv { s with mutex := s.mutex.goto (g, decide (s.mutex.pcs (g, false) = .holding)) (.cas r) } := by
  obtain ⟨-, hfree, hmoving, hsettled⟩ := (ready_iff s g).mp hready
  have hagain := h.again_idle hsettled
  set i := (g, decide (s.mutex.pcs (g, false) = .holding)) with hi
  have hidle : s.mutex.pcs i = .idle := by
    by_cases hholding : s.mutex.pcs (g, false) = .holding
    · simp [hi, hholding, hagain]
    · simpa [hi, hholding] using ((settled_iff s g).mp hsettled).1
  have hother : ∀ k, k ≠ g → ∀ b, (s.mutex.goto i (.cas r)).pcs (k, b) = s.mutex.pcs (k, b) := by
    intro k hk b
    simp [hi, hk]
  constructor
  · exact goto_rest h.mutex i (.cas r) (.inl hidle) (by simp) (by simp) (by simp) (by simp [pc.owner])
  · intro k hk
    by_cases hkg : k = g
    · subst hkg
      by_cases hholding : s.mutex.pcs (k, false) = .holding
      · simp [hi, hholding]
      · simp [hi, hholding, hagain] at hk
    · rw [hother k hkg] at hk ⊢
      exact h.again k hk
  · intro k o hk
    have hog : o ≠ g := h.not_source hk (.inl hfree)
    obtain ⟨hko, hbusy, halive, ho, hk', hunique⟩ := h.source k o hk
    refine ⟨hko, hbusy, halive, ?_, ?_, hunique⟩
    · rw [settled_iff] at ho ⊢
      rwa [hother o hog, hother o hog]
    · have hkg : k ≠ g := by
        rintro rfl
        simp [hmoving] at hk
      rwa [hother k hkg]

theorem advance_resting (m : system (γ × Bool)) (i : γ × Bool) (spurious : Bool)
    (hi : m.pcs i = .idle ∨ m.pcs i = .holding) : advance m i spurious (m.pcs i) = m := by
  rcases hi with hi | hi <;> rw [hi] <;> rfl

theorem inv_advance {s : state γ} (h : Inv s) (i : γ × Bool) (spurious : Bool) :
    Inv { s with mutex := advance s.mutex i spurious (s.mutex.pcs i) } := by
  by_cases hrest : s.mutex.pcs i = .idle ∨ s.mutex.pcs i = .holding
  · rw [advance_resting s.mutex i spurious hrest]
    exact h
  have hkeep : ∀ j, s.mutex.pcs j = .idle ∨ s.mutex.pcs j = .holding →
      (advance s.mutex i spurious (s.mutex.pcs i)).pcs j = s.mutex.pcs j := by
    intro j hj
    refine advance_pcs_of_ne _ i j _ _ ?_
    rintro rfl
    exact hrest hj
  constructor
  · exact co_mutex.inv_step s.mutex (.step i spurious) h.mutex trivial
  · intro k hk
    have hmain : s.mutex.pcs (k, false) = .holding := by
      refine h.again k fun hidle => hk ?_
      exact (hkeep (k, true) (.inl hidle)).trans hidle
    exact (hkeep (k, false) (.inr hmain)).trans hmain
  · intro k o hk
    obtain ⟨hko, hbusy, halive, ho, hk', hunique⟩ := h.source k o hk
    refine ⟨hko, hbusy, halive, ?_, (hkeep (k, true) (.inl hk')).trans hk', hunique⟩
    obtain ⟨hfirst, hsecond⟩ := (settled_iff s o).mp ho
    rw [settled_iff]
    dsimp only
    rw [hkeep (o, false) hfirst, hkeep (o, true) hsecond]
    exact ⟨hfirst, hsecond⟩

theorem inv_taken {s : state γ} (h : Inv s) {g other : γ} (hmoving : s.moving g = some other)
    (hidle : s.mutex.pcs (g, false) = .idle) :
    Inv { s.take_over g other with
          moving := Function.update s.moving g none, busy := Function.update s.busy other false } := by
  obtain ⟨hne, -, -, hother, hagain, hunique⟩ := h.source g other hmoving
  have hsettled : s.settled g = true := (settled_iff s g).mpr ⟨.inl hidle, .inl hagain⟩
  have htaken := inv_take_over h hne hsettled hother
  refine ⟨htaken.mutex, htaken.again, fun k o hk => ?_⟩
  have hkg : k ≠ g := by
    rintro rfl
    simp at hk
  have hmove : s.moving k = some o := by simpa [hkg] using hk
  have hoo : o ≠ other := by
    rintro rfl
    exact hkg (hunique k hmove)
  obtain ⟨hko, hbusy, halive, ho, hk', honly⟩ := htaken.source k o hmove
  refine ⟨hko, by simpa [hoo] using hbusy, halive, ho, hk', fun l hl => ?_⟩
  have hlg : l ≠ g := by
    rintro rfl
    simp at hl
  exact honly l (by simpa [hlg] using hl)

theorem inv_assign {s : state γ} (h : Inv s) {g other : γ} (hne : g ≠ other) (hg : s.ready g = true)
    (hother : s.ready other = true) (hholding : s.mutex.pcs (g, false) = .holding) :
    Inv { s.release g with
          moving := Function.update s.moving g (some other), busy := Function.update s.busy other true } := by
  obtain ⟨-, -, -, hsettled⟩ := (ready_iff s g).mp hg
  obtain ⟨halive, hfree, -, hother⟩ := (ready_iff s other).mp hother
  have hreleased := inv_release h hg hholding
  refine ⟨hreleased.mutex, hreleased.again, fun k o hk => ?_⟩
  have hnone : ∀ l, s.moving l ≠ some other := fun l hl => h.not_source hl (.inl hfree) rfl
  by_cases hkg : k = g
  · subst hkg
    obtain rfl : other = o := by simpa using hk
    refine ⟨hne, by simp, halive, release_settled hother hne.symm, by simp, fun l hl => ?_⟩
    by_contra hlk
    exact hnone l (by simpa [hlk] using hl)
  · have hmove : s.moving k = some o := by simpa [hkg] using hk
    have hoo : o ≠ other := by
      rintro rfl
      exact hnone k hmove
    obtain ⟨hko, hbusy, halive, ho, hk', honly⟩ := hreleased.source k o hmove
    refine ⟨hko, by simpa [hoo] using hbusy, halive, ho, hk', fun l hl => ?_⟩
    have hlg : l ≠ g := by
      rintro rfl
      simp only [Function.update_self, Option.some.injEq] at hl
      exact hoo hl.symm
    exact honly l (by simpa [hlg] using hl)

omit [DecidableEq γ] in
theorem Inv.set_alive {s : state γ} (h : Inv s) (alive m_mutex : γ → Bool)
    (hsame : ∀ k o, s.moving k = some o → alive o = s.alive o) : Inv { s with alive := alive, m_mutex := m_mutex } := by
  refine ⟨h.mutex, h.again, fun k o hk => ?_⟩
  obtain ⟨hko, hbusy, halive, hrest⟩ := h.source k o hk
  exact ⟨hko, hbusy, (hsame k o hk).trans halive, hrest⟩

theorem inv_step (s : state γ) (a : action γ) (h : Inv s) (halive : Alive s a)
    (hc : ∀ g, unlocks s a = some g → s.mutex.pcs (g, false) = .holding) : Inv (step s a) := by
  cases a with
  | construct g =>
    rw [step]
    split
    · rename_i hnew
      exact h.set_alive _ _ fun k o hk =>
        Function.update_of_ne (h.not_source hk (.inr (by simpa using hnew.1))) _ _
    · exact h
  | move_construct g other =>
    rw [step]
    split
    · rename_i hmove
      obtain ⟨hne, hnew, hg, hother⟩ := hmove
      exact (inv_take_over h hne hg ((ready_iff s other).mp hother).2.2.2).set_alive _ _ fun k o hk =>
        Function.update_of_ne (h.not_source hk (.inr (by simpa using hnew))) _ _
    · exact h
  | move_assign g other =>
    rw [step]
    split
    · rename_i hmove
      obtain ⟨hne, hg, hother⟩ := hmove
      split
      · rename_i hpointer
        exact inv_assign h hne hg hother (hc g (by simp [unlocks, hne, hg, hother, hpointer]))
      · exact inv_take_over h hne ((ready_iff s g).mp hg).2.2.2 ((ready_iff s other).mp hother).2.2.2
    · exact h
  | request g r =>
    rw [step]
    split
    · rename_i hready
      exact inv_request h r hready.1
    · exact h
  | unlock g =>
    rw [step]
    split
    · rename_i hready
      exact inv_release h hready.1 (hc g (by simp [unlocks, hready.1, hready.2]))
    · exact h
  | destruct g =>
    rw [step]
    split
    · rename_i hready
      have hgone : ∀ k o, s.moving k = some o → Function.update s.alive g false o = s.alive o := fun k o hk =>
        Function.update_of_ne (h.not_source hk (.inl ((ready_iff s g).mp hready).2.1)) _ _
      split
      · rename_i hpointer
        exact (inv_release h hready (hc g (by simp [unlocks, hready, hpointer]))).set_alive _ _ hgone
      · exact h.set_alive _ _ hgone
    · exact h
  | step i spurious =>
    rw [step]
    split
    · rename_i other hmoving
      split
      · rename_i hdone
        obtain ⟨g, again⟩ := i
        obtain rfl : again = false := hdone.1
        exact inv_taken h hmoving hdone.2
      · exact inv_advance h i spurious
    · exact inv_advance h i spurious
  | tick w e => exact ⟨co_mutex.inv_step s.mutex (.tick w e) h.mutex halive, h.again, h.source⟩

/-! ## Releasing what is owned -/

omit [DecidableEq γ] in
theorem Inv.exclusive {s : state γ} (h : Inv s) : Exclusive s := by
  rintro g k ⟨again, hg⟩ ⟨again', hk⟩
  exact congrArg Prod.fst (h.mutex.exclusive _ _ hg hk)

/-! ## The record of the callers -/

/-- In a request, or behind one that was granted -/
def bound : pc → Bool
  | .cas _ | .emplace _ | .waiting _ _ | .holding => true
  | _ => false

/-- The record tells who holds the mutex, as long as every guard has released its own. -/
structure Recorded (s : state γ) (granted : γ → Bool) : Prop where
  bound : ∀ g, bound (s.mutex.pcs (g, false)) = true → s.alive g = true ∧ s.m_mutex g = true
  moving : ∀ g other, s.moving g = some other → s.alive g = true
  granted : ∀ g, granted g = true ↔ s.mutex.pcs (g, false) = .holding

theorem Recorded.construct {s : state γ} {b : γ → Bool} (h : Recorded s b) {g : γ} (hg : s.alive g = false) :
    Recorded { s with alive := Function.update s.alive g true, m_mutex := Function.update s.m_mutex g true }
      (notice.enter b (.constructed g)) := by
  refine ⟨fun k hk => ?_, fun k o hk => ?_, fun k => ?_⟩
  · by_cases hkg : k = g
    · simp [hkg]
    · simpa [hkg] using h.bound k hk
  · by_cases hkg : k = g
    · simp [hkg]
    · simpa [hkg] using h.moving k o hk
  · by_cases hkg : k = g
    · have hout : s.mutex.pcs (g, false) ≠ .holding := by
        intro hholding
        have halive := (h.bound g (by rw [hholding]; rfl)).1
        simp [hg] at halive
      simp [notice.enter, hkg, hout]
    · simpa [notice.enter, hkg] using h.granted k

theorem Recorded.take_over {s : state γ} {b : γ → Bool} (h : Recorded s b) {g other : γ} (hne : g ≠ other)
    (alive busy : γ → Bool) (moving : γ → Option γ) (hg : alive g = true) (halive : ∀ k, k ≠ g → alive k = s.alive k)
    (hmoving : ∀ k o, moving k = some o → s.moving k = some o) :
    Recorded { s.take_over g other with alive := alive, busy := busy, moving := moving }
      (notice.enter b (.moved g other)) := by
  have hmutex : (s.take_over g other).m_mutex = Function.update (Function.update s.m_mutex g (s.m_mutex other)) other
    false := rfl
  refine ⟨fun k hk => ?_, fun k o hk => ?_, fun k => ?_⟩
  · dsimp only at hk ⊢
    rw [take_over_pcs] at hk
    by_cases hkg : k = g
    · subst hkg
      rw [if_pos rfl] at hk
      simpa [hmutex, hne] using ⟨hg, (h.bound other hk).2⟩
    · by_cases hko : k = other
      · simp [hko, hne.symm, co_unique_lock.bound] at hk
      · simpa [hmutex, hkg, hko, halive k hkg] using h.bound k (by simpa [hkg, hko] using hk)
  · by_cases hkg : k = g
    · rw [hkg]
      exact hg
    · exact (halive k hkg).trans (h.moving k o (hmoving k o hk))
  · by_cases hkg : k = g
    · subst hkg
      simpa [notice.enter, hne] using h.granted other
    · by_cases hko : k = other
      · simp [notice.enter, hko, hne.symm]
      · simpa [notice.enter, hkg, hko] using h.granted k

theorem Recorded.release {s : state γ} {b : γ → Bool} (h : Recorded s b) {g : γ} (alive busy : γ → Bool)
    (moving : γ → Option γ) (halive : ∀ k, k ≠ g → alive k = s.alive k)
    (hmoving : ∀ k o, moving k = some o → alive k = true) :
    Recorded { s.release g with alive := alive, busy := busy, moving := moving }
      (notice.enter b (.unlocked g)) := by
  refine ⟨fun k hk => ?_, hmoving, fun k => ?_⟩
  · dsimp only at hk ⊢
    rw [release_pcs] at hk
    by_cases hkg : k = g
    · simp [hkg, co_unique_lock.bound] at hk
    · rw [halive k hkg]
      exact h.bound k (by simpa [hkg] using hk)
  · by_cases hkg : k = g
    · simp [notice.enter, hkg]
    · simpa [notice.enter, hkg] using h.granted k

theorem Recorded.request {s : state γ} {b : γ → Bool} (h : Recorded s b) {g : γ} (r : request)
    (hready : s.ready g = true) (hpointer : s.m_mutex g = true) :
    Recorded { s with mutex := s.mutex.goto (g, decide (s.mutex.pcs (g, false) = .holding)) (.cas r) } b := by
  have halive : s.alive g = true := ((ready_iff s g).mp hready).1
  by_cases hholding : s.mutex.pcs (g, false) = .holding
  · have hsame : ∀ k, (s.mutex.goto (g, true) (.cas r)).pcs (k, false) = s.mutex.pcs (k, false) := fun k => by simp
    simp only [hholding, decide_true]
    refine ⟨fun k hk => h.bound k ?_, h.moving, fun k => ?_⟩
    · rwa [← hsame k]
    · rw [hsame k]
      exact h.granted k
  · simp only [hholding, decide_false]
    refine ⟨fun k hk => ?_, h.moving, fun k => ?_⟩
    · by_cases hkg : k = g
      · rw [hkg]
        exact ⟨halive, hpointer⟩
      · exact h.bound k (by simpa [hkg] using hk)
    · by_cases hkg : k = g
      · have hnot := (h.granted g).not.mpr hholding
        simpa [hkg] using hnot
      · simpa [hkg] using h.granted k

theorem answer_cases (s : state γ) (i : γ × Bool) (spurious : Bool) :
    let next := (advance s.mutex i spurious (s.mutex.pcs i)).pcs i
    (answer s i spurious = [.answered i.1 true] ∧ bound (s.mutex.pcs i) = true ∧ next = .holding) ∨
      (answer s i spurious = [.answered i.1 false] ∧ bound (s.mutex.pcs i) = true ∧ s.mutex.pcs i ≠ .holding ∧
        next = .idle) ∨
      (answer s i spurious = [] ∧ (bound next = true → bound (s.mutex.pcs i) = true) ∧
        (next = .holding ↔ s.mutex.pcs i = .holding)) := by
  unfold answer
  cases hpc : s.mutex.pcs i with
  | cas r =>
    by_cases hfree : ¬ s.mutex.m_native_handle ∧ ¬ spurious
    · exact .inl (by simp [advance, hfree, bound])
    · have hnext : advance s.mutex i spurious (.cas r) = s.mutex.goto i r.refused := if_neg hfree
      cases r with
      | try_lock => exact .inr (.inl (by simp [hnext, bound, request.refused]))
      | lock => exact .inr (.inr (by simp [hnext, bound, request.refused]))
      | try_lock_x => exact .inr (.inr (by simp [hnext, bound, request.refused]))
  | emplace timed => exact .inr (.inr (by simp [advance, bound]))
  | waiting timed w =>
    cases hr : s.mutex.wake_ups.resumed w with
    | nil => exact .inr (.inr (by simp [advance, hr, hpc]))
    | cons success more =>
      by_cases hrefused : timed ∧ ¬ success
      · exact .inr (.inl (by simp [advance, hr, hrefused, bound]))
      · have hnext : advance s.mutex i spurious (.waiting timed w) = s.mutex.goto i .holding := by
          simp only [advance, hr, if_neg hrefused]
        exact .inl (by simp [hnext, bound])
  | idle => exact .inr (.inr (by simp [advance, hpc]))
  | holding => exact .inr (.inr (by simp [advance, hpc]))
  | dequeue =>
    cases hq : s.mutex.wake_ups.m_wait_queue with
    | nil => exact .inr (.inr (by simp [advance, hq, bound]))
    | cons w rest => exact .inr (.inr (by simp [advance, hq, bound]))
  | wake w =>
    cases hf : s.mutex.wake_ups.m_finished w with
    | true => exact .inr (.inr (by simp [advance, hf, bound]))
    | false => exact .inr (.inr (by simp [advance, hf, bound]))
  | grant w => exact .inr (.inr (by simp [advance, bound]))
  | store => exact .inr (.inr (by simp [advance, bound]))

theorem recorded_advance {s : state γ} {b : γ → Bool} (hs : Inv s) (h : Recorded s b) (i : γ × Bool) (spurious : Bool) :
    Recorded { s with mutex := advance s.mutex i spurious (s.mutex.pcs i) }
      ((answer s i spurious).foldl notice.enter b) := by
  have hother : ∀ j, j ≠ i → (advance s.mutex i spurious (s.mutex.pcs i)).pcs j = s.mutex.pcs j :=
    fun j hj => advance_pcs_of_ne s.mutex i j spurious _ hj
  obtain ⟨g, again⟩ := i
  have hfirst : ∀ k, k ≠ g → (advance s.mutex (g, again) spurious (s.mutex.pcs (g, again))).pcs (k, false) =
      s.mutex.pcs (k, false) := fun k hk => hother (k, false) (by simp [hk])
  have hcases := answer_cases s (g, again) spurious
  have hbound : bound ((advance s.mutex (g, again) spurious (s.mutex.pcs (g, again))).pcs (g, false)) = true →
      bound (s.mutex.pcs (g, false)) = true := by
    cases again with
    | true =>
      rw [hother (g, false) (by simp)]
      exact id
    | false =>
      obtain ⟨-, hin, -⟩ | ⟨-, hin, -, -⟩ | ⟨-, hkeep, -⟩ := hcases
      · exact fun _ => hin
      · exact fun _ => hin
      · exact hkeep
  refine ⟨fun k hk => h.bound k ?_, h.moving, fun k => ?_⟩
  · by_cases hkg : k = g
    · rw [hkg] at hk ⊢
      exact hbound hk
    · rwa [← hfirst k hkg]
  · by_cases hkg : k = g
    · subst hkg
      cases again with
      -- Who asks again holds the mutex, and goes on holding it.
      | true =>
        dsimp only
        rw [hother (k, false) (by simp), ← h.granted k]
        obtain ⟨hanswer, hin, -⟩ | ⟨hanswer, hin, -, -⟩ | ⟨hanswer, -, -⟩ := hcases
        · have hagain : b k = true := (h.granted k).mpr (hs.again k fun hidle => by simp [hidle, bound] at hin)
          simp [hanswer, notice.enter, hagain]
        · simp [hanswer, notice.enter]
        · simp [hanswer]
      | false =>
        dsimp only
        obtain ⟨hanswer, -, hnext⟩ | ⟨hanswer, -, hnot, hnext⟩ | ⟨hanswer, -, hsame⟩ := hcases
        · simp [hanswer, hnext, notice.enter]
        · have hb : b k = false := by simpa using (h.granted k).not.mpr hnot
          simp [hanswer, hnext, notice.enter, hb]
        · rw [hanswer, hsame]
          exact h.granted k
    · dsimp only
      rw [hfirst k hkg, ← h.granted k]
      obtain ⟨hanswer, -⟩ | ⟨hanswer, -⟩ | ⟨hanswer, -⟩ := hcases
      · simp [hanswer, notice.enter, hkg]
      · simp [hanswer, notice.enter]
      · simp [hanswer]

theorem recorded_step (s : state γ) (b : γ → Bool) (a : action γ) (hs : Inv s) (h : Recorded s b) :
    Recorded (step s a) ((notices s a).foldl notice.enter b) := by
  cases a with
  | construct g =>
    rw [step, notices]
    split
    · rename_i hnew
      exact h.construct (by simpa using hnew.1)
    · exact h
  | move_construct g other =>
    rw [step, notices]
    split
    · rename_i hmove
      exact h.take_over hmove.1 _ _ _ (Function.update_self ..) (fun k hk => Function.update_of_ne hk ..) fun _ _ => id
    · exact h
  | move_assign g other =>
    rw [step, notices]
    split
    · rename_i hmove
      obtain ⟨hne, hg, -⟩ := hmove
      have halive : s.alive g = true := ((ready_iff s g).mp hg).1
      split
      · refine h.release _ _ _ (fun _ _ => rfl) fun k o hk => ?_
        by_cases hkg : k = g
        · rwa [hkg]
        · exact h.moving k o (by simpa [hkg] using hk)
      · exact h.take_over hne _ _ _ halive (fun _ _ => rfl) fun _ _ => id
    · exact h
  | request g r =>
    rw [step]
    split
    · rename_i hready
      exact h.request r hready.1 hready.2
    · exact h
  | unlock g =>
    rw [step, notices]
    split
    · exact h.release _ _ _ (fun _ _ => rfl) h.moving
    · exact h
  | destruct g =>
    have hrest : ∀ k, k ≠ g → Function.update s.alive g false k = s.alive k := fun k hk => Function.update_of_ne hk ..
    have hmoving : s.ready g = true → ∀ k o, s.moving k = some o → Function.update s.alive g false k = true := by
      intro hready k o hk
      have hkg : k ≠ g := by
        rintro rfl
        simp [((ready_iff s k).mp hready).2.2.1] at hk
      rw [hrest k hkg]
      exact h.moving k o hk
    rw [step, notices]
    by_cases hready : s.ready g = true
    · by_cases hpointer : s.m_mutex g = true
      · rw [if_pos hready, if_pos hpointer, if_pos ⟨hready, hpointer⟩]
        exact h.release _ _ _ hrest (hmoving hready)
      · rw [if_pos hready, if_neg hpointer, if_neg fun hboth => hpointer hboth.2]
        refine ⟨fun k hk => ?_, hmoving hready, h.granted⟩
        have hkg : k ≠ g := by
          rintro rfl
          exact hpointer (h.bound k hk).2
        obtain ⟨halive, hk⟩ := h.bound k hk
        exact ⟨(hrest k hkg).trans halive, hk⟩
    · rw [if_neg hready, if_neg fun hboth => hready hboth.1]
      exact h
  | step i spurious =>
    rw [step, notices]
    split
    · rename_i other hmoving
      by_cases hdone : i.2 = false ∧ s.mutex.pcs i = .idle
      · rw [if_pos hdone, if_pos hdone]
        refine h.take_over (hs.source _ _ hmoving).1 _ _ _ (h.moving _ _ hmoving) (fun _ _ => rfl) fun k o hk => ?_
        by_cases hki : k = i.1
        · simp [hki] at hk
        · simpa [hki] using hk
      · rw [if_neg hdone, if_neg hdone]
        exact recorded_advance hs h i spurious
    · exact recorded_advance hs h i spurious
  | tick w e => exact ⟨h.bound, h.moving, h.granted⟩

/-- The guards and the record of their callers belong together. -/
def Booked (p : state γ × List (notice γ)) : Prop := Inv p.1 ∧ Recorded p.1 (granted p.2)

theorem booked_step (p : state γ × List (notice γ)) (a : action γ) (h : Booked p) (halive : Alive p.1 a)
    (hc : Careful p a) : Booked (observed p a) := by
  constructor
  · exact inv_step p.1 a h.1 halive fun g hg => (h.2.granted g).mp (hc g hg)
  · show Recorded (step p.1 a) (granted (p.2 ++ notices p.1 a))
    rw [granted, List.foldl_append]
    exact recorded_step p.1 _ a h.1 h.2

end Libgs.Sync.co_unique_lock
