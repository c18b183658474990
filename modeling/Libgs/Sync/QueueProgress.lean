import Libgs.Lib.Run
import Libgs.Sync.QueueChain
import Mathlib.Algebra.Group.Action.Defs
import Mathlib.Algebra.Order.BigOperators.Group.Finset
import Mathlib.Tactic.Ring

/-!
# Progress of the lock-free queue

That `lock_free_queue` is lock-free: of the parties that are at work on it, some one comes to the end of its call after
a bounded number of steps, whoever takes them.
-/

namespace Libgs.Sync.lock_free_queue

open Lib

variable {ι V : Type}

/-! ## What is left to do -/

/-- What a party has before it until it is back from a call: the call, and the exchange that decides it -/
def pc.phase : pc V → ℕ
  | .idle => 2
  | .swing _ _ | .done _ | .undefined => 0
  | _ => 1

/-- The number of steps that the party needs to decide its call or to help another one, if nobody else moves -/
def rank (s : system ι V) : pc V → ℕ
  | .idle | .undefined => 0
  | .done _ => 1
  | .swing _ _ => 2
  | .new_node _ => 4
  | .load_tail _ => 3
  | .load_next _ tail => if s.next tail = none ∨ s.m_tail = tail then 2 else 4
  | .link _ tail => if s.next tail = none then 1 else 5
  | .help _ tail _ => if s.m_tail = tail then 1 else 3
  | .load_head _ => 6
  | .load_head_tail _ head => 2 + after_check s head s.m_tail (s.next head)
  | .load_head_next _ head tail => 1 + after_check s head tail (s.next head)
  | .recheck _ head tail next => after_check s head tail next
  | .help_tail _ tail _ => if s.m_tail = tail then 1 else 7
  | .move head _ => if s.m_head = head then 2 else 8
  | .pop _ head _ => if s.m_head = head then 1 else 7
where
  /-- From the second look at the head on -/
  after_check (s : system ι V) (head tail : ℕ) (next : Option ℕ) : ℕ :=
    if head ≠ s.m_head then 7
    else if head = tail then if next = none then 2 else if s.m_tail = tail then 2 else 8
    else 3

/-- The tail is behind the last node. -/
def lag (s : system ι V) : ℕ := if s.next s.m_tail = none then 0 else 1

theorem lag_le (s : system ι V) : lag s ≤ 1 := by
  unfold lag
  split <;> omega

theorem after_check_le (s : system ι V) (head tail : ℕ) (next : Option ℕ) : rank.after_check s head tail next ≤ 8 := by
  unfold rank.after_check
  repeat' split
  all_goals omega

theorem rank_le (s : system ι V) (p : pc V) : rank s p ≤ 10 := by
  have hcheck := after_check_le s
  cases p with
  | load_head_tail data head =>
    have := hcheck head s.m_tail (s.next head)
    simp only [rank]
    omega
  | load_head_next data head tail =>
    have := hcheck head tail (s.next head)
    simp only [rank]
    omega
  | recheck data head tail next =>
    have := hcheck head tail next
    simp only [rank]
    omega
  | _ =>
    simp only [rank]
    repeat' split
    all_goals omega

/-- What the ranks depend on -/
structure SameView (s s' : system ι V) : Prop where
  head : s'.m_head = s.m_head
  tail : s'.m_tail = s.m_tail
  next : s'.next = s.next

theorem SameView.rank {s s' : system ι V} (h : SameView s s') (p : pc V) : rank s' p = rank s p := by
  obtain ⟨hhead, htail, hnext⟩ := h
  unfold lock_free_queue.rank lock_free_queue.rank.after_check
  rw [hhead, htail, hnext]

theorem SameView.lag {s s' : system ι V} (h : SameView s s') : lag s' = lag s := by
  unfold lock_free_queue.lag
  rw [h.next, h.tail]

/-! ## What a step achieves -/

/-- A party comes nearer to its exchange, or takes the tail to the last node, or begins its call or decides it. -/
inductive Achieves (s s' : system ι V) (i : ι) (p : pc V) : Prop
  | nearer (hview : SameView s s') (hphase : p.phase ≤ (s.pcs i).phase) (hrank : rank s p < rank s (s.pcs i))
  | swung (hlag : s.next s.m_tail ≠ none) (hlag' : s'.next s'.m_tail = none) (hphase : p.phase ≤ (s.pcs i).phase)
  | decided (hphase : p.phase < (s.pcs i).phase)

/-- Somebody takes a step of its call, no exchange failing without a reason, or begins a call. -/
def Busy (s : system ι V) : action ι V → Prop
  | .call i _ => s.pcs i = .idle
  | .step i spurious => s.pcs i ≠ .idle ∧ spurious = false

/-- The party is back from its call. -/
def Returns (s : system ι V) : action ι V → Prop
  | .call _ _ => False
  | .step i _ => ∃ r, s.pcs i = .done r

variable [DecidableEq ι] {s : system ι V} {links : List ℕ} {i : ι}

theorem Achieves.goto {q : pc V} (hpc : s.pcs i = q) (p : pc V) (hphase : p.phase ≤ q.phase)
    (hrank : rank s p < rank s q) : Achieves s (s.goto i p) i p := by
  subst hpc
  exact .nearer ⟨rfl, rfl, rfl⟩ hphase hrank

theorem Achieves.swing (h : Shape s links) {q : pc V} (hpc : s.pcs i = q) (p : pc V) {tail n : ℕ}
    (hok : s.m_tail = tail) (hlink : s.next tail = some n) (hphase : p.phase ≤ q.phase) :
    Achieves s ((s.set_tail n).goto i p) i p := by
  subst hpc
  have hlast : s.next s.m_tail = some n := by rw [hok, hlink]
  exact .swung (by simp [hlast]) (h.lag n hlast) hphase

theorem achieves_advance (h : Shape s links) (moved_from : V → V) (hidle : s.pcs i ≠ .idle)
    (hdone : ∀ r, s.pcs i ≠ .done r) :
    ∃ p, (advance moved_from s i false (s.pcs i)).pcs = Function.update s.pcs i p ∧
      Achieves s (advance moved_from s i false (s.pcs i)) i p := by
  have hsees := h.sees i
  cases hpc : s.pcs i with
  | idle => exact absurd hpc hidle
  | done r => exact absurd hpc (hdone r)
  | undefined =>
    rw [hpc] at hsees
    exact hsees.elim
  | new_node v =>
    -- The node stands in no list yet, so nobody else sees it.
    have hnext : (s.make v).next = s.next := h.nodes.make_next v
    refine ⟨.load_tail s.fresh, rfl, .nearer ⟨rfl, rfl, hnext⟩ ?_ ?_⟩
    · rw [hpc]
      exact Nat.le_refl 1
    · rw [hpc]
      simp [rank]
  | load_tail n => exact ⟨.load_next n s.m_tail, rfl, .goto hpc _ (Nat.le_refl 1) (by simp [rank])⟩
  | load_next n tail =>
    rw [advance]
    cases hnext : s.next tail with
    | none => exact ⟨.link n tail, rfl, .goto hpc _ (Nat.le_refl 1) (by simp [rank, hnext])⟩
    | some x =>
      -- The tail is behind, or it was taken on meanwhile and `help` finds it so.
      refine ⟨.help n tail x, rfl, .goto hpc _ (Nat.le_refl 1) ?_⟩
      simp only [rank, hnext]
      by_cases htail : s.m_tail = tail <;> simp [htail]
  | link n tail =>
    rw [advance]
    by_cases hend : s.next tail = none
    · -- The exchange decides the call.
      rw [if_pos ⟨hend, by simp⟩]
      refine ⟨.swing n tail, rfl, .decided ?_⟩
      rw [hpc]
      exact Nat.zero_lt_one
    · -- Another node was linked first.
      rw [if_neg fun hok => hend hok.1]
      refine ⟨.load_next n tail, rfl, .goto hpc _ (Nat.le_refl 1) ?_⟩
      simp only [rank, hend]
      split <;> simp
  | swing n tail =>
    rw [hpc] at hsees
    rw [advance]
    split
    · rename_i hok
      exact ⟨.done .stored, rfl, .swing h hpc _ hok hsees (Nat.le_refl 0)⟩
    · -- Somebody has helped.
      exact ⟨.done .stored, rfl, .goto hpc _ (Nat.le_refl 0) (by simp [rank])⟩
  | help n tail next =>
    rw [hpc] at hsees
    rw [advance]
    split
    · rename_i hok
      exact ⟨.load_next n tail, rfl, .swing h hpc _ hok hsees.2 (Nat.le_refl 1)⟩
    · rename_i hok
      exact ⟨.load_next n s.m_tail, rfl, .goto hpc _ (Nat.le_refl 1) (by simp [rank, hok])⟩
  | load_head data =>
    -- The head is the one that stands, so the test in `recheck` will not send the party back.
    refine ⟨.load_head_tail data s.m_head, rfl, .goto hpc _ (Nat.le_refl 1) ?_⟩
    have hfresh : rank.after_check s s.m_head s.m_tail (s.next s.m_head) ≤ 3 := by
      unfold rank.after_check
      repeat' split
      all_goals simp_all
    simp only [rank]
    omega
  | load_head_tail data head =>
    refine ⟨.load_head_next data head s.m_tail, rfl, .goto hpc _ (Nat.le_refl 1) ?_⟩
    simp only [rank]
    omega
  | load_head_next data head tail =>
    refine ⟨.recheck data head tail (s.next head), rfl, .goto hpc _ (Nat.le_refl 1) ?_⟩
    simp only [rank]
    omega
  | recheck data head tail next =>
    rw [hpc] at hsees
    obtain ⟨-, htail⟩ := hsees
    unfold advance
    dsimp only
    split
    · -- The head has moved, and the turn begins again.
      rename_i hmoved
      exact ⟨.load_head data, rfl, .goto hpc _ (Nat.le_refl 1) (by simp [rank, rank.after_check, hmoved])⟩
    · rename_i hhead
      rw [not_not] at hhead
      split
      · rename_i hht
        cases next with
        | none =>
          -- The queue is empty, and this decides the call.
          refine ⟨.done (.got data), rfl, .decided ?_⟩
          rw [hpc]
          exact Nat.zero_lt_one
        | some x =>
          -- A node stands behind the tail.
          refine ⟨.help_tail data tail x, rfl, .goto hpc _ (Nat.le_refl 1) ?_⟩
          simp only [rank, rank.after_check, ← hhead, ← hht]
          by_cases ht : s.m_tail = head <;> simp [ht]
      · -- There is a datum to take.
        rename_i hht
        obtain ⟨x, rfl, -⟩ := htail hht
        refine ⟨.move head x, rfl, .goto hpc _ (Nat.le_refl 1) ?_⟩
        simp [rank, rank.after_check, ← hhead, hht]
  | help_tail data tail next =>
    rw [hpc] at hsees
    rw [advance]
    split
    · rename_i hok
      exact ⟨.load_head data, rfl, .swing h hpc _ hok.1 hsees (Nat.le_refl 1)⟩
    · -- The tail was taken on by another party.
      rename_i hok
      have hmoved : s.m_tail ≠ tail := fun ht => hok ⟨ht, by simp⟩
      exact ⟨.load_head data, rfl, .goto hpc _ (Nat.le_refl 1) (by simp [rank, hmoved])⟩
  | move head next =>
    -- The datum is moved out before the exchange; no rank depends on data.
    refine ⟨.pop (s.data next) head next, rfl, .nearer ⟨rfl, rfl, rfl⟩ ?_ ?_⟩
    · rw [hpc]
      exact Nat.le_refl 1
    · rw [hpc]
      simp only [rank]
      by_cases hhead : s.m_head = head <;> simp [hhead]
  | pop data head next =>
    rw [advance]
    split
    · -- The exchange decides the call.
      refine ⟨.done (.got (some data)), rfl, .decided ?_⟩
      rw [hpc]
      exact Nat.zero_lt_one
    · -- Another party took the datum first.
      rename_i hok
      have hmoved : s.m_head ≠ head := fun hh => hok ⟨hh, by simp⟩
      exact ⟨.load_head (some data), rfl, .goto hpc _ (Nat.le_refl 1) (by simp [rank, hmoved])⟩

/-- **Every step achieves something**, unless it is the return from a call. -/
theorem achieves_step (h : Shape s links) (moved_from : V → V) (a : action ι V) (hbusy : Busy s a)
    (hreturns : ¬ Returns s a) :
    ∃ i p, (step moved_from s a).pcs = Function.update s.pcs i p ∧ Achieves s (step moved_from s a) i p := by
  cases a with
  | call i o =>
    have hidle : s.pcs i = .idle := hbusy
    refine ⟨i, enter (s.pcs i) o, rfl, .decided ?_⟩
    rw [hidle]
    cases o <;> exact Nat.lt_succ_self 1
  | step i spurious =>
    obtain ⟨hidle, rfl⟩ := hbusy
    exact ⟨i, achieves_advance h moved_from hidle fun r hr => hreturns ⟨r, hr⟩⟩

/-! ## The size of the work -/

section

variable [Fintype ι]

def phases (s : system ι V) : ℕ := ∑ i, (s.pcs i).phase

def ranks (s : system ι V) : ℕ := ∑ i, rank s (s.pcs i)

/-- When the tail moves, everybody may have to begin a turn of its loop again; when a call is decided, the tail may have
to move as well. -/
def size (s : system ι V) : ℕ :=
  phases s * (20 * Fintype.card ι + 2) + lag s * (10 * Fintype.card ι + 1) + ranks s

def steps_bound (n : ℕ) : ℕ := 40 * n ^ 2 + 24 * n + 1

omit [DecidableEq ι] in
theorem sum_le_card {f : ι → ℕ} {k : ℕ} (h : ∀ i, f i ≤ k) : ∑ i, f i ≤ k * Fintype.card ι := by
  have hsum := Finset.sum_le_card_nsmul Finset.univ f k fun i _ => h i
  rwa [Finset.card_univ, smul_eq_mul, Nat.mul_comm] at hsum

omit [DecidableEq ι] in
theorem ranks_le (s : system ι V) : ranks s ≤ 10 * Fintype.card ι := sum_le_card fun i => rank_le s (s.pcs i)

omit [DecidableEq ι] in
theorem phases_le (s : system ι V) : phases s ≤ 2 * Fintype.card ι := by
  apply sum_le_card
  intro i
  cases s.pcs i <;> simp [pc.phase]

omit [DecidableEq ι] in
theorem size_le (s : system ι V) : size s ≤ steps_bound (Fintype.card ι) := by
  have hphases := Nat.mul_le_mul_right (20 * Fintype.card ι + 2) (phases_le s)
  have hlag := Nat.mul_le_mul_right (10 * Fintype.card ι + 1) (lag_le s)
  have hranks := ranks_le s
  have hbound : steps_bound (Fintype.card ι) =
      2 * Fintype.card ι * (20 * Fintype.card ι + 2) + 1 * (10 * Fintype.card ι + 1) + 10 * Fintype.card ι := by
    unfold steps_bound
    ring
  unfold size
  omega

theorem sum_update_le (f : pc V → ℕ) {pcs : ι → pc V} {p : pc V} (h : f p ≤ f (pcs i)) :
    ∑ j, f (Function.update pcs i p j) ≤ ∑ j, f (pcs j) := by
  refine Finset.sum_le_sum fun j _ => ?_
  by_cases hji : j = i
  · rw [hji, Function.update_self]
    exact h
  · rw [Function.update_of_ne hji]

theorem sum_update_lt (f : pc V → ℕ) {pcs : ι → pc V} {p : pc V} (h : f p < f (pcs i)) :
    ∑ j, f (Function.update pcs i p j) < ∑ j, f (pcs j) := by
  refine Finset.sum_lt_sum (fun j _ => ?_) ⟨i, Finset.mem_univ i, by rwa [Function.update_self]⟩
  by_cases hji : j = i
  · rw [hji, Function.update_self]
    exact h.le
  · rw [Function.update_of_ne hji]

theorem size_falls {s' : system ι V} {p : pc V} (hpcs : s'.pcs = Function.update s.pcs i p)
    (h : Achieves s s' i p) : size s' < size s := by
  have hranks := ranks_le s'
  cases h with
  | nearer hview hphase hrank =>
    have hphases : phases s' ≤ phases s := by
      unfold phases
      rw [hpcs]
      exact sum_update_le pc.phase hphase
    have hless : ranks s' < ranks s := by
      unfold ranks
      rw [hpcs]
      simp only [hview.rank]
      exact sum_update_lt (rank s) hrank
    have hmul := Nat.mul_le_mul_right (20 * Fintype.card ι + 2) hphases
    unfold size
    rw [hview.lag]
    omega
  | swung hlag hlag' hphase =>
    have hphases : phases s' ≤ phases s := by
      unfold phases
      rw [hpcs]
      exact sum_update_le pc.phase hphase
    have hmul := Nat.mul_le_mul_right (20 * Fintype.card ι + 2) hphases
    unfold size lag
    rw [if_pos hlag', if_neg hlag]
    omega
  | decided hphase =>
    have hphases : phases s' < phases s := by
      unfold phases
      rw [hpcs]
      exact sum_update_lt pc.phase hphase
    have hmul := Nat.mul_le_mul_right (20 * Fintype.card ι + 2) hphases
    have hlag := Nat.mul_le_mul_right (10 * Fintype.card ι + 1) (lag_le s')
    rw [Nat.succ_mul] at hmul
    unfold size
    omega

/-- **The queue is lock-free.** In every state of every run, among as many steps as the bound says some call comes to
its end, whichever of the parties at work take them. The nodes that `dequeue` deletes are not used again while a party
may read them. -/
theorem lock_free [Inhabited V] (moved_from : V → V) (acts more : List (action ι V))
    (hbusy : Guarded (step moved_from) Busy (run (step moved_from) init acts) more)
    (hlong : steps_bound (Fintype.card ι) < more.length) :
    ∃ done a rest, more = done ++ a :: rest ∧
      Returns (run (step moved_from) (run (step moved_from) init acts) done) a := by
  have hshape : ∀ (s : system ι V) (a : action ι V),
      (∃ links, Shape s links) → ∃ links, Shape (step moved_from s a) links :=
    fun s a ⟨links, h⟩ => ⟨_, shape_step moved_from a h⟩
  have hreached : ∃ links, Shape (run (step moved_from) init acts) links :=
    (throughout_of_step hshape init acts ⟨[], shape_init⟩).last
  refine exists_goal_of_falling size (fun s a hs _ => hshape s a hs) ?_ _ more hreached hbusy
    (Nat.lt_of_le_of_lt (size_le _) hlong)
  rintro s a ⟨links, h⟩ hstep hreturns
  obtain ⟨i, p, hpcs, hachieves⟩ := achieves_step h moved_from a hstep hreturns
  exact size_falls hpcs hachieves

end

/-- Two parties that take turns, each of them taking data out of the queue time and again -/
def duel : ℕ → Bool → system Bool ℕ → List (action Bool ℕ)
  | 0, _, _ => []
  | n + 1, i, s =>
    let a : action Bool ℕ := if s.pcs i = .idle then .call i .dequeue else .step i false
    a :: duel n (!i) (step id s a)

theorem duel_length (n : ℕ) (i : Bool) (s : system Bool ℕ) : (duel n i s).length = n := by
  induction n generalizing i s with
  | zero => rfl
  | succ n ih => exact congrArg (· + 1) (ih _ _)

theorem duel_busy (n : ℕ) (i : Bool) (s : system Bool ℕ) : Guarded (step id) Busy s (duel n i s) := by
  induction n generalizing i s with
  | zero => exact guarded_nil s
  | succ n ih =>
    refine Guarded.cons ?_ (ih _ _)
    by_cases hidle : s.pcs i = .idle
    · rw [if_pos hidle]
      exact hidle
    · rw [if_neg hidle]
      exact ⟨hidle, rfl⟩

/-- What puts the data into the queue, before the two begin -/
def filling : List (action Bool ℕ) :=
  [1, 2, 3].flatMap fun v => .call true (.enqueue v) :: List.replicate 6 (.step true false)

theorem lock_free_duel :
    ∃ done a rest, duel 210 true (run (step id) init filling) = done ++ a :: rest ∧
      Returns (run (step id) (run (step id) init filling) done) a :=
  lock_free id filling _ (duel_busy 210 true _) (by rw [duel_length]; decide)

end Libgs.Sync.lock_free_queue
