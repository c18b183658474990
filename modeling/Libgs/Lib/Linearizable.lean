import Libgs.Lib.Run
import Mathlib.Algebra.BigOperators.Group.Finset.Basic
import Mathlib.Logic.Function.Basic

/-!
# Linearizability

The atomic object of a sequential specification serves parties that call, get their answer in one step at some
moment, and return. A history of calls and returns is linearizable when the atomic object has it.
-/

namespace Lib

/-- A sequential object: what an operation makes of its state, and what it answers. -/
structure Sequential (Q O R : Type) where
  start : Q
  apply : Q → O → Q × R

/-- What is seen of the parties `ι` from outside -/
inductive Event (ι O R : Type)
  | call (i : ι) (o : O)
  | ret (i : ι) (r : R)
  deriving DecidableEq

/-- A call that is not answered, one that is answered and has not returned, or none -/
inductive Stage (O R : Type)
  | idle
  | asked (o : O)
  | answered (r : R)

/-- The object, and the stage of every party -/
structure Atomic (ι Q O R : Type) where
  obj : Q
  stage : ι → Stage O R

namespace Atomic

variable {ι Q O R : Type}

def init (spec : Sequential Q O R) : Atomic ι Q O R := ⟨spec.start, fun _ => .idle⟩

variable [DecidableEq ι]

def goto (a : Atomic ι Q O R) (i : ι) (p : Stage O R) : Atomic ι Q O R :=
  { a with stage := Function.update a.stage i p }

/-- The answer comes in a step of its own, which is not seen. -/
inductive Step (spec : Sequential Q O R) (a : Atomic ι Q O R) : Option (Event ι O R) → Atomic ι Q O R → Prop
  | call (i : ι) (o : O) (h : a.stage i = .idle) : Step spec a (some (.call i o)) (a.goto i (.asked o))
  | commit (i : ι) (o : O) (h : a.stage i = .asked o) :
      Step spec a none
        { obj := (spec.apply a.obj o).1
          stage := Function.update a.stage i (.answered (spec.apply a.obj o).2) }
  | ret (i : ι) (r : R) (h : a.stage i = .answered r) : Step spec a (some (.ret i r)) (a.goto i .idle)

/-- The histories that lead to a state of the object -/
inductive Reaches (spec : Sequential Q O R) : List (Event ι O R) → Atomic ι Q O R → Prop
  | init : Reaches spec [] (init spec)
  | step {h : List (Event ι O R)} {a a' : Atomic ι Q O R} {e : Option (Event ι O R)} (ha : Reaches spec h a)
      (hs : Step spec a e a') : Reaches spec (h ++ e.toList) a'

end Atomic

variable {ι Q O R S A : Type} [DecidableEq ι]

/-- The history can be one of the atomic object. -/
def Linearizable (spec : Sequential Q O R) (h : List (Event ι O R)) : Prop := ∃ a, Atomic.Reaches spec h a

/-! ## Histories of a machine -/

/-- What is seen of a run -/
def history (step : S → A → S) (see : S → A → Option (Event ι O R)) (s : S) : List A → List (Event ι O R)
  | [] => []
  | act :: acts => (see s act).toList ++ history step see (step s act) acts

omit [DecidableEq ι] in
theorem history_append (step : S → A → S) (see : S → A → Option (Event ι O R)) (s : S) (acts more : List A) :
    history step see s (acts ++ more) = history step see s acts ++ history step see (run step s acts) more := by
  induction acts generalizing s with
  | nil => rfl
  | cons act acts ih => simp [history, ih]

/-- One step of the machine is one step of the atomic object or none. -/
def Atomic.Follows (spec : Sequential Q O R) (a : Atomic ι Q O R) (e : Option (Event ι O R)) (a' : Atomic ι Q O R) :
    Prop :=
  (e = none ∧ a' = a) ∨ Atomic.Step spec a e a'

/-- A machine state may stand for several states of the atomic object, since what a party will do later can settle
whether it has its answer already. Every one of them behind a step comes from one before it. -/
structure BackwardSimulation (spec : Sequential Q O R) (step : S → A → S) (see : S → A → Option (Event ι O R))
    (G : S → A → Prop) (start : S) (Inv : S → Prop) (Rel : S → Atomic ι Q O R → Prop) : Prop where
  inv_start : Inv start
  inv_step : ∀ s act, Inv s → G s act → Inv (step s act)
  start_only : ∀ a, Rel start a → a = .init spec
  some_rel : ∀ s, Inv s → ∃ a, Rel s a
  back : ∀ s act a', Inv s → G s act → Rel (step s act) a' → ∃ a, Rel s a ∧ Atomic.Follows spec a (see s act) a'

namespace BackwardSimulation

variable {spec : Sequential Q O R} {step : S → A → S} {see : S → A → Option (Event ι O R)} {G : S → A → Prop}
  {start : S} {Inv : S → Prop} {Rel : S → Atomic ι Q O R → Prop}

theorem reaches (h : BackwardSimulation spec step see G start Inv Rel) (acts : List A)
    (hG : Guarded step G start acts) (a : Atomic ι Q O R) (ha : Rel (run step start acts) a) :
    Atomic.Reaches spec (history step see start acts) a := by
  induction acts using List.reverseRecOn generalizing a with
  | nil =>
    rw [h.start_only a ha]
    exact .init
  | append_singleton acts act ih =>
    have hfront : Guarded step G start acts := fun done op more hsplit => hG done op (more ++ [act]) (by simp [hsplit])
    have hinv : Inv (run step start acts) := (throughout_of_inv h.inv_step start acts h.inv_start hfront).last
    rw [run_append] at ha
    obtain ⟨b, hb, hfollows⟩ := h.back _ act a hinv (hG acts act [] rfl) ha
    have hreach := ih hfront b hb
    rw [history_append]
    simp only [history, List.append_nil]
    rcases hfollows with ⟨hnone, rfl⟩ | hstep
    · rw [hnone]
      simpa using hreach
    · exact .step hreach hstep

/-- **The simulation rule.** What a simulated machine shows is linearizable. -/
theorem linearizable (h : BackwardSimulation spec step see G start Inv Rel) (acts : List A)
    (hG : Guarded step G start acts) : Linearizable spec (history step see start acts) := by
  obtain ⟨a, ha⟩ := h.some_rel _ (throughout_of_inv h.inv_step start acts h.inv_start hG).last
  exact ⟨a, h.reaches acts hG a ha⟩

end BackwardSimulation

/-! ## The queue -/

namespace Fifo

/-- The calls of a queue -/
inductive Op (V : Type)
  | enqueue (v : V)
  | dequeue
  deriving DecidableEq

/-- The answers of a queue -/
inductive Answer (V : Type)
  | stored
  | got (o : Option V)
  deriving DecidableEq

variable {V : Type}

/-- A queue of any length, first in, first out -/
def queue : Sequential (List V) (Op V) (Answer V) where
  start := []
  apply
    | q, .enqueue v => (q ++ [v], .stored)
    | [], .dequeue => ([], .got none)
    | v :: q, .dequeue => (q, .got (some v))

variable [DecidableEq V]

/-- How often a value is handed in -/
def called (v : V) (h : List (Event ι (Op V) (Answer V))) : ℕ :=
  h.countP fun e =>
    match e with
    | .call _ (.enqueue w) => w = v
    | _ => false

/-- How often a value is handed out -/
def returned (v : V) (h : List (Event ι (Op V) (Answer V))) : ℕ :=
  h.countP fun e =>
    match e with
    | .ret _ (.got (some w)) => w = v
    | _ => false

/-- A party has the value on its way in or out. -/
def carries (v : V) : Stage (Op V) (Answer V) → ℕ
  | .asked (.enqueue w) => if w = v then 1 else 0
  | .answered (.got (some w)) => if w = v then 1 else 0
  | _ => 0

theorem sum_carries_update (v : V) (stage : ι → Stage (Op V) (Answer V)) (parties : Finset ι) (i : ι)
    (hi : i ∈ parties) (p : Stage (Op V) (Answer V)) :
    ∑ j ∈ parties, carries v (Function.update stage i p j) + carries v (stage i) =
      ∑ j ∈ parties, carries v (stage j) + carries v p := by
  rw [← Finset.add_sum_erase parties _ hi, ← Finset.add_sum_erase parties (fun j => carries v (stage j)) hi,
    Function.update_self]
  have hrest : ∑ j ∈ parties.erase i, carries v (Function.update stage i p j) =
      ∑ j ∈ parties.erase i, carries v (stage j) :=
    Finset.sum_congr rfl fun j hj => by rw [Function.update_of_ne (Finset.ne_of_mem_erase hj)]
  rw [hrest]
  omega

theorem apply_count (v : V) (q : List V) (o : Op V) :
    (queue.apply q o).1.count v + carries v (.answered (queue.apply q o).2) = q.count v + carries v (.asked o) := by
  cases o with
  | enqueue w => simp [queue, carries, List.count_singleton]
  | dequeue =>
    cases q with
    | nil => simp [queue, carries]
    | cons w q => simp [queue, carries, List.count_cons]

omit [DecidableEq ι] in
theorem called_call (v : V) (h : List (Event ι (Op V) (Answer V))) (i : ι) (o : Op V) :
    called v (h ++ [.call i o]) = called v h + carries v (.asked o) ∧ returned v (h ++ [.call i o]) = returned v h := by
  cases o <;> simp [called, returned, carries, List.countP_append, List.countP_singleton]

omit [DecidableEq ι] in
theorem returned_ret (v : V) (h : List (Event ι (Op V) (Answer V))) (i : ι) (r : Answer V) :
    called v (h ++ [.ret i r]) = called v h ∧
      returned v (h ++ [.ret i r]) = returned v h + carries v (.answered r) := by
  rcases r with _ | _ | w <;> simp [called, returned, carries, List.countP_append, List.countP_singleton]

/-- **What is handed in is with a party, in the queue or handed out again.** -/
theorem called_eq (v : V) (h : List (Event ι (Op V) (Answer V))) (a : Atomic ι (List V) (Op V) (Answer V))
    (ha : Atomic.Reaches queue h a) :
    ∃ parties : Finset ι, (∀ i ∉ parties, a.stage i = .idle) ∧
      called v h = returned v h + a.obj.count v + ∑ i ∈ parties, carries v (a.stage i) := by
  induction ha with
  | init => exact ⟨∅, fun _ _ => rfl, by simp [called, returned, Atomic.init, queue]⟩
  | @step h a a' e ha hs ih =>
    obtain ⟨parties, hidle, heq⟩ := ih
    have hmem : ∀ i, a.stage i ≠ .idle → i ∈ parties := fun i hi => by_contra fun hni => hi (hidle i hni)
    have hkeep : ∀ i ∈ parties, ∀ p, ∀ j ∉ parties, Function.update a.stage i p j = .idle := by
      intro i hi p j hj
      have hji : j ≠ i := fun hji => hj (by rwa [hji])
      rw [Function.update_of_ne hji, hidle j hj]
    cases hs with
    | call i o hi =>
      refine ⟨insert i parties, ?_, ?_⟩
      · intro j hj
        rw [Finset.mem_insert, not_or] at hj
        simp [Atomic.goto, Function.update_of_ne hj.1, hidle j hj.2]
      · have hsum := sum_carries_update v a.stage (insert i parties) i (Finset.mem_insert_self _ _) (.asked o)
        have hsame : ∑ j ∈ insert i parties, carries v (a.stage j) = ∑ j ∈ parties, carries v (a.stage j) :=
          Finset.sum_insert_of_eq_zero_if_notMem fun hni => by rw [hi]; rfl
        obtain ⟨hcalled, hreturned⟩ := called_call v h i o
        have hnone : carries v (Stage.idle : Stage (Op V) (Answer V)) = 0 := rfl
        rw [hi] at hsum
        simp only [Option.toList_some, Atomic.goto, hcalled, hreturned]
        omega
    | commit i o hi =>
      have hin : i ∈ parties := hmem i (by rw [hi]; simp)
      refine ⟨parties, hkeep i hin _, ?_⟩
      have hsum := sum_carries_update v a.stage parties i hin (.answered (queue.apply a.obj o).2)
      have hcount := apply_count v a.obj o
      rw [hi] at hsum
      simp only [Option.toList_none, List.append_nil]
      omega
    | ret i r hi =>
      have hin : i ∈ parties := hmem i (by rw [hi]; simp)
      refine ⟨parties, hkeep i hin _, ?_⟩
      have hsum := sum_carries_update v a.stage parties i hin .idle
      obtain ⟨hcalled, hreturned⟩ := returned_ret v h i r
      rw [hi] at hsum
      have hnone : carries v (Stage.idle : Stage (Op V) (Answer V)) = 0 := rfl
      simp only [Option.toList_some, Atomic.goto, hcalled, hreturned]
      omega

theorem returned_le_called (v : V) (h : List (Event ι (Op V) (Answer V))) (hl : Linearizable queue h) :
    returned v h ≤ called v h := by
  obtain ⟨a, ha⟩ := hl
  obtain ⟨parties, -, heq⟩ := called_eq v h a ha
  omega

end Fifo

end Lib
