import Mathlib.Data.List.Induction
import Mathlib.Order.Monotone.Basic

/-!
# Runs

A run is the states a system passes through while it takes its steps one after another.
-/

namespace Lib

variable {S O : Type} (step : S → O → S)

/-- The state behind the operations -/
def run (s : S) (ops : List O) : S := ops.foldl step s

variable {step}

@[simp] theorem run_nil (s : S) : run step s [] = s := rfl

@[simp] theorem run_cons (s : S) (op : O) (ops : List O) : run step s (op :: ops) = run step (step s op) ops := rfl

theorem run_append (s : S) (ops more : List O) : run step s (ops ++ more) = run step (run step s ops) more := by
  simp [run]

/-- `P` holds in every state that the run passes through. -/
def Throughout (step : S → O → S) (P : S → Prop) (s : S) (ops : List O) : Prop :=
  ∀ done more, ops = done ++ more → P (run step s done)

/-- Every step of the run is allowed by `G` in the state it is taken in. -/
def Guarded (step : S → O → S) (G : S → O → Prop) (s : S) (ops : List O) : Prop :=
  ∀ done op more, ops = done ++ op :: more → G (run step s done) op

theorem Throughout.start {P : S → Prop} {s : S} {ops : List O} (h : Throughout step P s ops) : P s := h [] ops rfl

theorem Throughout.tail {P : S → Prop} {s : S} {op : O} {ops : List O} (h : Throughout step P s (op :: ops)) :
    Throughout step P (step s op) ops := by
  intro done more hsplit
  exact h (op :: done) more (by rw [hsplit, List.cons_append])

theorem throughout_nil {P : S → Prop} {s : S} (h : P s) : Throughout step P s [] := by
  intro done more hsplit
  obtain ⟨rfl, -⟩ : done = [] ∧ more = [] := by simpa using hsplit
  exact h

theorem Throughout.cons {P : S → Prop} {s : S} {op : O} {ops : List O} (h : P s)
    (hops : Throughout step P (step s op) ops) : Throughout step P s (op :: ops) := by
  intro done more hsplit
  cases done with
  | nil => exact h
  | cons op' done =>
    simp only [List.cons_append, List.cons.injEq] at hsplit
    obtain ⟨rfl, hsplit⟩ := hsplit
    exact hops done more hsplit

theorem Guarded.head {G : S → O → Prop} {s : S} {op : O} {ops : List O} (h : Guarded step G s (op :: ops)) : G s op :=
  h [] op ops rfl

theorem Guarded.tail {G : S → O → Prop} {s : S} {op : O} {ops : List O} (h : Guarded step G s (op :: ops)) :
    Guarded step G (step s op) ops := by
  intro done op' more hsplit
  exact h (op :: done) op' more (by rw [hsplit, List.cons_append])

theorem Guarded.and {G G' : S → O → Prop} {s : S} {ops : List O} (h : Guarded step G s ops)
    (h' : Guarded step G' s ops) : Guarded step (fun s op => G s op ∧ G' s op) s ops :=
  fun done op more hsplit => ⟨h done op more hsplit, h' done op more hsplit⟩

theorem Guarded.mono {G G' : S → O → Prop} {s : S} {ops : List O} (h : Guarded step G s ops)
    (hG : ∀ s op, G s op → G' s op) : Guarded step G' s ops :=
  fun done op more hsplit => hG _ op (h done op more hsplit)

theorem guarded_nil {G : S → O → Prop} (s : S) : Guarded step G s [] := by
  intro done op more hsplit
  simp at hsplit

theorem Guarded.cons {G : S → O → Prop} {s : S} {op : O} {ops : List O} (h : G s op)
    (hops : Guarded step G (step s op) ops) : Guarded step G s (op :: ops) := by
  intro done op' more hsplit
  cases done with
  | nil =>
    simp only [List.nil_append, List.cons.injEq] at hsplit
    obtain ⟨rfl, -⟩ := hsplit
    exact h
  | cons op'' done =>
    simp only [List.cons_append, List.cons.injEq] at hsplit
    obtain ⟨rfl, hsplit⟩ := hsplit
    exact hops done op' more hsplit

theorem guarded_cons_iff {G : S → O → Prop} (s : S) (op : O) (ops : List O) :
    Guarded step G s (op :: ops) ↔ G s op ∧ Guarded step G (step s op) ops :=
  ⟨fun h => ⟨h.head, h.tail⟩, fun h => .cons h.1 h.2⟩

instance decidableGuarded {G : S → O → Prop} [∀ s op, Decidable (G s op)] (s : S) (ops : List O) :
    Decidable (Guarded step G s ops) :=
  match ops with
  | [] => isTrue (guarded_nil s)
  | op :: ops =>
    have : Decidable (Guarded step G (step s op) ops) := decidableGuarded (step s op) ops
    decidable_of_iff (G s op ∧ Guarded step G (step s op) ops) (guarded_cons_iff s op ops).symm

/-- **The invariant rule.** What every allowed step preserves holds throughout a run of such steps. -/
theorem throughout_of_inv {P : S → Prop} {G : S → O → Prop} (hstep : ∀ s op, P s → G s op → P (step s op)) (s : S)
    (ops : List O) (hs : P s) (hG : Guarded step G s ops) : Throughout step P s ops := by
  induction ops generalizing s with
  | nil => exact throughout_nil hs
  | cons op ops ih => exact .cons hs (ih (step s op) (hstep s op hs hG.head) hG.tail)

theorem throughout_of_step {P : S → Prop} (hstep : ∀ s op, P s → P (step s op)) (s : S) (ops : List O) (hs : P s) :
    Throughout step P s ops :=
  throughout_of_inv (G := fun _ _ => True) (fun s op h _ => hstep s op h) s ops hs fun _ _ _ _ => trivial

/-- **The exact rule.** A property that holds in the beginning holds throughout a run if and only if the guard that says
when a step keeps it allows every step. The invariant need not outlive the property. -/
theorem throughout_iff_guarded {P I : S → Prop} {G : S → O → Prop} (hinv : ∀ s op, I s → P s → G s op → I (step s op))
    (hstep : ∀ s op, I s → P s → (P (step s op) ↔ G s op)) (s : S) (ops : List O) (hI : I s) (hP : P s) :
    Throughout step P s ops ↔ Guarded step G s ops := by
  induction ops generalizing s with
  | nil => exact ⟨fun _ => guarded_nil s, fun _ => throughout_nil hP⟩
  | cons op ops ih =>
    have hnext : G s op → I (step s op) := hinv s op hI hP
    have hkeep := hstep s op hI hP
    rw [guarded_cons_iff]
    constructor
    · intro h
      have hG := hkeep.mp h.tail.start
      exact ⟨hG, (ih (step s op) (hnext hG) h.tail.start).mp h.tail⟩
    · intro h
      have hP' := hkeep.mpr h.1
      exact ((ih (step s op) (hnext h.1) hP').mpr h.2).cons hP

/-- **The bound rule.** Where a size falls at every step that is allowed, goals excepted, a goal is reached before the
size is used up. -/
theorem exists_goal_of_falling {I : S → Prop} {G Goal : S → O → Prop} (size : S → ℕ)
    (hinv : ∀ s op, I s → G s op → I (step s op))
    (hfall : ∀ s op, I s → G s op → ¬ Goal s op → size (step s op) < size s) (s : S) (ops : List O) (hs : I s)
    (hG : Guarded step G s ops) (hlong : size s < ops.length) :
    ∃ done op more, ops = done ++ op :: more ∧ Goal (run step s done) op := by
  induction ops generalizing s with
  | nil => cases hlong
  | cons op ops ih =>
    by_cases hgoal : Goal s op
    · exact ⟨[], op, ops, rfl, hgoal⟩
    · have hless := hfall s op hs hG.head hgoal
      rw [List.length_cons] at hlong
      obtain ⟨done, op', more, hsplit, hlater⟩ := ih (step s op) (hinv s op hs hG.head) hG.tail (by omega)
      exact ⟨op :: done, op', more, by rw [hsplit, List.cons_append], hlater⟩

theorem Throughout.mono {P Q : S → Prop} {s : S} {ops : List O} (h : Throughout step P s ops) (hPQ : ∀ s, P s → Q s) :
    Throughout step Q s ops :=
  fun done more hsplit => hPQ _ (h done more hsplit)

theorem Throughout.last {P : S → Prop} {s : S} {ops : List O} (h : Throughout step P s ops) : P (run step s ops) :=
  h ops [] (List.append_nil ops).symm

/-! ## Runs with answers -/

section

variable {T A B : Type}

/-- The answers of the operations, in their order -/
def answers (step : S → O → S × A) : S → List O → List A
  | _, [] => []
  | s, op :: ops => (step s op).2 :: answers step (step s op).1 ops

/-- **Refinement with answers.** The states of the two systems belong together along every run, and their answers agree
in a run if and only if they agree at each of its steps. -/
theorem answers_refine_iff {step : S → O → S × A} {step' : T → O → T × B} (abs : S → T) (f : A → B) (G : O → Prop)
    (hstate : ∀ s op, abs (step s op).1 = (step' (abs s) op).1)
    (hanswer : ∀ s op, f (step s op).2 = (step' (abs s) op).2 ↔ G op) (s : S) (ops : List O) :
    (answers step s ops).map f = answers step' (abs s) ops ↔ ∀ op ∈ ops, G op := by
  induction ops generalizing s with
  | nil => simp [answers]
  | cons op ops ih =>
    rw [answers, answers, List.map_cons, List.cons.injEq, hanswer, ← hstate, ih, List.forall_mem_cons]

theorem run_refines {step : S → O → S} {step' : T → O → T} (abs : S → T)
    (hstate : ∀ s op, abs (step s op) = step' (abs s) op) (s : S) (ops : List O) :
    abs (run step s ops) = run step' (abs s) ops := by
  induction ops generalizing s with
  | nil => rfl
  | cons op ops ih => rw [run_cons, run_cons, ih, hstate]

end

/-! ## Runs with a log -/

section

variable {N : Type}

/-- A step together with what is noticed of it. -/
def logged (step : S → O → S) (notices : S → O → List N) (p : S × List N) (op : O) : S × List N :=
  (step p.1 op, p.2 ++ notices p.1 op)

/-- Every entry of a log stands in the relation `Q` to the entries before it. -/
def EachAfter (Q : List N → N → Prop) (log : List N) : Prop := ∀ before x after, log = before ++ x :: after → Q before x

theorem eachAfter_nil (Q : List N → N → Prop) : EachAfter Q [] := by
  intro before x after hsplit
  simp at hsplit

theorem EachAfter.concat {Q : List N → N → Prop} {log : List N} {x : N} (h : EachAfter Q log) (hx : Q log x) :
    EachAfter Q (log ++ [x]) := by
  intro before y after hsplit
  rcases List.eq_nil_or_concat after with rfl | ⟨after, z, rfl⟩
  · obtain ⟨rfl, hlast⟩ := List.append_inj' hsplit rfl
    obtain rfl : x = y := by simpa using hlast
    exact hx
  · have hinit : log ++ [x] = before ++ y :: after ++ [z] := by simpa using hsplit
    exact h before y after (List.append_inj' hinit rfl).1

end

/-! ## Endless runs -/

/-- The state before the `n`-th step -/
def states (step : S → O → S) (s : S) (ops : ℕ → O) : ℕ → S
  | 0 => s
  | n + 1 => step (states step s ops n) (ops n)

theorem states_inv {P : S → Prop} {G : O → Prop} (hstep : ∀ s op, P s → G op → P (step s op)) (s : S) (ops : ℕ → O)
    (hs : P s) (hG : ∀ n, G (ops n)) (n : ℕ) : P (states step s ops n) := by
  induction n with
  | zero => exact hs
  | succ n ih => exact hstep _ _ ih (hG n)

/-- **The progress rule.** Where the size never grows, and falls again and again as long as the goal is not reached, the
goal is reached. -/
theorem states_reach {s : S} {ops : ℕ → O} (size : S → ℕ) (Goal : S → Prop)
    (hle : ∀ n, size (states step s ops (n + 1)) ≤ size (states step s ops n))
    (hlt : ∀ n, ¬ Goal (states step s ops n) → ∃ m ≥ n, size (states step s ops (m + 1)) < size (states step s ops m)) :
    ∃ n, Goal (states step s ops n) := by
  have hmono : Antitone fun n => size (states step s ops n) := antitone_nat_of_succ_le hle
  by_contra hnever
  -- The size is below every bound, by induction on the bound from above.
  have hbelow : ∀ d, ∃ n, size (states step s ops n) + d ≤ size s := by
    intro d
    induction d with
    | zero => exact ⟨0, le_refl _⟩
    | succ d ih =>
      obtain ⟨n, hn⟩ := ih
      obtain ⟨m, hm, hless⟩ := hlt n fun hgoal => hnever ⟨n, hgoal⟩
      have hnm : size (states step s ops m) ≤ size (states step s ops n) := hmono hm
      exact ⟨m + 1, by omega⟩
  obtain ⟨n, hn⟩ := hbelow (size s + 1)
  omega

end Lib
