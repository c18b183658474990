import Libgs.Lib.OrderedMap
import Libgs.Lib.Run

/-!
# The initialisation of the modules

`reg_init_p`, `run_init` and `co_run_init` of `core/modules.cpp`. The operations that the functions begin go on beside
the loop, and end in any order. A function may register another one while the loop runs.
-/

namespace Libgs.modules

open Lib

abbrev level_t := ℕ

/-- The alternatives of the variant. An empty `std::function` is `none`. -/
inductive func_obj_t (F : Type)
  | init_func (func : Option F)
  | future_init_func (func : Option F)
  | await_init_func (func : Option F)
  deriving DecidableEq

variable {F : Type}

abbrev func_list_t (F : Type) := List (func_obj_t F)

abbrev func_map_t (F : Type) := OrderedMap (id : level_t → level_t) (func_list_t F)

def func_obj_t.func : func_obj_t F → Option F
  | .init_func func | .future_init_func func | .await_init_func func => func

/-- `none` where it throws that the function object is invalid. -/
def reg_init_p (init_map : func_map_t F) (level : level_t) (func : func_obj_t F) : Option (func_map_t F) :=
  if func.func.isSome then some (init_map.alter level fun l => l.getD [] ++ [func]) else none

/-! ## The loop over the levels -/

/-- The two functions that run what is registered -/
inductive runner
  | run_init
  | co_run_init
  deriving DecidableEq

/-- Where the loop is. `running` waits for the end of a call, and `joining` for the futures of a level. -/
inductive pc (F : Type)
  | levels (map : List (level_t × func_list_t F))
  | funcs (level : level_t) (rest : func_list_t F) (future_list : List ℕ) (map : List (level_t × func_list_t F))
  | running (k : ℕ) (level : level_t) (rest : func_list_t F) (future_list : List ℕ)
      (map : List (level_t × func_list_t F))
  | joining (level : level_t) (future_list : List ℕ) (map : List (level_t × func_list_t F))
  | ended
  | raised

/-- `calls` are the functions that were called, in their order. `outcome` tells of each call whether its operation has
ended, and whether it returned. -/
structure system (F : Type) where
  init_map : func_map_t F
  main : pc F
  calls : List (level_t × func_obj_t F)
  outcome : ℕ → Option Bool

/-- The map is moved out of its place. -/
def start (init_map : func_map_t F) : system F := ⟨.empty, .levels init_map.entries, [], fun _ => none⟩

/-- What happens next: a registration, a step of the loop, or the end of an operation that was begun -/
inductive action (F : Type)
  | reg_init_p (level : level_t) (func : func_obj_t F)
  /-- The loop takes its next step. A function that should return a future may throw. -/
  | main (throws : Bool)
  | finish (k : ℕ) (returned : Bool)

namespace system

/-- The loop calls a function, and goes on from `main`. -/
def call (s : system F) (level : level_t) (func : func_obj_t F) (main : pc F) : system F :=
  { s with calls := s.calls ++ [(level, func)], main := main }

/-- One step of the loop. An awaitable is for `co_run_init` only. An empty function throws when it is called. -/
def advance (r : runner) (s : system F) (throws : Bool) : pc F → system F
  | .levels [] => { s with main := .ended }
  | .levels ((level, func_list) :: map) => { s with main := .funcs level func_list [] map }
  | .funcs level [] future_list map => { s with main := .joining level future_list map }
  | .funcs level (.init_func (some func) :: rest) future_list map =>
    s.call level (.init_func (some func)) (.running s.calls.length level rest future_list map)
  | .funcs level (.future_init_func (some func) :: rest) future_list map =>
    s.call level (.future_init_func (some func))
      (if throws then .raised else .funcs level rest (future_list ++ [s.calls.length]) map)
  | .funcs level (.await_init_func func :: rest) future_list map =>
    match r, func with
    | .run_init, _ => { s with main := .funcs level rest future_list map }
    | .co_run_init, some func =>
      s.call level (.await_init_func (some func)) (.running s.calls.length level rest future_list map)
    | .co_run_init, none => { s with main := .raised }
  | .funcs _ (.init_func none :: _) _ _ | .funcs _ (.future_init_func none :: _) _ _ => { s with main := .raised }
  | .running k level rest future_list map =>
    match s.outcome k with
    | none => s
    | some true => { s with main := .funcs level rest future_list map }
    | some false => { s with main := .raised }
  | .joining _ [] map => { s with main := .levels map }
  | .joining level (k :: future_list) map =>
    match s.outcome k, r with
    | none, _ => s
    -- `co_wait` gets the value of the future, and `run_init` only waits for it.
    | some false, .co_run_init => { s with main := .raised }
    | some _, _ => { s with main := .joining level future_list map }
  | .ended | .raised => s

/-- An operation ends once, after its call. -/
def step (r : runner) (s : system F) : action F → system F
  | .reg_init_p level func => { s with init_map := (modules.reg_init_p s.init_map level func).getD s.init_map }
  | .main throws => s.advance r throws s.main
  | .finish k returned =>
    if k < s.calls.length ∧ s.outcome k = none then
      { s with outcome := Function.update s.outcome k (some returned) }
    else s

end system

/-! ## What is called, and in which order -/

/-- The function returns a future. -/
def func_obj_t.is_future : func_obj_t F → Bool
  | .future_init_func _ => true
  | _ => false

/-- The functions that the runner calls. `run_init` goes by those that return an awaitable. -/
def runner.calls (r : runner) : func_obj_t F → Bool
  | .await_init_func _ => r = .co_run_init
  | _ => true

/-- What the runner calls of the functions of one level -/
def level_order (r : runner) (level : level_t) (func_list : func_list_t F) : List (level_t × func_obj_t F) :=
  (func_list.filter r.calls).map (level, ·)

/-- The functions that a runner calls, in their order, with the levels -/
def order (r : runner) (map : List (level_t × func_list_t F)) : List (level_t × func_obj_t F) :=
  map.flatMap fun e => level_order r e.1 e.2

namespace pc

/-- What the loop has still to call -/
def pending (r : runner) : pc F → List (level_t × func_obj_t F)
  | .levels map | .joining _ _ map => order r map
  | .funcs level rest _ map | .running _ level rest _ map => level_order r level rest ++ order r map
  | .ended | .raised => []

/-- The calls that the loop waits for, or will wait for before it goes to the next level -/
def awaited : pc F → List ℕ
  | .funcs _ _ future_list _ | .joining _ future_list _ => future_list
  | .running k _ _ future_list _ => k :: future_list
  | .levels _ | .ended | .raised => []

/-- The level that the loop is at -/
def at_level (level : level_t) : pc F → Prop
  | .funcs l _ _ _ | .running _ l _ _ _ | .joining l _ _ => l = level
  | .levels _ | .ended | .raised => False

/-- How much the loop has to do for a map -/
def map_size (map : List (level_t × func_list_t F)) : ℕ := 1 + (map.map fun e => 2 * e.2.length + 3).sum

/-- The steps that the loop can take at most -/
def size : pc F → ℕ
  | .levels map => map_size map
  | .funcs _ rest future_list map => 2 * rest.length + future_list.length + 2 + map_size map
  | .running _ _ rest future_list map => 2 * rest.length + future_list.length + 3 + map_size map
  | .joining _ future_list map => future_list.length + 1 + map_size map
  | .ended | .raised => 0

/-- The function that is being called -/
def current : pc F → Option ℕ
  | .running k _ _ _ _ => some k
  | _ => none

/-- The call whose end the next step needs -/
def waits_for : pc F → Option ℕ
  | .running k _ _ _ _ | .joining _ (k :: _) _ => some k
  | _ => none

theorem mem_awaited {main : pc F} {k : ℕ} (h : main.waits_for = some k) : k ∈ main.awaited := by
  unfold waits_for at h
  split at h <;> simp_all [awaited]

/-- No function that is still to come is empty. -/
def Filled : pc F → Prop
  | .levels map | .joining _ _ map => ∀ e ∈ map, ∀ f ∈ e.2, f.func.isSome = true
  | .funcs _ rest _ map | .running _ _ rest _ map =>
    (∀ f ∈ rest, f.func.isSome = true) ∧ ∀ e ∈ map, ∀ f ∈ e.2, f.func.isSome = true
  | .ended | .raised => True

end pc

/-! ## One step of the loop -/

/-- What one step of the loop can do -/
inductive Advances (r : runner) (s : system F) (throws : Bool) : system F → Prop
  | rests (h : s.main = .ended ∨ s.main = .raised) : Advances r s throws s
  | waits (k : ℕ) (hk : s.main.waits_for = some k) (ho : s.outcome k = none) : Advances r s throws s
  | moves (main : pc F) (pending : s.main.pending r = main.pending r) (kept : ∀ k ∈ main.awaited, k ∈ s.main.awaited)
      (awaited : ∀ k ∈ s.main.awaited, k ∈ main.awaited ∨ s.outcome k ≠ none)
      (at_level : ∀ level, s.main.at_level level → main.awaited = [] ∨ main.at_level level)
      (returned : ∀ k, s.main.current = some k → s.outcome k = some true) (current : main.current = none)
      (size : main.size < s.main.size) (going : main ≠ .raised) (filled : s.main.Filled → main.Filled) :
      Advances r s throws { s with main := main }
  | calls (level : level_t) (func : func_obj_t F) (main : pc F)
      (pending : s.main.pending r = (level, func) :: main.pending r) (before : s.main.at_level level)
      (at_level : main.at_level level) (awaited : ∀ k, k ∈ main.awaited ↔ k ∈ s.main.awaited ∨ k = s.calls.length)
      (idle : s.main.current = none) (current : func.is_future = false → main.current = some s.calls.length)
      (size : main.size < s.main.size) (filled : s.main.Filled → main.Filled) :
      Advances r s throws (s.call level func main)
  | call_throws (level : level_t) (func : func_obj_t F) (more : List (level_t × func_obj_t F)) (h : throws = true)
      (pending : s.main.pending r = (level, func) :: more) (before : s.main.at_level level)
      (idle : s.main.current = none) : Advances r s throws (s.call level func .raised)
  | raises (going : s.main ≠ .raised) (h : s.main.Filled → ∃ k ∈ s.main.awaited, s.outcome k = some false) :
      Advances r s throws { s with main := .raised }

theorem level_order_cons (r : runner) (level : level_t) (func : func_obj_t F) (rest : func_list_t F) :
    level_order r level (func :: rest) =
      if r.calls func then (level, func) :: level_order r level rest else level_order r level rest := by
  unfold level_order
  rw [List.filter_cons]
  split <;> rfl

theorem order_cons (r : runner) (level : level_t) (func_list : func_list_t F) (map : List (level_t × func_list_t F)) :
    order r ((level, func_list) :: map) = level_order r level func_list ++ order r map := rfl

theorem advance_funcs_spec (r : runner) (s : system F) (throws : Bool) (level : level_t) (f : func_obj_t F)
    (rest : func_list_t F) (future_list : List ℕ) (map : List (level_t × func_list_t F))
    (hmain : s.main = .funcs level (f :: rest) future_list map) :
    Advances r s throws (s.advance r throws (.funcs level (f :: rest) future_list map)) := by
  have hrest : s.main.Filled → f.func.isSome = true ∧
      (pc.funcs level rest future_list map).Filled := by
    intro hfilled
    rw [hmain] at hfilled
    obtain ⟨hf, hrest⟩ := List.forall_mem_cons.mp hfilled.1
    exact ⟨hf, hrest, hfilled.2⟩
  have hempty : f.func = none → s.main.Filled → ∃ k ∈ s.main.awaited, s.outcome k = some false := by
    intro hnone hfilled
    simp [hnone] at hrest
    exact absurd hfilled hrest
  have hpending : s.main.pending r = level_order r level (f :: rest) ++ order r map := by rw [hmain]; rfl
  have hskip : r.calls f = false → Advances r s throws { s with main := .funcs level rest future_list map } := by
    intro hf
    refine .moves _ ?_ (by simp [hmain, pc.awaited]) (fun k hk => .inl (by simpa [hmain, pc.awaited] using hk))
      (fun l hl => .inr (by simpa [hmain, pc.at_level] using hl)) (by simp [hmain, pc.current]) rfl ?_ (by simp)
      fun hfilled => (hrest hfilled).2
    · rw [hpending, level_order_cons, if_neg (by simp [hf])]
      rfl
    · simp [hmain, pc.size]
  have hcalls : r.calls f = true → s.main.pending r =
      (level, f) :: (pc.running s.calls.length level rest future_list map).pending r := by
    intro hf
    rw [hpending, level_order_cons, if_pos hf]
    rfl
  have hrun : r.calls f = true →
      Advances r s throws (s.call level f (.running s.calls.length level rest future_list map)) := by
    intro hf
    refine .calls level f _ (hcalls hf) (by simp [hmain, pc.at_level]) rfl ?_ (by rw [hmain]; rfl)
      (fun _ => rfl) ?_ fun hfilled => (hrest hfilled).2
    · intro k
      simp [hmain, pc.awaited, or_comm]
    · simp [hmain, pc.size]
      omega
  cases f with
  | init_func func =>
    cases func with
    | none => exact .raises (by simp [hmain]) (hempty rfl)
    | some func => exact hrun rfl
  | future_init_func func =>
    cases func with
    | none => exact .raises (by simp [hmain]) (hempty rfl)
    | some func =>
      cases throws with
      | true => exact .call_throws level _ _ rfl (hcalls rfl) (by simp [hmain, pc.at_level]) (by rw [hmain]; rfl)
      | false =>
        refine .calls level _ (.funcs level rest (future_list ++ [s.calls.length]) map) (hcalls rfl)
          (by simp [hmain, pc.at_level]) rfl ?_ (by rw [hmain]; rfl) (fun hf => by cases hf) ?_
          fun hfilled => (hrest hfilled).2
        · intro k
          simp [hmain, pc.awaited]
        · simp [hmain, pc.size]
          omega
  | await_init_func func =>
    cases r with
    | run_init => exact hskip rfl
    | co_run_init =>
      cases func with
      | none => exact .raises (by simp [hmain]) (hempty rfl)
      | some func => exact hrun rfl

theorem advance_spec (r : runner) (s : system F) (throws : Bool) (main : pc F) (hmain : s.main = main) :
    Advances r s throws (s.advance r throws main) := by
  cases main with
  | ended => exact .rests (.inl hmain)
  | raised => exact .rests (.inr hmain)
  | levels map =>
    cases map with
    | nil =>
      exact .moves .ended (by rw [hmain]; rfl) (by simp [pc.awaited]) (by simp [hmain, pc.awaited])
        (by simp [hmain, pc.at_level]) (by simp [hmain, pc.current]) rfl (by simp [hmain, pc.size, pc.map_size])
        (by simp) fun _ => trivial
    | cons e map =>
      obtain ⟨level, func_list⟩ := e
      refine .moves (.funcs level func_list [] map) (by rw [hmain]; rfl) (by simp [pc.awaited])
        (by simp [hmain, pc.awaited]) (by simp [hmain, pc.at_level]) (by simp [hmain, pc.current]) rfl ?_ (by simp) ?_
      · simp [hmain, pc.size, pc.map_size]
        omega
      · intro hfilled
        rw [hmain] at hfilled
        exact List.forall_mem_cons.mp hfilled
  | funcs level rest future_list map =>
    cases rest with
    | nil =>
      refine .moves (.joining level future_list map) (by rw [hmain]; rfl) (by simp [hmain, pc.awaited])
        (fun k hk => .inl (by simpa [hmain, pc.awaited] using hk))
        (fun l hl => .inr (by simpa [hmain, pc.at_level] using hl))
        (by simp [hmain, pc.current]) rfl ?_ (by simp) ?_
      · simp [hmain, pc.size]
      · intro hfilled
        rw [hmain] at hfilled
        exact hfilled.2
    | cons f rest => exact advance_funcs_spec r s throws level f rest future_list map hmain
  | running k level rest future_list map =>
    have hk : k ∈ s.main.awaited := by simp [hmain, pc.awaited]
    unfold system.advance
    dsimp only
    split
    · rename_i ho
      exact .waits k (by rw [hmain]; rfl) ho
    · rename_i ho
      refine .moves (.funcs level rest future_list map) (by rw [hmain]; rfl)
        (by simp [hmain, pc.awaited]; exact fun _ h => .inr h) ?_
        (fun l hl => .inr (by simpa [hmain, pc.at_level] using hl)) ?_ rfl ?_ (by simp) ?_
      · intro j hj
        rw [hmain] at hj
        rcases List.mem_cons.mp hj with rfl | hj
        · exact .inr (by simp [ho])
        · exact .inl hj
      · intro j hj
        rw [hmain] at hj
        cases hj
        exact ho
      · simp [hmain, pc.size]
      · intro hfilled
        rwa [hmain] at hfilled
    · rename_i ho
      exact .raises (by simp [hmain]) fun _ => ⟨k, hk, ho⟩
  | joining level future_list map =>
    cases future_list with
    | nil =>
      refine .moves (.levels map) (by rw [hmain]; rfl) (by simp [pc.awaited]) (by simp [hmain, pc.awaited])
        (fun l hl => .inl rfl) (by simp [hmain, pc.current]) rfl ?_ (by simp) ?_
      · simp [hmain, pc.size]
      · intro hfilled
        rwa [hmain] at hfilled
    | cons k future_list =>
      have hk : k ∈ s.main.awaited := by simp [hmain, pc.awaited]
      have hjoin : s.outcome k ≠ none → Advances r s throws { s with main := .joining level future_list map } := by
        intro ho
        refine .moves _ (by rw [hmain]; rfl) (by simp [hmain, pc.awaited]; exact fun _ h => .inr h) ?_
          (fun l hl => .inr (by simpa [hmain, pc.at_level] using hl)) (by simp [hmain, pc.current]) rfl ?_ (by simp) ?_
        · intro j hj
          rw [hmain] at hj
          rcases List.mem_cons.mp hj with rfl | hj
          · exact .inr ho
          · exact .inl hj
        · simp [hmain, pc.size]
        · intro hfilled
          rwa [hmain] at hfilled
      unfold system.advance
      dsimp only
      split
      · rename_i ho
        exact .waits k (by rw [hmain]; rfl) ho
      · rename_i ho
        exact .raises (by simp [hmain]) fun _ => ⟨k, hk, ho⟩
      · rename_i ho _
        exact hjoin (by simp [ho])

/-! ## The barrier between the levels -/

/-- A call of a higher level begins after all calls of the lower levels have ended. -/
def Barrier (s : system F) : Prop :=
  ∀ i j a b, i < j → s.calls[i]? = some a → s.calls[j]? = some b → a.1 < b.1 → s.outcome i ≠ none

/-- A function that returns no future has returned before the next one is called. -/
def Sequential (s : system F) : Prop :=
  ∀ i j a, i < j → j < s.calls.length → s.calls[i]? = some a → a.2.is_future = false → s.outcome i = some true

/-- What is called so far, and what is left -/
structure Inv (r : runner) (all : List (level_t × func_obj_t F)) (s : system F) : Prop where
  begun : s.calls <+: all
  pending : s.main ≠ .raised → s.calls ++ s.main.pending r = all
  /-- A call whose operation has not ended is waited for. -/
  awaited : s.main ≠ .raised → ∀ k < s.calls.length, s.outcome k = none → k ∈ s.main.awaited
  at_level : ∀ k ∈ s.main.awaited, ∃ a, s.calls[k]? = some a ∧ s.main.at_level a.1
  returned : s.main ≠ .raised → ∀ (k : ℕ) (a : level_t × func_obj_t F), s.calls[k]? = some a →
    a.2.is_future = false → s.main.current ≠ some k → s.outcome k = some true
  barrier : Barrier s
  sequential : Sequential s

theorem inv_start (r : runner) (init_map : func_map_t F) : Inv r (order r init_map.entries) (start init_map) where
  begun := List.nil_prefix
  pending := fun _ => rfl
  awaited := fun _ k hk => absurd hk (Nat.not_lt_zero k)
  at_level := fun k hk => absurd hk List.not_mem_nil
  returned := fun _ k a ha => by simp [start] at ha
  barrier := fun i j a b _ ha => by simp [start] at ha
  sequential := fun i j a _ hj => absurd hj (Nat.not_lt_zero j)

section

variable {r : runner} {all : List (level_t × func_obj_t F)} {s : system F}

theorem at_level_unique {main : pc F} {l l' : level_t} (h : main.at_level l) (h' : main.at_level l') : l = l' := by
  cases main <;> simp_all [pc.at_level]

theorem Inv.moved (h : Inv r all s) (main : pc F)
    (hpending : main ≠ .raised → s.main ≠ .raised ∧ s.main.pending r = main.pending r)
    (hkept : ∀ k ∈ main.awaited, k ∈ s.main.awaited)
    (hawaited : main ≠ .raised → ∀ k ∈ s.main.awaited, k ∈ main.awaited ∨ s.outcome k ≠ none)
    (hlevel : ∀ level, s.main.at_level level → main.awaited = [] ∨ main.at_level level)
    (hreturned : main ≠ .raised → main.current = none ∧ ∀ k, s.main.current = some k → s.outcome k = some true) :
    Inv r all { s with main := main } where
  begun := h.begun
  pending := fun hm => (hpending hm).2 ▸ h.pending (hpending hm).1
  awaited := by
    intro hm k hk ho
    rcases hawaited hm k (h.awaited (hpending hm).1 k hk ho) with hin | hdone
    · exact hin
    · exact absurd ho hdone
  at_level := by
    intro k hk
    obtain ⟨a, ha, hat⟩ := h.at_level k (hkept k hk)
    refine ⟨a, ha, (hlevel a.1 hat).resolve_left fun hnil => ?_⟩
    simp [hnil] at hk
  returned := by
    intro hm k a ha hf _
    by_cases hcurrent : s.main.current = some k
    · exact (hreturned hm).2 k hcurrent
    · exact h.returned (hpending hm).1 k a ha hf hcurrent
  barrier := h.barrier
  sequential := h.sequential

theorem Inv.call (h : Inv r all s) (hgoing : s.main ≠ .raised) (level : level_t) (func : func_obj_t F) (main : pc F)
    (more : List (level_t × func_obj_t F)) (hpending : s.main.pending r = (level, func) :: more)
    (hmore : main ≠ .raised → main.pending r = more) (hbefore : s.main.at_level level)
    (hlevel : main ≠ .raised → main.at_level level) (hidle : s.main.current = none)
    (hawaited : ∀ k ∈ main.awaited, k ∈ s.main.awaited ∨ k = s.calls.length)
    (hkept : main ≠ .raised → ∀ k, k ∈ s.main.awaited ∨ k = s.calls.length → k ∈ main.awaited)
    (hcurrent : main ≠ .raised → func.is_future = false → main.current = some s.calls.length) :
    Inv r all (s.call level func main) := by
  have hall := h.pending hgoing
  have hlength : (s.call level func main).calls.length = s.calls.length + 1 := by simp [system.call]
  have hold : ∀ k < s.calls.length, (s.call level func main).calls[k]? = s.calls[k]? := by
    intro k hk
    exact List.getElem?_append_left hk
  have hnew : (s.call level func main).calls[s.calls.length]? = some (level, func) := by
    simp [system.call]
  have hcases : ∀ k a, (s.call level func main).calls[k]? = some a →
      k < s.calls.length ∧ s.calls[k]? = some a ∨ k = s.calls.length ∧ a = (level, func) := by
    intro k a ha
    have hk : k < s.calls.length + 1 := hlength ▸ (List.getElem?_eq_some_iff.mp ha).1
    rcases Nat.lt_succ_iff_lt_or_eq.mp hk with hk | rfl
    · exact .inl ⟨hk, (hold k hk).symm.trans ha⟩
    · exact .inr ⟨rfl, (Option.some.inj (hnew.symm.trans ha)).symm⟩
  constructor
  · rw [hpending] at hall
    exact ⟨more, by rw [← hall]; simp [system.call]⟩
  · intro hm
    rw [← hall, hpending, ← hmore hm]
    simp [system.call]
  · intro hm k hk ho
    apply hkept hm
    rcases Nat.lt_succ_iff_lt_or_eq.mp (hlength ▸ hk) with hk | hk
    · exact .inl (h.awaited hgoing k hk ho)
    · exact .inr hk
  · intro k hk
    have hm : main ≠ .raised := by
      rintro rfl
      exact absurd hk List.not_mem_nil
    rcases hawaited k hk with hin | rfl
    · obtain ⟨a, ha, hat⟩ := h.at_level k hin
      refine ⟨a, (hold k (List.getElem?_eq_some_iff.mp ha).1).trans ha, ?_⟩
      rw [at_level_unique hat hbefore]
      exact hlevel hm
    · exact ⟨_, hnew, hlevel hm⟩
  · intro hm k a ha hf hk
    rcases hcases k a ha with ⟨-, ha⟩ | ⟨rfl, rfl⟩
    · exact h.returned hgoing k a ha hf (by simp [hidle])
    · exact absurd (hcurrent hm hf) hk
  · intro i j a b hij ha hb hlt
    rcases hcases j b hb with ⟨hj, hb⟩ | ⟨rfl, rfl⟩
    · exact h.barrier i j a b hij ((hold i (hij.trans hj)).symm.trans ha) hb hlt
    · intro ho
      obtain ⟨c, hc, hat⟩ := h.at_level i (h.awaited hgoing i hij ho)
      obtain rfl : c = a := Option.some.inj (hc.symm.trans ((hold i hij).symm.trans ha))
      exact absurd (at_level_unique hat hbefore) (ne_of_lt hlt)
  · intro i j a hij hj ha hf
    rcases Nat.lt_succ_iff_lt_or_eq.mp (hlength ▸ hj) with hj | rfl
    · exact h.sequential i j a hij hj ((hold i (hij.trans hj)).symm.trans ha) hf
    · exact h.returned hgoing i a ((hold i hij).symm.trans ha) hf (by simp [hidle])

theorem inv_main (h : Inv r all s) (throws : Bool) : Inv r all (s.advance r throws s.main) := by
  by_cases hraised : s.main = .raised
  · rw [hraised]
    exact h
  have hspec := advance_spec r s throws s.main rfl
  generalize s.advance r throws s.main = s' at hspec ⊢
  cases hspec with
  | rests => exact h
  | waits => exact h
  | moves main hpending hkept hawaited hlevel hreturned hcurrent =>
    exact h.moved main (fun _ => ⟨hraised, hpending⟩) hkept (fun _ => hawaited) hlevel fun _ => ⟨hcurrent, hreturned⟩
  | calls level func main hpending hbefore hlevel hawaited hidle hcurrent =>
    exact h.call hraised level func main _ hpending (fun _ => rfl) hbefore (fun _ => hlevel) hidle
      (fun k hk => (hawaited k).mp hk) (fun _ k hk => (hawaited k).mpr hk) fun _ => hcurrent
  | call_throws level func more hthrows hpending hbefore hidle =>
    exact h.call hraised level func .raised more hpending (fun hm => absurd rfl hm) hbefore (fun hm => absurd rfl hm)
      hidle (fun k hk => absurd hk List.not_mem_nil) (fun hm => absurd rfl hm) fun hm => absurd rfl hm
  | raises hgoing =>
    exact h.moved .raised (fun hm => absurd rfl hm) (fun k hk => absurd hk List.not_mem_nil) (fun hm => absurd rfl hm)
      (fun _ _ => .inl rfl) fun hm => absurd rfl hm

theorem inv_finish (h : Inv r all s) (k : ℕ) (b : Bool) (hk : s.outcome k = none) :
    Inv r all { s with outcome := Function.update s.outcome k (some b) } := by
  have hstays : ∀ i v, s.outcome i = some v → Function.update s.outcome k (some b) i = some v := by
    intro i v hi
    rw [Function.update_of_ne, hi]
    rintro rfl
    rw [hk] at hi
    cases hi
  have hended : ∀ i, s.outcome i ≠ none → Function.update s.outcome k (some b) i ≠ none := by
    intro i hi
    obtain ⟨v, hv⟩ := Option.ne_none_iff_exists'.mp hi
    rw [hstays i v hv]
    simp
  constructor
  · exact h.begun
  · exact h.pending
  · intro hm i hi ho
    exact h.awaited hm i hi (by_contra fun hne => hended i hne ho)
  · exact h.at_level
  · exact fun hm i a ha hf hi => hstays i true (h.returned hm i a ha hf hi)
  · exact fun i j a c hij ha hc hlt => hended i (h.barrier i j a c hij ha hc hlt)
  · exact fun i j a hij hj ha hf => hstays i true (h.sequential i j a hij hj ha hf)

theorem inv_step (h : Inv r all s) (a : action F) : Inv r all (s.step r a) := by
  cases a with
  | reg_init_p level func => exact ⟨h.begun, h.pending, h.awaited, h.at_level, h.returned, h.barrier, h.sequential⟩
  | main throws => exact inv_main h throws
  | finish k returned =>
    unfold system.step
    dsimp only
    split
    · rename_i hk
      exact inv_finish h k returned hk.2
    · exact h

end

/-! ## What was registered -/

/-- The map behind the registrations. A refused one changes nothing. -/
def registered (regs : List (level_t × func_obj_t F)) : func_map_t F :=
  regs.foldl (fun m e => (reg_init_p m e.1 e.2).getD m) .empty

/-- What was registered for the level, and is called by the runner -/
def registered_at (r : runner) (level : level_t) (regs : List (level_t × func_obj_t F)) :
    List (level_t × func_obj_t F) :=
  regs.filter fun e => e.1 = level ∧ e.2.func.isSome = true ∧ r.calls e.2 = true

theorem find_registered (regs : List (level_t × func_obj_t F)) (level : level_t) :
    ((registered regs).find level).getD [] =
      (regs.filter fun e => e.1 = level ∧ e.2.func.isSome = true).map (·.2) := by
  induction regs using List.reverseRecOn with
  | nil => rfl
  | append_singleton regs e ih =>
    have hlast : registered (regs ++ [e]) = (reg_init_p (registered regs) e.1 e.2).getD (registered regs) := by
      simp [registered]
    rw [hlast, List.filter_append, List.map_append, ← ih, reg_init_p]
    by_cases hf : e.2.func.isSome = true
    · rw [if_pos hf, Option.getD_some]
      by_cases hl : e.1 = level
      · rw [hl, OrderedMap.find_alter_self]
        simp [hl, hf]
      · rw [OrderedMap.find_alter_ne _ _ _ _ (fun h => hl h.symm)]
        simp [hl]
    · rw [if_neg hf]
      simp [hf]

theorem level_of_mem {r : runner} {level : level_t} {func_list : func_list_t F} {a : level_t × func_obj_t F}
    (h : a ∈ level_order r level func_list) : a.1 = level := by
  obtain ⟨f, -, rfl⟩ := List.mem_map.mp h
  rfl

theorem level_of_mem_order {r : runner} {map : List (level_t × func_list_t F)} {a : level_t × func_obj_t F}
    (h : a ∈ order r map) : ∃ e ∈ map, a.1 = e.1 := by
  obtain ⟨e, he, ha⟩ := List.mem_flatMap.mp h
  exact ⟨e, he, level_of_mem ha⟩

theorem order_at (r : runner) (m : func_map_t F) (level : level_t) :
    (order r m.entries).filter (fun e => e.1 = level) = level_order r level ((m.find level).getD []) := by
  obtain ⟨es, hsorted⟩ := m
  unfold OrderedMap.find
  dsimp only
  induction es with
  | nil => rfl
  | cons e es ih =>
    obtain ⟨hfirst, hrest⟩ := List.pairwise_cons.mp hsorted
    obtain ⟨l, func_list⟩ := e
    rw [order_cons, List.filter_append, List.find?_cons]
    by_cases hl : l = level
    · subst hl
      have hhere : (level_order r l func_list).filter (fun e => e.1 = l) = level_order r l func_list := by
        rw [List.filter_eq_self]
        intro a ha
        simpa using level_of_mem ha
      have hnone : (order r es).filter (fun e => e.1 = l) = [] := by
        rw [List.filter_eq_nil_iff]
        intro a ha
        obtain ⟨b, hb, hab⟩ := level_of_mem_order ha
        have hlt : l < b.1 := hfirst b hb
        simpa [hab] using ne_of_gt hlt
      rw [hhere, hnone]
      simp
    · have hnone : (level_order r l func_list).filter (fun e => e.1 = level) = [] := by
        rw [List.filter_eq_nil_iff]
        intro a ha
        simpa [level_of_mem ha] using hl
      rw [hnone, ih hrest]
      simp [hl]

theorem order_registered (r : runner) (regs : List (level_t × func_obj_t F)) (level : level_t) :
    (order r (registered regs).entries).filter (fun e => e.1 = level) = registered_at r level regs := by
  rw [order_at, find_registered]
  unfold level_order registered_at
  rw [List.filter_map, List.map_map, List.filter_filter]
  rw [List.map_congr_left (g := id), List.map_id]
  · refine List.filter_congr fun e _ => ?_
    simp [Bool.and_comm, Bool.and_assoc]
  · intro e he
    simp only [List.mem_filter] at he
    simp at he
    simp [he.2.2.1 |>.symm]

theorem order_sorted (r : runner) (m : func_map_t F) : (order r m.entries).Pairwise fun a b => a.1 ≤ b.1 := by
  obtain ⟨es, hsorted⟩ := m
  dsimp only
  induction es with
  | nil => exact .nil
  | cons e es ih =>
    obtain ⟨hfirst, hrest⟩ := List.pairwise_cons.mp hsorted
    obtain ⟨l, func_list⟩ := e
    rw [order_cons, List.pairwise_append]
    refine ⟨?_, ih hrest, ?_⟩
    · unfold level_order
      rw [List.pairwise_map]
      exact List.pairwise_of_forall fun _ _ => le_refl _
    · intro a ha b hb
      obtain ⟨c, hc, hbc⟩ := level_of_mem_order hb
      rw [level_of_mem ha, hbc]
      exact (hfirst c hc).le

/-! ## Every run -/

/-- What is registered while the loop runs -/
def late (acts : List (action F)) : List (level_t × func_obj_t F) :=
  acts.filterMap fun a => match a with
    | .reg_init_p level func => some (level, func)
    | _ => none

theorem advance_init_map (r : runner) (s : system F) (throws : Bool) :
    (s.advance r throws s.main).init_map = s.init_map := by
  have hspec := advance_spec r s throws s.main rfl
  generalize s.advance r throws s.main = s' at hspec ⊢
  cases hspec <;> rfl

theorem run_init_map (r : runner) (s : system F) (acts : List (action F)) :
    (run (system.step r) s acts).init_map =
      (late acts).foldl (fun m e => (reg_init_p m e.1 e.2).getD m) s.init_map := by
  induction acts generalizing s with
  | nil => rfl
  | cons a acts ih =>
    rw [run_cons, ih]
    cases a with
    | reg_init_p level func => rfl
    | main throws =>
      rw [show (s.step r (.main throws)).init_map = s.init_map from advance_init_map r s throws]
      rfl
    | finish k returned =>
      unfold system.step
      dsimp only
      split <;> rfl

theorem inv_run (r : runner) (regs : List (level_t × func_obj_t F)) (acts : List (action F)) :
    Inv r (order r (registered regs).entries) (run (system.step r) (start (registered regs)) acts) :=
  (throughout_of_step (P := Inv r (order r (registered regs).entries)) (fun _ a h => inv_step h a) _ acts
    (inv_start r (registered regs))).last

theorem all_ended {r : runner} {all : List (level_t × func_obj_t F)} {s : system F} (h : Inv r all s)
    (hended : s.main = .ended) : s.calls = all ∧ ∀ k < s.calls.length, s.outcome k ≠ none := by
  have hgoing : s.main ≠ .raised := by simp [hended]
  constructor
  · have := h.pending hgoing
    simpa [hended, pc.pending] using this
  · intro k hk ho
    have := h.awaited hgoing k hk ho
    simp [hended, pc.awaited] at this

/-- **The order of the initialisation.** Whatever was registered, in whichever order the operations end and whatever is
registered meanwhile: a level begins when the operations of all lower levels have ended, a function that returns no
future has returned when the next one is called, and of every level the functions are called in the order of their
registration, each of them once; all of them when the loop is over. What is registered meanwhile is left for the next
run. `run_init` has no functions that return an awaitable: it goes by them. -/
theorem levels_in_order (r : runner) (regs : List (level_t × func_obj_t F)) (acts : List (action F)) :
    let s := run (system.step r) (start (registered regs)) acts
    Barrier s ∧ Sequential s ∧ (s.calls.Pairwise fun a b => a.1 ≤ b.1) ∧
      (∀ level, s.calls.filter (fun e => e.1 = level) <+: registered_at r level regs) ∧
      (s.main = .ended → (∀ k < s.calls.length, s.outcome k ≠ none) ∧
        ∀ level, s.calls.filter (fun e => e.1 = level) = registered_at r level regs) ∧
      s.init_map = registered (late acts) := by
  intro s
  have hinv : Inv r (order r (registered regs).entries) s := inv_run r regs acts
  refine ⟨hinv.barrier, hinv.sequential, ?_, fun level => ?_, fun hended => ?_, run_init_map r _ acts⟩
  · exact (order_sorted r (registered regs)).sublist hinv.begun.sublist
  · rw [← order_registered]
    exact hinv.begun.filter _
  · obtain ⟨hall, hdone⟩ := all_ended hinv hended
    refine ⟨hdone, fun level => ?_⟩
    rw [hall, order_registered]

/-! ## The end of the loop -/

/-- No function is empty, and none has thrown. -/
structure Smooth (s : system F) : Prop where
  filled : s.main.Filled
  going : s.main ≠ .raised
  returned : ∀ k, s.outcome k ≠ some false

/-- No function and no operation throws. -/
def action.Returns : action F → Prop
  | .main throws => throws = false
  | .finish _ returned => returned = true
  | .reg_init_p _ _ => True

theorem registered_filled (regs : List (level_t × func_obj_t F)) :
    ∀ e ∈ (registered regs).entries, ∀ f ∈ e.2, f.func.isSome = true := by
  intro e he f hf
  have hfind := find_registered regs e.1
  rw [OrderedMap.find_of_mem _ e he, Option.getD_some] at hfind
  rw [hfind] at hf
  obtain ⟨a, ha, rfl⟩ := List.mem_map.mp hf
  simpa using (of_decide_eq_true (List.mem_filter.mp ha).2).2

theorem smooth_start (regs : List (level_t × func_obj_t F)) : Smooth (start (registered regs)) :=
  ⟨registered_filled regs, by simp [start], by simp [start]⟩

theorem smooth_step {r : runner} {s : system F} (h : Smooth s) (a : action F) (ha : a.Returns) :
    Smooth (s.step r a) := by
  cases a with
  | reg_init_p level func => exact ⟨h.filled, h.going, h.returned⟩
  | finish k returned =>
    obtain rfl : returned = true := ha
    unfold system.step
    dsimp only
    split
    · refine ⟨h.filled, h.going, fun i => ?_⟩
      simp only [Function.update_apply]
      split
      · simp
      · exact h.returned i
    · exact h
  | main throws =>
    have hspec := advance_spec r s throws s.main rfl
    show Smooth (s.advance r throws s.main)
    generalize s.advance r throws s.main = s' at hspec ⊢
    cases hspec with
    | rests => exact h
    | waits => exact h
    | moves main _ _ _ _ _ _ _ hgoing hfilled => exact ⟨hfilled h.filled, hgoing, h.returned⟩
    | calls level func main _ _ hlevel _ _ _ _ hfilled =>
      refine ⟨hfilled h.filled, ?_, h.returned⟩
      rintro rfl
      exact hlevel
    | call_throws level func more hthrows =>
      obtain rfl : throws = false := ha
      cases hthrows
    | raises hgoing hraises =>
      obtain ⟨k, -, hk⟩ := hraises h.filled
      exact absurd hk (h.returned k)

theorem outcome_stays (r : runner) (s : system F) (a : action F) (k : ℕ) (h : s.outcome k ≠ none) :
    (s.step r a).outcome k ≠ none := by
  cases a with
  | reg_init_p level func => exact h
  | main throws =>
    have hspec := advance_spec r s throws s.main rfl
    show (s.advance r throws s.main).outcome k ≠ none
    generalize s.advance r throws s.main = s' at hspec ⊢
    cases hspec <;> exact h
  | finish j returned =>
    unfold system.step
    dsimp only
    split
    · simp only [Function.update_apply]
      split
      · simp
      · exact h
    · exact h

theorem main_or_less {r : runner} {s : system F} (h : Smooth s) (a : action F) (ha : a.Returns) :
    (s.step r a).main = s.main ∨ (s.step r a).main.size < s.main.size := by
  cases a with
  | reg_init_p level func => exact .inl rfl
  | finish k returned =>
    unfold system.step
    dsimp only
    split <;> exact .inl rfl
  | main throws =>
    have hspec := advance_spec r s throws s.main rfl
    show (s.advance r throws s.main).main = s.main ∨ _
    generalize hs' : s.advance r throws s.main = s' at hspec
    show s'.main = s.main ∨ (s.advance r throws s.main).main.size < _
    rw [hs']
    cases hspec with
    | rests => exact .inl rfl
    | waits => exact .inl rfl
    | moves main _ _ _ _ _ _ hsize => exact .inr hsize
    | calls level func main _ _ _ _ _ _ hsize => exact .inr hsize
    | call_throws level func more hthrows =>
      obtain rfl : throws = false := ha
      cases hthrows
    | raises hgoing hraises =>
      obtain ⟨k, -, hk⟩ := hraises h.filled
      exact absurd hk (h.returned k)

theorem main_less {r : runner} {s : system F} (h : Smooth s) (hended : s.main ≠ .ended)
    (hneed : ∀ k, s.main.waits_for = some k → s.outcome k ≠ none) :
    (s.step r (.main false)).main.size < s.main.size := by
  have hspec := advance_spec r s false s.main rfl
  show (s.advance r false s.main).main.size < _
  generalize s.advance r false s.main = s' at hspec
  cases hspec with
  | rests hover => exact absurd hover (by simp [hended, h.going])
  | waits k hk ho => exact absurd ho (hneed k hk)
  | moves main _ _ _ _ _ _ hsize => exact hsize
  | calls level func main _ _ _ _ _ _ hsize => exact hsize
  | call_throws level func more hthrows => cases hthrows
  | raises hgoing hraises =>
    obtain ⟨k, -, hk⟩ := hraises h.filled
    exact absurd hk (h.returned k)

theorem inv_states (r : runner) (regs : List (level_t × func_obj_t F)) (acts : ℕ → action F) (n : ℕ) :
    Inv r (order r (registered regs).entries) (states (system.step r) (start (registered regs)) acts n) :=
  states_inv (G := fun _ => True) (P := Inv r (order r (registered regs).entries)) (fun _ a h _ => inv_step h a) _ acts
    (inv_start r (registered regs)) (fun _ => trivial) n

/-- **The initialisation ends.** Where no function throws, every operation that has begun ends at some time and the loop
goes on, the loop comes to its end and all functions have been called, however the operations are interleaved. -/
theorem init_ends (r : runner) (regs : List (level_t × func_obj_t F)) (acts : ℕ → action F)
    (hreturns : ∀ n, (acts n).Returns) (hmain : ∀ n, ∃ m ≥ n, acts m = .main false)
    (hfinish : ∀ n k, k < (states (system.step r) (start (registered regs)) acts n).calls.length →
      ∃ m ≥ n, acts m = .finish k true) :
    ∃ n, let s := states (system.step r) (start (registered regs)) acts n
      s.main = .ended ∧ ∀ level, s.calls.filter (fun e => e.1 = level) = registered_at r level regs := by
  set st := states (system.step r) (start (registered regs)) acts with hst
  have hsmooth : ∀ n, Smooth (st n) :=
    states_inv (P := Smooth) (fun _ a h ha => smooth_step h a ha) _ acts (smooth_start regs) hreturns
  have hinv : ∀ n, Inv r (order r (registered regs).entries) (st n) := inv_states r regs acts
  have hstep : ∀ n, (st (n + 1)).main = (st n).main ∨ (st (n + 1)).main.size < (st n).main.size :=
    fun n => main_or_less (hsmooth n) (acts n) (hreturns n)
  have hstays : ∀ k n m, n ≤ m → (st n).outcome k ≠ none → (st m).outcome k ≠ none := by
    intro k n m hnm h
    induction m, hnm using Nat.le_induction with
    | base => exact h
    | succ m _ ih => exact outcome_stays r _ _ k ih
  have hreach : ∃ n, (st n).main = .ended := by
    refine states_reach (fun s : system F => s.main.size) (fun s => s.main = .ended) (fun n => ?_) fun n hgoing => ?_
    · rcases hstep n with heq | hlt
      · exact (congrArg pc.size heq).le
      · exact hlt.le
    · -- As long as nothing falls, the loop is where it is, and the end it needs comes.
      by_contra hnone
      have hsame : ∀ m, n ≤ m → (st m).main = (st n).main := by
        intro m hnm
        induction m, hnm using Nat.le_induction with
        | base => rfl
        | succ m hm ih =>
          rcases hstep m with heq | hlt
          · exact heq.trans ih
          · exact absurd ⟨m, hm, hlt⟩ hnone
      obtain ⟨m, hm, hneed⟩ : ∃ m ≥ n, ∀ k, (st n).main.waits_for = some k → (st m).outcome k ≠ none := by
        cases hk : (st n).main.waits_for with
        | none => exact ⟨n, le_refl n, fun k h => by cases h⟩
        | some k =>
          obtain ⟨a, ha, -⟩ := (hinv n).at_level k (pc.mem_awaited hk)
          have hbegun : k < (st n).calls.length := (List.getElem?_eq_some_iff.mp ha).1
          obtain ⟨m, hm, hact⟩ := hfinish n k hbegun
          refine ⟨m + 1, by omega, fun j hj => ?_⟩
          obtain rfl : k = j := Option.some.inj hj
          have hin : k < (st m).calls.length := by
            obtain ⟨a, ha, -⟩ := (hinv m).at_level k (pc.mem_awaited (by rw [hsame m hm]; exact hk))
            exact (List.getElem?_eq_some_iff.mp ha).1
          show ((st m).step r (acts m)).outcome k ≠ none
          rw [hact]
          by_cases ho : (st m).outcome k = none
          · simp [system.step, hin, ho]
          · exact outcome_stays r _ _ k ho
      obtain ⟨i, hi, hact⟩ := hmain m
      refine hnone ⟨i, by omega, ?_⟩
      show ((st i).step r (acts i)).main.size < (st i).main.size
      rw [hact]
      have hmi := hsame i (by omega)
      refine main_less (hsmooth i) (by rw [hmi]; exact hgoing) fun k hk => ?_
      exact hstays k m i hi (hneed k (by rw [← hmi]; exact hk))
  obtain ⟨n, hn⟩ := hreach
  refine ⟨n, hn, fun level => ?_⟩
  rw [(all_ended (hinv n) hn).1, order_registered]

/-- Two functions of level 0, one of them empty, and one of level 1 -/
def twoModules : List (level_t × func_obj_t ℕ) :=
  [(1, .init_func (some 0)), (0, .future_init_func (some 1)), (0, .init_func none)]

/-- The loop and both operations in turn -/
def roundRobin (n : ℕ) : action ℕ :=
  match n % 3 with
  | 0 => .main false
  | k + 1 => .finish k true

theorem init_ends_two :
    ∃ n, let s := states (system.step .run_init) (start (registered twoModules)) roundRobin n
      s.main = .ended ∧
        ∀ level, s.calls.filter (fun e => e.1 = level) = registered_at .run_init level twoModules := by
  have hturn : ∀ n j, j < 3 → ∃ m ≥ n, m % 3 = j := fun n j hj => ⟨3 * n + j, by omega, by omega⟩
  refine init_ends .run_init twoModules roundRobin (fun n => ?_) (fun n => ?_) fun n k hk => ?_
  · unfold roundRobin
    split <;> rfl
  · obtain ⟨m, hm, hj⟩ := hturn n 0 (by decide)
    exact ⟨m, hm, by simp [roundRobin, hj]⟩
  · have hle := (inv_states .run_init twoModules roundRobin n).begun.length_le
    have htwo : (order .run_init (registered twoModules).entries).length = 2 := by decide
    obtain ⟨m, hm, hj⟩ := hturn n (k + 1) (by omega)
    exact ⟨m, hm, by simp [roundRobin, hj]⟩

end Libgs.modules
