import Libgs.Lib.Linearizable
import Libgs.Lib.Links

/-!
# The lock-free queue

`lock_free_queue` of `core/detail/lock_free_queue.h`. Every access to an atomic variable and every access to the datum
of a node is a step of its own, and the parties `ι` take their steps in any order. A node that is deleted is not used
again.
-/

namespace Libgs.Sync.lock_free_queue

open Lib

/-! ## The queue and its callers -/

/-- Where a party stands in the code, with its local variables -/
inductive pc (V : Type)
  | idle
  /-- `emplace`: the new node is not there yet -/
  | new_node (v : V)
  | load_tail (n : ℕ)
  /-- The loop of `emplace` -/
  | load_next (n tail : ℕ)
  | link (n tail : ℕ)
  | swing (n tail : ℕ)
  | help (n tail next : ℕ)
  /-- The loop of `dequeue`, where `data` keeps its value from one turn to the next -/
  | load_head (data : Option V)
  | load_head_tail (data : Option V) (head : ℕ)
  | load_head_next (data : Option V) (head tail : ℕ)
  | recheck (data : Option V) (head tail : ℕ) (next : Option ℕ)
  | help_tail (data : Option V) (tail next : ℕ)
  | move (head next : ℕ)
  | pop (data : V) (head next : ℕ)
  | done (r : Fifo.Answer V)
  /-- `next->data` of a null pointer -/
  | undefined
  deriving DecidableEq

/-- `m_head`, `m_tail` and the nodes. No code reads `value`, what a node was made with, and `moved`, whether its datum
was moved out; `fresh` is the next address that `new` gives. -/
structure system (ι V : Type) where
  m_head : ℕ
  m_tail : ℕ
  data : ℕ → V
  next : ℕ → Option ℕ
  value : ℕ → V
  moved : ℕ → Bool
  fresh : ℕ
  pcs : ι → pc V

/-- The constructor: one node, which holds no datum -/
def init {ι V : Type} [Inhabited V] : system ι V where
  m_head := 0
  m_tail := 0
  data _ := default
  next _ := none
  value _ := default
  moved _ := false
  fresh := 1
  pcs _ := .idle

/-- A party begins a call, or takes the next step of the call it is in. A weak exchange may fail spuriously. -/
inductive action (ι V : Type)
  | call (i : ι) (o : Fifo.Op V)
  | step (i : ι) (spurious : Bool)

def enter {V : Type} : pc V → Fifo.Op V → pc V
  | .idle, .enqueue v => .new_node v
  | .idle, .dequeue => .load_head none
  | p, _ => p

variable {ι V : Type} [DecidableEq ι]

def system.goto (s : system ι V) (i : ι) (p : pc V) : system ι V := { s with pcs := Function.update s.pcs i p }

/-- `new` gives a node. -/
def system.make (s : system ι V) (v : V) : system ι V :=
  { s with
    data := Function.update s.data s.fresh v
    next := Function.update s.next s.fresh none
    value := Function.update s.value s.fresh v
    fresh := s.fresh + 1 }

def system.set_next (s : system ι V) (tail n : ℕ) : system ι V :=
  { s with next := Function.update s.next tail (some n) }

def system.set_tail (s : system ι V) (n : ℕ) : system ι V := { s with m_tail := n }

def system.set_head (s : system ι V) (n : ℕ) : system ι V := { s with m_head := n }

/-- `moved_from v` is what moving out leaves of the datum `v`. -/
def system.move_out (moved_from : V → V) (s : system ι V) (n : ℕ) : system ι V :=
  { s with
    data := Function.update s.data n (moved_from (s.data n))
    moved := Function.update s.moved n true }

/-- The next step of a party that stands at the given place -/
def advance (moved_from : V → V) (s : system ι V) (i : ι) (spurious : Bool) : pc V → system ι V
  | .idle | .undefined => s
  | .new_node v => (s.make v).goto i (.load_tail s.fresh)
  | .load_tail n => s.goto i (.load_next n s.m_tail)
  | .load_next n tail =>
    match s.next tail with
    | none => s.goto i (.link n tail)
    | some next => s.goto i (.help n tail next)
  | .link n tail =>
    if s.next tail = none ∧ ¬ spurious then (s.set_next tail n).goto i (.swing n tail)
    else s.goto i (.load_next n tail)
  | .swing n tail =>
    if s.m_tail = tail then (s.set_tail n).goto i (.done .stored) else s.goto i (.done .stored)
  | .help n tail next =>
    if s.m_tail = tail then (s.set_tail next).goto i (.load_next n tail) else s.goto i (.load_next n s.m_tail)
  | .load_head data => s.goto i (.load_head_tail data s.m_head)
  | .load_head_tail data head => s.goto i (.load_head_next data head s.m_tail)
  | .load_head_next data head tail => s.goto i (.recheck data head tail (s.next head))
  | .recheck data head tail next =>
    if head ≠ s.m_head then s.goto i (.load_head data)
    else if head = tail then
      match next with
      | none => s.goto i (.done (.got data))
      | some next => s.goto i (.help_tail data tail next)
    else
      match next with
      | none => s.goto i .undefined
      | some next => s.goto i (.move head next)
  | .help_tail data tail next =>
    if s.m_tail = tail ∧ ¬ spurious then (s.set_tail next).goto i (.load_head data) else s.goto i (.load_head data)
  | .move head next => (s.move_out moved_from next).goto i (.pop (s.data next) head next)
  | .pop data head next =>
    if s.m_head = head ∧ ¬ spurious then (s.set_head next).goto i (.done (.got (some data)))
    else s.goto i (.load_head (some data))
  | .done _ => s.goto i .idle

/-- A party begins a call, or takes its next step. -/
def step (moved_from : V → V) (s : system ι V) : action ι V → system ι V
  | .call i o => s.goto i (enter (s.pcs i) o)
  | .step i spurious => advance moved_from s i spurious (s.pcs i)

/-- What is seen from outside: a call, and its return. -/
def see (s : system ι V) : action ι V → Option (Event ι (Fifo.Op V) (Fifo.Answer V))
  | .call i o =>
    match s.pcs i with
    | .idle => some (.call i o)
    | _ => none
  | .step i _ =>
    match s.pcs i with
    | .done r => some (.ret i r)
    | _ => none

/-- A datum is moved out of its node once only. -/
def Careful (s : system ι V) : action ι V → Prop
  | .call _ _ => True
  | .step i _ =>
    match s.pcs i with
    | .move _ next => s.moved next = false
    | _ => True

instance (s : system ι V) (a : action ι V) : Decidable (Careful s a) := by
  unfold Careful
  split
  · infer_instance
  · split <;> infer_instance

@[simp] theorem goto_pcs (s : system ι V) (i j : ι) (p : pc V) :
    (s.goto i p).pcs j = if j = i then p else s.pcs j := by
  unfold system.goto
  exact Function.update_apply s.pcs i p j

/-! ## What a party knows -/

/-- The head is here or was here. -/
def WasHead (s : system ι V) (head : ℕ) : Prop := Leads s.next 0 head ∧ Leads s.next head s.m_head

/-- What a party has learnt about the nodes it holds. Links and places that are left behind stay, so it stays true. -/
def Knows (s : system ι V) : pc V → Prop
  | .load_next _ tail | .link _ tail => Leads s.next 0 tail
  | .swing n tail => s.next tail = some n
  | .help _ tail next => Leads s.next 0 tail ∧ s.next tail = some next
  | .load_head_tail data head => WasHead s head ∧ (data.isSome → ∃ x, s.next head = some x)
  | .load_head_next data head tail =>
    WasHead s head ∧ Leads s.next head tail ∧ Leads s.next tail s.m_tail ∧
      (data.isSome → ∃ x, s.next head = some x)
  | .recheck data head tail next =>
    WasHead s head ∧ (∀ x, next = some x → s.next head = some x) ∧
      (head ≠ tail → ∃ x, next = some x ∧ Leads s.next x s.m_tail) ∧
      (data.isSome → ∃ x, next = some x)
  | .help_tail _ tail next => s.next tail = some next
  | .move head next => WasHead s head ∧ s.next head = some next ∧ Leads s.next next s.m_tail
  | .pop _ head next => s.next head = some next ∧ Leads s.next next s.m_tail
  | .undefined => False
  | _ => True

/-- The new node that the party has not yet linked -/
def pc.own : pc V → Option ℕ
  | .load_tail n | .load_next n _ | .link n _ | .help n _ _ => some n
  | _ => none

def pc.popping : pc V → Bool
  | .pop _ _ _ => true
  | _ => false

/-- The party has a datum from a turn of `dequeue` that failed. -/
def pc.stale : pc V → Bool
  | .load_head data | .load_head_tail data _ | .load_head_next data _ _ | .recheck data _ _ _ | .help_tail data _ _ =>
    data.isSome
  | _ => false

/-- Who is about to take a node out of the queue has its datum. -/
def Moves (s : system ι V) : pc V → Prop
  | .pop data head next => s.m_head = head ∧ s.moved next = true ∧ data = s.value next
  | _ => True

/-- A new node that nothing is linked to -/
structure Unlinked (s : system ι V) (n : ℕ) : Prop where
  ne : n ≠ 0
  made : n < s.fresh
  next : s.next n = none
  not_next : ∀ a, s.next a ≠ some n

/-- The first datum was moved out, and nobody is about to take its node out of the queue. -/
structure Stuck (s : system ι V) : Prop where
  moved : ∃ x, s.next s.m_head = some x ∧ s.moved x = true
  nobody : ∀ i, (s.pcs i).popping = false

structure Inv (s : system ι V) : Prop where
  head : Leads s.next 0 s.m_head
  tail : Leads s.next s.m_head s.m_tail
  path : ∃ l, Path s.next s.m_head l
  pos : 0 < s.fresh
  fresh : ∀ a, s.fresh ≤ a → s.next a = none ∧ ∀ b, s.next b ≠ some a
  unmoved : ∀ a, s.moved a = false → s.data a = s.value a
  taken : ∀ a b, Leads s.next 0 a → s.next a = some b → Leads s.next b s.m_head → s.moved b = true
  knows : ∀ i, Knows s (s.pcs i)
  own : ∀ i n, (s.pcs i).own = some n → Unlinked s n
  own_one : ∀ i j n, (s.pcs i).own = some n → (s.pcs j).own = some n → i = j
  mover : ∀ i, Moves s (s.pcs i)
  one_mover : ∀ i j, (s.pcs i).popping = true → (s.pcs j).popping = true → i = j
  stale : ∀ i, (s.pcs i).stale = true → Stuck s

omit [DecidableEq ι] in
theorem Knows.mono {s s' : system ι V} {p : pc V} (h : Knows s p) (hext : Extends s.next s'.next)
    (hhead : Leads s'.next s.m_head s'.m_head) (htail : Leads s'.next s.m_tail s'.m_tail) : Knows s' p := by
  have hwas : ∀ head, WasHead s head → WasHead s' head := fun head hw => ⟨hw.1.mono hext, (hw.2.mono hext).trans hhead⟩
  cases p with
  | load_next n tail => exact Leads.mono h hext
  | link n tail => exact Leads.mono h hext
  | swing n tail => exact hext _ _ h
  | help n tail next => exact ⟨h.1.mono hext, hext _ _ h.2⟩
  | load_head_tail data head => exact ⟨hwas head h.1, fun hd => (h.2 hd).imp fun x hx => hext _ _ hx⟩
  | load_head_next data head tail =>
    obtain ⟨hh, ht, hm, hd⟩ := h
    exact ⟨hwas head hh, ht.mono hext, (hm.mono hext).trans htail, fun hs => (hd hs).imp fun x hx => hext _ _ hx⟩
  | recheck data head tail next =>
    obtain ⟨hh, hn, ht, hd⟩ := h
    exact ⟨hwas head hh, fun x hx => hext _ _ (hn x hx),
      fun hne => (ht hne).imp fun x hx => ⟨hx.1, (hx.2.mono hext).trans htail⟩, hd⟩
  | help_tail data tail next => exact hext _ _ h
  | move head next => exact ⟨hwas head h.1, hext _ _ h.2.1, (h.2.2.mono hext).trans htail⟩
  | pop data head next => exact ⟨hext _ _ h.1, (h.2.mono hext).trans htail⟩
  | undefined => exact h
  | _ => trivial

omit [DecidableEq ι] in
theorem Moves.mono {s s' : system ι V} {p : pc V} (h : Moves s p) (hknows : Knows s p) (hhead : s'.m_head = s.m_head)
    (hmoved : ∀ a, s.moved a = true → s'.moved a = true)
    (hvalue : ∀ a b, s.next b = some a → s'.value a = s.value a) : Moves s' p := by
  cases p with
  | pop data head next => exact ⟨hhead.trans h.1, hmoved next h.2.1, h.2.2.trans (hvalue next head hknows.1).symm⟩
  | _ => trivial

omit [DecidableEq ι] in
theorem inv_init [Inhabited V] : Inv (init : system ι V) where
  head := .refl 0
  tail := .refl 0
  path := ⟨[], rfl⟩
  pos := Nat.one_pos
  fresh _ _ := ⟨rfl, fun _ h => by cases h⟩
  unmoved _ _ := rfl
  taken _ _ _ h _ := by cases h
  knows _ := trivial
  own _ _ h := by cases h
  own_one _ _ _ h _ := by cases h
  mover _ := trivial
  one_mover _ _ h _ := by cases h
  stale _ h := by cases h

/-! ## Steps -/

variable {s : system ι V} {i : ι}

omit [DecidableEq ι] in
theorem Inv.linked (h : Inv s) : Leads s.next 0 s.m_tail := h.head.trans h.tail

theorem one_of_update {pcs : ι → pc V} {Q : pc V → Prop} (h : ∀ j k, Q (pcs j) → Q (pcs k) → j = k) (i : ι) (p : pc V)
    (hp : Q p → ∀ j, j ≠ i → ¬ Q (pcs j)) (j k : ι) (hj : Q (Function.update pcs i p j))
    (hk : Q (Function.update pcs i p k)) : j = k := by
  by_cases hji : j = i
  · by_cases hki : k = i
    · exact hji.trans hki.symm
    · rw [hji, Function.update_self] at hj
      rw [Function.update_of_ne hki] at hk
      exact absurd hk (hp hj k hki)
  · rw [Function.update_of_ne hji] at hj
    by_cases hki : k = i
    · rw [hki, Function.update_self] at hk
      exact absurd hj (hp hk j hji)
    · rw [Function.update_of_ne hki] at hk
      exact h j k hj hk

theorem forall_goto {P : pc V → Prop} {p : pc V} (hp : P p) (h : ∀ j, j ≠ i → P (s.pcs j)) (j : ι) :
    P ((s.goto i p).pcs j) :=
  (Function.forall_update_iff s.pcs fun _ => P).mpr ⟨hp, h⟩ j

theorem Stuck.keep (hs : Stuck s) {s' : system ι V} {p : pc V} (hpcs : s'.pcs = Function.update s.pcs i p)
    (hpop : p.popping = false) (hfirst : ∀ x, s.next s.m_head = some x → s'.next s'.m_head = some x)
    (hmoved : s'.moved = s.moved) : Stuck s' where
  moved := by
    obtain ⟨x, hx, hm⟩ := hs.moved
    exact ⟨x, hfirst x hx, by rw [hmoved]; exact hm⟩
  nobody := by
    rw [hpcs]
    exact forall_goto (P := fun x => x.popping = false) hpop fun j _ => hs.nobody j

/-! ### The nodes that are not yet linked -/

/-- Nothing leads to an address that `new` has not given yet, nor to a new node, and a new node has one holder. -/
structure Nodes (s : system ι V) : Prop where
  pos : 0 < s.fresh
  fresh : ∀ a, s.fresh ≤ a → s.next a = none ∧ ∀ b, s.next b ≠ some a
  own : ∀ i n, (s.pcs i).own = some n → Unlinked s n
  own_one : ∀ i j n, (s.pcs i).own = some n → (s.pcs j).own = some n → i = j

omit [DecidableEq ι] in
theorem Inv.nodes (h : Inv s) : Nodes s := ⟨h.pos, h.fresh, h.own, h.own_one⟩

omit [DecidableEq ι] in
theorem Nodes.linked_lt (h : Nodes s) {a : ℕ} (ha : Leads s.next 0 a) : a < s.fresh := by
  rcases ha.last with rfl | ⟨c, -, hc⟩
  · exact h.pos
  · by_contra hge
    exact (h.fresh a (by omega)).2 c hc

omit [DecidableEq ι] in
theorem Unlinked.ne_linked {n a : ℕ} (hn : Unlinked s n) (ha : Leads s.next 0 a) : a ≠ n := by
  rintro rfl
  rcases ha.last with h0 | ⟨c, -, hc⟩
  · exact hn.ne h0
  · exact hn.not_next c hc

omit [DecidableEq ι] in
theorem Nodes.make_next (h : Nodes s) (v : V) : (s.make v).next = s.next := by
  show Function.update s.next s.fresh none = s.next
  rw [← (h.fresh s.fresh (le_refl _)).1, Function.update_eq_self]

omit [DecidableEq ι] in
theorem own_kept {p q : pc V} (hp : s.pcs i = p) (hsame : q.own = p.own) (n : ℕ) (hn : q.own = some n) :
    (s.pcs i).own = some n := by
  rw [hp, ← hsame]
  exact hn

theorem Nodes.go (h : Nodes s) {s' : system ι V} (p : pc V) (hnext : s'.next = s.next) (hfresh : s'.fresh = s.fresh)
    (hpcs : s'.pcs = Function.update s.pcs i p) (hown : ∀ n, p.own = some n → (s.pcs i).own = some n) : Nodes s' := by
  have hsame : ∀ n, Unlinked s n → Unlinked s' n := fun n hn =>
    ⟨hn.ne, by rw [hfresh]; exact hn.made, by rw [hnext]; exact hn.next, by rw [hnext]; exact hn.not_next⟩
  constructor
  · rw [hfresh]
    exact h.pos
  · rw [hfresh, hnext]
    exact h.fresh
  · intro j n hj
    rw [hpcs] at hj
    refine forall_goto (s := s) (P := fun x => x.own = some n → Unlinked s' n) ?_ ?_ j hj
    · exact fun hn => hsame n (h.own i n (hown n hn))
    · exact fun j _ hn => hsame n (h.own j n hn)
  · intro j k n hj hk
    rw [hpcs] at hj hk
    refine one_of_update (Q := fun x => x.own = some n) (fun j k => h.own_one j k n) i p ?_ j k hj hk
    exact fun hp l hl hln => hl (h.own_one l i n hln (hown n hp))

theorem Nodes.make (h : Nodes s) (v : V) : Nodes ((s.make v).goto i (.load_tail s.fresh)) := by
  have hnext : ((s.make v).goto i (.load_tail s.fresh)).next = s.next := h.make_next v
  constructor
  · exact Nat.succ_pos _
  · intro a ha
    rw [hnext]
    exact h.fresh a (Nat.le_of_succ_le ha)
  · refine forall_goto (P := fun x => ∀ n, x.own = some n → Unlinked _ n) ?_ ?_
    · intro n hn
      obtain rfl : s.fresh = n := Option.some.inj hn
      obtain ⟨hnone, hnot⟩ := h.fresh s.fresh (le_refl _)
      exact ⟨Nat.pos_iff_ne_zero.mp h.pos, Nat.lt_succ_self _, by rw [hnext]; exact hnone, by rw [hnext]; exact hnot⟩
    · intro j _ n hn
      obtain ⟨hne, hmade, hnone, hnot⟩ := h.own j n hn
      exact ⟨hne, Nat.lt_succ_of_lt hmade, by rw [hnext]; exact hnone, by rw [hnext]; exact hnot⟩
  · intro j k n hj hk
    refine one_of_update (Q := fun x => x.own = some n) (fun j k => h.own_one j k n) i _ ?_ j k hj hk
    intro hn l _ hl
    have hmade := (h.own l n hl).made
    rw [← Option.some.inj hn] at hmade
    exact lt_irrefl _ hmade

theorem Nodes.link (h : Nodes s) (n tail : ℕ) (hown : (s.pcs i).own = some n) (hlinked : Leads s.next 0 tail) :
    Nodes ((s.set_next tail n).goto i (.swing n tail)) := by
  have hn : Unlinked s n := h.own i n hown
  constructor
  · exact h.pos
  · intro a ha
    obtain ⟨hnone, hnot⟩ := h.fresh a ha
    have htail : a ≠ tail := fun hat => absurd (h.linked_lt hlinked) (by rw [← hat]; exact not_lt.mpr ha)
    refine ⟨(Function.update_of_ne htail _ _).trans hnone, fun b hb => ?_⟩
    by_cases hbt : b = tail
    · have hna : n = a := by simpa [system.goto, system.set_next, hbt] using hb
      exact absurd hn.made (by rw [hna]; exact not_lt.mpr ha)
    · exact hnot b (by simpa [system.goto, system.set_next, hbt] using hb)
  · refine forall_goto (P := fun x => ∀ m, x.own = some m → Unlinked _ m) ?_ ?_
    · intro m hm
      cases hm
    · intro j hj m hm
      have hmu := h.own j m hm
      have hmn : m ≠ n := fun hmn => hj (h.own_one j i n (by rw [← hmn]; exact hm) hown)
      refine ⟨hmu.ne, hmu.made, ?_, fun a ha => ?_⟩
      · exact (Function.update_of_ne (hmu.ne_linked hlinked).symm _ _).trans hmu.next
      · by_cases hat : a = tail
        · have hnm : n = m := by simpa [system.goto, system.set_next, hat] using ha
          exact hmn hnm.symm
        · exact hmu.not_next a (by simpa [system.goto, system.set_next, hat] using ha)
  · intro j k m hj hk
    refine one_of_update (Q := fun x => x.own = some m) (fun j k => h.own_one j k m) i _ ?_ j k hj hk
    intro hm
    cases hm

/-! ### The invariant -/

theorem Inv.one_mover_goto (h : Inv s) (p : pc V) (hpop : p.popping = false) (j k : ι)
    (hj : ((s.goto i p).pcs j).popping = true) (hk : ((s.goto i p).pcs k).popping = true) : j = k := by
  refine one_of_update (Q := fun x => x.popping = true) h.one_mover i p ?_ j k hj hk
  intro hp
  rw [hpop] at hp
  cases hp

omit [DecidableEq ι] in
theorem moves_of_not_popping (p : pc V) (hpop : p.popping = false) : Moves s p := by
  cases p with
  | pop data head next => cases hpop
  | _ => trivial

theorem Inv.go (h : Inv s) (p : pc V) (t : ℕ) (ht : Leads s.next s.m_tail t) (hknows : Knows (s.set_tail t) p)
    (hown : ∀ n, p.own = some n → (s.pcs i).own = some n) (hpop : p.popping = false)
    (hstale : p.stale = true → (s.pcs i).stale = true ∨ Stuck (s.goto i p)) : Inv ((s.set_tail t).goto i p) where
  head := h.head
  tail := h.tail.trans ht
  path := h.path
  pos := h.pos
  fresh := h.fresh
  unmoved := h.unmoved
  taken := h.taken
  knows := by
    refine forall_goto (P := Knows (s.set_tail t)) hknows fun j _ => ?_
    exact (h.knows j).mono (fun _ _ hab => hab) (.refl _) ht
  own := (show Nodes ((s.set_tail t).goto i p) from h.nodes.go p rfl rfl rfl hown).own
  own_one := (show Nodes ((s.set_tail t).goto i p) from h.nodes.go p rfl rfl rfl hown).own_one
  mover := forall_goto (P := Moves (s.set_tail t)) (moves_of_not_popping p hpop) fun j _ => h.mover j
  one_mover := h.one_mover_goto p hpop
  stale := by
    have hstuck : Stuck s → Stuck ((s.set_tail t).goto i p) := fun hs => hs.keep rfl hpop (fun _ hx => hx) rfl
    refine forall_goto (P := fun x => x.stale = true → Stuck _) ?_ fun j _ hj => hstuck (h.stale j hj)
    intro hp
    rcases hstale hp with hold | hnew
    · exact hstuck (h.stale i hold)
    · exact ⟨hnew.moved, hnew.nobody⟩

theorem Inv.go_on (h : Inv s) (p : pc V) (hknows : Knows s p) (hown : ∀ n, p.own = some n → (s.pcs i).own = some n)
    (hpop : p.popping = false) (hstale : p.stale = true → (s.pcs i).stale = true ∨ Stuck (s.goto i p)) :
    Inv (s.goto i p) :=
  h.go p s.m_tail (.refl _) hknows hown hpop hstale

theorem Inv.make (h : Inv s) (v : V) : Inv ((s.make v).goto i (.load_tail s.fresh)) := by
  have hnext := h.nodes.make_next v
  have hnodes := h.nodes.make (i := i) v
  constructor
  · show Leads (s.make v).next 0 s.m_head
    rw [hnext]
    exact h.head
  · show Leads (s.make v).next s.m_head s.m_tail
    rw [hnext]
    exact h.tail
  · show ∃ l, Path (s.make v).next s.m_head l
    rw [hnext]
    exact h.path
  · exact hnodes.pos
  · exact hnodes.fresh
  · intro a ha
    show Function.update s.data s.fresh v a = Function.update s.value s.fresh v a
    by_cases hafresh : a = s.fresh
    · simp [hafresh]
    · simpa [Function.update_of_ne hafresh] using h.unmoved a ha
  · show ∀ a b, Leads (s.make v).next 0 a → (s.make v).next a = some b →
      Leads (s.make v).next b s.m_head → s.moved b = true
    rw [hnext]
    exact h.taken
  · refine forall_goto (P := Knows (s.make v)) trivial fun j _ => ?_
    refine (h.knows j).mono ?_ (.refl _) (.refl _)
    rw [hnext]
    exact fun _ _ hab => hab
  · exact hnodes.own
  · exact hnodes.own_one
  · refine forall_goto (P := Moves (s.make v)) trivial fun j _ => ?_
    refine (h.mover j).mono (h.knows j) rfl (fun _ ha => ha) ?_
    rintro a b hab
    have hne : a ≠ s.fresh := by
      rintro rfl
      exact (h.fresh s.fresh (le_refl _)).2 b hab
    exact Function.update_of_ne hne _ _
  · exact h.one_mover_goto _ rfl
  · refine forall_goto (P := fun x => x.stale = true → Stuck _) ?_ ?_
    · intro hp
      cases hp
    · intro j _ hj
      exact (h.stale j hj).keep rfl rfl (fun x hx => (congrFun hnext s.m_head).trans hx) rfl

omit [DecidableEq ι] in
theorem Inv.ahead (h : Inv s) {tail : ℕ} (hlinked : Leads s.next 0 tail) (hend : s.next tail = none) :
    Leads s.next s.m_head tail := by
  rcases h.head.total hlinked with hahead | hback
  · exact hahead
  · rw [hback.of_end hend]
    exact .refl _

theorem Inv.link (h : Inv s) (n tail : ℕ) (hown : (s.pcs i).own = some n) (hlinked : Leads s.next 0 tail)
    (hend : s.next tail = none) : Inv ((s.set_next tail n).goto i (.swing n tail)) := by
  have hn : Unlinked s n := h.own i n hown
  have hext : Extends s.next (s.set_next tail n).next := extends_link tail n hend
  have hnodes := h.nodes.link n tail hown hlinked
  obtain ⟨l, hl⟩ := h.path
  constructor
  · exact h.head.mono hext
  · exact h.tail.mono hext
  · exact ⟨l ++ [n], path_link s.m_head tail n l hl (h.ahead hlinked hend) hend hn.next (hn.ne_linked hlinked).symm⟩
  · exact hnodes.pos
  · exact hnodes.fresh
  · exact h.unmoved
  · intro a b ha hab hb
    have hhead : s.m_head ≠ n := hn.ne_linked h.head
    have hb' : Leads s.next b s.m_head := (hb.of_update hn.next).resolve_right hhead
    have hne : a ≠ tail := by
      rintro rfl
      have hbn : n = b := by simpa [system.goto, system.set_next] using hab
      rw [← hbn] at hb'
      exact hhead (hb'.of_end hn.next)
    have hab' : s.next a = some b := by simpa [system.goto, system.set_next, hne] using hab
    rcases ha.of_update hn.next with ha' | rfl
    · exact h.taken a b ha' hab' hb'
    · rw [hn.next] at hab'
      cases hab'
  · refine forall_goto (P := Knows (s.set_next tail n)) (Function.update_self _ _ _) fun j _ => ?_
    exact (h.knows j).mono hext (.refl _) (.refl _)
  · exact hnodes.own
  · exact hnodes.own_one
  · refine forall_goto (P := Moves (s.set_next tail n)) trivial fun j _ => ?_
    exact (h.mover j).mono (h.knows j) rfl (fun _ ha => ha) fun _ _ _ => rfl
  · exact h.one_mover_goto _ rfl
  · refine forall_goto (P := fun x => x.stale = true → Stuck _) ?_ ?_
    · intro hp
      cases hp
    · intro j _ hj
      exact (h.stale j hj).keep rfl rfl (fun x hx => hext _ _ hx) rfl

omit [DecidableEq ι] in
theorem Inv.unmoved_first (h : Inv s) {head next : ℕ} (hwas : WasHead s head) (hnext : s.next head = some next)
    (hmoved : s.moved next = false) : s.m_head = head := by
  by_contra hne
  have := h.taken head next hwas.1 hnext (hwas.2.of_next (Ne.symm hne) hnext)
  rw [hmoved] at this
  cases this

theorem Inv.move_out (h : Inv s) (moved_from : V → V) (head next : ℕ) (hknows : Knows s (.move head next))
    (hmoved : s.moved next = false) :
    Inv ((s.move_out moved_from next).goto i (.pop (s.data next) head next)) := by
  have hnodes : Nodes ((s.move_out moved_from next).goto i (.pop (s.data next) head next)) :=
    h.nodes.go _ rfl rfl rfl fun n hn => by cases hn
  obtain ⟨hwas, hnext, htail⟩ := hknows
  have hfirst : s.m_head = head := h.unmoved_first hwas hnext hmoved
  have hkeep : ∀ a, s.moved a = true → (s.move_out moved_from next).moved a = true := by
    intro a ha
    by_cases hax : a = next
    · simp [system.move_out, hax]
    · simpa [system.move_out, hax] using ha
  have hstuck : ¬ Stuck s := by
    rintro ⟨⟨x, hx, hxm⟩, -⟩
    rw [hfirst, hnext] at hx
    rw [← Option.some.inj hx, hmoved] at hxm
    cases hxm
  have hnobody : ∀ j, (s.pcs j).popping = false := by
    intro j
    have hmover := h.mover j
    have hlink := h.knows j
    cases hpc : s.pcs j with
    | pop data head' next' =>
      rw [hpc] at hmover hlink
      obtain ⟨hhead, hm, -⟩ := hmover
      have hnext' := hlink.1
      rw [← hhead, hfirst, hnext] at hnext'
      rw [← Option.some.inj hnext', hmoved] at hm
      cases hm
    | _ => rfl
  constructor
  · exact h.head
  · exact h.tail
  · exact h.path
  · exact h.pos
  · exact h.fresh
  · intro a ha
    have hax : a ≠ next := by
      rintro rfl
      simp [system.goto, system.move_out] at ha
    have := h.unmoved a (by simpa [system.goto, system.move_out, hax] using ha)
    simpa [system.goto, system.move_out, hax] using this
  · exact fun a b ha hab hb => hkeep b (h.taken a b ha hab hb)
  · refine forall_goto (P := Knows (s.move_out moved_from next)) ⟨hnext, htail⟩ fun j _ => ?_
    exact (h.knows j).mono (fun _ _ hab => hab) (.refl _) (.refl _)
  · exact hnodes.own
  · exact hnodes.own_one
  · refine forall_goto (P := Moves (s.move_out moved_from next)) ?_ fun j _ => ?_
    · exact ⟨hfirst, by simp [system.move_out], h.unmoved next hmoved⟩
    · exact (h.mover j).mono (h.knows j) rfl hkeep fun _ _ _ => rfl
  · refine one_of_update (Q := fun x => x.popping = true) h.one_mover i _ fun _ j _ hj => ?_
    rw [hnobody j] at hj
    cases hj
  · refine forall_goto (P := fun x => x.stale = true → Stuck _) ?_ fun j _ hj => absurd (h.stale j hj) hstuck
    intro hp
    cases hp

theorem Inv.pop (h : Inv s) (data : V) (next : ℕ) (hi : s.pcs i = .pop data s.m_head next) (r : Fifo.Answer V) :
    Inv ((s.set_head next).goto i (.done r)) := by
  have hknows := h.knows i
  have hmover := h.mover i
  rw [hi] at hknows hmover
  obtain ⟨hnext, htail⟩ := hknows
  have hnodes : Nodes ((s.set_head next).goto i (.done r)) := h.nodes.go _ rfl rfl rfl fun n hn => by cases hn
  have hpop : (s.pcs i).popping = true := by rw [hi]; rfl
  have hothers : ∀ j, j ≠ i → (s.pcs j).popping = false := by
    intro j hj
    by_contra hjp
    exact hj (h.one_mover j i (by simpa using hjp) hpop)
  obtain ⟨l, hl⟩ := h.path
  have hpath : ∃ l, Path s.next next l := by
    cases l with
    | nil =>
      rw [show s.next s.m_head = none from hl] at hnext
      cases hnext
    | cons x l =>
      obtain rfl : x = next := Option.some.inj (hl.1.symm.trans hnext)
      exact ⟨l, hl.2⟩
  constructor
  · exact h.head.link hnext
  · exact htail
  · exact hpath
  · exact h.pos
  · exact h.fresh
  · exact h.unmoved
  · intro a b ha hab hb
    -- `b` is behind the old head, where all is moved, or it is the new head.
    rcases (ha.link hab).total h.head with hold | hnew
    · exact h.taken a b ha hab hold
    · by_cases hbh : s.m_head = b
      · exact h.taken a b ha hab (by rw [hbh]; exact .refl _)
      · obtain ⟨l', hl'⟩ := hpath
        rw [← Leads.antisymm hl' (hnew.of_next hbh hnext) hb]
        exact hmover.2.1
  · refine forall_goto (P := Knows (s.set_head next)) trivial fun j _ => ?_
    exact (h.knows j).mono (fun _ _ hab => hab) (.of_link hnext) (.refl _)
  · exact hnodes.own
  · exact hnodes.own_one
  · exact forall_goto (P := Moves (s.set_head next)) trivial fun j hj => moves_of_not_popping _ (hothers j hj)
  · exact h.one_mover_goto _ rfl
  · refine forall_goto (P := fun x => x.stale = true → Stuck _) ?_ fun j _ hj => ?_
    · intro hp
      cases hp
    · have := (h.stale j hj).nobody i
      rw [hpop] at this
      cases this

/-! ## Every step -/

theorem inv_call (h : Inv s) (o : Fifo.Op V) : Inv (s.goto i (enter (s.pcs i) o)) := by
  cases hpc : s.pcs i with
  | idle =>
    refine h.go_on _ ?_ ?_ ?_ ?_
    · cases o <;> trivial
    · intro n hn
      cases o <;> cases hn
    · cases o <;> rfl
    · intro hp
      cases o <;> cases hp
  | _ =>
    have hsame : s.goto i (s.pcs i) = s := by simp [system.goto]
    rw [hpc] at hsame
    exact (congrArg Inv hsame).mpr h

omit [DecidableEq ι] in
theorem Inv.stale_next (h : Inv s) {data : Option V} (hpc : s.pcs i = .load_head data) (hd : data.isSome) :
    ∃ x, s.next s.m_head = some x := by
  have hstale : (s.pcs i).stale = true := by rw [hpc]; exact hd
  exact (h.stale i hstale).moved.imp fun x hx => hx.1

theorem inv_recheck (h : Inv s) (data : Option V) (head tail : ℕ) (next : Option ℕ)
    (hpc : s.pcs i = .recheck data head tail next) (moved_from : V → V) (spurious : Bool) :
    Inv (advance moved_from s i spurious (.recheck data head tail next)) := by
  have hknows := h.knows i
  rw [hpc] at hknows
  obtain ⟨hwas, hnext, htail, hd⟩ := hknows
  have hkeep : ∀ p : pc V, p.stale = data.isSome → p.stale = true → (s.pcs i).stale = true ∨ Stuck (s.goto i p) := by
    intro p hsame hp
    rw [hsame] at hp
    exact .inl (by rw [hpc]; exact hp)
  unfold advance
  dsimp only
  split
  · exact h.go_on _ trivial (fun n hn => by cases hn) rfl (hkeep _ rfl)
  · split
    · cases next with
      | none => exact h.go_on _ trivial (fun n hn => by cases hn) rfl (fun hp => by cases hp)
      | some x =>
        rename_i hht
        exact h.go_on _ (by rw [← hht]; exact hnext x rfl) (fun n hn => by cases hn) rfl (hkeep _ rfl)
    · rename_i hht
      obtain ⟨x, rfl, hx⟩ := htail hht
      exact h.go_on (.move head x) ⟨hwas, hnext x rfl, hx⟩ (fun n hn => by cases hn) rfl (fun hp => by cases hp)

theorem inv_pop (h : Inv s) (data : V) (head next : ℕ) (hpc : s.pcs i = .pop data head next) (moved_from : V → V)
    (spurious : Bool) : Inv (advance moved_from s i spurious (.pop data head next)) := by
  have hknows := h.knows i
  have hmover := h.mover i
  rw [hpc] at hknows hmover
  obtain ⟨hhead, hmoved, -⟩ := hmover
  rw [advance]
  split
  · exact h.pop data next (by rw [hhead]; exact hpc) _
  · -- The exchange failed spuriously: the datum stays with the party, and the queue is stuck.
    refine h.go_on _ trivial (fun n hn => by cases hn) rfl fun _ => .inr ?_
    refine ⟨⟨next, by rw [show (s.goto i _).m_head = s.m_head from rfl, hhead]; exact hknows.1, hmoved⟩, ?_⟩
    refine forall_goto (P := fun x => x.popping = false) rfl fun j hj => ?_
    by_contra hjp
    exact hj (h.one_mover j i (by simpa using hjp) (by rw [hpc]; rfl))

theorem inv_step (moved_from : V → V) (s : system ι V) (a : action ι V) (h : Inv s) (hc : Careful s a) :
    Inv (step moved_from s a) := by
  cases a with
  | call i o => exact inv_call h o
  | step i spurious =>
    unfold Careful at hc
    show Inv (advance moved_from s i spurious (s.pcs i))
    have hknows := h.knows i
    have hold : ∀ {p : pc V} {q : pc V}, s.pcs i = p → q.stale = p.stale → q.stale = true →
        (s.pcs i).stale = true ∨ Stuck (s.goto i q) := by
      intro p q hp hsame hq
      exact .inl (by rw [hp, ← hsame]; exact hq)
    cases hpc : s.pcs i with
    | idle => exact h
    | undefined => exact h
    | new_node v => exact h.make v
    | load_tail n => exact h.go_on _ h.linked (own_kept hpc rfl) rfl (fun hp => by cases hp)
    | load_next n tail =>
      rw [hpc] at hknows
      rw [advance]
      cases hnext : s.next tail with
      | none => exact h.go_on _ hknows (own_kept hpc rfl) rfl (fun hp => by cases hp)
      | some x => exact h.go_on _ ⟨hknows, hnext⟩ (own_kept hpc rfl) rfl (fun hp => by cases hp)
    | link n tail =>
      rw [hpc] at hknows
      rw [advance]
      split
      · rename_i hok
        exact h.link n tail (by rw [hpc]; rfl) hknows hok.1
      · exact h.go_on _ hknows (own_kept hpc rfl) rfl (fun hp => by cases hp)
    | swing n tail =>
      rw [hpc] at hknows
      rw [advance]
      split
      · rename_i hok
        exact h.go _ n (by rw [hok]; exact .of_link hknows) trivial (fun n hn => by cases hn) rfl
          (fun hp => by cases hp)
      · exact h.go_on _ trivial (fun n hn => by cases hn) rfl (fun hp => by cases hp)
    | help n tail next =>
      rw [hpc] at hknows
      rw [advance]
      split
      · rename_i hok
        exact h.go (.load_next n tail) next (by rw [hok]; exact .of_link hknows.2) hknows.1 (own_kept hpc rfl) rfl
          (fun hp => by cases hp)
      · exact h.go_on _ h.linked (own_kept hpc rfl) rfl (fun hp => by cases hp)
    | load_head data =>
      exact h.go_on _ ⟨⟨h.head, .refl _⟩, h.stale_next hpc⟩ (fun n hn => by cases hn) rfl (hold hpc rfl)
    | load_head_tail data head =>
      rw [hpc] at hknows
      exact h.go_on _ ⟨hknows.1, hknows.1.2.trans h.tail, .refl _, hknows.2⟩ (fun n hn => by cases hn) rfl
        (hold hpc rfl)
    | load_head_next data head tail =>
      rw [hpc] at hknows
      obtain ⟨hwas, ht, hm, hd⟩ := hknows
      refine h.go_on _ ⟨hwas, fun x hx => hx, fun hne => ?_, hd⟩ (fun n hn => by cases hn) rfl (hold hpc rfl)
      cases hnext : s.next head with
      | none => exact absurd (ht.of_end hnext).symm hne
      | some x => exact ⟨x, rfl, (ht.of_next hne hnext).trans hm⟩
    | recheck data head tail next => exact inv_recheck h data head tail next hpc moved_from spurious
    | help_tail data tail next =>
      rw [hpc] at hknows
      rw [advance]
      split
      · rename_i hok
        exact h.go _ next (by rw [hok.1]; exact .of_link hknows) trivial (fun n hn => by cases hn) rfl (hold hpc rfl)
      · exact h.go_on _ trivial (fun n hn => by cases hn) rfl (hold hpc rfl)
    | move head next =>
      rw [hpc] at hknows
      simp only [hpc] at hc
      exact h.move_out moved_from head next hknows hc
    | pop data head next => exact inv_pop h data head next hpc moved_from spurious
    | done r => exact h.go_on _ trivial (fun n hn => by cases hn) rfl (fun hp => by cases hp)

/-! ## The queue that the nodes stand for -/

/-- Whether a party that has found no node behind the head has its answer is settled later, when it looks at the head
again. -/
def stageOf (value : ℕ → V) (settled : Bool) : pc V → Stage (Fifo.Op V) (Fifo.Answer V)
  | .idle => .idle
  | .new_node v => .asked (.enqueue v)
  | .load_tail n | .load_next n _ | .link n _ | .help n _ _ => .asked (.enqueue (value n))
  | .swing _ _ => .answered .stored
  | .recheck _ _ _ none => if settled then .answered (.got none) else .asked .dequeue
  | .done r => .answered r
  | _ => .asked .dequeue

def stages (s : system ι V) (settled : ι → Bool) (i : ι) : Stage (Fifo.Op V) (Fifo.Answer V) :=
  stageOf s.value (settled i) (s.pcs i)

def Stands (s : system ι V) (a : Atomic ι (List V) (Fifo.Op V) (Fifo.Answer V)) : Prop :=
  ∃ l settled, Path s.next s.m_head l ∧ a = ⟨l.map s.value, stages s settled⟩

/-- What the steps that change neither the links nor the head nor the values leave as it is -/
structure SameQueue (s s' : system ι V) : Prop where
  next : s'.next = s.next
  m_head : s'.m_head = s.m_head
  value : s'.value = s.value
  pcs : s'.pcs = s.pcs

theorem stages_goto {s' : system ι V} (hvalue : s'.value = s.value) (hpcs : s'.pcs = s.pcs) (p : pc V)
    (settled : ι → Bool) (b : Bool) :
    stages (s'.goto i p) settled =
      Function.update (stages s (Function.update settled i b)) i (stageOf s.value (settled i) p) := by
  funext j
  unfold stages
  rw [goto_pcs, show (s'.goto i p).value = s'.value from rfl, hvalue, hpcs]
  by_cases hj : j = i
  · rw [hj, if_pos rfl, Function.update_self]
  · rw [if_neg hj, Function.update_of_ne hj, Function.update_of_ne hj]

theorem back_silent {s' : system ι V} (hs : SameQueue s s') (p : pc V)
    (hstage : ∀ c, ∃ b, stageOf s.value c p = stageOf s.value b (s.pcs i))
    (a' : Atomic ι (List V) (Fifo.Op V) (Fifo.Answer V)) (ha' : Stands (s'.goto i p) a') :
    ∃ a, Stands s a ∧ Atomic.Follows Fifo.queue a none a' := by
  obtain ⟨l, settled, hl, rfl⟩ := ha'
  obtain ⟨b, hb⟩ := hstage (settled i)
  refine ⟨_, ⟨l, Function.update settled i b, ?_, rfl⟩, .inl ⟨rfl, ?_⟩⟩
  · rw [← hs.next, ← hs.m_head]
    exact hl
  · have hself : stageOf s.value b (s.pcs i) = stages s (Function.update settled i b) i := by
      unfold stages
      rw [Function.update_self]
    rw [stages_goto hs.value hs.pcs p settled b, hb, hself, Function.update_eq_self]
    rw [show (s'.goto i p).value = s'.value from rfl, hs.value]

omit [DecidableEq ι] in
theorem same_queue (s : system ι V) : SameQueue s s := ⟨rfl, rfl, rfl, rfl⟩

omit [DecidableEq ι] in
theorem same_set_tail (s : system ι V) (t : ℕ) : SameQueue s (s.set_tail t) := ⟨rfl, rfl, rfl, rfl⟩

theorem back_commit {s' : system ι V} (hvalue : s'.value = s.value) (hpcs : s'.pcs = s.pcs) (p : pc V)
    (o : Fifo.Op V) (l l' : List ℕ) (settled : ι → Bool) (hl : Path s.next s.m_head l)
    (hasked : ∀ b, stageOf s.value b (s.pcs i) = .asked o)
    (hobj : l'.map s.value = (Fifo.queue.apply (l.map s.value) o).1)
    (hanswer : stageOf s.value (settled i) p = .answered (Fifo.queue.apply (l.map s.value) o).2) :
    ∃ a, Stands s a ∧
      Atomic.Follows Fifo.queue a none ⟨l'.map (s'.goto i p).value, stages (s'.goto i p) settled⟩ := by
  refine ⟨_, ⟨l, Function.update settled i false, hl, rfl⟩, .inr ?_⟩
  rw [stages_goto hvalue hpcs p settled false, hanswer, show (s'.goto i p).value = s'.value from rfl, hvalue, hobj]
  exact .commit i o (hasked _)

theorem back_call (o : Fifo.Op V) (a' : Atomic ι (List V) (Fifo.Op V) (Fifo.Answer V))
    (ha' : Stands (s.goto i (enter (s.pcs i) o)) a') :
    ∃ a, Stands s a ∧ Atomic.Follows Fifo.queue a (see s (.call i o)) a' := by
  cases hpc : s.pcs i with
  | idle =>
    rw [hpc] at ha'
    obtain ⟨l, settled, hl, rfl⟩ := ha'
    refine ⟨_, ⟨l, Function.update settled i false, hl, rfl⟩, .inr ?_⟩
    have hasked : stageOf s.value (settled i) (enter .idle o) = .asked o := by cases o <;> rfl
    simp only [see, hpc]
    rw [stages_goto rfl rfl _ settled false, hasked]
    refine .call i o ?_
    show stageOf s.value _ (s.pcs i) = .idle
    rw [hpc]
    rfl
  | _ =>
    refine ⟨a', ?_, .inl ⟨by simp only [see, hpc], rfl⟩⟩
    rw [hpc] at ha'
    have hsame : s.goto i (s.pcs i) = s := by simp [system.goto]
    rw [hpc] at hsame
    exact (congrArg (Stands · a') hsame).mp ha'

theorem back_return (r : Fifo.Answer V) (hpc : s.pcs i = .done r)
    (a' : Atomic ι (List V) (Fifo.Op V) (Fifo.Answer V)) (ha' : Stands (s.goto i .idle) a') :
    ∃ a, Stands s a ∧ Atomic.Follows Fifo.queue a (some (.ret i r)) a' := by
  obtain ⟨l, settled, hl, rfl⟩ := ha'
  refine ⟨_, ⟨l, Function.update settled i false, hl, rfl⟩, .inr ?_⟩
  rw [stages_goto rfl rfl _ settled false]
  refine .ret i r ?_
  show stageOf s.value _ (s.pcs i) = .answered r
  rw [hpc]
  rfl

theorem stageOf_congr {value value' : ℕ → V} (c : Bool) (p : pc V)
    (h : ∀ n, p.own = some n → value' n = value n) : stageOf value' c p = stageOf value c p := by
  cases p with
  | load_tail n | load_next n tail | link n tail | help n tail next => simp only [stageOf, h n rfl]
  | recheck data head tail next => cases next <;> rfl
  | _ => rfl

theorem back_make (h : Inv s) (v : V) (hpc : s.pcs i = .new_node v)
    (a' : Atomic ι (List V) (Fifo.Op V) (Fifo.Answer V)) (ha' : Stands ((s.make v).goto i (.load_tail s.fresh)) a') :
    ∃ a, Stands s a ∧ Atomic.Follows Fifo.queue a none a' := by
  obtain ⟨l, settled, hl, rfl⟩ := ha'
  have hpath : Path s.next s.m_head l := by
    rw [← h.nodes.make_next v]
    exact hl
  have hold : ∀ n, n ≠ s.fresh → (s.make v).value n = s.value n := fun n hn => Function.update_of_ne hn _ _
  refine ⟨_, ⟨l, settled, hpath, rfl⟩, .inl ⟨rfl, ?_⟩⟩
  congr 1
  · refine List.map_congr_left fun n hn => hold n ?_
    rintro rfl
    obtain ⟨c, hc⟩ := hpath.linked hn
    exact (h.fresh s.fresh (le_refl _)).2 c hc
  · funext j
    unfold stages
    by_cases hj : j = i
    · rw [hj, goto_pcs, if_pos rfl, hpc]
      show Stage.asked (Fifo.Op.enqueue (Function.update s.value s.fresh v s.fresh)) = _
      rw [Function.update_self]
      rfl
    · rw [goto_pcs, if_neg hj]
      refine stageOf_congr _ _ fun n hn => hold n ?_
      exact (h.own j n hn).made.ne

theorem back_link (h : Inv s) (n tail : ℕ) (hpc : s.pcs i = .link n tail) (hend : s.next tail = none)
    (a' : Atomic ι (List V) (Fifo.Op V) (Fifo.Answer V))
    (ha' : Stands ((s.set_next tail n).goto i (.swing n tail)) a') :
    ∃ a, Stands s a ∧ Atomic.Follows Fifo.queue a none a' := by
  have hlinked := h.knows i
  rw [hpc] at hlinked
  have hn : Unlinked s n := h.own i n (by rw [hpc]; rfl)
  obtain ⟨l, hl⟩ := h.path
  obtain ⟨l', settled, hl', rfl⟩ := ha'
  obtain rfl : l' = l ++ [n] := path_unique hl' (path_link s.m_head tail n l hl (h.ahead hlinked hend) hend hn.next
    (hn.ne_linked hlinked).symm)
  refine back_commit rfl rfl (.swing n tail) (.enqueue (s.value n)) l (l ++ [n]) settled hl ?_ ?_ rfl
  · intro b
    rw [hpc]
    rfl
  · rw [List.map_append]
    rfl

theorem back_pop (h : Inv s) (data : V) (next : ℕ) (hpc : s.pcs i = .pop data s.m_head next)
    (a' : Atomic ι (List V) (Fifo.Op V) (Fifo.Answer V))
    (ha' : Stands ((s.set_head next).goto i (.done (.got (some data)))) a') :
    ∃ a, Stands s a ∧ Atomic.Follows Fifo.queue a none a' := by
  have hknows := h.knows i
  have hmover := h.mover i
  rw [hpc] at hknows hmover
  obtain ⟨l, settled, hl, rfl⟩ := ha'
  refine back_commit rfl rfl (.done (.got (some data))) .dequeue (next :: l) l settled ⟨hknows.1, hl⟩ ?_ rfl ?_
  · intro b
    rw [hpc]
    rfl
  · rw [hmover.2.2]
    rfl

theorem back_load_head_next (h : Inv s) (data : Option V) (head tail : ℕ)
    (hpc : s.pcs i = .load_head_next data head tail) (a' : Atomic ι (List V) (Fifo.Op V) (Fifo.Answer V))
    (ha' : Stands (s.goto i (.recheck data head tail (s.next head))) a') :
    ∃ a, Stands s a ∧ Atomic.Follows Fifo.queue a none a' := by
  have hknows := h.knows i
  rw [hpc] at hknows
  have hasked : ∀ b, stageOf s.value b (s.pcs i) = .asked .dequeue := by
    intro b
    rw [hpc]
    rfl
  cases hnext : s.next head with
  | some x =>
    rw [hnext] at ha'
    exact back_silent (same_queue s) _ (fun _ => ⟨false, by rw [hasked]; rfl⟩) a' ha'
  | none =>
    rw [hnext] at ha'
    have hempty : Path s.next s.m_head [] := by
      rw [hknows.1.2.of_end hnext]
      exact hnext
    obtain ⟨l, settled, hl, rfl⟩ := ha'
    obtain rfl : l = [] := path_unique hl hempty
    cases hb : settled i with
    | true =>
      refine back_commit rfl rfl (.recheck data head tail none) .dequeue [] [] settled hempty hasked rfl ?_
      rw [hb]
      rfl
    | false =>
      refine ⟨_, ⟨[], settled, hempty, rfl⟩, .inl ⟨rfl, ?_⟩⟩
      congr 1
      rw [stages_goto rfl rfl _ settled false, hb]
      have hself : stageOf s.value false (.recheck data head tail none) = stages s settled i := by
        unfold stages
        rw [hasked]
        rfl
      have hsame : Function.update settled i false = settled := by rw [← hb, Function.update_eq_self]
      rw [hself, hsame, Function.update_eq_self]

theorem back_recheck (h : Inv s) (data : Option V) (head tail : ℕ) (next : Option ℕ)
    (hpc : s.pcs i = .recheck data head tail next) (moved_from : V → V) (spurious : Bool)
    (a' : Atomic ι (List V) (Fifo.Op V) (Fifo.Answer V))
    (ha' : Stands (advance moved_from s i spurious (.recheck data head tail next)) a') :
    ∃ a, Stands s a ∧ Atomic.Follows Fifo.queue a none a' := by
  have hknows := h.knows i
  rw [hpc] at hknows
  obtain ⟨-, -, htail, hd⟩ := hknows
  have hasked : stageOf s.value false (s.pcs i) = .asked .dequeue := by
    rw [hpc]
    cases next <;> rfl
  unfold advance at ha'
  dsimp only at ha'
  split at ha'
  · exact back_silent (same_queue s) _ (fun _ => ⟨false, by rw [hasked]; rfl⟩) a' ha'
  · split at ha'
    · cases next with
      | none =>
        -- A datum of a turn before would have kept the queue from being empty.
        have hnone : data = none := by
          cases data with
          | none => rfl
          | some d =>
            obtain ⟨x, hx⟩ := hd rfl
            cases hx
        have hanswered : stageOf s.value true (s.pcs i) = .answered (.got none) := by
          rw [hpc]
          rfl
        exact back_silent (same_queue s) _ (fun _ => ⟨true, by rw [hanswered, hnone]; rfl⟩) a' ha'
      | some x => exact back_silent (same_queue s) _ (fun _ => ⟨false, by rw [hasked]; rfl⟩) a' ha'
    · rename_i hht
      obtain ⟨x, rfl, -⟩ := htail hht
      exact back_silent (same_queue s) _ (fun _ => ⟨false, by rw [hasked]; rfl⟩) a' ha'

theorem back_step (h : Inv s) (moved_from : V → V) (spurious : Bool)
    (a' : Atomic ι (List V) (Fifo.Op V) (Fifo.Answer V)) (ha' : Stands (advance moved_from s i spurious (s.pcs i)) a') :
    ∃ a, Stands s a ∧ Atomic.Follows Fifo.queue a (see s (.step i spurious)) a' := by
  have hsilent : ∀ {s' : system ι V}, SameQueue s s' → ∀ p,
      (∀ c, stageOf s.value c p = stageOf s.value false (s.pcs i)) →
      Stands (s'.goto i p) a' → ∃ a, Stands s a ∧ Atomic.Follows Fifo.queue a none a' :=
    fun hs p hp ha => back_silent hs p (fun c => ⟨false, hp c⟩) a' ha
  cases hpc : s.pcs i with
  | done r =>
    rw [hpc] at ha'
    simp only [see, hpc]
    exact back_return r hpc a' ha'
  | idle | undefined =>
    rw [hpc] at ha'
    simp only [see, hpc]
    exact ⟨a', ha', .inl ⟨rfl, rfl⟩⟩
  | new_node v =>
    rw [hpc] at ha'
    simp only [see, hpc]
    exact back_make h v hpc a' ha'
  | load_tail n =>
    rw [hpc] at ha'
    simp only [see, hpc]
    exact hsilent (same_queue s) _ (fun _ => by rw [hpc]; rfl) ha'
  | load_next n tail =>
    rw [hpc, advance] at ha'
    simp only [see, hpc]
    split at ha' <;> exact hsilent (same_queue s) _ (fun _ => by rw [hpc]; rfl) ha'
  | link n tail =>
    rw [hpc, advance] at ha'
    simp only [see, hpc]
    split at ha'
    · rename_i hok
      exact back_link h n tail hpc hok.1 a' ha'
    · exact hsilent (same_queue s) _ (fun _ => by rw [hpc]; rfl) ha'
  | swing n tail =>
    rw [hpc, advance] at ha'
    simp only [see, hpc]
    split at ha'
    · exact hsilent (same_set_tail s n) _ (fun _ => by rw [hpc]; rfl) ha'
    · exact hsilent (same_queue s) _ (fun _ => by rw [hpc]; rfl) ha'
  | help n tail next =>
    rw [hpc, advance] at ha'
    simp only [see, hpc]
    split at ha'
    · exact hsilent (same_set_tail s next) _ (fun _ => by rw [hpc]; rfl) ha'
    · exact hsilent (same_queue s) _ (fun _ => by rw [hpc]; rfl) ha'
  | load_head data =>
    rw [hpc] at ha'
    simp only [see, hpc]
    exact hsilent (same_queue s) _ (fun _ => by rw [hpc]; rfl) ha'
  | load_head_tail data head =>
    rw [hpc] at ha'
    simp only [see, hpc]
    exact hsilent (same_queue s) _ (fun _ => by rw [hpc]; rfl) ha'
  | load_head_next data head tail =>
    rw [hpc] at ha'
    simp only [see, hpc]
    exact back_load_head_next h data head tail hpc a' ha'
  | recheck data head tail next =>
    rw [hpc] at ha'
    simp only [see, hpc]
    exact back_recheck h data head tail next hpc moved_from spurious a' ha'
  | help_tail data tail next =>
    rw [hpc, advance] at ha'
    simp only [see, hpc]
    split at ha'
    · exact hsilent (same_set_tail s next) _ (fun _ => by rw [hpc]; rfl) ha'
    · exact hsilent (same_queue s) _ (fun _ => by rw [hpc]; rfl) ha'
  | move head next =>
    rw [hpc] at ha'
    simp only [see, hpc]
    have hsame : SameQueue s (s.move_out moved_from next) := ⟨rfl, rfl, rfl, rfl⟩
    exact hsilent hsame _ (fun _ => by rw [hpc]; rfl) ha'
  | pop data head next =>
    have hmover := h.mover i
    rw [hpc] at hmover
    obtain rfl : s.m_head = head := hmover.1
    rw [hpc, advance] at ha'
    simp only [see, hpc]
    split at ha'
    · exact back_pop h data next hpc a' ha'
    · exact hsilent (same_queue s) _ (fun _ => by rw [hpc]; rfl) ha'

/-! ## Linearizability -/

variable [Inhabited V]

theorem simulation (moved_from : V → V) :
    BackwardSimulation Fifo.queue (step moved_from) see Careful (init : system ι V) Inv Stands where
  inv_start := inv_init
  inv_step := inv_step moved_from
  start_only := by
    rintro a ⟨l, settled, hl, rfl⟩
    obtain rfl : l = [] := path_unique hl rfl
    rfl
  some_rel := by
    intro s h
    obtain ⟨l, hl⟩ := h.path
    exact ⟨_, l, fun _ => false, hl, rfl⟩
  back := by
    intro s act a' h _ ha'
    cases act with
    | call i o => exact back_call o a' ha'
    | step i spurious => exact back_step h moved_from spurious a' ha'

/-- **The lock-free queue.** While no datum is moved out of its node twice, what is seen of a run could have been seen
of a queue that serves one call at a time; and no value comes out more often than it went in. -/
theorem linearizable_of_careful [DecidableEq V] (moved_from : V → V) (acts : List (action ι V))
    (h : Guarded (step moved_from) Careful init acts) :
    Linearizable Fifo.queue (history (step moved_from) see init acts) ∧
      ∀ v, Fifo.returned v (history (step moved_from) see init acts) ≤
        Fifo.called v (history (step moved_from) see init acts) := by
  have hl := (simulation moved_from).linearizable acts h
  exact ⟨hl, fun v => Fifo.returned_le_called v _ hl⟩

/-- A party takes so many steps, with no spurious failure. -/
def steps (i : ι) (n : ℕ) : List (action ι V) := List.replicate n (.step i false)

/-- A value goes in and comes out, and the next one to ask finds the queue empty. -/
def oneValue : List (action Bool ℕ) :=
  .call false (.enqueue 7) :: steps false 6 ++ .call true .dequeue :: steps true 7 ++
    .call false .dequeue :: steps false 5

theorem linearizable_of_careful_one_value :
    Linearizable Fifo.queue (history (step fun _ : ℕ => 0) see init oneValue) ∧
      ∀ v, Fifo.returned v (history (step fun _ : ℕ => 0) see init oneValue) ≤
        Fifo.called v (history (step fun _ : ℕ => 0) see init oneValue) :=
  linearizable_of_careful (fun _ => 0) oneValue (by decide +kernel)

/-- Two parties have the same first node before one of them takes it out of the queue. -/
def race : List (action Bool ℕ) :=
  .call false (.enqueue 7) :: steps false 6 ++ .call false .dequeue :: steps false 5 ++
    .call true .dequeue :: steps true 7 ++ steps false 6

/-- Where moving out leaves the datum as it is, the race hands it out twice; where it leaves a zero, the race hands out
a zero that was not put in. -/
theorem race_not_linearizable :
    ¬ Linearizable Fifo.queue (history (step fun v : ℕ => v) see init race) ∧
      ¬ Linearizable Fifo.queue (history (step fun _ : ℕ => 0) see init race) := by
  constructor
  · intro hl
    have hle := Fifo.returned_le_called 7 _ hl
    revert hle
    decide +kernel
  · intro hl
    have hle := Fifo.returned_le_called 0 _ hl
    revert hle
    decide +kernel

end Libgs.Sync.lock_free_queue
