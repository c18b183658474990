import Libgs.Sync.LockFreeQueue

/-!
# The chain of the lock-free queue

How the nodes of `lock_free_queue` hang together in every run, also where a datum is moved out twice.
-/

namespace Libgs.Sync.lock_free_queue

open Lib

variable {ι V : Type}

/-! ## The chain -/

/-- The nodes of the queue. `links` are the nodes that were linked by `emplace`, in that order, and they hang behind the
first node of all. -/
structure Chained (s : system ι V) (links : List ℕ) : Prop where
  chain : Path s.next 0 links
  once : (0 :: links).Nodup
  head : s.m_head ∈ 0 :: links
  /-- From the head the way leads to the one linked node that has no next one; the tail is there or one before. -/
  last : ∃ n, Leads s.next s.m_head n ∧ (∀ m ∈ 0 :: links, s.next m = none ↔ m = n) ∧
    (s.m_tail = n ∨ s.next s.m_tail = some n)
  order : Leads s.next s.m_head s.m_tail
  /-- `dequeue` is about to use `next->data`. -/
  pop : ∀ i data head tail next, s.pcs i = .recheck data head tail next → head = s.m_head → head ≠ tail → next ≠ none
  defined : ∀ i, s.pcs i ≠ .undefined

/-- What a party has learnt about the places of the nodes it holds -/
def Sees (s : system ι V) : pc V → Prop
  | .load_next _ tail | .link _ tail => Leads s.next 0 tail ∧ Leads s.next tail s.m_tail
  | .swing n tail => s.next tail = some n
  | .help _ tail next => (Leads s.next 0 tail ∧ Leads s.next tail s.m_tail) ∧ s.next tail = some next
  | .load_head_tail _ head => WasHead s head
  | .load_head_next _ head tail => WasHead s head ∧ Leads s.next head tail ∧ Leads s.next tail s.m_tail
  | .recheck _ head tail next =>
    (∀ x, next = some x → s.next head = some x) ∧ (head ≠ tail → ∃ x, next = some x ∧ Leads s.next x s.m_tail)
  | .help_tail _ tail next => s.next tail = some next
  | .move head next | .pop _ head next => s.next head = some next ∧ Leads s.next next s.m_tail
  | .undefined => False
  | _ => True

/-- The nodes that were linked hang behind each other, and head and tail are among them. -/
structure Shape (s : system ι V) (links : List ℕ) : Prop where
  chain : Path s.next 0 links
  head : Leads s.next 0 s.m_head
  tail : Leads s.next s.m_head s.m_tail
  lag : ∀ n, s.next s.m_tail = some n → s.next n = none
  nodes : Nodes s
  sees : ∀ i, Sees s (s.pcs i)

theorem Shape.linked {s : system ι V} {links : List ℕ} (h : Shape s links) : Leads s.next 0 s.m_tail :=
  h.head.trans h.tail

theorem Shape.hangs {s : system ι V} {links : List ℕ} (h : Shape s links) : Chained s links where
  chain := h.chain
  once := h.chain.nodup
  head := h.chain.mem h.head
  last := by
    have hpath : ∃ l, Path s.next s.m_tail l := (h.chain.ahead h.linked).imp fun l hl => hl.1
    obtain ⟨l, hl⟩ := hpath
    obtain ⟨n, hn, hend⟩ := hl.end_leads
    refine ⟨n, h.tail.trans hn, fun m hm => ⟨fun hm' => ?_, fun hmn => hmn ▸ hend⟩, ?_⟩
    · exact (h.chain.leads hm).end_unique (h.linked.trans hn) hm' hend
    · rcases l with _ | ⟨x, l⟩
      · exact .inl (hn.of_end hl).symm
      · have hx : s.next s.m_tail = some x := hl.1
        have hne : s.m_tail ≠ n := by
          rintro rfl
          rw [hend] at hx
          cases hx
        rw [(hn.of_next hne hx).of_end (h.lag x hx)]
        exact .inr hx
  order := h.tail
  pop := by
    intro i data head tail next hpc _ hne hnone
    have hsees := h.sees i
    rw [hpc] at hsees
    obtain ⟨x, hx, -⟩ := hsees.2 hne
    rw [hnone] at hx
    cases hx
  defined := by
    intro i hpc
    have hsees := h.sees i
    rw [hpc] at hsees
    exact hsees

theorem Sees.mono {s s' : system ι V} {p : pc V} (h : Sees s p) (hext : Extends s.next s'.next)
    (hhead : Leads s'.next s.m_head s'.m_head) (htail : Leads s'.next s.m_tail s'.m_tail) : Sees s' p := by
  have hwas : ∀ {head}, WasHead s head → WasHead s' head := fun hw => ⟨hw.1.mono hext, (hw.2.mono hext).trans hhead⟩
  have hahead : ∀ {a}, Leads s.next a s.m_tail → Leads s'.next a s'.m_tail := fun ha => (ha.mono hext).trans htail
  cases p with
  | load_next n tail | link n tail => exact ⟨Leads.mono h.1 hext, hahead h.2⟩
  | swing n tail => exact hext _ _ h
  | help n tail next => exact ⟨⟨h.1.1.mono hext, hahead h.1.2⟩, hext _ _ h.2⟩
  | load_head_tail data head => exact hwas h
  | load_head_next data head tail => exact ⟨hwas h.1, h.2.1.mono hext, hahead h.2.2⟩
  | recheck data head tail next =>
    exact ⟨fun x hx => hext _ _ (h.1 x hx), fun hne => (h.2 hne).imp fun x hx => ⟨hx.1, hahead hx.2⟩⟩
  | help_tail data tail next => exact hext _ _ h
  | move head next | pop data head next => exact ⟨hext _ _ h.1, hahead h.2⟩
  | undefined => exact h
  | _ => trivial

theorem shape_init [Inhabited V] : Shape (init : system ι V) [] where
  chain := rfl
  head := .refl 0
  tail := .refl 0
  lag _ h := by cases h
  nodes := inv_init.nodes
  sees _ := trivial

/-! ## Steps -/

variable [DecidableEq ι] {s : system ι V} {links : List ℕ} {i : ι}

theorem Shape.go (h : Shape s links) {s' : system ι V} (p : pc V) (hnext : s'.next = s.next)
    (hfresh : s'.fresh = s.fresh) (hpcs : s'.pcs = Function.update s.pcs i p)
    (hhead : Leads s.next s.m_head s'.m_head ∧ Leads s.next s'.m_head s.m_tail)
    (htail : s'.m_tail = s.m_tail ∨ s.next s.m_tail = some s'.m_tail) (hsees : Sees s' p)
    (hown : ∀ n, p.own = some n → (s.pcs i).own = some n) : Shape s' links := by
  have hlead : Leads s.next s.m_tail s'.m_tail := by
    rcases htail with htail | htail
    · rw [htail]
      exact .refl _
    · exact .of_link htail
  constructor
  · rw [hnext]
    exact h.chain
  · rw [hnext]
    exact h.head.trans hhead.1
  · rw [hnext]
    exact hhead.2.trans hlead
  · intro n hn
    rw [hnext] at hn ⊢
    rcases htail with htail | htail
    · rw [htail] at hn
      exact h.lag n hn
    · have hend := h.lag _ htail
      rw [hend] at hn
      cases hn
  · exact h.nodes.go p hnext hfresh hpcs hown
  · rw [hpcs]
    refine forall_goto (s := s) hsees fun j _ => (h.sees j).mono ?_ (by rw [hnext]; exact hhead.1) ?_
    · rw [hnext]
      exact fun _ _ hab => hab
    · rw [hnext]
      exact hlead

theorem Shape.stay (h : Shape s links) (p : pc V) (hsees : Sees s p)
    (hown : ∀ n, p.own = some n → (s.pcs i).own = some n) : Shape (s.goto i p) links :=
  h.go p rfl rfl rfl ⟨.refl _, h.tail⟩ (.inl rfl) ((hsees.mono fun _ _ hab => hab) (.refl _) (.refl _)) hown

theorem Shape.swing (h : Shape s links) (p : pc V) {tail n : ℕ} (hok : s.m_tail = tail) (hlink : s.next tail = some n)
    (hsees : Sees s p) (hown : ∀ n, p.own = some n → (s.pcs i).own = some n) :
    Shape ((s.set_tail n).goto i p) links := by
  have hlast : s.next s.m_tail = some n := by rw [hok, hlink]
  refine h.go p rfl rfl rfl ⟨.refl _, h.tail⟩ (.inr hlast) (hsees.mono (fun _ _ hab => hab) (.refl _) ?_) hown
  exact .of_link hlast

theorem Shape.make (h : Shape s links) (v : V) : Shape ((s.make v).goto i (.load_tail s.fresh)) links := by
  have hnext : ((s.make v).goto i (.load_tail s.fresh)).next = s.next := h.nodes.make_next v
  constructor
  · rw [hnext]
    exact h.chain
  · rw [hnext]
    exact h.head
  · rw [hnext]
    exact h.tail
  · rw [hnext]
    exact h.lag
  · exact h.nodes.make v
  · refine forall_goto (P := Sees ((s.make v).goto i (.load_tail s.fresh))) trivial fun j _ => ?_
    refine (h.sees j).mono ?_ (.refl _) (.refl _)
    rw [hnext]
    exact fun _ _ hab => hab

theorem Shape.link (h : Shape s links) (n tail : ℕ) (hpc : s.pcs i = .link n tail) (hend : s.next tail = none) :
    Shape ((s.set_next tail n).goto i (.swing n tail)) (links ++ [n]) := by
  have hsees := h.sees i
  rw [hpc] at hsees
  obtain ⟨hlinked, hahead⟩ := hsees
  have hown : (s.pcs i).own = some n := by rw [hpc]; rfl
  have hn : Unlinked s n := h.nodes.own i n hown
  have hext : Extends s.next (s.set_next tail n).next := extends_link tail n hend
  have hlast : s.m_tail = tail := hahead.of_end hend
  have hne : n ≠ tail := (hn.ne_linked hlinked).symm
  constructor
  · exact path_link 0 tail n links h.chain hlinked hend hn.next hne
  · exact h.head.mono hext
  · exact h.tail.mono hext
  · intro m hm
    have hnm : n = m := by simpa [system.goto, system.set_next, hlast] using hm
    rw [← hnm]
    exact (Function.update_of_ne hne _ _).trans hn.next
  · exact h.nodes.link n tail hown hlinked
  · refine forall_goto (P := Sees (s.set_next tail n)) (Function.update_self _ _ _) fun j _ => ?_
    exact (h.sees j).mono hext (.refl _) (.refl _)

/-! ## Every step -/

/-- The node that the step links -/
def linked (s : system ι V) : action ι V → Option ℕ
  | .call _ _ => none
  | .step i spurious =>
    match s.pcs i with
    | .link n tail => if s.next tail = none ∧ ¬ spurious then some n else none
    | _ => none

theorem shape_call (h : Shape s links) (o : Fifo.Op V) : Shape (s.goto i (enter (s.pcs i) o)) links := by
  cases hpc : s.pcs i with
  | idle =>
    refine h.stay _ ?_ ?_
    · cases o <;> trivial
    · intro n hn
      cases o <;> cases hn
  | _ =>
    have hsame : s.goto i (s.pcs i) = s := by simp [system.goto]
    rw [hpc] at hsame
    exact (congrArg (Shape · links) hsame).mpr h

theorem shape_recheck (h : Shape s links) (data : Option V) (head tail : ℕ) (next : Option ℕ)
    (hpc : s.pcs i = .recheck data head tail next) (moved_from : V → V) (spurious : Bool) :
    Shape (advance moved_from s i spurious (.recheck data head tail next)) links := by
  have hsees := h.sees i
  rw [hpc] at hsees
  obtain ⟨hnext, htail⟩ := hsees
  unfold advance
  dsimp only
  split
  · exact h.stay _ trivial (fun n hn => by cases hn)
  · split
    · rename_i hht
      cases next with
      | none => exact h.stay _ trivial (fun n hn => by cases hn)
      | some x => exact h.stay (.help_tail data tail x) (by rw [← hht]; exact hnext x rfl) (fun n hn => by cases hn)
    · rename_i hht
      obtain ⟨x, rfl, hx⟩ := htail hht
      exact h.stay (.move head x) ⟨hnext x rfl, hx⟩ (fun n hn => by cases hn)

theorem shape_advance (h : Shape s links) (moved_from : V → V) (spurious : Bool)
    (hlink : ∀ n tail, s.pcs i ≠ .link n tail) : Shape (advance moved_from s i spurious (s.pcs i)) links := by
  have hsees := h.sees i
  cases hpc : s.pcs i with
  | link n tail => exact absurd hpc (hlink n tail)
  | idle | undefined => exact h
  | new_node v => exact h.make v
  | load_tail n => exact h.stay (.load_next n s.m_tail) ⟨h.linked, .refl _⟩ (own_kept hpc rfl)
  | load_next n tail =>
    rw [hpc] at hsees
    rw [advance]
    cases hnext : s.next tail with
    | none => exact h.stay (.link n tail) hsees (own_kept hpc rfl)
    | some x => exact h.stay (.help n tail x) ⟨hsees, hnext⟩ (own_kept hpc rfl)
  | swing n tail =>
    rw [hpc] at hsees
    rw [advance]
    split
    · rename_i hok
      exact h.swing (.done .stored) hok hsees trivial (fun n hn => by cases hn)
    · exact h.stay _ trivial (fun n hn => by cases hn)
  | help n tail next =>
    rw [hpc] at hsees
    rw [advance]
    split
    · rename_i hok
      exact h.swing (.load_next n tail) hok hsees.2 hsees.1 (own_kept hpc rfl)
    · exact h.stay (.load_next n s.m_tail) ⟨h.linked, .refl _⟩ (own_kept hpc rfl)
  | load_head data => exact h.stay (.load_head_tail data s.m_head) ⟨h.head, .refl _⟩ (fun n hn => by cases hn)
  | load_head_tail data head =>
    rw [hpc] at hsees
    exact h.stay (.load_head_next data head s.m_tail) ⟨hsees, hsees.2.trans h.tail, .refl _⟩ (fun n hn => by cases hn)
  | load_head_next data head tail =>
    rw [hpc] at hsees
    obtain ⟨-, ht, hm⟩ := hsees
    refine h.stay (.recheck data head tail (s.next head)) ⟨fun x hx => hx, fun hne => ?_⟩ (fun n hn => by cases hn)
    -- The tail was read behind the head, so there is a node between them.
    cases hnext : s.next head with
    | none => exact absurd (ht.of_end hnext).symm hne
    | some x => exact ⟨x, rfl, (ht.of_next hne hnext).trans hm⟩
  | recheck data head tail next => exact shape_recheck h data head tail next hpc moved_from spurious
  | help_tail data tail next =>
    rw [hpc] at hsees
    rw [advance]
    split
    · rename_i hok
      exact h.swing (.load_head data) hok.1 hsees trivial (fun n hn => by cases hn)
    · exact h.stay _ trivial (fun n hn => by cases hn)
  | move head next =>
    rw [hpc] at hsees
    exact h.go (.pop (s.data next) head next) rfl rfl rfl ⟨.refl _, h.tail⟩ (.inl rfl) hsees (fun n hn => by cases hn)
  | pop data head next =>
    rw [hpc] at hsees
    rw [advance]
    split
    · rename_i hok
      have hfirst : s.next s.m_head = some next := by rw [hok.1]; exact hsees.1
      exact h.go (.done (.got (some data))) rfl rfl rfl ⟨.of_link hfirst, hsees.2⟩ (.inl rfl) trivial
        (fun n hn => by cases hn)
    · exact h.stay _ trivial (fun n hn => by cases hn)
  | done r => exact h.stay .idle trivial (fun n hn => by cases hn)

theorem shape_step (moved_from : V → V) (a : action ι V) (h : Shape s links) :
    Shape (step moved_from s a) (links ++ (linked s a).toList) := by
  cases a with
  | call i o =>
    rw [linked, Option.toList_none, List.append_nil]
    exact shape_call h o
  | step i spurious =>
    show Shape (advance moved_from s i spurious (s.pcs i)) _
    cases hpc : s.pcs i with
    | link n tail =>
      have hsees := h.sees i
      rw [hpc] at hsees
      simp only [advance, linked, hpc]
      split
      · rename_i hok
        exact h.link n tail hpc hok.1
      · rw [Option.toList_none, List.append_nil]
        refine h.stay (.load_next n tail) hsees fun m hm => ?_
        rw [hpc]
        exact hm
    | _ =>
      have hnone : linked s (.step i spurious) = none := by simp only [linked, hpc]
      rw [hnone, Option.toList_none, List.append_nil, ← hpc]
      exact shape_advance h moved_from spurious (by simp [hpc])

/-! ## Runs -/

/-- The queue, with the nodes in the order in which they were linked -/
structure record (ι V : Type) where
  queue : system ι V
  links : List ℕ

def record.start [Inhabited V] : record ι V := ⟨init, []⟩

def record.step (moved_from : V → V) (s : record ι V) (a : action ι V) : record ι V :=
  ⟨lock_free_queue.step moved_from s.queue a, s.links ++ (linked s.queue a).toList⟩

/-- **The chain of the queue.** In every run, whatever the parties do and in whatever order, the linked nodes form one
chain, in the order they were linked in; the head is never past the tail, and the tail is the last node or the one
before it. -/
theorem chained [Inhabited V] (moved_from : V → V) (acts : List (action ι V)) :
    Throughout (record.step moved_from) (fun s => Chained s.queue s.links) record.start acts := by
  have hshape : Throughout (record.step moved_from) (fun s => Shape s.queue s.links) record.start acts :=
    throughout_of_step (fun s a h => shape_step moved_from a h) record.start acts shape_init
  exact hshape.mono fun s h => h.hangs

end Libgs.Sync.lock_free_queue
