import Libgs.Server.RequestLine
import Libgs.Server.Routing
import Mathlib.Data.Finset.Card

/-!
# Registering handlers

`on_request` and `unbound_request` of `http/server/detail/server.h`. The owners of a controller come in
groups, each with a control block of its own, which deletes the controller with the last of its owners.
-/

namespace Libgs.Server

open Lib Libgs.Http

/-- What a `ctrlr_aop_ptr_t` points to: a control block with a number, and the controller. -/
structure ctrlr_block (A : Type) where
  id : ℕ
  object : A
  deriving DecidableEq

structure tk_handler (A : Type) where
  method : List method_t
  aop : Option (ctrlr_block A)

abbrev handler_table (A : Type) := request_handler_map (Option (tk_handler A))

variable {A : Type}

def rule_path_check (str : Bytes) : Bytes :=
  let str := unique_slashes str
  if ¬ string_pool.root <+: str then string_pool.root ++ str else str

def bind_method (method : List method_t) : List method_t :=
  if method = [] then method_table.map (·.1) else method

def path_rule_empty : exception :=
  .runtime_error (ascii "libgs::http::server::on_request: path_rule is empty.")

def path_rule_duplication : exception :=
  .runtime_error (ascii "libgs::http::server::on_request: path_rule duplication.")

def unbound_rule_empty : exception :=
  .runtime_error (ascii "libgs::http::server::unbound_request: path_rule is empty.")

/-- What the three overloads are given. From a function each rule gets a new object. -/
inductive request_handler (A : Type)
  | func (multi_ctrlr_aop : ℕ → A)
  | shared (ctrlr : Option (ctrlr_block A))
  | raw (ctrlr : Option A)

def owned (m : handler_table A) : List (ctrlr_block A) := m.entries.filterMap fun e => e.2.bind (·.aop)

def new_id (m : handler_table A) : ℕ := (owned m).foldr (fun b n => max (b.id + 1) n) 0

/-- The pointer for one rule, and what is left for the next one: a `shared_ptr` has been moved from. -/
def next_aop (m : handler_table A) : request_handler A → Option (ctrlr_block A) × request_handler A
  | .func multi_ctrlr_aop => (some ⟨new_id m, multi_ctrlr_aop (new_id m)⟩, .func multi_ctrlr_aop)
  | .shared ctrlr => (ctrlr, .shared none)
  | .raw ctrlr => (ctrlr.map fun a => ⟨new_id m, a⟩, .raw ctrlr)

/-- The table afterwards, also when the call throws. -/
def on_request (method : List method_t) : request_handler A → List Bytes → handler_table A →
    handler_table A × Except exception Unit
  | _, [], m => (m, .ok ())
  | handler, path_rule :: paths, m =>
    if path_rule = [] then (m, .error path_rule_empty)
    else
      let rule := rule_path_check path_rule
      if m.find rule ≠ none then (m, .error path_rule_duplication)
      else
        let (aop, handler) := next_aop m handler
        let m := (m.emplace rule none).assign rule (some { method := bind_method method, aop := aop })
        on_request method handler paths m

def unbound_request (path_rule : Bytes) (m : handler_table A) : handler_table A × Except exception Unit :=
  if path_rule = [] then (m, .error unbound_rule_empty) else (m.erase path_rule, .ok ())

/-! ## One rule -/

/-- The table with a handler under a rule that was free. -/
def registered (method : List method_t) (handler : request_handler A) (path_rule : Bytes) (m : handler_table A) :
    handler_table A :=
  (m.emplace (rule_path_check path_rule) none).assign (rule_path_check path_rule)
    (some { method := bind_method method, aop := (next_aop m handler).1 })

/-- A rule is taken when it is not empty and its normal form is free. -/
def Taken (m : handler_table A) (path_rule : Bytes) : Prop := path_rule ≠ [] ∧ m.find (rule_path_check path_rule) = none

theorem on_request_taken (method : List method_t) (handler : request_handler A) (path_rule : Bytes) (paths : List Bytes)
    (m : handler_table A) (h : Taken m path_rule) :
    on_request method handler (path_rule :: paths) m =
      on_request method (next_aop m handler).2 paths (registered method handler path_rule m) := by
  rw [on_request, if_neg h.1, if_neg (not_not.mpr h.2)]
  rfl

def refusal (path_rule : Bytes) : exception := if path_rule = [] then path_rule_empty else path_rule_duplication

theorem on_request_refused (method : List method_t) (handler : request_handler A) (path_rule : Bytes)
    (paths : List Bytes) (m : handler_table A) (h : ¬ Taken m path_rule) :
    on_request method handler (path_rule :: paths) m = (m, .error (refusal path_rule)) := by
  unfold on_request refusal
  by_cases hempty : path_rule = []
  · rw [if_pos hempty, if_pos hempty]
  · rw [if_neg hempty, if_neg hempty]
    exact if_pos fun hfree => h ⟨hempty, hfree⟩

theorem taken_of_ok (method : List method_t) (handler : request_handler A) (path_rule : Bytes) (paths : List Bytes)
    (m : handler_table A) (h : (on_request method handler (path_rule :: paths) m).2 = .ok ()) : Taken m path_rule := by
  by_contra hrefused
  rw [on_request_refused method handler path_rule paths m hrefused] at h
  cases h

theorem mem_registered (method : List method_t) (handler : request_handler A) (path_rule : Bytes) (m : handler_table A)
    (h : Taken m path_rule) (a : Bytes × Option (tk_handler A)) :
    a ∈ (registered method handler path_rule m).entries ↔
      a = (rule_path_check path_rule, some { method := bind_method method, aop := (next_aop m handler).1 }) ∨
        a ∈ m.entries :=
  OrderedMap.mem_assign_emplace m _ _ _ h.2 a

/-! ## A list of rules -/

/-- The table `m'` is `m` and, for each of the rules, an entry with a handler. -/
structure Extends (m m' : handler_table A) (paths : List Bytes) : Prop where
  keeps : ∀ a ∈ m.entries, a ∈ m'.entries
  adds : ∀ path_rule ∈ paths, ∃ handler, (rule_path_check path_rule, some handler) ∈ m'.entries
  only : ∀ a ∈ m'.entries, a ∈ m.entries ∨ ∃ path_rule ∈ paths, ∃ handler, a = (rule_path_check path_rule, some handler)

theorem on_request_extends (method : List method_t) (handler : request_handler A) (paths : List Bytes)
    (m : handler_table A) (h : (on_request method handler paths m).2 = .ok ()) :
    Extends m (on_request method handler paths m).1 paths := by
  induction paths generalizing handler m with
  | nil => exact ⟨fun a ha => ha, by simp, fun a ha => .inl ha⟩
  | cons path_rule paths ih =>
    have htaken := taken_of_ok method handler path_rule paths m h
    rw [on_request_taken method handler path_rule paths m htaken] at h ⊢
    have hmem := mem_registered method handler path_rule m htaken
    have hrest := ih (next_aop m handler).2 (registered method handler path_rule m) h
    refine ⟨fun a ha => hrest.keeps a ((hmem a).mpr (.inr ha)), ?_, fun a ha => ?_⟩
    · rw [List.forall_mem_cons]
      exact ⟨⟨_, hrest.keeps _ ((hmem _).mpr (.inl rfl))⟩, hrest.adds⟩
    · rcases hrest.only a ha with hold | ⟨rule, hrule, new, rfl⟩
      · rcases (hmem a).mp hold with rfl | hold
        · exact .inr ⟨path_rule, List.mem_cons_self, _, rfl⟩
        · exact .inl hold
      · exact .inr ⟨rule, List.mem_cons_of_mem _ hrule, new, rfl⟩

theorem on_request_split (method : List method_t) (handler : request_handler A) (paths : List Bytes)
    (m : handler_table A) (e : exception) (h : (on_request method handler paths m).2 = .error e) :
    ∃ before path_rule behind, paths = before ++ path_rule :: behind ∧
      (on_request method handler before m).2 = .ok () ∧
      (on_request method handler paths m).1 = (on_request method handler before m).1 ∧
      ¬ Taken (on_request method handler before m).1 path_rule ∧ e = refusal path_rule := by
  induction paths generalizing handler m with
  | nil => cases h
  | cons path_rule paths ih =>
    by_cases htaken : Taken m path_rule
    · rw [on_request_taken method handler path_rule paths m htaken] at h ⊢
      obtain ⟨before, rule, behind, rfl, hok, hsame, hrefused, rfl⟩ := ih _ _ h
      refine ⟨path_rule :: before, rule, behind, rfl, ?_⟩
      rw [on_request_taken method handler path_rule before m htaken]
      exact ⟨hok, hsame, hrefused, rfl⟩
    · rw [on_request_refused method handler path_rule paths m htaken] at h ⊢
      cases h
      exact ⟨[], path_rule, paths, rfl, rfl, rfl, htaken, rfl⟩

/-- **What a call that throws leaves.** It throws for one rule, which is empty or is registered already.
The rules before it have their handlers, the table has no other new entry, and in particular none
without a handler. -/
theorem on_request_throws (method : List method_t) (handler : request_handler A) (paths : List Bytes)
    (m : handler_table A) (e : exception) (h : (on_request method handler paths m).2 = .error e) :
    ∃ before path_rule behind, paths = before ++ path_rule :: behind ∧
      Extends m (on_request method handler paths m).1 before ∧
      ¬ Taken (on_request method handler paths m).1 path_rule ∧ e = refusal path_rule := by
  obtain ⟨before, path_rule, behind, hpaths, hok, hsame, hrefused, he⟩ := on_request_split method handler paths m e h
  rw [hsame]
  exact ⟨before, path_rule, behind, hpaths, on_request_extends method handler before m hok, hrefused, he⟩

theorem Extends.nil {m m' : handler_table A} (h : Extends m m' []) : m' = m := by
  refine OrderedMap.ext_mem fun a => ⟨fun ha => ?_, h.keeps a⟩
  rcases h.only a ha with hold | ⟨path_rule, hrule, -⟩
  · exact hold
  · cases hrule

def oneRule : handler_table ℕ := (on_request [] (.raw (some 7)) [ascii "/a"] .empty).1

theorem on_request_throws_second :
    ∃ before path_rule behind, [ascii "/b", ascii "//a", ascii "/c"] = before ++ path_rule :: behind ∧
      Extends oneRule (on_request [] (.raw (some 8)) [ascii "/b", ascii "//a", ascii "/c"] oneRule).1 before ∧
      ¬ Taken (on_request [] (.raw (some 8)) [ascii "/b", ascii "//a", ascii "/c"] oneRule).1 path_rule ∧
      path_rule_duplication = refusal path_rule :=
  on_request_throws [] (.raw (some 8)) [ascii "/b", ascii "//a", ascii "/c"] oneRule path_rule_duplication (by rfl)

/-- The rule before the one that is refused stays. -/
theorem on_request_throws_later :
    ¬ ∀ (method : List method_t) (handler : request_handler ℕ) (paths : List Bytes) (m : handler_table ℕ),
      (∃ e, (on_request method handler paths m).2 = .error e) → (on_request method handler paths m).1 = m := by
  intro hall
  have hsame := hall [] (.raw (some 8)) [ascii "/b", ascii "/a"] oneRule ⟨path_rule_duplication, by rfl⟩
  have hentries := congrArg (fun m : handler_table ℕ => m.entries.length) hsame
  revert hentries
  decide +kernel

/-! ## Taking a rule back -/

/-- A rule that is registered as it is. -/
def NormalRule (path_rule : Bytes) : Prop := string_pool.root <+: path_rule ∧ ¬ ascii "//" <:+: path_rule

theorem rule_path_check_eq_iff (path_rule : Bytes) : rule_path_check path_rule = path_rule ↔ NormalRule path_rule := by
  have hsingle : unique_slashes path_rule = path_rule ↔ ¬ ascii "//" <:+: path_rule := unique_slashes_eq_iff path_rule
  unfold rule_path_check NormalRule
  dsimp only
  constructor
  · intro h
    split at h
    · rename_i hroot
      have hstart : string_pool.root <+: path_rule := by
        rw [← h]
        apply List.prefix_append
      exact absurd (unique_slashes_root path_rule hstart) hroot
    · rename_i hroot
      exact ⟨h ▸ not_not.mp hroot, hsingle.mp h⟩
  · rintro ⟨hroot, hno⟩
    rw [hsingle.mpr hno, if_neg (not_not.mpr hroot)]

theorem rule_rank_inj {a b : Bytes} (h : a.map UInt8.toNat = b.map UInt8.toNat) : a = b :=
  List.map_injective_iff.mpr (fun _ _ => UInt8.toNat_inj.mp) h

/-- **When a rule is taken back.** `unbound_request` restores the table behind `on_request` with the same
text if and only if the text is in normal form. -/
theorem unbound_request_restores_iff (method : List method_t) (handler : request_handler A) (path_rule : Bytes)
    (m : handler_table A) (h : (on_request method handler [path_rule] m).2 = .ok ()) :
    unbound_request path_rule (on_request method handler [path_rule] m).1 = (m, .ok ()) ↔ NormalRule path_rule := by
  have htaken := taken_of_ok method handler path_rule [] m h
  have hfree := (OrderedMap.find_eq_none_iff m _).mp htaken.2
  have hcall : (on_request method handler [path_rule] m).1 = registered method handler path_rule m := by
    rw [on_request_taken method handler path_rule [] m htaken]
    rfl
  have herase : ∀ a, a ∈ ((registered method handler path_rule m).erase path_rule).entries ↔
      a ∈ (registered method handler path_rule m).entries ∧ a.1.map UInt8.toNat ≠ path_rule.map UInt8.toNat := by
    intro a
    simp [OrderedMap.erase]
  rw [hcall, unbound_request, if_neg htaken.1, Prod.mk.injEq, and_iff_left rfl, ← rule_path_check_eq_iff]
  constructor
  · intro hsame
    by_contra hne
    have hnew := (mem_registered method handler path_rule m htaken _).mpr (.inl rfl)
    have hin := (herase _).mpr ⟨hnew, fun hrank => hne (rule_rank_inj hrank)⟩
    rw [hsame] at hin
    exact hfree _ hin rfl
  · intro hnormal
    refine OrderedMap.ext_mem fun a => ?_
    rw [herase, mem_registered method handler path_rule m htaken, hnormal]
    rw [hnormal] at hfree
    constructor
    · rintro ⟨rfl | ha, hrank⟩
      · exact absurd rfl hrank
      · exact ha
    · intro ha
      exact ⟨.inr ha, hfree a ha⟩

theorem unbound_request_restores_rule :
    unbound_request (ascii "/b/{x}") (on_request [] (.raw (some 8)) [ascii "/b/{x}"] oneRule).1 = (oneRule, .ok ()) :=
  (unbound_request_restores_iff [] (.raw (some 8)) (ascii "/b/{x}") oneRule (by rfl)).mpr (by
    unfold NormalRule
    decide +kernel)

/-- A rule without a slash in front is registered with one, and not found without. -/
theorem unbound_request_misses :
    ¬ ∀ (method : List method_t) (handler : request_handler ℕ) (path_rule : Bytes) (m : handler_table ℕ),
      path_rule ≠ [] → (on_request method handler [path_rule] m).2 = .ok () →
        unbound_request path_rule (on_request method handler [path_rule] m).1 = (m, .ok ()) := by
  intro hall
  have hsame := hall [] (.raw (some 8)) (ascii "b") oneRule (by decide) (by rfl)
  rw [unbound_request_restores_iff [] (.raw (some 8)) (ascii "b") oneRule (by rfl)] at hsame
  have hroot := hsame.1
  revert hroot
  decide

/-! ## One controller for several rules -/

theorem mem_owned (m : handler_table A) (b : ctrlr_block A) :
    b ∈ owned m ↔ ∃ rule method, (rule, some { method := method, aop := some b }) ∈ m.entries := by
  unfold owned
  rw [List.mem_filterMap]
  constructor
  · rintro ⟨⟨rule, handler⟩, hmem, hb⟩
    obtain ⟨⟨method, aop⟩, rfl, rfl⟩ := Option.bind_eq_some_iff.mp hb
    exact ⟨rule, method, hmem⟩
  · rintro ⟨rule, method, hmem⟩
    exact ⟨_, hmem, rfl⟩

theorem new_id_lt (m : handler_table A) (b : ctrlr_block A) (h : b ∈ owned m) : b.id < new_id m := by
  unfold new_id
  generalize owned m = l at h
  induction l with
  | nil => cases h
  | cons c l ih =>
    rw [List.foldr_cons]
    rcases List.mem_cons.mp h with rfl | h
    · omega
    · have := ih h
      omega

theorem mem_owned_registered (method : List method_t) (handler : request_handler A) (path_rule : Bytes)
    (m : handler_table A) (h : Taken m path_rule) (b : ctrlr_block A) :
    b ∈ owned (registered method handler path_rule m) ↔ (next_aop m handler).1 = some b ∨ b ∈ owned m := by
  simp only [mem_owned, mem_registered method handler path_rule m h]
  constructor
  · rintro ⟨rule, method', hnew | hold⟩
    · simp only [Prod.mk.injEq, Option.some.injEq, tk_handler.mk.injEq] at hnew
      exact .inl hnew.2.2.symm
    · exact .inr ⟨rule, method', hold⟩
  · rintro (hnew | ⟨rule, method', hold⟩)
    · exact ⟨rule_path_check path_rule, bind_method method, .inl (by rw [hnew])⟩
    · exact ⟨rule, method', .inr hold⟩

theorem find_first (method : List method_t) (handler : request_handler A) (path_rule : Bytes) (paths : List Bytes)
    (m : handler_table A) (h : (on_request method handler (path_rule :: paths) m).2 = .ok ()) :
    (on_request method handler (path_rule :: paths) m).1.find (rule_path_check path_rule) =
      some (some { method := bind_method method, aop := (next_aop m handler).1 }) := by
  have htaken := taken_of_ok method handler path_rule paths m h
  rw [on_request_taken method handler path_rule paths m htaken] at h ⊢
  have hnew := (mem_registered method handler path_rule m htaken _).mpr (.inl rfl)
  exact OrderedMap.find_of_mem _ _ ((on_request_extends method _ paths _ h).keeps _ hnew)

/-- A pointer to a controller, as the two overloads take it. -/
inductive ctrlr_arg (A : Type)
  | shared (ctrlr : ctrlr_block A)
  | raw (ctrlr : A)

namespace ctrlr_arg

def handler : ctrlr_arg A → request_handler A
  | .shared ctrlr => .shared (some ctrlr)
  | .raw ctrlr => .raw (some ctrlr)

def object : ctrlr_arg A → A
  | .shared ctrlr => ctrlr.object
  | .raw ctrlr => ctrlr

/-- The group that owns the object before the call. -/
def group : ctrlr_arg A → Option (ctrlr_block A)
  | .shared ctrlr => some ctrlr
  | .raw _ => none

end ctrlr_arg

/-- Every rule has a handler with this controller. -/
def Serves (m : handler_table A) (paths : List Bytes) (a : A) : Prop :=
  ∀ path_rule ∈ paths, ∃ method b, b.object = a ∧
    m.find (rule_path_check path_rule) = some (some { method := method, aop := some b })

theorem moved_owned (method : List method_t) (paths : List Bytes) (m : handler_table A)
    (h : (on_request method (.shared none) paths m).2 = .ok ()) (b : ctrlr_block A) :
    b ∈ owned (on_request method (.shared none) paths m).1 ↔ b ∈ owned m := by
  induction paths generalizing m with
  | nil => exact Iff.rfl
  | cons path_rule paths ih =>
    have htaken := taken_of_ok method _ path_rule paths m h
    rw [on_request_taken method _ path_rule paths m htaken] at h ⊢
    have hstep := mem_owned_registered method (.shared none) path_rule m htaken b
    simp only [next_aop, reduceCtorEq, false_or] at h hstep ⊢
    rw [ih _ h, hstep]

theorem shared_serves_not (method : List method_t) (b : ctrlr_block A) (first second : Bytes) (paths : List Bytes)
    (m : handler_table A) (h : (on_request method (.shared (some b)) (first :: second :: paths) m).2 = .ok ()) :
    ¬ Serves (on_request method (.shared (some b)) (first :: second :: paths) m).1 (first :: second :: paths)
      b.object := by
  intro hserves
  obtain ⟨method', c, -, hfind⟩ := hserves second (List.mem_cons_of_mem _ List.mem_cons_self)
  have htaken := taken_of_ok method _ first (second :: paths) m h
  rw [on_request_taken method _ first (second :: paths) m htaken] at h hfind
  rw [find_first method _ second paths _ h] at hfind
  simp [next_aop] at hfind

theorem raw_serves (method : List method_t) (a : A) (paths : List Bytes) (m : handler_table A)
    (h : (on_request method (.raw (some a)) paths m).2 = .ok ()) :
    Serves (on_request method (.raw (some a)) paths m).1 paths a := by
  induction paths generalizing m with
  | nil => simp [Serves]
  | cons path_rule paths ih =>
    have hfirst := find_first method (.raw (some a)) path_rule paths m h
    have htaken := taken_of_ok method _ path_rule paths m h
    unfold Serves
    rw [List.forall_mem_cons]
    refine ⟨⟨_, ⟨new_id m, a⟩, rfl, hfirst⟩, ?_⟩
    rw [on_request_taken method _ path_rule paths m htaken] at h ⊢
    exact ih _ h

/-! ## The owners of a controller -/

variable [DecidableEq A]

/-- The control blocks of the table that own the object. Each of them deletes it once. -/
def owners (m : handler_table A) (a : A) : Finset (ctrlr_block A) := (owned m).toFinset.filter (·.object = a)

theorem mem_owners (m : handler_table A) (a : A) (b : ctrlr_block A) : b ∈ owners m a ↔ b ∈ owned m ∧ b.object = a := by
  simp [owners]

theorem owners_insert {m m' : handler_table A} (b : ctrlr_block A) (h : ∀ c, c ∈ owned m' ↔ b = c ∨ c ∈ owned m) :
    owners m' b.object = insert b (owners m b.object) := by
  ext c
  rw [mem_owners, Finset.mem_insert, mem_owners, h]
  constructor
  · rintro ⟨rfl | hold, hobject⟩
    · exact .inl rfl
    · exact .inr ⟨hold, hobject⟩
  · rintro (rfl | ⟨hold, hobject⟩)
    · exact ⟨.inl rfl, rfl⟩
    · exact ⟨.inr hold, hobject⟩

theorem shared_owners (method : List method_t) (b : ctrlr_block A) (path_rule : Bytes) (paths : List Bytes)
    (m : handler_table A) (h : (on_request method (.shared (some b)) (path_rule :: paths) m).2 = .ok ()) :
    owners (on_request method (.shared (some b)) (path_rule :: paths) m).1 b.object =
      insert b (owners m b.object) := by
  have htaken := taken_of_ok method _ path_rule paths m h
  rw [on_request_taken method _ path_rule paths m htaken] at h ⊢
  refine owners_insert b fun c => (moved_owned method paths _ h c).trans ?_
  rw [mem_owned_registered method _ path_rule m htaken]
  simp only [next_aop, Option.some.injEq]

theorem raw_owners (method : List method_t) (a : A) (paths : List Bytes) (m : handler_table A)
    (h : (on_request method (.raw (some a)) paths m).2 = .ok ()) :
    (owners (on_request method (.raw (some a)) paths m).1 a).card = (owners m a).card + paths.length := by
  induction paths generalizing m with
  | nil => rfl
  | cons path_rule paths ih =>
    have htaken := taken_of_ok method _ path_rule paths m h
    rw [on_request_taken method _ path_rule paths m htaken] at h ⊢
    have hinsert : owners (registered method (.raw (some a)) path_rule m) a = insert ⟨new_id m, a⟩ (owners m a) := by
      refine owners_insert ⟨new_id m, a⟩ fun c => ?_
      rw [mem_owned_registered method _ path_rule m htaken]
      simp only [next_aop, Option.map_some, Option.some.injEq]
    have hnew : ⟨new_id m, a⟩ ∉ owners m a := by
      intro hmem
      have := new_id_lt m _ ((mem_owners m a _).mp hmem).1
      exact lt_irrefl _ this
    have hrest := ih _ h
    rw [hinsert, Finset.card_insert_of_notMem hnew] at hrest
    rw [List.length_cons]
    exact hrest.trans (by omega)

theorem card_insert_eq_one_iff (b : ctrlr_block A) (s : Finset (ctrlr_block A)) :
    (insert b s).card = 1 ↔ ∀ c ∈ s, b = c := by
  rw [Finset.card_eq_one]
  constructor
  · rintro ⟨x, hx⟩ c hc
    have hb : b ∈ insert b s := Finset.mem_insert_self b s
    have hc : c ∈ insert b s := Finset.mem_insert_of_mem hc
    rw [hx, Finset.mem_singleton] at hb hc
    rw [hb, hc]
  · intro h
    refine ⟨b, ?_⟩
    ext c
    rw [Finset.mem_insert, Finset.mem_singleton]
    exact ⟨fun hc => hc.elim id fun hc => (h c hc).symm, .inl⟩

/-- **When a controller serves its rules.** Behind a call that returns, every rule has the controller and one
group owns it if and only if there is one rule and no other group has it; where there is no rule, the
table had it with one group before. -/
theorem on_request_serves_iff (method : List method_t) (ctrlr : ctrlr_arg A) (paths : List Bytes) (m : handler_table A)
    (h : (on_request method ctrlr.handler paths m).2 = .ok ()) :
    Serves (on_request method ctrlr.handler paths m).1 paths ctrlr.object ∧
        (owners (on_request method ctrlr.handler paths m).1 ctrlr.object).card = 1 ↔
      (paths.length = 1 ∧ ∀ b ∈ owners m ctrlr.object, ctrlr.group = some b) ∨
        (paths = [] ∧ (owners m ctrlr.object).card = 1) := by
  match paths, ctrlr with
  | [], ctrlr => simp [Serves, on_request]
  | [path_rule], .shared b =>
    have hserves : Serves (on_request method (.shared (some b)) [path_rule] m).1 [path_rule] b.object := by
      intro rule hrule
      obtain rfl := List.mem_singleton.mp hrule
      exact ⟨_, b, rfl, find_first method _ rule [] m h⟩
    simp only [ctrlr_arg.handler, ctrlr_arg.object, ctrlr_arg.group, hserves, true_and]
    rw [shared_owners method b path_rule [] m h, card_insert_eq_one_iff]
    simp
  | first :: second :: paths, .shared b =>
    have hnot := shared_serves_not method b first second paths m h
    simp only [ctrlr_arg.handler, ctrlr_arg.object, hnot, false_and, false_iff]
    simp
  | path_rule :: paths, .raw a =>
    have hserves := raw_serves method a (path_rule :: paths) m h
    have hcard := raw_owners method a (path_rule :: paths) m h
    simp only [ctrlr_arg.handler, ctrlr_arg.object, ctrlr_arg.group, hserves, true_and, hcard, List.length_cons]
    have hnone : (∀ b ∈ owners m a, (none : Option (ctrlr_block A)) = some b) ↔ (owners m a).card = 0 := by
      rw [Finset.card_eq_zero, Finset.eq_empty_iff_forall_notMem]
      simp
    rw [hnone]
    simp only [reduceCtorEq, false_and, or_false]
    omega

theorem on_request_serves_one :
    Serves (on_request [] (.raw (some 8)) [ascii "/b"] oneRule).1 [ascii "/b"] 8 ∧
      (owners (on_request [] (.raw (some 8)) [ascii "/b"] oneRule).1 8).card = 1 :=
  (on_request_serves_iff [] (.raw 8) [ascii "/b"] oneRule (by rfl)).mpr (.inl ⟨rfl, by decide +kernel⟩)

theorem on_request_serves_two :
    ¬ ∀ (method : List method_t) (ctrlr : ctrlr_arg ℕ) (paths : List Bytes) (m : handler_table ℕ), paths.Nodup →
      (on_request method ctrlr.handler paths m).2 = .ok () → owners m ctrlr.object = ∅ →
        Serves (on_request method ctrlr.handler paths m).1 paths ctrlr.object ∧
          (owners (on_request method ctrlr.handler paths m).1 ctrlr.object).card = 1 := by
  intro hall
  have hshared := hall [] (.shared ⟨5, 8⟩) [ascii "/b", ascii "/c"] oneRule (by decide) (by rfl) (by decide +kernel)
  rw [on_request_serves_iff [] (.shared ⟨5, 8⟩) [ascii "/b", ascii "/c"] oneRule (by rfl)] at hshared
  simp at hshared

end Libgs.Server
