import Libgs.Ini.Escapes
import Mathlib.Tactic.SplitIfs

/-!
# A save that fails

`sync` statement by statement, in an environment in which it is cancelled or the stream fails.
-/

namespace Libgs.basic_ini

open Lib ini_keyword_char

/-- What the call meets: if the file can be opened, before which groups the call is cancelled, which of the insertions
fail, and how many of the inserted bytes are in the file when it is closed. -/
structure environment where
  opens : Bool
  cancelled : ℕ → Bool
  fails : ℕ → Bool
  kept : ℕ

/-- The statements of `sync` that matter for the file and for the store -/
inductive statement
  /-- `if( cancelled() )` in front of a group -/
  | ask (group : ℕ)
  /-- `file << text` -/
  | put (text : Bytes)
  /-- `value = value->substr(1)` -/
  | strip (group key value : Bytes)
  deriving DecidableEq, Repr

/-! ## The statements of the loops, in their order -/

/-- A key with its value, as it is written -/
def save_key (group key value : Bytes) : List statement :=
  if skipped key value then []
  else
    [.put (encode_text key), .put [assigning]] ++
      (if is_rlnum value then
        if value.head? = some 0x2B then [.strip group key value, .put (value.drop 1)] else [.put value]
      else [.put [double_quotes], .put (encode_text value), .put [double_quotes]]) ++ [.put [line_break]]

/-- A group with its keys, and a blank line -/
def save_group (n : ℕ) (group : Bytes) (keys : ini_keys_t) : List statement :=
  [.ask n, .put [left_bracket], .put (encode_text group), .put [right_bracket], .put [line_break]] ++
    keys.entries.flatMap (fun e => save_key group e.1 e.2) ++ [.put [line_break]]

def save_groups : ℕ → List (Bytes × ini_keys_t) → List statement
  | _, [] => []
  | n, (group, keys) :: more => save_group n group keys ++ save_groups (n + 1) more

/-- All statements of `sync` for a store -/
def statements (p : impl) : List statement := save_groups 0 p.m_groups.entries

/-! ## Carrying them out -/

/-- `text` is what has been given to the stream, with `puts` insertions. -/
structure save_loop where
  obj : impl
  text : Bytes
  puts : ℕ

/-- What the statements leave, and the error that stopped them -/
structure save_end where
  loop : save_loop
  error : Option ini_error

section

variable (env : environment)

/-- The error with which the call stops at the statement -/
def refusal (s : save_loop) : statement → Option ini_error
  | .ask n => if env.cancelled n then some errc.operation_aborted else none
  | .put _ => if env.fails s.puts then some errc.stream else none
  | .strip _ _ _ => none

/-- The statement goes well. -/
def carry_out (s : save_loop) : statement → save_loop
  | .ask _ => s
  | .put text => { s with text := s.text ++ text, puts := s.puts + 1 }
  | .strip group key value => { s with obj := s.obj.store group key (value.drop 1) }

/-- An insertion that fails has not written the last of its characters. -/
def refused (s : save_loop) : statement → save_loop
  | .put text => { s with text := s.text ++ text.dropLast }
  | _ => s

/-- Statement after statement, up to the first that stops the call -/
def perform : List statement → save_loop → save_end
  | [], s => ⟨s, none⟩
  | a :: more, s =>
    match refusal env s a with
    | some code => ⟨refused s a, some code⟩
    | none => perform more (carry_out s a)

def save_start (p : impl) : save_loop := ⟨p, [], 0⟩

/-- `sync`. A file that cannot be opened is an error of its own. -/
def save (p : impl) : save_end :=
  if env.opens then perform env (statements p) (save_start p) else ⟨save_start p, some errc.stream⟩

/-- The file after the call. Opening it has emptied it. -/
def disk (p : impl) (old : Option Bytes) : Option Bytes :=
  if env.opens then some ((save env p).loop.text.take env.kept) else old

end

/-! ## Runs of statements -/

section

variable {env : environment}

theorem perform_refused {a : statement} {s : save_loop} {code : ini_error} (h : refusal env s a = some code)
    (more : List statement) : perform env (a :: more) s = ⟨refused s a, some code⟩ := by
  rw [perform, h]

theorem perform_next {a : statement} {s : save_loop} (h : refusal env s a = none) (more : List statement) :
    perform env (a :: more) s = perform env more (carry_out s a) := by
  rw [perform, h]

theorem perform_append (acts more : List statement) (s : save_loop) :
    perform env (acts ++ more) s =
      if (perform env acts s).error = none then perform env more (perform env acts s).loop else perform env acts s := by
  induction acts generalizing s with
  | nil => rfl
  | cons a acts ih =>
    rw [List.cons_append]
    cases hrefusal : refusal env s a with
    | some code =>
      rw [perform_refused hrefusal, perform_refused hrefusal]
      rfl
    | none => rw [perform_next hrefusal, perform_next hrefusal, ih]

/-! ## The store -/

/-- The value in the store -/
def entry (p : impl) (group key : Bytes) : Option Bytes := (p.m_groups.find group).bind fun keys => keys.find key

theorem entry_store (p : impl) (group key value group' key' : Bytes) :
    entry (p.store group key value) group' key' =
      if group' = group ∧ key' = key then some value else entry p group' key' := by
  unfold entry impl.store
  by_cases hgroup : group' = group
  · subst hgroup
    rw [OrderedMap.find_alter_self, Option.bind_some]
    by_cases hkey : key' = key
    · subst hkey
      rw [if_pos ⟨rfl, rfl⟩, OrderedMap.find_assign_self _ _ _ _ rfl]
    · rw [if_neg fun h => hkey h.2, OrderedMap.find_assign_ne _ _ _ _ (string_rank_injective.ne hkey)]
      cases p.m_groups.find group' <;> rfl
  · rw [if_neg fun h => hgroup h.1, OrderedMap.find_alter_ne _ _ _ _ (string_rank_injective.ne hgroup)]

/-- A number with a plus sign that is written. -/
def Plussed (key value : Bytes) : Prop := skipped key value = false ∧ is_rlnum value = true ∧ value.head? = some 0x2B

theorem mem_save_key (group key value g k v : Bytes) :
    statement.strip g k v ∈ save_key group key value ↔ (g = group ∧ k = key ∧ v = value) ∧ Plussed key value := by
  unfold save_key Plussed
  cases skipped key value <;> cases is_rlnum value <;> by_cases hplus : value.head? = some 0x2B <;> simp [hplus]

theorem mem_save_groups (n : ℕ) (gs : List (Bytes × ini_keys_t)) (g k v : Bytes) :
    statement.strip g k v ∈ save_groups n gs ↔
      ∃ keys, (g, keys) ∈ gs ∧ (k, v) ∈ keys.entries ∧ Plussed k v := by
  induction gs generalizing n with
  | nil => simp [save_groups]
  | cons e gs ih =>
    obtain ⟨group, keys⟩ := e
    unfold save_groups save_group
    simp only [List.mem_append, List.mem_flatMap, mem_save_key, ih, List.mem_cons, Prod.mk.injEq, Prod.exists,
      reduceCtorEq, List.not_mem_nil, or_false, false_or]
    constructor
    · rintro (⟨key, value, hin, ⟨rfl, rfl, rfl⟩, hplus⟩ | ⟨keys', hin, hrest⟩)
      · exact ⟨keys, .inl ⟨rfl, rfl⟩, hin, hplus⟩
      · exact ⟨keys', .inr hin, hrest⟩
    · rintro ⟨keys', ⟨rfl, rfl⟩ | hin, hrest⟩
      · exact .inl ⟨k, v, hrest.1, ⟨rfl, rfl, rfl⟩, hrest.2⟩
      · exact .inr ⟨keys', hin, hrest⟩

theorem strip_entry (p : impl) (g k v : Bytes) (h : .strip g k v ∈ statements p) :
    entry p g k = some v ∧ v.head? = some 0x2B := by
  obtain ⟨keys, hgroup, hkey, hplus⟩ := (mem_save_groups 0 p.m_groups.entries g k v).mp h
  unfold entry
  rw [OrderedMap.find_of_mem _ _ hgroup, Option.bind_some, OrderedMap.find_of_mem _ _ hkey]
  exact ⟨rfl, hplus.2.2⟩

theorem refused_obj (s : save_loop) (a : statement) : (refused s a).obj = s.obj := by
  cases a <;> rfl

theorem perform_stripped (p : impl) (acts : List statement) (s : save_loop)
    (hacts : ∀ g k v, .strip g k v ∈ acts → entry p g k = some v) (g k v : Bytes) (hv : entry p g k = some v)
    (hs : entry s.obj g k = some (v.drop 1)) : entry (perform env acts s).loop.obj g k = some (v.drop 1) := by
  induction acts generalizing s with
  | nil => exact hs
  | cons a acts ih =>
    cases hrefusal : refusal env s a with
    | some code =>
      rw [perform_refused hrefusal]
      dsimp only
      rw [refused_obj, hs]
    | none =>
      rw [perform_next hrefusal]
      refine ih _ (fun g k v h => hacts g k v (List.mem_cons_of_mem _ h)) ?_
      cases a with
      | ask n => exact hs
      | put text => exact hs
      | strip g' k' v' =>
        have hv' := hacts g' k' v' List.mem_cons_self
        unfold carry_out
        rw [entry_store]
        split_ifs with hsame
        · obtain ⟨rfl, rfl⟩ := hsame
          rw [hv] at hv'
          cases hv'
          rfl
        · exact hs

theorem perform_idle (acts : List statement) (s : save_loop)
    (h : ∀ done g k v rest, acts = done ++ .strip g k v :: rest → (perform env done s).error ≠ none) :
    (perform env acts s).loop.obj = s.obj := by
  induction acts generalizing s with
  | nil => rfl
  | cons a acts ih =>
    cases hrefusal : refusal env s a with
    | some code =>
      rw [perform_refused hrefusal]
      exact refused_obj s a
    | none =>
      have hrest : (perform env acts (carry_out s a)).loop.obj = (carry_out s a).obj := by
        refine ih _ fun done g k v rest hsplit => ?_
        have := h (a :: done) g k v rest (by rw [hsplit, List.cons_append])
        rwa [perform_next hrefusal] at this
      rw [perform_next hrefusal, hrest]
      cases a with
      | ask n => rfl
      | put text => rfl
      | strip g k v => exact absurd rfl (h [] g k v acts rfl)

/-- **Saving and the store.** The store is the same behind the call if and only if no number with a plus sign is come to
before the call stops. -/
theorem save_keeps_store_iff (env : environment) (p : impl) :
    (save env p).loop.obj = p ↔
      env.opens = false ∨ ∀ done group key value rest, statements p = done ++ .strip group key value :: rest →
        (perform env done (save_start p)).error ≠ none := by
  unfold save
  cases env.opens with
  | false => exact iff_of_true rfl (.inl rfl)
  | true =>
    rw [if_pos rfl, or_iff_right Bool.noConfusion]
    constructor
    · intro hkept done group key value rest hsplit hdone
      have hmem : ∀ g k v, .strip g k v ∈ rest → entry p g k = some v := fun g k v h =>
        (strip_entry p g k v (by rw [hsplit]; simp [h])).1
      obtain ⟨hvalue, hplus⟩ := strip_entry p group key value (by rw [hsplit]; simp)
      have hstripped : entry ((perform env done (save_start p)).loop.obj.store group key (value.drop 1)) group key =
          some (value.drop 1) := by
        rw [entry_store, if_pos ⟨rfl, rfl⟩]
      rw [hsplit, perform_append, if_pos hdone, perform_next rfl] at hkept
      have hend : entry (perform env rest (carry_out (perform env done (save_start p)).loop
          (.strip group key value))).loop.obj group key = some (value.drop 1) :=
        perform_stripped p rest _ hmem group key value hvalue hstripped
      rw [hkept, hvalue] at hend
      obtain ⟨more, rfl⟩ := List.head?_eq_some_iff.mp hplus
      simp at hend
    · exact fun h => perform_idle (statements p) (save_start p) h

/-! ## The file -/

/-- What the statement gives to the stream -/
def statement.text : statement → Bytes
  | .put text => text
  | _ => []

/-- What the statements give to the stream -/
def texts (acts : List statement) : Bytes := acts.flatMap statement.text

theorem texts_save_key (group key value : Bytes) : texts (save_key group key value) = sync_key key value := by
  unfold save_key sync_key sync_value
  cases skipped key value <;> cases is_rlnum value <;> by_cases hplus : value.head? = some 0x2B <;>
    simp [texts, statement.text, hplus]

theorem texts_save_group (n : ℕ) (group : Bytes) (keys : ini_keys_t) :
    texts (save_group n group keys) = sync_group group keys := by
  have hkeys : texts (keys.entries.flatMap fun e => save_key group e.1 e.2) =
      keys.entries.flatMap fun e => sync_key e.1 e.2 := by
    unfold texts
    rw [List.flatMap_assoc]
    exact List.flatMap_congr fun e _ => texts_save_key group e.1 e.2
  unfold save_group sync_group
  rw [← hkeys]
  simp [texts, statement.text]

theorem texts_save_groups (n : ℕ) (gs : List (Bytes × ini_keys_t)) :
    texts (save_groups n gs) = gs.flatMap fun e => sync_group e.1 e.2 := by
  induction gs generalizing n with
  | nil => rfl
  | cons e gs ih =>
    rw [List.flatMap_cons, ← ih (n + 1), ← texts_save_group n e.1 e.2]
    exact List.flatMap_append

/-- What the file holds when all is well. -/
def serialization (p : impl) : Bytes := (sync p never).file

theorem texts_statements (p : impl) : texts (statements p) = serialization p :=
  (texts_save_groups 0 p.m_groups.entries).trans (sync_file p.m_groups).symm

theorem save_groups_last (n : ℕ) (gs : List (Bytes × ini_keys_t)) :
    save_groups n gs = [] ∨ ∃ front, save_groups n gs = front ++ [.put [line_break]] := by
  induction gs generalizing n with
  | nil => exact .inl rfl
  | cons e gs ih =>
    right
    unfold save_groups
    rcases ih (n + 1) with hnone | ⟨front, hfront⟩
    · rw [hnone, List.append_nil]
      exact ⟨_, rfl⟩
    · rw [hfront, ← List.append_assoc]
      exact ⟨_, rfl⟩

theorem perform_text (front : List statement) (s : save_loop)
    (h : (perform env (front ++ [.put [line_break]]) s).error ≠ none) :
    ∃ given, (perform env (front ++ [.put [line_break]]) s).loop.text = s.text ++ given ∧
      given <+: texts (front ++ [.put [line_break]]) ∧
        given.length < (texts (front ++ [.put [line_break]])).length := by
  induction front generalizing s with
  | nil =>
    cases hrefusal : refusal env s (.put [line_break]) with
    | none =>
      rw [List.nil_append, perform_next hrefusal] at h
      exact absurd rfl h
    | some code =>
      rw [List.nil_append, perform_refused hrefusal]
      exact ⟨[], rfl, List.nil_prefix, Nat.zero_lt_one⟩
  | cons a front ih =>
    rw [List.cons_append] at h ⊢
    have htexts : texts (a :: (front ++ [.put [line_break]])) = a.text ++ texts (front ++ [.put [line_break]]) := rfl
    have hpos : 0 < (texts (front ++ [.put [line_break]])).length := by simp [texts, statement.text]
    rw [htexts, List.length_append]
    cases hrefusal : refusal env s a with
    | some code =>
      rw [perform_refused hrefusal]
      refine ⟨a.text.dropLast, ?_, (List.dropLast_prefix _).trans (List.prefix_append _ _), ?_⟩
      · cases a <;> simp [refused, statement.text]
      · rw [List.length_dropLast]
        omega
    | none =>
      rw [perform_next hrefusal] at h ⊢
      obtain ⟨given, htext, hfront, hlt⟩ := ih _ h
      refine ⟨a.text ++ given, ?_, (List.prefix_append_right_inj _).mpr hfront, ?_⟩
      · rw [htext]
        cases a <;> simp [carry_out, statement.text]
      · rw [List.length_append]
        omega

theorem save_text (p : impl) (hopens : env.opens = true) (h : (save env p).error ≠ none) :
    (save env p).loop.text <+: serialization p ∧ (save env p).loop.text.length < (serialization p).length := by
  rw [← texts_statements]
  unfold save at h ⊢
  rw [if_pos hopens] at h ⊢
  rcases save_groups_last 0 p.m_groups.entries with hnone | ⟨front, hfront⟩
  · rw [statements, hnone] at h
    exact absurd rfl h
  · rw [statements, hfront] at h ⊢
    obtain ⟨given, htext, hgiven⟩ := perform_text front (save_start p) h
    rw [htext]
    exact hgiven

/-! ## Where the call stops -/

/-- How many insertions there are among the statements. -/
def puts : List statement → ℕ
  | [] => 0
  | .put _ :: more => puts more + 1
  | _ :: more => puts more

/-- If the call is not carried on at the statement that comes behind `done`: it is cancelled before this group, or this
insertion fails. -/
def stops (env : environment) (done : List statement) : statement → Bool
  | .ask n => env.cancelled n
  | .put _ => env.fails (puts done)
  | .strip _ _ _ => false

/-- The first of the statements that stops the call is `a`, behind `done`. -/
structure FirstStop (env : environment) (acts done : List statement) (a : statement) : Prop where
  split : ∃ rest, acts = done ++ a :: rest
  here : stops env done a = true
  before : ∀ front b back, done = front ++ b :: back → stops env front b = false

theorem puts_append (acts more : List statement) : puts (acts ++ more) = puts acts + puts more := by
  induction acts with
  | nil => exact (Nat.zero_add _).symm
  | cons a acts ih =>
    cases a with
    | put text =>
      show puts (acts ++ more) + 1 = puts acts + 1 + puts more
      omega
    | ask n => exact ih
    | strip group key value => exact ih

theorem refusal_none_iff {done : List statement} {s : save_loop} (hs : s.puts = puts done) (a : statement) :
    refusal env s a = none ↔ stops env done a = false := by
  cases a with
  | ask n =>
    unfold refusal stops
    cases env.cancelled n <;> simp
  | put text =>
    unfold refusal stops
    rw [hs]
    cases env.fails (puts done) <;> simp
  | strip group key value => exact iff_of_true rfl rfl

theorem carry_out_puts {done : List statement} {s : save_loop} (hs : s.puts = puts done) (a : statement) :
    (carry_out s a).puts = puts (done ++ [a]) := by
  rw [puts_append, ← hs]
  cases a <;> rfl

theorem carry_out_text (s : save_loop) (a : statement) : (carry_out s a).text = s.text ++ a.text := by
  cases a <;> simp [carry_out, statement.text]

theorem perform_past (past done : List statement) (s : save_loop) (hs : s.puts = puts past)
    (h : ∀ front b back, done = front ++ b :: back → stops env (past ++ front) b = false) :
    (perform env done s).error = none ∧ (perform env done s).loop.puts = puts (past ++ done) ∧
      (perform env done s).loop.text = s.text ++ texts done := by
  induction done generalizing past s with
  | nil => exact ⟨rfl, by rw [List.append_nil]; exact hs, (List.append_nil _).symm⟩
  | cons a done ih =>
    have hgo : stops env past a = false := by
      have := h [] a done rfl
      rwa [List.append_nil] at this
    have hrest : ∀ front b back, done = front ++ b :: back → stops env (past ++ [a] ++ front) b = false := by
      intro front b back hsplit
      rw [List.append_assoc, List.singleton_append]
      exact h (a :: front) b back (by rw [hsplit, List.cons_append])
    obtain ⟨herror, hputs, htext⟩ := ih (past ++ [a]) (carry_out s a) (carry_out_puts hs a) hrest
    rw [perform_next ((refusal_none_iff hs a).mpr hgo)]
    refine ⟨herror, ?_, ?_⟩
    · rw [hputs, List.append_assoc, List.singleton_append]
    · rw [htext, carry_out_text, List.append_assoc]
      rfl

theorem perform_first_stop {acts done : List statement} {a : statement} (h : FirstStop env acts done a) (p : impl) :
    (perform env acts (save_start p)).loop.text = texts done ++ a.text.dropLast := by
  obtain ⟨rest, rfl⟩ := h.split
  obtain ⟨herror, hputs, htext⟩ := perform_past [] done (save_start p) rfl h.before
  rw [perform_append, if_pos herror]
  cases hrefusal : refusal env (perform env done (save_start p)).loop a with
  | none =>
    have hgo : stops env done a = false := (refusal_none_iff hputs a).mp hrefusal
    rw [h.here] at hgo
    exact absurd hgo Bool.noConfusion
  | some code =>
    have hrefused (s : save_loop) : (refused s a).text = s.text ++ a.text.dropLast := by
      cases a <;> simp [refused, statement.text]
    rw [perform_refused hrefusal]
    dsimp only
    rw [hrefused, htext]
    rfl

theorem exists_first_stop (acts past : List statement) (s : save_loop) (hs : s.puts = puts past)
    (h : (perform env acts s).error ≠ none) :
    ∃ done a rest, acts = done ++ a :: rest ∧ stops env (past ++ done) a = true ∧
      ∀ front b back, done = front ++ b :: back → stops env (past ++ front) b = false := by
  induction acts generalizing past s with
  | nil => exact absurd rfl h
  | cons a acts ih =>
    cases hgo : stops env past a with
    | true =>
      refine ⟨[], a, acts, rfl, ?_, fun front b back hsplit => ?_⟩
      · rw [List.append_nil, hgo]
      · exact absurd hsplit.symm (List.append_ne_nil_of_right_ne_nil _ (List.cons_ne_nil _ _))
    | false =>
      rw [perform_next ((refusal_none_iff hs a).mpr hgo)] at h
      obtain ⟨done, b, rest, hsplit, hhere, hbefore⟩ := ih (past ++ [a]) (carry_out s a) (carry_out_puts hs a) h
      rw [List.append_assoc, List.singleton_append] at hhere
      refine ⟨a :: done, b, rest, by rw [hsplit, List.cons_append], hhere, fun front c back hfront => ?_⟩
      cases front with
      | nil =>
        cases hfront
        rw [List.append_nil, hgo]
      | cons d front =>
        rw [List.cons_append, List.cons.injEq] at hfront
        obtain ⟨rfl, hdone⟩ := hfront
        have := hbefore front c back hdone
        rwa [List.append_assoc, List.singleton_append] at this

theorem save_stops (p : impl) (hopens : env.opens = true) (h : (save env p).error ≠ none) :
    ∃ done a, FirstStop env (statements p) done a := by
  unfold save at h
  rw [if_pos hopens] at h
  obtain ⟨done, a, rest, hsplit, hhere, hbefore⟩ := exists_first_stop (statements p) [] (save_start p) rfl h
  exact ⟨done, a, ⟨rest, hsplit⟩, hhere, hbefore⟩

/-- **Saving and the old file.** After a call that fails the file has its old content or the new one if and only if it
could not be opened, or the old content is what stands in front of the first stop. -/
theorem save_keeps_file_iff (env : environment) (p : impl) (old : Option Bytes) (h : (save env p).error ≠ none) :
    (disk env p old = old ∨ disk env p old = some (serialization p)) ↔
      env.opens = false ∨ ∃ done a, FirstStop env (statements p) done a ∧
        old = some ((texts done ++ a.text.dropLast).take env.kept) := by
  unfold disk
  cases hopens : env.opens with
  | false => exact iff_of_true (.inl rfl) (.inl rfl)
  | true =>
    have htext : ∀ done a, FirstStop env (statements p) done a →
        (save env p).loop.text = texts done ++ a.text.dropLast := fun done a hstop => by
      unfold save
      rw [if_pos hopens]
      exact perform_first_stop hstop p
    have hshort : some ((save env p).loop.text.take env.kept) ≠ some (serialization p) := by
      intro hall
      have := congrArg List.length (Option.some.inj hall)
      have hlt := (save_text p hopens h).2
      rw [List.length_take] at this
      omega
    rw [if_pos rfl, or_iff_left hshort, or_iff_right Bool.noConfusion]
    constructor
    · intro hold
      obtain ⟨done, a, hstop⟩ := save_stops p hopens h
      exact ⟨done, a, hstop, by rw [← htext done a hstop, hold]⟩
    · rintro ⟨done, a, hstop, rfl⟩
      rw [htext done a hstop]

end

/-- `[a]` with `k` as +1 -/
def plussed : impl := ({} : impl).store (ascii "a") (ascii "k") (ascii "+1")

def calm : environment where
  opens := true
  cancelled := never
  fails := never
  kept := 100

theorem plussed_not_kept : ¬ ∀ (env : environment) (p : impl), (save env p).loop.obj = p := by
  intro hall
  exact absurd (congrArg (fun p => entry p (ascii "a") (ascii "k")) (hall calm plussed)) (by decide +kernel)

/-- A save that is cancelled before its first group -/
def stopped : environment := { calm with cancelled := fun _ => true }

/-- A save whose fifth insertion fails, that of the key -/
def torn : environment := { calm with fails := fun n => n == 4 }

theorem torn_keeps_file :
    (disk torn plussed (some (ascii "[a]\n")) = some (ascii "[a]\n") ∨
        disk torn plussed (some (ascii "[a]\n")) = some (serialization plussed)) ↔
      torn.opens = false ∨ ∃ done a, FirstStop torn (statements plussed) done a ∧
        some (ascii "[a]\n") = some ((texts done ++ a.text.dropLast).take torn.kept) :=
  save_keeps_file_iff torn plussed (some (ascii "[a]\n")) (by decide +kernel)

/-- The old content is gone, and nothing of the new one is there. -/
theorem stopped_loses_file :
    ¬ ∀ (env : environment) (p : impl) (old : Option Bytes), (save env p).error ≠ none →
      disk env p old = old ∨ disk env p old = some (serialization p) := by
  intro hall
  have hdisk := hall stopped plussed (some (ascii "old")) (by decide +kernel)
  revert hdisk
  decide +kernel

/-! ## The save in which no insertion fails -/

section

variable {env : environment}

/-- The statements have all gone well. -/
def carried (s : save_loop) (acts : List statement) : save_loop := acts.foldl carry_out s

theorem perform_all (acts : List statement) (s : save_loop) (h : ∀ a ∈ acts, ∀ s, refusal env s a = none) :
    perform env acts s = ⟨carried s acts, none⟩ := by
  induction acts generalizing s with
  | nil => rfl
  | cons a acts ih =>
    rw [perform_next (h a List.mem_cons_self s), ih _ fun a ha => h a (List.mem_cons_of_mem _ ha)]
    rfl

theorem carried_text (s : save_loop) (acts : List statement) : (carried s acts).text = s.text ++ texts acts := by
  induction acts generalizing s with
  | nil => exact (List.append_nil _).symm
  | cons a acts ih =>
    have hrest := ih (carry_out s a)
    rw [carry_out_text, List.append_assoc] at hrest
    exact hrest

/-- The store with the values `ks` behind those `kd` of the group, among the other groups. -/
def Holds (p : impl) (done : List (Bytes × ini_keys_t)) (group : Bytes) (kd ks : List (Bytes × Bytes))
    (more : List (Bytes × ini_keys_t)) : Prop :=
  ∃ keys : ini_keys_t, keys.entries = kd ++ ks ∧ p.m_groups.entries = done ++ (group, keys) :: more

theorem holds_store {p : impl} {done more : List (Bytes × ini_keys_t)} {group key value : Bytes}
    {kd ks : List (Bytes × Bytes)} (h : Holds p done group kd ((key, value) :: ks) more) (text : Bytes) :
    Holds (p.store group key text) done group (kd ++ [(key, text)]) ks more := by
  obtain ⟨keys, hkeys, hgroups⟩ := h
  have hdone : ∀ a ∈ done, string_rank a.1 < string_rank group := fun a ha =>
    (List.pairwise_append.mp (hgroups ▸ p.m_groups.sorted)).2.2 a ha _ List.mem_cons_self
  have hkd : ∀ a ∈ kd, string_rank a.1 < string_rank key := fun a ha =>
    (List.pairwise_append.mp (hkeys ▸ keys.sorted)).2.2 a ha _ List.mem_cons_self
  refine ⟨keys.assign key text, ?_, ?_⟩
  · show alterEntry string_rank key _ keys.entries = _
    rw [hkeys, alterEntry_at key value _ kd ks hkd]
    simp
  · show alterEntry string_rank group _ p.m_groups.entries = _
    rw [hgroups]
    exact alterEntry_at group keys _ done more hdone

theorem carried_key {s : save_loop} {done more : List (Bytes × ini_keys_t)} {group key value : Bytes}
    {kd ks : List (Bytes × Bytes)} (h : Holds s.obj done group kd ((key, value) :: ks) more) :
    Holds (carried s (save_key group key value)).obj done group (kd ++ [(key, sync_value key value)]) ks more := by
  have hsame : Holds s.obj done group (kd ++ [(key, value)]) ks more := by
    obtain ⟨keys, hkeys, hgroups⟩ := h
    exact ⟨keys, by rw [hkeys]; simp, hgroups⟩
  have hstore := holds_store h (value.drop 1)
  rw [List.drop_one] at hstore
  unfold save_key sync_value
  cases skipped key value <;> cases is_rlnum value <;> by_cases hplus : value.head? = some 0x2B <;>
    simpa [carried, carry_out, hplus] using by assumption

theorem carried_keys {done more : List (Bytes × ini_keys_t)} {group : Bytes} (ks kd : List (Bytes × Bytes))
    (s : save_loop) (h : Holds s.obj done group kd ks more) :
    Holds (carried s (ks.flatMap fun e => save_key group e.1 e.2)).obj done group
      (kd ++ ks.map fun e => (e.1, sync_value e.1 e.2)) [] more := by
  induction ks generalizing kd s with
  | nil => simpa [carried] using h
  | cons e ks ih =>
    have hrest := ih _ (carried s (save_key group e.1 e.2)) (carried_key h)
    rw [List.append_assoc, List.singleton_append] at hrest
    unfold carried at hrest ⊢
    rwa [List.flatMap_cons, List.foldl_append]

theorem ask_not_in_key (n : ℕ) (group key value : Bytes) : .ask n ∉ save_key group key value := by
  unfold save_key
  split_ifs <;> simp

theorem save_group_cons (n : ℕ) (group : Bytes) (keys : ini_keys_t) :
    ∃ body, save_group n group keys = .ask n :: body ∧ (∀ k, .ask k ∉ body) ∧ texts body = sync_group group keys ∧
      ∀ s, ∃ t : save_loop, t.obj = s.obj ∧
        (carried s body).obj = (carried t (keys.entries.flatMap fun e => save_key group e.1 e.2)).obj := by
  let front : List statement :=
    [.put [left_bracket], .put (encode_text group), .put [right_bracket], .put [line_break]]
  refine ⟨front ++ keys.entries.flatMap (fun e => save_key group e.1 e.2) ++ [.put [line_break]], rfl, fun k => ?_,
    texts_save_group n group keys, fun s => ⟨carried s front, rfl, ?_⟩⟩
  · simp [front, ask_not_in_key]
  · unfold carried
    rw [List.foldl_append, List.foldl_append]
    rfl

theorem save_groups_calm (hfails : ∀ n, env.fails n = false) (gs : List (Bytes × ini_keys_t)) (n : ℕ)
    (done : List (Bytes × ini_keys_t)) (s : save_loop) (h : s.obj.m_groups.entries = done ++ gs) :
    (perform env (save_groups n gs) s).error = (sync_groups env.cancelled n gs).error ∧
      (perform env (save_groups n gs) s).loop.text = s.text ++ (sync_groups env.cancelled n gs).file ∧
      (perform env (save_groups n gs) s).loop.obj.m_groups.entries =
        done ++ (sync_groups env.cancelled n gs).groups := by
  induction gs generalizing n done s with
  | nil => exact ⟨rfl, (List.append_nil _).symm, h⟩
  | cons e gs ih =>
    obtain ⟨group, keys⟩ := e
    obtain ⟨body, hbody, hput, htexts, hobj⟩ := save_group_cons n group keys
    unfold save_groups sync_groups
    rw [hbody, List.cons_append]
    cases hgo : env.cancelled n with
    | true =>
      have hrefusal : refusal env s (.ask n) = some errc.operation_aborted := if_pos hgo
      rw [perform_refused hrefusal, if_pos rfl]
      exact ⟨rfl, (List.append_nil _).symm, h⟩
    | false =>
      have hall : perform env body s = ⟨carried s body, none⟩ := by
        refine perform_all body s fun a ha t => ?_
        cases a with
        | ask k => exact absurd ha (hput k)
        | put text => simp [refusal, hfails]
        | strip g k v => rfl
      obtain ⟨t, hsame, hobj⟩ := hobj s
      obtain ⟨keys', hkeys', hgroups'⟩ := carried_keys keys.entries [] t ⟨keys, rfl, hsame ▸ h⟩
      have hsynced : keys' = keys.mapValues sync_value := by
        apply OrderedMap.ext_entries
        rw [hkeys', List.append_nil, List.nil_append]
        rfl
      have hentries : (carried s body).obj.m_groups.entries = done ++ [(group, keys.mapValues sync_value)] ++ gs := by
        rw [hobj, hgroups', hsynced]
        simp
      obtain ⟨herror, htext, hrest⟩ := ih (n + 1) _ (carried s body) hentries
      have hrefusal : refusal env s (.ask n) = none := by simp [refusal, hgo]
      rw [perform_next hrefusal, perform_append, show carry_out s (.ask n) = s from rfl, hall, if_pos rfl,
        if_neg Bool.false_ne_true]
      refine ⟨herror, ?_, ?_⟩
      · rw [htext, carried_text, htexts, List.append_assoc]
      · rw [hrest]
        simp

/-- **The save is the one of the store**, where the file can be opened and no insertion fails. -/
theorem save_calm (p : impl) (hopens : env.opens = true) (hfails : ∀ n, env.fails n = false) :
    (save env p).error = (sync p env.cancelled).error ∧ (save env p).loop.text = (sync p env.cancelled).file ∧
      (save env p).loop.obj = (sync p env.cancelled).obj := by
  unfold save
  rw [if_pos hopens]
  obtain ⟨herror, htext, hobj⟩ := save_groups_calm hfails p.m_groups.entries 0 [] (save_start p) rfl
  refine ⟨herror, htext, ?_⟩
  have hgroups : (perform env (statements p) (save_start p)).loop.obj.m_groups = (sync p env.cancelled).obj.m_groups :=
    OrderedMap.ext_entries hobj
  cases hp : (perform env (statements p) (save_start p)).loop.obj with
  | mk m_groups =>
    rw [hp] at hgroups
    exact congrArg impl.mk hgroups

end

end Libgs.basic_ini
