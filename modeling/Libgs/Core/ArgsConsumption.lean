import Libgs.Core.ArgsParser

/-!
# What becomes of each argument

The turns of `parsing` as what each argument does to the result, and how often an argument is consumed.
-/

namespace Libgs.cmdline

open Lib

/-! ## Actions -/

/-- What an argument does, one thing after the other: it is an option that brings its value along, an option whose value
is the next argument, or a text that is appended to `other` with or without a look into the cache. -/
inductive action
  | option (is_group : Bool) (key : Bytes) (info : arg_info) (value : Bytes)
  | next (key : Bytes) (info : arg_info)
  | positional
  | append

namespace action

/-- The action takes the argument behind its own for the value. -/
def is_next : action → Bool
  | .next _ _ => true
  | _ => false

/-- The action records the value of an option. -/
def is_option : action → Bool
  | .option _ _ _ _ | .next _ _ => true
  | .positional | .append => false

end action

/-- The arguments that are passed over -/
def IsDash (arg : Bytes) : Prop := arg = ascii "-" ∨ arg = ascii "--"

instance (arg : Bytes) : Decidable (IsDash arg) := inferInstanceAs (Decidable (_ ∨ _))

namespace args_parser_impl

variable (p : args_parser_impl)

/-- What is done for a letter of a combination that has another one behind it -/
def letter_action (c : UInt8) : action :=
  match p.m_flag.find (letter_option c) with
  | some info => .option false (letter_option c) info info.iden
  | none => .positional

/-- What is done for the last letter of a combination -/
def last_action (c : UInt8) : action :=
  match p.m_flag.find (letter_option c) with
  | some info => .option false (letter_option c) info info.iden
  | none =>
    match p.m_group.find (letter_option c) with
    | some info => .next (letter_option c) info
    | none => .append

/-- The argument is taken for letters behind a `-`. -/
def Combination (arg : Bytes) : Prop :=
  p.m_group.find arg = none ∧ p.m_flag.find arg = none ∧ 2 < arg.length ∧ cut (ascii "=") arg = none ∧
    arg.head? = some 45 ∧ arg.tail.all is_letter = true

def last_letter (arg : Bytes) : UInt8 := arg.getLast?.getD 0

/-- What a turn of the loop does for its argument, in this order -/
def actions (arg : Bytes) : List action :=
  if IsDash arg then []
  else
    match p.m_group.find arg with
    | some info => [.next arg info]
    | none =>
      match p.m_flag.find arg with
      | some info => [.option false arg info info.iden]
      | none =>
        if arg.length ≤ 2 then [.positional]
        else
          match cut (ascii "=") arg with
          | some (key, value) =>
            match p.m_group.find key with
            | none => [.positional]
            | some info => [.option true key info value]
          | none =>
            if arg.head? ≠ some 45 then [.positional]
            else if ¬ arg.tail.all is_letter then [.positional]
            else arg.tail.dropLast.map p.letter_action ++ [p.last_action (last_letter arg)]

/-- The turn uses up the argument behind its own. -/
def takes_next (arg : Bytes) : Bool := (p.actions arg).any action.is_next

/-- The actions are carried out one behind the other, up to the first that stops the loop. -/
def perform (arg : Bytes) (rest : List Bytes) : List action → parsed → Except stop parsed
  | [], s => .ok s
  | .option _ _ info value :: acts, s =>
    match s.record info value with
    | .error e => .error e
    | .ok s => perform arg rest acts s
  | .next _ info :: acts, s =>
    match p.next_value rest with
    | .error e => .error e
    | .ok value =>
      match s.record info value with
      | .error e => .error e
      | .ok s => perform arg rest acts s
  | .positional :: acts, s =>
    match s.positional arg with
    | .error e => .error e
    | .ok s => perform arg rest acts s
  | .append :: acts, s => perform arg rest acts (s.emplace_back arg)

/-! ## A turn is its actions -/

theorem perform_append (arg : Bytes) (rest : List Bytes) (acts more : List action) (s : parsed) :
    p.perform arg rest (acts ++ more) s =
      match p.perform arg rest acts s with
      | .error e => .error e
      | .ok s => p.perform arg rest more s := by
  induction acts generalizing s with
  | nil => rfl
  | cons a acts ih =>
    cases a with
    | option is_group key info value =>
      simp only [List.cons_append, perform]
      cases s.record info value with
      | error e => rfl
      | ok s => exact ih s
    | next key info =>
      simp only [List.cons_append, perform]
      cases p.next_value rest with
      | error e => rfl
      | ok value =>
        simp only
        cases s.record info value with
        | error e => rfl
        | ok s => exact ih s
    | positional =>
      simp only [List.cons_append, perform]
      cases s.positional arg with
      | error e => rfl
      | ok s => exact ih s
    | append => exact ih _

theorem combined_eq (arg : Bytes) (rest : List Bytes) (letters : List UInt8) (s : parsed) :
    p.combined arg letters s = p.perform arg rest (letters.map p.letter_action) s := by
  induction letters generalizing s with
  | nil => rfl
  | cons c letters ih =>
    unfold combined
    cases hflag : p.m_flag.find (letter_option c) with
    | none =>
      simp only [List.map_cons, letter_action, hflag, perform]
      cases s.positional arg with
      | error e => rfl
      | ok s => exact ih s
    | some info =>
      simp only [List.map_cons, letter_action, hflag, perform]
      cases s.record info info.iden with
      | error e => rfl
      | ok s => exact ih s

theorem perform_option (arg : Bytes) (rest : List Bytes) (s : parsed) (is_group : Bool) (key : Bytes) (info : arg_info)
    (value : Bytes) : p.perform arg rest [.option is_group key info value] s = s.record info value := by
  unfold perform
  cases s.record info value <;> rfl

theorem perform_next (arg : Bytes) (rest : List Bytes) (s : parsed) (key : Bytes) (info : arg_info) :
    (p.perform arg rest [.next key info] s).map (·, true) = p.record_next rest s info := by
  unfold perform record_next
  cases p.next_value rest with
  | error e => rfl
  | ok value =>
    simp only
    cases s.record info value <;> rfl

theorem perform_positional (arg : Bytes) (rest : List Bytes) (s : parsed) :
    p.perform arg rest [.positional] s = s.positional arg := by
  unfold perform
  cases s.positional arg <;> rfl

theorem combined_last_eq (arg : Bytes) (c : UInt8) (rest : List Bytes) (s : parsed) :
    p.combined_last arg c rest s = (p.perform arg rest [p.last_action c] s).map (·, (p.last_action c).is_next) := by
  unfold combined_last last_action
  cases p.m_flag.find (letter_option c) with
  | some info => exact congrArg (Except.map (·, false)) (p.perform_option arg rest s false _ info info.iden).symm
  | none =>
    cases p.m_group.find (letter_option c) with
    | some info => exact (p.perform_next arg rest s _ info).symm
    | none => rfl

theorem letter_action_next (c : UInt8) : (p.letter_action c).is_next = false := by
  unfold letter_action
  split <;> rfl

theorem takes_next_combination (letters : List UInt8) (c : UInt8) :
    (letters.map p.letter_action ++ [p.last_action c]).any action.is_next = (p.last_action c).is_next := by
  have hletters : (letters.map p.letter_action).any action.is_next = false := by
    simp [letter_action_next]
  rw [List.any_append, hletters]
  simp

/-- **A turn of the loop** performs the actions of its argument. -/
theorem turn_eq (arg : Bytes) (rest : List Bytes) (s : parsed) (hdash : ¬ IsDash arg) :
    p.turn arg rest s = (p.perform arg rest (p.actions arg) s).map (·, p.takes_next arg) := by
  have hpositional := congrArg (Except.map (·, false)) (p.perform_positional arg rest s).symm
  unfold turn takes_next actions
  rw [if_neg hdash]
  cases p.m_group.find arg with
  | some info => exact (p.perform_next arg rest s arg info).symm
  | none =>
    cases p.m_flag.find arg with
    | some info => exact congrArg (Except.map (·, false)) (p.perform_option arg rest s false arg info info.iden).symm
    | none =>
      by_cases hshort : arg.length ≤ 2
      · simp only [hshort, if_true]
        exact hpositional
      · simp only [hshort, if_false]
        unfold long_turn
        cases cut (ascii "=") arg with
        | some cutting =>
          obtain ⟨key, value⟩ := cutting
          simp only
          cases p.m_group.find key with
          | none => exact hpositional
          | some info =>
            exact congrArg (Except.map (·, false)) (p.perform_option arg rest s true key info value).symm
        | none =>
          simp only
          by_cases hhead : arg.head? ≠ some 45
          · simp only [if_pos hhead]
            exact hpositional
          · simp only [if_neg hhead]
            by_cases hletters : ¬ arg.tail.all is_letter
            · simp only [if_pos hletters]
              exact hpositional
            · simp only [if_neg hletters]
              rw [combined_eq p arg rest, takes_next_combination, perform_append]
              cases p.perform arg rest (arg.tail.dropLast.map p.letter_action) s with
              | error e => rfl
              | ok s => exact combined_last_eq p arg (last_letter arg) rest s

end args_parser_impl

/-! ## The run -/

/-- An argument that a turn begins with, and those behind it -/
structure visit where
  arg : Bytes
  rest : List Bytes

namespace action

/-- What the action appends to the other arguments -/
def text (arg : Bytes) (a : action) : Option Bytes := if a.is_option then none else some arg

/-- The option and the value that the action records -/
def pair (rest : List Bytes) : action → Option (Bytes × Bytes)
  | .option _ _ info value => some (info.iden, value)
  | .next _ info => rest.head?.map (info.iden, ·)
  | .positional | .append => none

end action

namespace args_parser_impl

variable (p : args_parser_impl)

/-- The arguments at which turns begin, each with those that stand behind it -/
def visits : List Bytes → List visit
  | [] => []
  | arg :: rest =>
    if p.takes_next arg then
      match rest with
      | [] => [⟨arg, []⟩]
      | value :: rest => ⟨arg, value :: rest⟩ :: visits rest
    else ⟨arg, rest⟩ :: visits rest

/-- The arguments that a turn uses up -/
def tokens (v : visit) : List Bytes := v.arg :: if p.takes_next v.arg then v.rest.take 1 else []

/-- What a turn appends to the other arguments -/
def appended (v : visit) : List Bytes := (p.actions v.arg).filterMap (action.text v.arg)

/-- What a turn records -/
def recorded (v : visit) : List (Bytes × Bytes) := (p.actions v.arg).filterMap (action.pair v.rest)

theorem visits_tokens (argv : List Bytes) : ((p.visits argv).map p.tokens).flatten = argv := by
  fun_induction visits p argv with
  | case1 => rfl
  | case2 arg h => simp [tokens, h]
  | case3 arg h value rest ih => simpa [tokens, h] using ih
  | case4 arg rest h ih => simpa [tokens, h] using ih

theorem record_ok {s s' : parsed} {info : arg_info} {value : Bytes} (h : s.record info value = .ok s') :
    s'.other = s.other ∧ s'.result = s.result.emplace info.iden value := by
  unfold parsed.record parsed.group_check_duplication at h
  split_ifs at h with hseen
  cases h
  exact ⟨rfl, rfl⟩

theorem positional_ok {s s' : parsed} {arg : Bytes} (h : s.positional arg = .ok s') :
    s'.other = s.other ++ [arg] ∧ s'.result = s.result := by
  unfold parsed.positional parsed.group_check_duplication at h
  split_ifs at h with hseen
  cases h
  exact ⟨rfl, rfl⟩

theorem next_value_ok {rest : List Bytes} {value : Bytes} (h : p.next_value rest = .ok value) :
    rest.head? = some value := by
  unfold next_value at h
  split at h
  · cases h
  · split_ifs at h
    exact congrArg some (Except.ok.inj h)

theorem perform_ok (arg : Bytes) (rest : List Bytes) (acts : List action) (s s' : parsed)
    (h : p.perform arg rest acts s = .ok s') :
    s'.other = s.other ++ acts.filterMap (action.text arg) ∧
      s'.result = s.result.emplaceAll (acts.filterMap (action.pair rest)) ∧
        (acts.any action.is_next = true → ∃ value, p.next_value rest = .ok value) := by
  induction acts generalizing s with
  | nil =>
    cases h
    exact ⟨(List.append_nil _).symm, rfl, nofun⟩
  | cons a acts ih =>
    cases a with
    | option is_group key info value =>
      unfold perform at h
      split at h
      · cases h
      · rename_i t ht
        obtain ⟨hother, hresult⟩ := record_ok ht
        obtain ⟨hother', hresult', hnext⟩ := ih t h
        refine ⟨by rw [hother', hother]; rfl, by rw [hresult', hresult]; rfl, hnext⟩
    | next key info =>
      unfold perform at h
      split at h
      · cases h
      · rename_i value hvalue
        split at h
        · cases h
        · rename_i t ht
          obtain ⟨hother, hresult⟩ := record_ok ht
          obtain ⟨hother', hresult', -⟩ := ih t h
          have hpair : action.pair rest (.next key info) = some (info.iden, value) := by
            simp [action.pair, p.next_value_ok hvalue]
          refine ⟨by rw [hother', hother]; rfl, ?_, fun _ => ⟨value, hvalue⟩⟩
          rw [hresult', hresult, List.filterMap_cons_some hpair]
          rfl
    | positional =>
      unfold perform at h
      split at h
      · cases h
      · rename_i t ht
        obtain ⟨hother, hresult⟩ := positional_ok ht
        obtain ⟨hother', hresult', hnext⟩ := ih t h
        refine ⟨?_, by rw [hresult', hresult]; rfl, hnext⟩
        rw [hother', hother, List.append_assoc]
        rfl
    | append =>
      obtain ⟨hother', hresult', hnext⟩ := ih (s.emplace_back arg) h
      refine ⟨?_, hresult', hnext⟩
      rw [hother', parsed.emplace_back, List.append_assoc]
      rfl

theorem leading_exit_dash {several : Bool} {arg : Bytes} (h : p.leading_exit several arg = none) : ¬ IsDash arg := by
  intro hdash
  unfold IsDash at hdash
  unfold leading_exit at h
  rw [if_pos hdash] at h
  cases h

/-- The argument is handled by a turn, and the value that it takes is there. -/
structure Handled (v : visit) : Prop where
  no_dash : ¬ IsDash v.arg
  value : p.takes_next v.arg = true → ∃ value, p.next_value v.rest = .ok value

theorem turn_ok {arg : Bytes} {rest : List Bytes} {s s' : parsed} {skips : Bool} (hdash : ¬ IsDash arg)
    (h : p.turn arg rest s = .ok (s', skips)) :
    skips = p.takes_next arg ∧ s'.other = s.other ++ p.appended ⟨arg, rest⟩ ∧
      s'.result = s.result.emplaceAll (p.recorded ⟨arg, rest⟩) ∧ Handled p ⟨arg, rest⟩ := by
  rw [turn_eq p arg rest s hdash] at h
  cases hperform : p.perform arg rest (p.actions arg) s with
  | error e => simp [hperform, Except.map] at h
  | ok t =>
    simp only [hperform, Except.map, Except.ok.injEq, Prod.mk.injEq] at h
    obtain ⟨rfl, rfl⟩ := h
    obtain ⟨hother, hresult, hnext⟩ := perform_ok p arg rest _ s t hperform
    exact ⟨rfl, hother, hresult, hdash, hnext⟩

theorem emplaceAll_append (m : text_map Bytes) (a b : List (Bytes × Bytes)) :
    (m.emplaceAll a).emplaceAll b = m.emplaceAll (a ++ b) := by
  unfold OrderedMap.emplaceAll
  rw [List.foldl_append]

/-- **The run.** What `parsing` returns is what its turns have appended and recorded. -/
theorem parsing_loop_ok (several : Bool) (argv : List Bytes) (s s' : parsed)
    (h : p.parsing_loop several argv s = .ok s') :
    s'.other = s.other ++ ((p.visits argv).map p.appended).flatten ∧
      s'.result = s.result.emplaceAll ((p.visits argv).map p.recorded).flatten ∧
        ∀ v ∈ p.visits argv, Handled p v := by
  fun_induction parsing_loop p several argv s with
  | case1 s =>
    cases h
    exact ⟨(List.append_nil _).symm, rfl, nofun⟩
  | case2 => cases h
  | case3 => cases h
  | case4 arg rest s hexit t hturn ih =>
    obtain ⟨hskip, hother, hresult, hhandled⟩ := turn_ok p (leading_exit_dash p hexit) hturn
    obtain ⟨hother', hresult', hall⟩ := ih h
    unfold visits
    simp only [← hskip, Bool.false_eq_true, if_false, List.map_cons, List.flatten_cons]
    refine ⟨by rw [hother', hother, List.append_assoc], ?_, List.forall_mem_cons.mpr ⟨hhandled, hall⟩⟩
    rw [hresult', hresult, emplaceAll_append]
  | case5 arg s hexit t hturn =>
    cases h
    obtain ⟨hskip, hother, hresult, hhandled⟩ := turn_ok p (leading_exit_dash p hexit) hturn
    unfold visits
    simp only [← hskip, if_true]
    exact ⟨by simp [hother], by simp [hresult], List.forall_mem_singleton.mpr hhandled⟩
  | case6 arg s hexit t value rest hturn ih =>
    obtain ⟨hskip, hother, hresult, hhandled⟩ := turn_ok p (leading_exit_dash p hexit) hturn
    obtain ⟨hother', hresult', hall⟩ := ih h
    unfold visits
    simp only [← hskip, if_true, List.map_cons, List.flatten_cons]
    refine ⟨by rw [hother', hother, List.append_assoc], ?_, List.forall_mem_cons.mpr ⟨hhandled, hall⟩⟩
    rw [hresult', hresult, emplaceAll_append]

/-! ## How often an argument is consumed -/

/-- The argument is an option, or letters all of which are recorded, or it is appended to `other`, once. -/
inductive ConsumedOnce (v : visit) : Prop
  | option (happended : p.appended v = []) (hsingle : ¬ p.Combination v.arg → (p.recorded v).length = 1)
      (hletters : p.Combination v.arg → (p.recorded v).length = v.arg.length - 1)
  | other (happended : p.appended v = [v.arg]) (hrecorded : p.recorded v = [])

/-- Every letter is a flag, or it is the last one and an option with a value. -/
def AllKnown (arg : Bytes) : Prop :=
  (∀ c ∈ arg.tail.dropLast, ∃ info, p.m_flag.find (letter_option c) = some info) ∧
    ((∃ info, p.m_flag.find (letter_option (last_letter arg)) = some info) ∨
      ∃ info, p.m_group.find (letter_option (last_letter arg)) = some info)

/-- The map of the options with a value, or that of the flags -/
def lookup (is_group : Bool) (key : Bytes) : Option arg_info :=
  if is_group then p.m_group.find key else p.m_flag.find key

theorem actions_cases (arg : Bytes) (hdash : ¬ IsDash arg) :
    (p.Combination arg ∧
      p.actions arg = arg.tail.dropLast.map p.letter_action ++ [p.last_action (last_letter arg)]) ∨
    (¬ p.Combination arg ∧ ∃ a, p.actions arg = [a] ∧
      (a = .positional ∨ (∃ is_group key info value, p.lookup is_group key = some info ∧
        a = .option is_group key info value) ∨ ∃ key info, p.lookup true key = some info ∧ a = .next key info)) := by
  unfold actions Combination
  rw [if_neg hdash]
  cases hgroup : p.m_group.find arg with
  | some info => exact .inr ⟨fun h => (nomatch h.1), _, rfl, .inr (.inr ⟨arg, info, hgroup, rfl⟩)⟩
  | none =>
    cases hflag : p.m_flag.find arg with
    | some info => exact .inr ⟨fun h => (nomatch h.2.1), _, rfl, .inr (.inl ⟨false, arg, info, _, hflag, rfl⟩)⟩
    | none =>
      by_cases hshort : arg.length ≤ 2
      · simp only [hshort, if_true]
        exact .inr ⟨fun h => by omega, _, rfl, .inl rfl⟩
      · simp only [hshort, if_false]
        cases cut (ascii "=") arg with
        | some cutting =>
          refine .inr ⟨fun h => (nomatch h.2.2.2.1), ?_⟩
          dsimp only
          cases hkey : p.m_group.find cutting.1 with
          | none => exact ⟨_, rfl, .inl rfl⟩
          | some info => exact ⟨_, rfl, .inr (.inl ⟨true, _, info, _, hkey, rfl⟩)⟩
        | none =>
          simp only
          by_cases hhead : arg.head? ≠ some 45
          · exact .inr ⟨fun h => hhead h.2.2.2.2.1, _, if_pos hhead, .inl rfl⟩
          · by_cases hletters : ¬ arg.tail.all is_letter
            · exact .inr ⟨fun h => hletters h.2.2.2.2.2, _, by rw [if_neg hhead, if_pos hletters], .inl rfl⟩
            · rw [if_neg hhead, if_neg hletters]
              exact .inl ⟨⟨trivial, trivial, by omega, trivial, not_not.mp hhead, not_not.mp hletters⟩, rfl⟩

theorem filterMap_text (arg : Bytes) (acts : List action) :
    acts.filterMap (action.text arg) = [] ↔ ∀ a ∈ acts, a.is_option = true := by
  simp [List.filterMap_eq_nil_iff, action.text]

theorem text_pair_length (arg : Bytes) (rest : List Bytes) (acts : List action)
    (hnext : acts.any action.is_next = true → ∃ value, rest.head? = some value) :
    (acts.filterMap (action.text arg)).length + (acts.filterMap (action.pair rest)).length = acts.length := by
  induction acts with
  | nil => rfl
  | cons a acts ih =>
    have hacts := ih fun h => hnext (by rw [List.any_cons, h, Bool.or_true])
    cases a with
    | option is_group key info value =>
      simp only [List.filterMap_cons, action.text, action.pair, action.is_option, if_true, List.length_cons, ← hacts]
      omega
    | next key info =>
      obtain ⟨value, hvalue⟩ := hnext rfl
      have hpair : action.pair rest (.next key info) = some (info.iden, value) := by
        simp [action.pair, hvalue]
      simp only [List.filterMap_cons, hpair, action.text, action.is_option, if_true, List.length_cons, ← hacts]
      omega
    | positional =>
      simp only [List.filterMap_cons, action.text, action.pair, action.is_option, Bool.false_eq_true, if_false,
        List.length_cons, ← hacts]
      omega
    | append =>
      simp only [List.filterMap_cons, action.text, action.pair, action.is_option, Bool.false_eq_true, if_false,
        List.length_cons, ← hacts]
      omega

theorem letter_action_option (c : UInt8) :
    (p.letter_action c).is_option = true ↔ ∃ info, p.m_flag.find (letter_option c) = some info := by
  unfold letter_action
  cases p.m_flag.find (letter_option c) <;> simp [action.is_option]

theorem last_action_option (c : UInt8) : (p.last_action c).is_option = true ↔
    (∃ info, p.m_flag.find (letter_option c) = some info) ∨
      ∃ info, p.m_group.find (letter_option c) = some info := by
  unfold last_action
  cases p.m_flag.find (letter_option c) with
  | some info => simp [action.is_option]
  | none => cases p.m_group.find (letter_option c) <;> simp [action.is_option]

theorem combination_options (arg : Bytes) :
    (∀ a ∈ arg.tail.dropLast.map p.letter_action ++ [p.last_action (last_letter arg)], a.is_option = true) ↔
      p.AllKnown arg := by
  simp only [List.forall_mem_append, List.forall_mem_singleton, List.forall_mem_map, letter_action_option,
    last_action_option]
  rfl

theorem consumed_once_visit (v : visit) (hv : Handled p v) :
    ConsumedOnce p v ↔ (p.Combination v.arg → p.AllKnown v.arg) := by
  have hcount : (p.appended v).length + (p.recorded v).length = (p.actions v.arg).length := by
    refine text_pair_length v.arg v.rest (p.actions v.arg) fun h => ?_
    obtain ⟨value, hvalue⟩ := hv.value h
    exact ⟨value, p.next_value_ok hvalue⟩
  rcases p.actions_cases v.arg hv.no_dash with ⟨hcombination, hacts⟩ | ⟨hno, a, hacts, -⟩
  · have hlen : (p.actions v.arg).length = v.arg.length - 1 := by
      have := hcombination.2.2.1
      rw [hacts, List.length_append, List.length_map, List.length_dropLast, List.length_tail, List.length_singleton]
      omega
    have hoptions : p.appended v = [] ↔ p.AllKnown v.arg := by
      unfold appended
      rw [filterMap_text, hacts, combination_options]
    constructor
    · rintro (⟨happended, -, -⟩ | ⟨happended, hrecorded⟩) -
      · exact hoptions.mp happended
      · have := hcombination.2.2.1
        rw [happended, hrecorded, hlen, List.length_singleton, List.length_nil] at hcount
        omega
    · intro hknown
      have happended := hoptions.mpr (hknown hcombination)
      refine .option happended (fun h => absurd hcombination h) fun _ => ?_
      rw [happended, List.length_nil, Nat.zero_add] at hcount
      rw [hcount, hlen]
  · refine iff_of_true ?_ fun h => absurd h hno
    have hone : (p.appended v).length + (p.recorded v).length = 1 := by rw [hcount, hacts, List.length_singleton]
    cases hoption : a.is_option with
    | true =>
      have happended : p.appended v = [] := by
        unfold appended
        rw [filterMap_text, hacts]
        exact List.forall_mem_singleton.mpr hoption
      rw [happended, List.length_nil, Nat.zero_add] at hone
      exact .option happended (fun _ => hone) fun h => absurd h hno
    | false =>
      have happended : p.appended v = [v.arg] := by
        unfold appended
        rw [hacts, List.filterMap_cons_some (b := v.arg) (by simp [action.text, hoption])]
        rfl
      rw [happended, List.length_singleton] at hone
      exact .other happended (List.length_eq_zero_iff.mp (by omega))

/-- **Consumption.** Whenever `parsing` returns, its arguments are cut into turns, each of an argument and the value it
takes, `other` and the result are what the turns have appended and recorded, and every argument is consumed once if and
only if all letters of combinations are known. -/
theorem consumed_once_iff (argv : List Bytes) (s : parsed) (h : p.parsing argv = .ok s) :
    ((p.visits argv).map p.tokens).flatten = argv ∧ s.other = ((p.visits argv).map p.appended).flatten ∧
      s.result = OrderedMap.emplaceAll .empty ((p.visits argv).map p.recorded).flatten ∧
      ((∀ v ∈ p.visits argv, ConsumedOnce p v) ↔
        ∀ v ∈ p.visits argv, p.Combination v.arg → p.AllKnown v.arg) := by
  obtain ⟨hother, hresult, hall⟩ := parsing_loop_ok p _ argv .init s h
  exact ⟨p.visits_tokens argv, hother, hresult, forall₂_congr fun v hv => consumed_once_visit p v (hall v hv)⟩

/-- A flag `-a` and an option `-f`, `--file` with a value -/
def flagAndFile : args_parser_impl :=
  (init [] [] false).with_rules [⟨false, 0, ascii "-a", [], []⟩, ⟨true, 1, ascii "-f,--file", [], []⟩]

theorem consumed_once_file : ConsumedOnce flagAndFile ⟨ascii "-af", [ascii "x"]⟩ := by
  have hparsing : ∃ s, flagAndFile.parsing [ascii "-af", ascii "x"] = .ok s := ⟨_, rfl⟩
  obtain ⟨s, hs⟩ := hparsing
  refine (consumed_once_iff flagAndFile [ascii "-af", ascii "x"] s hs).2.2.2.mpr ?_ _ List.mem_cons_self
  intro v hv _
  obtain rfl : v = ⟨ascii "-af", [ascii "x"]⟩ := by
    rw [show flagAndFile.visits [ascii "-af", ascii "x"] = [⟨ascii "-af", [ascii "x"]⟩] from rfl] at hv
    exact List.mem_singleton.mp hv
  exact ⟨List.forall_mem_singleton.mpr ⟨_, rfl⟩, .inr ⟨_, rfl⟩⟩

/-- Of the letters in front of the last, the first is not known: the argument is appended, and the flag recorded. -/
theorem combination_consumed_twice : ¬ ∀ (p : args_parser_impl) (argv : List Bytes) (s : parsed),
    p.parsing argv = .ok s →
    ∀ v ∈ p.visits argv, ConsumedOnce p v := by
  intro h
  have hone := h flagAndFile [ascii "-xa"] _ rfl ⟨ascii "-xa", []⟩ List.mem_cons_self
  have happended : flagAndFile.appended ⟨ascii "-xa", []⟩ = [ascii "-xa"] := by rfl
  have hrecorded : flagAndFile.recorded ⟨ascii "-xa", []⟩ = [(ascii "-a", ascii "-a")] := by rfl
  cases hone with
  | option hnone => simp [happended] at hnone
  | other _ hnone => simp [hrecorded] at hnone

end args_parser_impl

end Libgs.cmdline
