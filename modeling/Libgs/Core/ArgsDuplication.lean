import Libgs.Core.ArgsConsumption
import Libgs.Lib.TwoKinds

/-!
# Duplicates on the command line

When `parsing` ends with too many parameters. Rules go into the cache under a number of their own, and positional
arguments under their text.
-/

namespace Libgs.cmdline

open Lib

/-! ## The rule of an option -/

/-- The first rule of the kind that has the option -/
def named (rules : List rule) (is_group : Bool) (key : Bytes) : Option rule :=
  rules.find? fun r => r.is_group == is_group && (options r.text).contains key

theorem find_entries (m : args_cache) (r : rule) (key : Bytes) : (m.emplaceAll r.entries).find key =
    (m.find key).or (if key ∈ options r.text then some (r.info key) else none) := by
  rw [OrderedMap.find_emplaceAll]
  congr 1
  unfold rule.entries
  induction options r.text with
  | nil => rfl
  | cons arg args ih =>
    by_cases h : arg = key
    · simp [h]
    · have hrank : ¬ arg.map UInt8.toNat = key.map UInt8.toNat := fun hrank => h (text_rank_injective hrank)
      rw [List.map_cons, List.find?_cons_of_neg (by simpa using hrank), ih]
      simp [List.mem_cons, Ne.symm h]

namespace args_parser_impl

theorem add_lookup (p : args_parser_impl) (r : rule) (is_group : Bool) (key : Bytes) :
    (p.add r).lookup is_group key = (p.lookup is_group key).or
      (if r.is_group = is_group ∧ key ∈ options r.text then some (r.info key) else none) := by
  unfold lookup add
  cases hr : r.is_group <;> cases is_group <;> simp [find_entries]

/-- **The rules of a parser.** An option has the number of the first rule that has it. -/
theorem with_rules_lookup (p : args_parser_impl) (rules : List rule) (is_group : Bool) (key : Bytes) :
    (p.with_rules rules).lookup is_group key =
      (p.lookup is_group key).or ((named rules is_group key).map (·.info key)) := by
  induction rules generalizing p with
  | nil => exact (Option.or_none).symm
  | cons r rules ih =>
    have hstep : (p.with_rules (r :: rules)).lookup is_group key =
        ((p.add r).with_rules rules).lookup is_group key := rfl
    rw [hstep, ih, add_lookup, Option.or_assoc]
    congr 1
    unfold named
    by_cases h : r.is_group = is_group ∧ key ∈ options r.text
    · rw [if_pos h, List.find?_cons_of_pos (by simpa using h)]
      rfl
    · rw [if_neg h, List.find?_cons_of_neg (by simpa using h)]
      rfl

end args_parser_impl

/-! ## The keys in the cache -/

namespace action

/-- The rule that the action has looked up -/
def rule (rules : List rule) : action → Option rule
  | .option is_group key _ _ => named rules is_group key
  | .next key _ => named rules true key
  | .positional | .append => none

/-- What the action asks the cache for -/
def key (arg : Bytes) : action → Option Bytes
  | .option _ _ info _ | .next _ info => some info.group
  | .positional => some arg
  | .append => none

/-- The same, as a rule or a text -/
def tag (rules : List cmdline.rule) (arg : Bytes) : action → Option (cmdline.rule ⊕ Bytes)
  | .option is_group key _ _ => (named rules is_group key).map .inl
  | .next key _ => (named rules true key).map .inl
  | .positional => some (.inr arg)
  | .append => none

def is_positional : action → Bool
  | .positional => true
  | _ => false

end action

namespace args_parser_impl

variable (p : args_parser_impl)

/-- What a turn asks the cache for, in this order -/
def keys (v : visit) : List Bytes := (p.actions v.arg).filterMap (action.key v.arg)

theorem record_check (s : parsed) (info : arg_info) (value : Bytes) :
    (info.group ∈ s.cache ∧ s.record info value = .error .too_many_parameters) ∨
      ∃ t, info.group ∉ s.cache ∧ s.record info value = .ok t ∧ t.cache = info.group :: s.cache := by
  unfold parsed.record parsed.group_check_duplication
  by_cases h : info.group ∈ s.cache
  · rw [if_pos h]
    exact .inl ⟨h, rfl⟩
  · rw [if_neg h]
    exact .inr ⟨_, h, rfl, rfl⟩

theorem positional_check (s : parsed) (arg : Bytes) :
    (arg ∈ s.cache ∧ s.positional arg = .error .too_many_parameters) ∨
      ∃ t, arg ∉ s.cache ∧ s.positional arg = .ok t ∧ t.cache = arg :: s.cache := by
  unfold parsed.positional parsed.group_check_duplication
  by_cases h : arg ∈ s.cache
  · rw [if_pos h]
    exact .inl ⟨h, rfl⟩
  · rw [if_neg h]
    exact .inr ⟨_, h, rfl, rfl⟩

/-- The keys go into the cache one after the other, and all of them differ. -/
def Distinct (cache keys : List Bytes) : Prop := (keys.reverse ++ cache).Nodup

theorem distinct_cons {cache keys : List Bytes} {k : Bytes} :
    Distinct cache (k :: keys) ↔ Distinct (k :: cache) keys := by
  simp [Distinct]

theorem distinct_append {cache keys more : List Bytes} :
    Distinct cache (keys ++ more) ↔ Distinct (keys.reverse ++ cache) more := by
  simp [Distinct]

theorem not_distinct_of_mem {cache keys : List Bytes} {k : Bytes} (h : k ∈ cache) : ¬ Distinct cache (k :: keys) := by
  intro hd
  have := (List.nodup_append.mp (distinct_cons.mp hd)).2.1
  exact (List.nodup_cons.mp this).1 h

theorem distinct_left {cache keys more : List Bytes} (h : Distinct cache (keys ++ more)) : Distinct cache keys :=
  (List.nodup_append.mp (distinct_append.mp h)).2.1

/-- The keys are looked for and put into the cache: the error if two of them are alike, or one is there. -/
def Checked (s : parsed) (keys : List Bytes) (result : Except stop parsed) : Prop :=
  (¬ Distinct s.cache keys ∧ result = .error .too_many_parameters) ∨
    ∃ t, Distinct s.cache keys ∧ result = .ok t ∧ t.cache = keys.reverse ++ s.cache

theorem Checked.seen {s : parsed} {keys : List Bytes} {k : Bytes} (h : k ∈ s.cache) :
    Checked s (k :: keys) (.error .too_many_parameters) := .inl ⟨not_distinct_of_mem h, rfl⟩

theorem Checked.cons {s t : parsed} {keys : List Bytes} {k : Bytes} {result : Except stop parsed}
    (ht : t.cache = k :: s.cache) (h : Checked t keys result) : Checked s (k :: keys) result := by
  unfold Checked at *
  rw [ht] at h
  rw [distinct_cons]
  rcases h with h | ⟨u, hd, hu, hcache⟩
  · exact .inl h
  · exact .inr ⟨u, hd, hu, by simp [hcache]⟩

theorem perform_checked (arg : Bytes) (rest : List Bytes) (acts : List action) (s : parsed) (hcache : s.cache.Nodup)
    (hnext : acts.any action.is_next = true → ∃ value, p.next_value rest = .ok value) :
    Checked s (acts.filterMap (action.key arg)) (p.perform arg rest acts s) := by
  induction acts generalizing s with
  | nil => exact .inr ⟨s, hcache, rfl, rfl⟩
  | cons a acts ih =>
    have hrest : acts.any action.is_next = true → ∃ value, p.next_value rest = .ok value :=
      fun h => hnext (by rw [List.any_cons, h, Bool.or_true])
    have hstep : ∀ {k : Bytes} {t : parsed}, k ∉ s.cache → t.cache = k :: s.cache →
        Checked s (k :: acts.filterMap (action.key arg)) (p.perform arg rest acts t) := by
      intro k t hk ht
      exact .cons ht (ih t (ht ▸ List.nodup_cons.mpr ⟨hk, hcache⟩) hrest)
    cases a with
    | option is_group key info value =>
      have hkey : action.key arg (.option is_group key info value) = some info.group := rfl
      rw [List.filterMap_cons_some hkey]
      unfold perform
      rcases record_check s info value with ⟨hseen, hrecord⟩ | ⟨t, hk, hrecord, ht⟩ <;> rw [hrecord]
      · exact .seen hseen
      · exact hstep hk ht
    | next key info =>
      have hkey : action.key arg (.next key info) = some info.group := rfl
      rw [List.filterMap_cons_some hkey]
      obtain ⟨value, hvalue⟩ := hnext rfl
      unfold perform
      rw [hvalue]
      dsimp only
      rcases record_check s info value with ⟨hseen, hrecord⟩ | ⟨t, hk, hrecord, ht⟩ <;> rw [hrecord]
      · exact .seen hseen
      · exact hstep hk ht
    | positional =>
      have hkey : action.key arg .positional = some arg := rfl
      rw [List.filterMap_cons_some hkey]
      unfold perform
      rcases positional_check s arg with ⟨hseen, hpositional⟩ | ⟨t, hk, hpositional, ht⟩ <;> rw [hpositional]
      · exact .seen hseen
      · exact hstep hk ht
    | append => exact ih (s.emplace_back arg) hcache hrest

/-! ## The run -/

/-- The option that prints the version or the help. `-v` and `-h` are none unless they are switched on. -/
def InfoOption (arg : Bytes) : Prop :=
  arg = ascii "--version" ∨ arg = ascii "--help" ∨ (arg = ascii "-v" ∧ p.m_v ≠ []) ∨ (arg = ascii "-h" ∧ p.m_h = true)

theorem leading_exit_eq (several : Bool) (arg : Bytes) (h : ¬ p.InfoOption arg) :
    p.leading_exit several arg = if IsDash arg then some .invalid_arguments else none := by
  simp only [InfoOption, not_or, not_and] at h
  obtain ⟨hversion, hhelp, hv, hh⟩ := h
  unfold leading_exit
  by_cases hdash : IsDash arg
  · rw [if_pos (show arg = ascii "-" ∨ arg = ascii "--" from hdash), if_pos hdash]
  · rw [if_neg (show ¬ (arg = ascii "-" ∨ arg = ascii "--") from hdash), if_neg hdash, if_neg hversion]
    by_cases harg : arg = ascii "-v"
    · rw [if_pos harg, if_neg (hv harg)]
    · rw [if_neg harg, if_neg hhelp]
      by_cases harg' : arg = ascii "-h"
      · rw [if_pos harg', if_neg (hh harg')]
      · rw [if_neg harg']

/-- The turns in front of the first `-` or `--`, which ends the process -/
def front (vs : List visit) : List visit := vs.takeWhile fun v => ¬ IsDash v.arg

/-- No value is missing, and no option prints the version or the help. -/
structure Plain (v : visit) : Prop where
  no_info : ¬ p.InfoOption v.arg
  value : p.takes_next v.arg = true → ∃ value, p.next_value v.rest = .ok value

theorem turn_checked {arg : Bytes} {rest : List Bytes} (s : parsed) (hcache : s.cache.Nodup)
    (hplain : Plain p ⟨arg, rest⟩) (hdash : ¬ IsDash arg) :
    (¬ Distinct s.cache (p.keys ⟨arg, rest⟩) ∧ p.turn arg rest s = .error .too_many_parameters) ∨
      ∃ t, Distinct s.cache (p.keys ⟨arg, rest⟩) ∧ p.turn arg rest s = .ok (t, p.takes_next arg) ∧
        t.cache = (p.keys ⟨arg, rest⟩).reverse ++ s.cache := by
  rw [turn_eq p arg rest s hdash]
  rcases perform_checked p arg rest (p.actions arg) s hcache hplain.value with ⟨hd, hperform⟩ | ⟨t, hd, hperform, ht⟩
  · exact .inl ⟨hd, by rw [hperform]; rfl⟩
  · exact .inr ⟨t, hd, by rw [hperform]; rfl, ht⟩

theorem front_cons (v : visit) (vs : List visit) (h : ¬ IsDash v.arg) : front (v :: vs) = v :: front vs := by
  unfold front
  rw [List.takeWhile_cons_of_pos (by simpa using h)]

theorem front_dash (v : visit) (vs : List visit) (h : IsDash v.arg) : front (v :: vs) = [] := by
  unfold front
  rw [List.takeWhile_cons_of_neg (by simpa using h)]

theorem visits_cons (arg : Bytes) (rest : List Bytes) :
    p.visits (arg :: rest) = ⟨arg, rest⟩ :: p.visits (if p.takes_next arg then rest.tail else rest) := by
  rw [visits.eq_def]
  dsimp only
  cases p.takes_next arg with
  | true => cases rest <;> rfl
  | false => rfl

/-- **The run.** It ends with too many parameters if and only if two keys in front of its end are alike. -/
theorem parsing_loop_checked (several : Bool) (argv : List Bytes) (s : parsed) (hcache : s.cache.Nodup)
    (hplain : ∀ v ∈ p.visits argv, Plain p v) :
    p.parsing_loop several argv s = .error .too_many_parameters ↔
      ¬ Distinct s.cache ((front (p.visits argv)).map p.keys).flatten := by
  have hnext : ∀ {arg : Bytes} {rest : List Bytes} {s t : parsed} {skips : Bool}, s.cache.Nodup →
      (∀ v ∈ p.visits (arg :: rest), Plain p v) → p.leading_exit several arg = none →
      p.turn arg rest s = .ok (t, skips) → skips = p.takes_next arg ∧ t.cache.Nodup ∧
        (Distinct s.cache ((front (p.visits (arg :: rest))).map p.keys).flatten ↔
          Distinct t.cache ((front (p.visits (if skips then rest.tail else rest))).map p.keys).flatten) := by
    intro arg rest s t skips hcache hplain hexit hturn
    have hdash := leading_exit_dash p hexit
    rw [visits_cons] at hplain ⊢
    rcases turn_checked p s hcache (hplain _ List.mem_cons_self) hdash with ⟨-, herror⟩ | ⟨u, hd, hok, hu⟩
    · cases hturn.symm.trans herror
    · obtain ⟨rfl, rfl⟩ := Prod.mk.inj (Except.ok.inj (hturn.symm.trans hok))
      refine ⟨rfl, hu ▸ hd, ?_⟩
      rw [front_cons _ _ hdash, List.map_cons, List.flatten_cons, distinct_append, hu]
  fun_induction parsing_loop p several argv s with
  | case1 s => exact iff_of_false (by simp) (not_not.mpr hcache)
  | case2 arg rest s e hexit =>
    rw [visits_cons] at hplain ⊢
    rw [leading_exit_eq p several arg (hplain _ List.mem_cons_self).no_info] at hexit
    split_ifs at hexit with hdash
    cases hexit
    rw [front_dash _ _ hdash]
    exact iff_of_false (by simp) (not_not.mpr hcache)
  | case3 arg rest s hexit e hturn =>
    have hdash := leading_exit_dash p hexit
    rw [visits_cons] at hplain ⊢
    rw [front_cons _ _ hdash, List.map_cons, List.flatten_cons]
    rcases turn_checked p s hcache (hplain _ List.mem_cons_self) hdash with ⟨hd, herror⟩ | ⟨t, -, hok, -⟩
    · cases hturn.symm.trans herror
      exact iff_of_true rfl fun hall => hd (distinct_left hall)
    · cases hturn.symm.trans hok
  | case4 arg rest s hexit t hturn ih =>
    obtain ⟨hskip, ht, hiff⟩ := hnext hcache hplain hexit hturn
    rw [visits_cons, ← hskip] at hplain
    rw [hiff]
    exact ih ht fun v hv => hplain v (List.mem_cons_of_mem _ hv)
  | case5 arg s hexit t hturn =>
    obtain ⟨-, ht, hiff⟩ := hnext hcache hplain hexit hturn
    rw [hiff]
    exact iff_of_false (by simp) (not_not.mpr ht)
  | case6 arg s hexit t value rest hturn ih =>
    obtain ⟨hskip, ht, hiff⟩ := hnext hcache hplain hexit hturn
    rw [visits_cons, ← hskip] at hplain
    rw [hiff]
    exact ih ht fun v hv => hplain v (List.mem_cons_of_mem _ hv)

/-! ## Keys as rules and texts -/

/-- The maps of the parser are those that the rules make. -/
def HasRules (rules : List rule) : Prop :=
  ∀ is_group key, p.lookup is_group key = (named rules is_group key).map (·.info key)

/-- The parser with these rules -/
def of_rules (m_version m_v : Bytes) (m_h : Bool) (rules : List rule) : args_parser_impl :=
  (init m_version m_v m_h).with_rules rules

theorem of_rules_hasRules (m_version m_v : Bytes) (m_h : Bool) (rules : List rule) :
    HasRules (of_rules m_version m_v m_h rules) rules := by
  intro is_group key
  have hnone : (init m_version m_v m_h).lookup is_group key = none := by cases is_group <;> rfl
  rw [of_rules, with_rules_lookup, hnone, Option.none_or]

/-- An option among the actions has been looked up. -/
def Looked : action → Prop
  | .option is_group key info _ => p.lookup is_group key = some info
  | .next key info => p.lookup true key = some info
  | .positional | .append => True

theorem letter_action_looked (c : UInt8) : p.Looked (p.letter_action c) := by
  unfold letter_action
  split
  · assumption
  · trivial

theorem last_action_looked (c : UInt8) : p.Looked (p.last_action c) := by
  unfold last_action
  split
  · assumption
  · split
    · assumption
    · trivial

theorem actions_looked (arg : Bytes) : ∀ a ∈ p.actions arg, p.Looked a := by
  by_cases hdash : IsDash arg
  · unfold actions
    rw [if_pos hdash]
    nofun
  · rcases p.actions_cases arg hdash with ⟨-, hacts⟩ | ⟨-, a, hacts, hlooked⟩ <;> rw [hacts]
    · intro a ha
      rcases List.mem_append.mp ha with ha | ha
      · obtain ⟨c, -, rfl⟩ := List.mem_map.mp ha
        exact p.letter_action_looked c
      · rw [List.mem_singleton.mp ha]
        exact p.last_action_looked _
    · rw [List.forall_mem_singleton]
      rcases hlooked with rfl | ⟨is_group, key, info, value, hlookup, rfl⟩ | ⟨key, info, hlookup, rfl⟩
      · trivial
      · exact hlookup
      · exact hlookup

variable {rules : List rule}

/-- The text by which a rule or an argument is looked for: the number of the rule, or the argument -/
def untag : rule ⊕ Bytes → Bytes := Sum.elim (fun r => digits 10 r.id_source) id

theorem key_tag (hp : p.HasRules rules) (arg : Bytes) (a : action) (ha : p.Looked a) :
    a.key arg = (a.tag rules arg).map untag := by
  have hgroup : ∀ {is_group : Bool} {key : Bytes} {info : arg_info}, p.lookup is_group key = some info →
      some info.group = ((named rules is_group key).map Sum.inl).map untag := by
    intro is_group key info h
    rw [hp is_group key, Option.map_eq_some_iff] at h
    obtain ⟨r, hr, rfl⟩ := h
    rw [hr]
    rfl
  cases a with
  | option is_group key info value => exact hgroup ha
  | next key info => exact hgroup ha
  | positional => rfl
  | append => rfl

/-- What the turns ask the cache for, rules and arguments told apart -/
def tags (rules : List rule) (vs : List visit) : List (rule ⊕ Bytes) :=
  (vs.map fun v => (p.actions v.arg).filterMap (action.tag rules v.arg)).flatten

theorem keys_tags (hp : p.HasRules rules) (vs : List visit) :
    (vs.map p.keys).flatten = (p.tags rules vs).map untag := by
  unfold tags
  rw [List.map_flatten, List.map_map]
  congr 1
  refine List.map_congr_left fun v _ => ?_
  unfold keys
  rw [Function.comp_apply, List.map_filterMap]
  exact List.filterMap_congr fun a ha => key_tag p hp v.arg a (p.actions_looked v.arg a ha)

/-- The rules that the turns look up -/
def occurring (rules : List rule) (vs : List visit) : List rule :=
  (vs.map fun v => (p.actions v.arg).filterMap (action.rule rules)).flatten

/-- The positional arguments that are looked for in the cache, as often as they are -/
def checked (v : visit) : List Bytes := List.replicate ((p.actions v.arg).countP action.is_positional) v.arg

theorem tag_left (arg : Bytes) (a : action) : (a.tag rules arg).bind Sum.getLeft? = a.rule rules := by
  have hnamed : ∀ o : Option rule, (o.map (Sum.inl (β := Bytes))).bind Sum.getLeft? = o := by
    intro o
    cases o <;> rfl
  cases a with
  | option is_group key info value => exact hnamed _
  | next key info => exact hnamed _
  | positional => rfl
  | append => rfl

theorem tag_right (arg : Bytes) (a : action) :
    (a.tag rules arg).bind Sum.getRight? = if a.is_positional then some arg else none := by
  have hnamed : ∀ o : Option rule, (o.map (Sum.inl (β := Bytes))).bind Sum.getRight? = none := by
    intro o
    cases o <;> rfl
  cases a with
  | option is_group key info value => exact hnamed _
  | next key info => exact hnamed _
  | positional => rfl
  | append => rfl

theorem lefts_tags (vs : List visit) : lefts (p.tags rules vs) = p.occurring rules vs := by
  unfold lefts tags occurring
  rw [List.filterMap_flatten, List.map_map]
  congr 1
  refine List.map_congr_left fun v _ => ?_
  rw [Function.comp_apply, List.filterMap_filterMap]
  exact List.filterMap_congr fun a _ => tag_left v.arg a

theorem rights_tags (vs : List visit) : rights (p.tags rules vs) = (vs.map p.checked).flatten := by
  unfold rights tags
  rw [List.filterMap_flatten, List.map_map]
  congr 1
  refine List.map_congr_left fun v _ => ?_
  unfold checked
  rw [Function.comp_apply, List.filterMap_filterMap]
  simp only [tag_right]
  induction p.actions v.arg with
  | nil => rfl
  | cons a acts ih =>
    cases hpositional : a.is_positional with
    | true => rw [List.countP_cons_of_pos hpositional, List.replicate_succ, ← ih]; simp [hpositional]
    | false => rw [List.countP_cons_of_neg (by simp [hpositional]), ← ih]; simp [hpositional]

theorem occurring_rules (vs : List visit) : ∀ r ∈ p.occurring rules vs, r ∈ rules := by
  have hnamed : ∀ {is_group : Bool} {key : Bytes} {r : rule}, named rules is_group key = some r → r ∈ rules :=
    fun h => List.mem_of_find?_eq_some h
  intro r hr
  simp only [occurring, List.mem_flatten, List.mem_map, exists_exists_and_eq_and, List.mem_filterMap] at hr
  obtain ⟨v, -, a, -, ha⟩ := hr
  cases a with
  | option is_group key info value => exact hnamed ha
  | next key info => exact hnamed ha
  | positional => cases ha
  | append => cases ha

/-! ## Duplicates -/

/-- The argument of a turn that appends something -/
def text (v : visit) : List Bytes := if p.appended v = [] then [] else [v.arg]

/-- The arguments that are appended, one for each turn that appends something -/
def texts (vs : List visit) : List Bytes := (vs.map p.text).flatten

/-- Two options of one rule, or a positional argument twice -/
def Duplicates (rules : List rule) (vs : List visit) : Prop := ¬ (p.occurring rules vs).Nodup ∨ ¬ (p.texts vs).Nodup

/-- The letters of a combination that are not known, without the last one -/
def unknown (arg : Bytes) : List UInt8 := arg.tail.dropLast.filter fun c => (p.m_flag.find (letter_option c)).isNone

/-- A positional argument has the number of an option's rule, or a combination is looked for twice. -/
def Clash (rules : List rule) (vs : List visit) : Prop :=
  (∃ r ∈ p.occurring rules vs, digits 10 r.id_source ∈ p.texts vs) ∨
    ∃ v ∈ vs, p.Combination v.arg ∧ 1 < (p.unknown v.arg).length

theorem mem_text (v : visit) (t : Bytes) : t ∈ p.text v ↔ p.appended v ≠ [] ∧ t = v.arg := by
  unfold text
  by_cases h : p.appended v = []
  · simp [h]
  · simp [h]

theorem appended_ne (v : visit) :
    p.appended v ≠ [] ↔ action.positional ∈ p.actions v.arg ∨ action.append ∈ p.actions v.arg := by
  unfold appended
  rw [ne_eq, filterMap_text, not_forall]
  constructor
  · rintro ⟨a, ha⟩
    obtain ⟨ha, hoption⟩ := Classical.not_imp.mp ha
    cases a with
    | option is_group key info value => exact absurd rfl hoption
    | next key info => exact absurd rfl hoption
    | positional => exact .inl ha
    | append => exact .inr ha
  · rintro (h | h)
    · exact ⟨_, fun hall => nomatch hall h⟩
    · exact ⟨_, fun hall => nomatch hall h⟩

theorem letter_action_cases (c : UInt8) :
    (p.m_flag.find (letter_option c) = none ∧ p.letter_action c = .positional) ∨
      ∃ info, p.letter_action c = .option false (letter_option c) info info.iden := by
  unfold letter_action
  cases p.m_flag.find (letter_option c) with
  | none => exact .inl ⟨rfl, rfl⟩
  | some info => exact .inr ⟨info, rfl⟩

theorem last_action_positional (c : UInt8) : (p.last_action c).is_positional = false := by
  unfold last_action
  split
  · rfl
  · split <;> rfl

theorem count_combination (arg : Bytes) (h : p.Combination arg) (hdash : ¬ IsDash arg) :
    (p.actions arg).countP action.is_positional = (p.unknown arg).length := by
  rcases p.actions_cases arg hdash with ⟨-, hacts⟩ | ⟨hno, -⟩
  · rw [hacts, List.countP_append, List.countP_singleton, p.last_action_positional]
    unfold unknown
    rw [List.countP_map, ← List.countP_eq_length_filter]
    refine List.countP_congr fun c _ => ?_
    unfold Function.comp letter_action
    cases p.m_flag.find (letter_option c) <;> simp [action.is_positional]
  · exact absurd h hno

theorem combination_not_dash {arg : Bytes} (h : p.Combination arg) : ¬ IsDash arg := by
  rintro (rfl | rfl)
  · exact absurd h.2.2.1 (by decide)
  · exact absurd h.2.2.1 (by decide)

theorem count_gt_one (arg : Bytes) : 1 < (p.actions arg).countP action.is_positional ↔
    p.Combination arg ∧ 1 < (p.unknown arg).length := by
  by_cases hdash : IsDash arg
  · refine iff_of_false ?_ fun h => p.combination_not_dash h.1 hdash
    unfold actions
    rw [if_pos hdash]
    simp
  · rcases p.actions_cases arg hdash with ⟨hcombination, -⟩ | ⟨hno, a, hacts, -⟩
    · rw [count_combination p arg hcombination hdash, and_iff_right hcombination]
    · refine iff_of_false ?_ fun h => hno h.1
      rw [hacts, List.countP_singleton]
      split <;> omega

theorem append_cases (hp : p.HasRules rules) (arg : Bytes) (h : action.append ∈ p.actions arg) :
    p.Combination arg ∧
      (action.positional ∈ p.actions arg ∨ (p.actions arg).filterMap (action.rule rules) ≠ []) := by
  have hdash : ¬ IsDash arg := by
    intro hdash
    unfold actions at h
    rw [if_pos hdash] at h
    cases h
  rcases p.actions_cases arg hdash with ⟨hcombination, hacts⟩ | ⟨-, a, hacts, hlooked⟩
  · refine ⟨hcombination, ?_⟩
    have hlen := hcombination.2.2.1
    obtain ⟨c, hc⟩ : ∃ c, c ∈ arg.tail.dropLast := by
      apply List.exists_mem_of_length_pos
      rw [List.length_dropLast, List.length_tail]
      omega
    have hmem : p.letter_action c ∈ p.actions arg := by
      rw [hacts]
      exact List.mem_append_left _ (List.mem_map_of_mem hc)
    rcases p.letter_action_cases c with ⟨-, hletter⟩ | ⟨info, hletter⟩
    · exact .inl (hletter ▸ hmem)
    · have hlooked := p.actions_looked arg _ hmem
      rw [hletter] at hmem hlooked
      have hlookup : p.lookup false (letter_option c) = some info := hlooked
      rw [hp false, Option.map_eq_some_iff] at hlookup
      obtain ⟨r, hr, -⟩ := hlookup
      exact .inr (List.ne_nil_of_mem (List.mem_filterMap.mpr ⟨_, hmem, hr⟩))
  · rw [hacts, List.mem_singleton] at h
    rcases hlooked with rfl | ⟨_, _, _, _, -, rfl⟩ | ⟨_, _, -, rfl⟩ <;> cases h

theorem mem_checked (v : visit) (t : Bytes) : t ∈ p.checked v ↔ action.positional ∈ p.actions v.arg ∧ t = v.arg := by
  have hpositional : ∀ a : action, a.is_positional = true ↔ a = .positional := by
    intro a
    cases a <;> simp [action.is_positional]
  unfold checked
  rw [List.mem_replicate, ← Nat.pos_iff_ne_zero, List.countP_pos_iff]
  simp only [hpositional, exists_eq_right]

theorem checked_text (v : visit) (t : Bytes) (h : t ∈ p.checked v) : t ∈ p.text v := by
  obtain ⟨hmem, ht⟩ := (p.mem_checked v t).mp h
  exact (p.mem_text v t).mpr ⟨(p.appended_ne v).mpr (.inl hmem), ht⟩

theorem text_disjoint (hp : p.HasRules rules) (v w : visit) (hchecked : (p.checked v).Disjoint (p.checked w))
    (hrules : ((p.actions v.arg).filterMap (action.rule rules)).Disjoint
      ((p.actions w.arg).filterMap (action.rule rules))) : (p.text v).Disjoint (p.text w) := by
  intro t hv hw
  obtain ⟨hne, hvt⟩ := (p.mem_text v t).mp hv
  have hsame : v.arg = w.arg := hvt.symm.trans ((p.mem_text w t).mp hw).2
  have hpositional : action.positional ∉ p.actions v.arg := by
    intro h
    exact hchecked ((p.mem_checked v t).mpr ⟨h, hvt⟩) ((p.mem_checked w t).mpr ⟨hsame ▸ h, hvt.trans hsame⟩)
  rcases (p.appended_ne v).mp hne with h | h
  · exact hpositional h
  · obtain ⟨-, h | h⟩ := p.append_cases hp v.arg h
    · exact hpositional h
    · obtain ⟨r, hr⟩ := List.exists_mem_of_ne_nil _ h
      exact hrules hr (hsame ▸ hr)

theorem checked_nodup_iff (hp : p.HasRules rules) (vs : List visit) (ho : (p.occurring rules vs).Nodup) :
    (vs.map p.checked).flatten.Nodup ↔
      (p.texts vs).Nodup ∧ ¬ ∃ v ∈ vs, p.Combination v.arg ∧ 1 < (p.unknown v.arg).length := by
  unfold occurring at ho
  unfold texts
  simp only [List.nodup_flatten, List.pairwise_map, List.forall_mem_map, ← count_gt_one] at *
  constructor
  · rintro ⟨heach, hpairs⟩
    refine ⟨⟨fun v _ => ?_, ?_⟩, ?_⟩
    · unfold text
      split
      · exact List.nodup_nil
      · exact List.nodup_singleton _
    · exact (hpairs.and ho.2).imp fun h => p.text_disjoint hp _ _ h.1 h.2
    · rintro ⟨v, hv, hcount⟩
      exact absurd (List.nodup_replicate.mp (heach v hv)) (by omega)
  · rintro ⟨⟨-, hpairs⟩, hcount⟩
    refine ⟨fun v hv => List.nodup_replicate.mpr ?_, hpairs.imp fun h t hv hw => ?_⟩
    · exact Nat.not_lt.mp fun h => hcount ⟨v, hv, h⟩
    · exact h (p.checked_text _ t hv) (p.checked_text _ t hw)

theorem digits_injective {n m : ℕ} (h : digits 10 n = digits 10 m) : n = m := by
  rw [← digitsVal_digits 10 n (by omega) (by omega), h, digitsVal_digits 10 m (by omega) (by omega)]

theorem number_text (hp : p.HasRules rules) (v : visit) (n : ℕ) (h : digits 10 n ∈ p.text v) :
    digits 10 n ∈ p.checked v := by
  obtain ⟨hne, hv⟩ := (p.mem_text v _).mp h
  rw [mem_checked]
  rcases (p.appended_ne v).mp hne with hmem | hmem
  · exact ⟨hmem, hv⟩
  · have hhead := (p.append_cases hp v.arg hmem).1.2.2.2.2.1
    rw [← hv] at hhead
    have hdigit := List.all_eq_true.mp (digits_all 10 n (by omega) (by omega)) 45 (List.mem_of_mem_head? hhead)
    cases hdigit

/-- **The keys.** -/
theorem keys_nodup_iff (hp : p.HasRules rules) (hids : (rules.map rule.id_source).Nodup) (vs : List visit) :
    (vs.map p.keys).flatten.Nodup ↔ ¬ p.Duplicates rules vs ∧ ¬ p.Clash rules vs := by
  have hf : ∀ r ∈ lefts (p.tags rules vs), ∀ r' ∈ lefts (p.tags rules vs),
      digits 10 r.id_source = digits 10 r'.id_source → r = r' := by
    rw [lefts_tags]
    intro r hr r' hr' hdigits
    exact List.inj_on_of_nodup_map hids (p.occurring_rules vs r hr) (p.occurring_rules vs r' hr')
      (digits_injective hdigits)
  have hnumber : ∀ n, digits 10 n ∈ (vs.map p.checked).flatten ↔ digits 10 n ∈ p.texts vs := by
    intro n
    simp only [texts, List.mem_flatten, List.mem_map, exists_exists_and_eq_and]
    exact exists_congr fun v => and_congr_right fun _ => ⟨p.checked_text v _, p.number_text hp v n⟩
  have hclash : (∀ r ∈ p.occurring rules vs, ∀ t ∈ (vs.map p.checked).flatten, digits 10 r.id_source ≠ id t) ↔
      ¬ ∃ r ∈ p.occurring rules vs, digits 10 r.id_source ∈ p.texts vs := by
    simp only [not_exists, not_and, ← hnumber]
    exact forall₂_congr fun r _ => ⟨fun h hmem => h _ hmem rfl, fun h t ht heq => h (heq ▸ ht)⟩
  rw [keys_tags p hp, untag, nodup_two_kinds _ _ _ hf Function.injective_id, lefts_tags, rights_tags, hclash]
  unfold Duplicates Clash
  by_cases ho : (p.occurring rules vs).Nodup
  · rw [checked_nodup_iff p hp vs ho]
    simp only [not_or, not_not]
    constructor
    · rintro ⟨-, ⟨htexts, hletters⟩, hnumbers⟩
      exact ⟨⟨ho, htexts⟩, hnumbers, hletters⟩
    · rintro ⟨⟨-, htexts⟩, hnumbers, hletters⟩
      exact ⟨ho, ⟨htexts, hletters⟩, hnumbers⟩
  · exact iff_of_false (fun h => ho h.1) fun h => h.1 (.inl ho)

/-! ## Exactness -/

theorem duplicates_front (rules : List rule) (vs : List visit) (h : p.Duplicates rules (front vs)) :
    p.Duplicates rules vs := by
  obtain ⟨more, hvs⟩ : front vs <+: vs := List.takeWhile_prefix _
  have hoccurring : p.occurring rules vs = p.occurring rules (front vs) ++ p.occurring rules more := by
    conv_lhs => rw [← hvs]
    simp [occurring]
  have htexts : p.texts vs = p.texts (front vs) ++ p.texts more := by
    conv_lhs => rw [← hvs]
    simp [texts]
  refine h.imp (fun hno hall => hno ?_) fun hno hall => hno ?_
  · rw [hoccurring] at hall
    exact (List.nodup_append.mp hall).1
  · rw [htexts] at hall
    exact (List.nodup_append.mp hall).1

/-- **Duplicate detection.** For any rules, each with a number of its own, and any arguments without missing values, and
without options that print the version or the help: `parsing` reports duplicates as they are if and only if they stand
in front of the first `-` or `--`, or there is a clash in front of it just when there are duplicates at all. -/
theorem too_many_exact_iff (m_version m_v : Bytes) (m_h : Bool) (rules : List rule) (argv : List Bytes)
    (hids : (rules.map rule.id_source).Nodup)
    (hplain : ∀ v ∈ (of_rules m_version m_v m_h rules).visits argv, Plain (of_rules m_version m_v m_h rules) v) :
    let p := of_rules m_version m_v m_h rules
    (p.parsing argv = .error .too_many_parameters ↔ p.Duplicates rules (p.visits argv)) ↔
      (p.Duplicates rules (front (p.visits argv)) ∨
        (p.Clash rules (front (p.visits argv)) ↔ p.Duplicates rules (p.visits argv))) := by
  intro p
  have hp := of_rules_hasRules m_version m_v m_h rules
  have hrun : p.parsing argv = .error .too_many_parameters ↔
      p.Duplicates rules (front (p.visits argv)) ∨ p.Clash rules (front (p.visits argv)) := by
    have hloop := parsing_loop_checked p (decide (1 < argv.length)) argv .init List.nodup_nil hplain
    have hkeys := keys_nodup_iff p hp hids (front (p.visits argv))
    have hnil : ∀ keys, Distinct parsed.init.cache keys ↔ keys.Nodup := by
      intro keys
      unfold Distinct
      rw [show parsed.init.cache = [] from rfl, List.append_nil, List.nodup_reverse]
    rw [hnil, hkeys, not_and_or, not_not, not_not] at hloop
    exact hloop
  rw [hrun]
  by_cases hfront : p.Duplicates rules (front (p.visits argv))
  · have hall := p.duplicates_front rules (p.visits argv) hfront
    simp only [hfront, hall, true_or]
  · simp only [hfront, false_or]

/-- A flag with the number of the first rule -/
def flagRule : rule := ⟨false, 0, ascii "-a", ascii "all", []⟩

theorem flag_plain (v : visit) (hv : v.arg = ascii "-a" ∨ v.arg = ascii "0") :
    Plain (of_rules [] [] false [flagRule]) v := by
  have hnone : ∀ arg, arg = ascii "-a" ∨ arg = ascii "0" →
      (of_rules [] [] false [flagRule]).takes_next arg = false := by
    rintro arg (rfl | rfl) <;> rfl
  refine ⟨?_, fun h => ?_⟩
  · rcases hv with hv | hv <;> rw [hv] <;> simp [InfoOption, ascii]
  · rw [hnone v.arg hv] at h
    cases h

theorem too_many_exact_twice : (of_rules [] [] false [flagRule]).parsing [ascii "-a", ascii "-a"] =
    .error .too_many_parameters ↔ (of_rules [] [] false [flagRule]).Duplicates [flagRule]
      ((of_rules [] [] false [flagRule]).visits [ascii "-a", ascii "-a"]) := by
  refine (too_many_exact_iff [] [] false [flagRule] [ascii "-a", ascii "-a"] (by decide) ?_).mpr (.inl (.inl ?_))
  · intro v hv
    refine flag_plain v (.inl ?_)
    have hall : ∀ v ∈ (of_rules [] [] false [flagRule]).visits [ascii "-a", ascii "-a"], v.arg = ascii "-a" := by
      decide
    exact hall v hv
  · decide

/-- The flag, and a positional argument that is the number of its rule -/
theorem number_clashes : ¬ ∀ (m_version m_v : Bytes) (m_h : Bool) (rules : List rule) (argv : List Bytes),
    (rules.map rule.id_source).Nodup →
    (∀ v ∈ (of_rules m_version m_v m_h rules).visits argv, Plain (of_rules m_version m_v m_h rules) v) →
    ((of_rules m_version m_v m_h rules).parsing argv = .error .too_many_parameters ↔
      (of_rules m_version m_v m_h rules).Duplicates rules ((of_rules m_version m_v m_h rules).visits argv)) := by
  intro h
  have hplain : ∀ v ∈ (of_rules [] [] false [flagRule]).visits [ascii "-a", ascii "0"],
      Plain (of_rules [] [] false [flagRule]) v := by
    have hall : ∀ v ∈ (of_rules [] [] false [flagRule]).visits [ascii "-a", ascii "0"],
        v.arg = ascii "-a" ∨ v.arg = ascii "0" := by decide
    exact fun v hv => flag_plain v (hall v hv)
  have hduplicates := (h [] [] false [flagRule] [ascii "-a", ascii "0"] (by decide) hplain).mp rfl
  rcases hduplicates with hno | hno
  · exact hno (by decide)
  · exact hno (by decide)

end args_parser_impl

end Libgs.cmdline
