import Libgs.Core.Algorithm
import Libgs.Lib.Digits
import Libgs.Lib.OrderedMap
import Mathlib.Data.List.Lex

/-!
# The command line

`args_parser` of `core/args_parser.cpp`. The arguments are without the program's name, and a call of `exit` is an error
value. The maps and the set are unordered in the source; nothing goes through them.
-/

namespace Libgs.cmdline

open Lib

/-- `std::map` with a `std::string` for a key -/
abbrev text_map (β : Type) := OrderedMap (fun key : Bytes => key.map UInt8.toNat) β

theorem text_rank_injective : Function.Injective fun key : Bytes => key.map UInt8.toNat :=
  List.map_injective_iff.mpr fun _ _ => UInt8.toNat_inj.mp

/-- The rule that an option belongs to, by its number, and the name under which its value is recorded -/
structure arg_info where
  group : Bytes
  iden : Bytes

abbrev args_cache := text_map arg_info

structure args_parser_impl where
  m_group : args_cache
  m_flag : args_cache
  m_version : Bytes
  m_v : Bytes
  m_help : Bytes
  m_h : Bool

/-! ## The rules -/

/-- The characters that an option may have -/
def check (str : Bytes) : Bool :=
  str ≠ [] ∧ (str.drop 1).dropLast.all fun c => 33 ≤ c ∧ c ≤ 126 ∧ c ≠ 61 ∧ c ≠ 92

/-- The options that the text of a rule has between its commas -/
def options (rule : Bytes) : List Bytes :=
  ((from_string rule (ascii ",")).map str_trimmed).filter fun arg =>
    if check arg = false ∨ arg = ascii "--" then false else if arg.length = 1 then arg ≠ ascii "-" else true

/-- A call of `add_group` or `add_flag`. `id_source` is the value of the counter at this call. -/
structure rule where
  is_group : Bool
  id_source : ℕ
  text : Bytes
  description : Bytes
  identification : Bytes
  deriving DecidableEq

/-- What is kept for an option of the rule -/
def rule.info (r : rule) (arg : Bytes) : arg_info :=
  ⟨digits 10 r.id_source, if r.identification = [] then arg else r.identification⟩

/-- The options of the rule with what is kept for them -/
def rule.entries (r : rule) : List (Bytes × arg_info) := (options r.text).map fun arg => (arg, r.info arg)

namespace args_parser_impl

def init (m_version m_v : Bytes) (m_h : Bool) : args_parser_impl :=
  { m_group := .empty, m_flag := .empty, m_version := m_version, m_v := m_v, m_help := [], m_h := m_h }

def add (p : args_parser_impl) (r : rule) : args_parser_impl :=
  let p := { p with
    m_help := p.m_help ++ (ascii "    " ++ r.text ++ ascii " :\n        " ++ r.description ++ ascii "\n\n") }
  if r.is_group then { p with m_group := p.m_group.emplaceAll r.entries }
  else { p with m_flag := p.m_flag.emplaceAll r.entries }

/-- `add` for one rule after another -/
def with_rules (p : args_parser_impl) (rules : List rule) : args_parser_impl := rules.foldl add p

end args_parser_impl

/-! ## Parsing -/

/-- How the loop can stop: by an exception, or by one of the exits that print something -/
inductive stop
  | invalid_arguments
  | too_many_parameters
  | print_version
  | print_v
  | print_help
  deriving DecidableEq, Repr

/-- What the turns leave. Nothing may come twice that is in `cache`. -/
structure parsed where
  cache : List Bytes
  result : text_map Bytes
  other : List Bytes

namespace parsed

def init : parsed := ⟨[], .empty, []⟩

def group_check_duplication (s : parsed) (group : Bytes) : Except stop parsed :=
  if group ∈ s.cache then .error .too_many_parameters else .ok { s with cache := group :: s.cache }

/-- An option of a rule: `group_check_duplication` and `result.emplace`. -/
def record (s : parsed) (info : arg_info) (value : Bytes) : Except stop parsed :=
  match s.group_check_duplication info.group with
  | .error e => .error e
  | .ok s => .ok { s with result := s.result.emplace info.iden value }

/-- A positional argument -/
def emplace_back (s : parsed) (arg : Bytes) : parsed := { s with other := s.other ++ [arg] }

/-- A positional argument: `group_check_duplication` and `other.emplace_back`. -/
def positional (s : parsed) (arg : Bytes) : Except stop parsed :=
  match s.group_check_duplication arg with
  | .error e => .error e
  | .ok s => .ok (s.emplace_back arg)

end parsed

namespace args_parser_impl

variable (p : args_parser_impl)

/-- The tests in front of the look-up. `several` tells that `argc > 2`. -/
def leading_exit (several : Bool) (arg : Bytes) : Option stop :=
  if arg = ascii "-" ∨ arg = ascii "--" then some .invalid_arguments
  else if arg = ascii "--version" then
    if several then some .too_many_parameters
    else if p.m_version ≠ [] then some .print_version
    else if p.m_v ≠ [] then some .print_v
    else some .invalid_arguments
  else if arg = ascii "-v" then
    if p.m_v ≠ [] then if several then some .too_many_parameters else some .print_v
    else none
  else if arg = ascii "--help" then
    if several then some .too_many_parameters
    else if p.m_help ≠ [] then some .print_help
    else some .invalid_arguments
  else if arg = ascii "-h" then
    if p.m_h then if several then some .too_many_parameters else some .print_help
    else none
  else none

/-- The value of an option is the argument behind it, unless that is an option itself. -/
def next_value : List Bytes → Except stop Bytes
  | [] => .error .invalid_arguments
  | value :: _ =>
    if (p.m_group.find value).isSome ∨ (p.m_flag.find value).isSome then .error .invalid_arguments else .ok value

/-- What a turn of the loop comes to: the state, and whether it has taken the next argument as well. -/
abbrev turn_end := Except stop (parsed × Bool)

/-- An option with the value that stands behind it -/
def record_next (rest : List Bytes) (s : parsed) (info : arg_info) : turn_end :=
  match p.next_value rest with
  | .error e => .error e
  | .ok value => (s.record info value).map (·, true)

/-- A letter of a combination as an option -/
def letter_option (c : UInt8) : Bytes := [45, c]

/-- The loop over the letters of a combination but the last. The first `continue` in it goes on with the next letter. -/
def combined (arg : Bytes) : List UInt8 → parsed → Except stop parsed
  | [], s => .ok s
  | c :: letters, s =>
    match p.m_flag.find (letter_option c) with
    | none =>
      match s.positional arg with
      | .error e => .error e
      | .ok s => combined arg letters s
    | some info =>
      match s.record info info.iden with
      | .error e => .error e
      | .ok s => combined arg letters s

/-- The last letter of a combination. It is appended without a look into the cache. -/
def combined_last (arg : Bytes) (c : UInt8) (rest : List Bytes) (s : parsed) : turn_end :=
  match p.m_flag.find (letter_option c) with
  | some info => (s.record info info.iden).map (·, false)
  | none =>
    match p.m_group.find (letter_option c) with
    | some info => p.record_next rest s info
    | none => .ok (s.emplace_back arg, false)

def is_letter (c : UInt8) : Bool := (65 ≤ c ∧ c ≤ 90) ∨ (97 ≤ c ∧ c ≤ 122)

/-- An argument of more than two characters that is not an option. -/
def long_turn (arg : Bytes) (rest : List Bytes) (s : parsed) : turn_end :=
  match cut (ascii "=") arg with
  | some (key, value) =>
    match p.m_group.find key with
    | none => (s.positional arg).map (·, false)
    | some info => (s.record info value).map (·, false)
  | none =>
    if arg.head? ≠ some 45 then (s.positional arg).map (·, false)
    else if ¬ arg.tail.all is_letter then (s.positional arg).map (·, false)
    else
      match p.combined arg arg.tail.dropLast s with
      | .error e => .error e
      | .ok s => p.combined_last arg (arg.getLast?.getD 0) rest s

/-- A turn of the loop. It tells whether the argument behind its own was used up. -/
def turn (arg : Bytes) (rest : List Bytes) (s : parsed) : turn_end :=
  match p.m_group.find arg with
  | some info => p.record_next rest s info
  | none =>
    match p.m_flag.find arg with
    | some info => (s.record info info.iden).map (·, false)
    | none => if arg.length ≤ 2 then (s.positional arg).map (·, false) else p.long_turn arg rest s

/-- The loop over the arguments -/
def parsing_loop (several : Bool) : List Bytes → parsed → Except stop parsed
  | [], s => .ok s
  | arg :: rest, s =>
    match p.leading_exit several arg with
    | some e => .error e
    | none =>
      match p.turn arg rest s with
      | .error e => .error e
      | .ok (s, false) => parsing_loop several rest s
      | .ok (s, true) =>
        match rest with
        | [] => .ok s
        | _ :: rest => parsing_loop several rest s

/-- `parsing` with `other`. The result is `result` and `other`. -/
def parsing (argv : List Bytes) : Except stop parsed := p.parsing_loop (decide (1 < argv.length)) argv .init

end args_parser_impl

example :
    let file : rule := ⟨true, 0, ascii "-f, --file", [], []⟩
    let all : rule := ⟨false, 1, ascii "-a", [], []⟩
    (((args_parser_impl.init [] [] false).with_rules [file, all]).parsing [ascii "-af", ascii "x"]).map
        (·.result.entries) =
      .ok [(ascii "-a", ascii "-a"), (ascii "-f", ascii "x")] := by decide +kernel

end Libgs.cmdline
