import Libgs.Core.StringList
import Libgs.Core.Wildcard
import Libgs.Server.Routing
import Mathlib.Data.List.Infix

/-!
# When a rule matches a path

`path_match` of `http/server/detail/request_parser.h`, against what it is for: the segments `{name}` at the end of a
rule are arguments, and what is in front of them is a glob.
-/

namespace Libgs.Server

open Lib Libgs.Http

/-- All but the last `n` segments, as a path again -/
def head_text (n : ℕ) (segments : List Bytes) : Bytes :=
  string_pool.root.intercalate (segments.take (segments.length - n))

/-- The match that is meant: the rule's segments `{name}` at its end are arguments. -/
def PathMatches (rule path : Bytes) : Prop :=
  (rule_segments rule).length ≤ (path_segments path).length ∧
    GlobMatch (head_text (brace_names rule).length (rule_segments rule))
      (head_text (brace_names rule).length (path_segments path))

/-- What `path_match` is meant to do -/
def PathMatched (p : RequestParser) (rule : Bytes) : Prop :=
  ∃ w q, path_match p rule = .ok (w, q) ∧
    (0 ≤ w ↔ PathMatches rule p.m_parser_base.captured.m_path) ∧
    (0 ≤ w → q = { p with m_path_args := bindings rule p.m_parser_base.captured.m_path }) ∧
    (¬ 0 ≤ w → w = -1 ∧ q = p)

/-! ## Joined segments -/

theorem erase_split_eq (splits : Bytes) (strs : List Bytes) (h : strs ≠ []) :
    erase_split (append_each strs splits) splits = .ok (splits.intercalate strs) := by
  rw [append_each_eq splits strs h, erase_split, List.length_append, if_neg (by omega), Nat.add_sub_cancel,
    List.take_left]

theorem join_range_eq (strs : List Bytes) (n : ℕ) (hn : 0 < n) (hle : n ≤ strs.length) :
    join_range strs 0 n string_pool.root = .ok (string_pool.root.intercalate (strs.take n)) := by
  unfold join_range
  rw [if_neg (by omega), List.drop_zero]
  apply erase_split_eq
  exact List.ne_nil_of_length_pos (by rw [List.length_take]; omega)

theorem join_range_zero (strs : List Bytes) : join_range strs 0 0 string_pool.root = .error .out_of_range := by
  unfold join_range
  rw [if_neg (by omega)]
  rfl

/-! ## The texts that are matched -/

theorem match_braces_names (rule : Bytes) :
    match_braces (rule_segments rule).reverse [] (rule_segments rule).length =
      (((argument_names rule).map fun name => (name, [])).reverse,
        (rule_segments rule).length - (argument_names rule).length) := by
  rw [match_braces_spec, argument_names, List.map_reverse, List.reverse_reverse, List.length_reverse, List.length_map,
    List.nil_append]

theorem head_text_join (n : ℕ) (segments : List Bytes) (hn : n < segments.length) :
    join_range segments 0 (segments.length - n) string_pool.root = .ok (head_text n segments) :=
  join_range_eq segments _ (by omega) (by omega)

theorem path_before_eq (vector : path_args_t) (segments : List Bytes) (h : vector.length < segments.length) :
    (if vector = [] then join segments string_pool.root
      else join_range segments 0 (segments.length - vector.length) string_pool.root) =
        .ok (head_text vector.length segments) := by
  split_ifs with hnil
  · rw [hnil, join, erase_split_eq _ _ (List.ne_nil_of_length_pos (by omega)), head_text, List.length_nil, Nat.sub_zero,
      List.take_length]
  · exact head_text_join _ segments h

/-! ## When it does what it is for -/

/-- Every segment of the rule is an argument, or the rule has none. -/
def AllArguments (rule : Bytes) : Prop :=
  ∀ format ∈ rule_segments rule, inBraces format = true ∧ plainName format = true

theorem argument_names_all (rule : Bytes) :
    (argument_names rule).length = (rule_segments rule).length ↔ AllArguments rule := by
  unfold argument_names AllArguments
  rw [List.length_reverse, List.length_map]
  constructor
  · intro h
    have hfilter := List.length_filter_le plainName ((rule_segments rule).reverse.takeWhile inBraces)
    have htake := (List.takeWhile_prefix inBraces (l := (rule_segments rule).reverse)).length_le
    rw [List.length_reverse] at htake
    have hwhole : (rule_segments rule).reverse.takeWhile inBraces = (rule_segments rule).reverse :=
      (List.takeWhile_prefix inBraces).eq_of_length (by rw [List.length_reverse]; omega)
    have hplain := List.length_filter_eq_length_iff.mp (show (((rule_segments rule).reverse.takeWhile inBraces).filter
      plainName).length = ((rule_segments rule).reverse.takeWhile inBraces).length by omega)
    rw [hwhole] at hplain
    intro format hformat
    have hmem := List.mem_reverse.mpr hformat
    exact ⟨List.takeWhile_eq_self_iff.mp hwhole format hmem, hplain format hmem⟩
  · intro h
    have hbraces : (rule_segments rule).reverse.takeWhile inBraces = (rule_segments rule).reverse :=
      List.takeWhile_eq_self_iff.mpr fun format hformat => (h format (List.mem_reverse.mp hformat)).1
    rw [hbraces, List.filter_eq_self.mpr fun format hformat => (h format (List.mem_reverse.mp hformat)).2,
      List.length_reverse]

/-- The match that is found: with the arguments that `path_match` counts, the pieces that `wildcard_match` allows, and a
weight that is not negative as a value of type `int32_t`. -/
def CountedMatch (rule path : Bytes) : Prop :=
  TableMatch (head_text (argument_names rule).length (rule_segments rule))
      (head_text (argument_names rule).length (path_segments path)) ∧
    wildcard_weight (head_text (argument_names rule).length (rule_segments rule))
      (head_text (argument_names rule).length (path_segments path)) % 2 ^ 32 < 2 ^ 31

/-- What a call can do -/
inductive MatchCase (p : RequestParser) (rule : Bytes) : Except exception (ℤ × RequestParser) → Prop
  | short (hlength : (path_segments p.m_parser_base.captured.m_path).length < (rule_segments rule).length) :
      MatchCase p rule (.ok (-1, p))
  | throws (hlength : (rule_segments rule).length ≤ (path_segments p.m_parser_base.captured.m_path).length)
      (hall : AllArguments rule) : MatchCase p rule (.error .out_of_range)
  | fails (hlength : (rule_segments rule).length ≤ (path_segments p.m_parser_base.captured.m_path).length)
      (hall : ¬ AllArguments rule) (hcounted : ¬ CountedMatch rule p.m_parser_base.captured.m_path) :
      MatchCase p rule (.ok (-1, p))
  | found (hlength : (rule_segments rule).length ≤ (path_segments p.m_parser_base.captured.m_path).length)
      (hall : ¬ AllArguments rule) (hcounted : CountedMatch rule p.m_parser_base.captured.m_path) (weight : ℤ)
      (hweight : 0 ≤ weight) :
      MatchCase p rule (.ok (weight,
        { p with m_path_args := bind_last (argument_names rule) p.m_parser_base.captured.m_path }))

theorem path_match_cases (p : RequestParser) (rule : Bytes) : MatchCase p rule (path_match p rule) := by
  have hle := argument_names_length rule
  have hcounted : 0 ≤ wildcard_match (head_text (argument_names rule).length (rule_segments rule))
      (head_text (argument_names rule).length (path_segments p.m_parser_base.captured.m_path)) ↔
        CountedMatch rule p.m_parser_base.captured.m_path := wildcard_match_nonneg _ _
  unfold path_match
  dsimp only
  rw [← rule_segments, ← path_segments, match_braces_names]
  by_cases hlength : (path_segments p.m_parser_base.captured.m_path).length < (rule_segments rule).length
  · rw [if_pos hlength]
    exact .short hlength
  · rw [if_neg hlength]
    dsimp only
    rw [List.reverse_reverse]
    by_cases hall : (argument_names rule).length = (rule_segments rule).length
    · rw [hall, Nat.sub_self, join_range_zero]
      exact .throws (Nat.not_lt.mp hlength) ((argument_names_all rule).mp hall)
    · rw [head_text_join _ _ (by omega), path_before_eq _ _ (by rw [List.length_map]; omega), List.length_map]
      dsimp only
      rw [fill_values]
      rw [argument_names_all] at hall
      split_ifs with hweight
      · exact .fails (Nat.not_lt.mp hlength) hall fun h => absurd (hcounted.mpr h) (by omega)
      · exact .found (Nat.not_lt.mp hlength) hall (hcounted.mp (by omega)) _ (by omega)

theorem pathMatches_of_counted {rule path : Bytes} (h : CountedMatch rule path)
    (hnames : argument_names rule = brace_names rule)
    (hlength : (rule_segments rule).length ≤ (path_segments path).length) :
    PathMatches rule path := by
  refine ⟨hlength, ?_⟩
  rw [← hnames]
  exact globMatch_of_tableMatch h.1

theorem bindings_iff (rule path : Bytes) (hlength : (rule_segments rule).length ≤ (path_segments path).length) :
    bind_last (argument_names rule) path = bindings rule path ↔ argument_names rule = brace_names rule := by
  constructor
  · intro h
    have hnames := congrArg (List.map (·.1)) h
    rwa [bindings, bind_last_names _ _ ((argument_names_length rule).trans hlength),
      bind_last_names _ _ ((brace_names_length rule).trans hlength)] at hnames
  · intro h
    rw [h, bindings]

/-- **Path matching.** It does what it is for if and only if the path has fewer segments than the rule, or the rule has
a segment that is no argument and the match that is found is the one that is meant, with its arguments, or neither of
the two is there. -/
theorem path_matched_iff (p : RequestParser) (rule : Bytes) :
    PathMatched p rule ↔
      (path_segments p.m_parser_base.captured.m_path).length < (rule_segments rule).length ∨
      ¬ AllArguments rule ∧
        (argument_names rule = brace_names rule ∧ CountedMatch rule p.m_parser_base.captured.m_path ∨
          ¬ CountedMatch rule p.m_parser_base.captured.m_path ∧
            ¬ PathMatches rule p.m_parser_base.captured.m_path) := by
  have hcases := path_match_cases p rule
  unfold PathMatched
  generalize path_match p rule = res at hcases ⊢
  cases hcases with
  | short hlength =>
    refine iff_of_true ⟨-1, p, rfl, iff_of_false (by decide) ?_, fun h => absurd h (by decide), fun _ => ⟨rfl, rfl⟩⟩
      (.inl hlength)
    exact fun h => absurd h.1 (Nat.not_le.mpr hlength)
  | throws hlength hall =>
    refine iff_of_false ?_ ?_
    · rintro ⟨w, q, hres, -⟩
      cases hres
    · rintro (hshort | ⟨hnot, -⟩)
      · exact absurd hlength (Nat.not_le.mpr hshort)
      · exact hnot hall
  | fails hlength hall hcounted =>
    constructor
    · rintro ⟨w, q, hres, hiff, -⟩
      cases hres
      exact .inr ⟨hall, .inr ⟨hcounted, fun h => absurd (hiff.mpr h) (by decide)⟩⟩
    · rintro (hshort | ⟨-, ⟨-, h⟩ | ⟨-, hnot⟩⟩)
      · exact absurd hlength (Nat.not_le.mpr hshort)
      · exact absurd h hcounted
      · exact ⟨-1, p, rfl, iff_of_false (by decide) hnot, fun h => absurd h (by decide), fun _ => ⟨rfl, rfl⟩⟩
  | found hlength hall hcounted weight hweight =>
    constructor
    · rintro ⟨w, q, hres, -, hargs, -⟩
      cases hres
      have hnames := (bindings_iff rule _ hlength).mp (congrArg RequestParser.m_path_args (hargs hweight))
      exact .inr ⟨hall, .inl ⟨hnames, hcounted⟩⟩
    · rintro (hshort | ⟨-, ⟨hnames, -⟩ | ⟨hnot, -⟩⟩)
      · exact absurd hlength (Nat.not_le.mpr hshort)
      · refine ⟨weight, _, rfl, iff_of_true hweight (pathMatches_of_counted hcounted hnames hlength), fun _ => ?_,
          fun h => absurd hweight h⟩
        rw [(bindings_iff rule _ hlength).mpr hnames]
      · exact absurd hcounted hnot

theorem one_argument_throws : ¬ PathMatched getAB (ascii "{x}") := by
  rintro ⟨w, q, hmatch, -⟩
  have hthrows : path_match getAB (ascii "{x}") = .error .out_of_range := rfl
  rw [hthrows] at hmatch
  cases hmatch

end Libgs.Server
