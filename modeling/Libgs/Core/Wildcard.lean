import Libgs.Core.Algorithm
import Libgs.Lib.Pattern
import Mathlib.Algebra.BigOperators.Group.List.Basic
import Mathlib.Tactic.Ring

/-!
# What the wildcards match

The table of `wildcard_match` in `core/algorithm/misc.cpp` and the pieces of the string that it lets a star take.
-/

namespace Libgs

open Lib

/-- The question mark -/
def any_one : UInt8 := 0x3F

/-- The star -/
def any_many : UInt8 := 0x2A

/-- The rule matches the string: a star takes any piece of it, a question mark any one byte. -/
def GlobMatch (rule str : Bytes) : Prop := Parse (globReads any_one any_many fun _ _ => True) [] rule str

/-- What the table lets a star take: no star of the string behind the first byte, and behind a star of the string only
what begins with a star. -/
def Takes (front piece : Bytes) : Prop :=
  any_many ∉ piece.tail ∧ (front.getLast? = some any_many → piece.head? = some any_many)

/-- What the cells of the table accept, as a parse of the rule -/
def TableMatch (rule str : Bytes) : Prop := Parse (globReads any_one any_many Takes) [] rule str

theorem globMatch_of_tableMatch {rule str : Bytes} (h : TableMatch rule str) : GlobMatch rule str := by
  refine h.imp fun x before piece after _ hread => ?_
  unfold globReads at *
  split_ifs at * with hone hmany
  · exact hread
  · trivial
  · exact hread

theorem tableMatch_iff_of_no_star (rule str : Bytes) (hstr : any_many ∉ str) :
    TableMatch rule str ↔ GlobMatch rule str := by
  refine ⟨globMatch_of_tableMatch, fun h => h.imp fun x before piece after hsplit hread => ?_⟩
  rw [List.nil_append] at hsplit
  unfold globReads at *
  split_ifs at * with hone hmany
  · exact hread
  · refine ⟨fun hmem => hstr ?_, fun hlast => absurd ?_ hstr⟩
    · rw [hsplit]
      exact List.mem_append_right _ (List.mem_append_left _ (List.mem_of_mem_tail hmem))
    · rw [hsplit]
      exact List.mem_append_left _ (List.mem_of_getLast? hlast)
  · exact hread

/-! ## One cell of the table -/

theorem tableMatch_nil (str : Bytes) : TableMatch [] str ↔ str = [] := parse_nil [] str

theorem tableMatch_concat (rule str : Bytes) (x : UInt8) :
    TableMatch (rule ++ [x]) str ↔
      ∃ first piece, str = first ++ piece ∧ TableMatch rule first ∧ globReads any_one any_many Takes x first piece :=
  parse_concat [] rule x str

theorem tableMatch_empty (rule : Bytes) (x : UInt8) :
    TableMatch (rule ++ [x]) [] ↔ x = any_many ∧ TableMatch rule [] := by
  rw [tableMatch_concat]
  constructor
  · rintro ⟨first, piece, hsplit, hfirst, hread⟩
    obtain ⟨rfl, rfl⟩ := List.append_eq_nil_iff.mp hsplit.symm
    refine ⟨?_, hfirst⟩
    by_contra hmany
    unfold globReads at hread
    rw [if_neg hmany] at hread
    split_ifs at hread
  · rintro ⟨rfl, h⟩
    exact ⟨[], [], rfl, h, (globReads_many (by decide) _ _).mpr ⟨by simp, by simp⟩⟩

theorem tableMatch_byte (rule str : Bytes) (x c : UInt8)
    (hx : ∀ front piece, globReads any_one any_many Takes x front piece → ∃ d, piece = [d]) :
    TableMatch (rule ++ [x]) (str ++ [c]) ↔
      TableMatch rule str ∧ globReads any_one any_many Takes x str [c] := by
  rw [tableMatch_concat]
  constructor
  · rintro ⟨first, piece, hsplit, hfirst, hread⟩
    obtain ⟨d, rfl⟩ := hx first piece hread
    obtain ⟨rfl, hc⟩ := List.append_inj' hsplit rfl
    cases hc
    exact ⟨hfirst, hread⟩
  · rintro ⟨h, hread⟩
    exact ⟨str, [c], rfl, h, hread⟩

theorem tableMatch_one (rule str : Bytes) (c : UInt8) :
    TableMatch (rule ++ [any_one]) (str ++ [c]) ↔ TableMatch rule str := by
  rw [tableMatch_byte rule str any_one c fun front piece hread =>
    List.length_eq_one_iff.mp ((globReads_one front piece).mp hread)]
  exact and_iff_left ((globReads_one _ _).mpr rfl)

theorem tableMatch_other (rule str : Bytes) (x c : UInt8) (hone : x ≠ any_one) (hmany : x ≠ any_many) :
    TableMatch (rule ++ [x]) (str ++ [c]) ↔ x = c ∧ TableMatch rule str := by
  rw [tableMatch_byte rule str x c fun front piece hread => ⟨x, (globReads_other hone hmany front piece).mp hread⟩,
    globReads_other hone hmany]
  constructor
  · rintro ⟨h, hc⟩
    exact ⟨(List.singleton_inj.mp hc).symm, h⟩
  · rintro ⟨rfl, h⟩
    exact ⟨h, rfl⟩

theorem takes_concat (front piece : Bytes) (c : UInt8) :
    Takes front (piece ++ [c]) ↔
      (piece = [] ∧ (front.getLast? = some any_many → c = any_many)) ∨
        (piece ≠ [] ∧ c ≠ any_many ∧ Takes front piece) := by
  cases piece with
  | nil => simp [Takes]
  | cons d piece =>
    simp only [Takes, List.cons_append, List.tail_cons, List.mem_append, List.mem_singleton, not_or, List.head?_cons,
      reduceCtorEq, false_and, false_or, ne_eq, not_false_eq_true, true_and]
    constructor
    · rintro ⟨⟨hpiece, hc⟩, hhead⟩
      exact ⟨Ne.symm hc, hpiece, hhead⟩
    · rintro ⟨hc, hpiece, hhead⟩
      exact ⟨⟨hpiece, Ne.symm hc⟩, hhead⟩

theorem tableMatch_many_cases (rule str : Bytes) (c : UInt8) :
    TableMatch (rule ++ [any_many]) (str ++ [c]) ↔
      (c ≠ any_many ∧ TableMatch rule (str ++ [c])) ∨
      ((str.getLast? = some any_many → c = any_many) ∧ TableMatch rule str) ∨
      (c ≠ any_many ∧
        ∃ first piece, str = first ++ piece ∧ piece ≠ [] ∧ TableMatch rule first ∧ Takes first piece) := by
  rw [tableMatch_concat]
  simp only [globReads_many (show any_many ≠ any_one by decide)]
  constructor
  · rintro ⟨first, piece, hsplit, hfirst, htakes⟩
    rcases List.eq_nil_or_concat' piece with rfl | ⟨piece, d, rfl⟩
    · rw [List.append_nil] at hsplit
      refine .inl ⟨fun hc => ?_, hsplit ▸ hfirst⟩
      have := htakes.2 (by rw [← hsplit, hc, List.getLast?_concat])
      cases this
    · rw [← List.append_assoc] at hsplit
      obtain ⟨rfl, hd⟩ := List.append_inj' hsplit rfl
      cases hd
      rcases (takes_concat first piece c).mp htakes with ⟨rfl, hc⟩ | ⟨hne, hc, htakes⟩
      · rw [List.append_nil]
        exact .inr (.inl ⟨hc, hfirst⟩)
      · exact .inr (.inr ⟨hc, first, piece, rfl, hne, hfirst, htakes⟩)
  · rintro (⟨hc, h⟩ | ⟨hc, h⟩ | ⟨hc, first, piece, rfl, hne, h, htakes⟩)
    · refine ⟨str ++ [c], [], (List.append_nil _).symm, h, by simp, fun hlast => ?_⟩
      rw [List.getLast?_concat, Option.some.injEq] at hlast
      exact absurd hlast hc
    · exact ⟨str, [c], rfl, h, (takes_concat str [] c).mpr (.inl ⟨rfl, hc⟩)⟩
    · exact ⟨first, piece ++ [c], List.append_assoc _ _ _, h, (takes_concat first piece c).mpr (.inr ⟨hne, hc, htakes⟩)⟩

theorem tableMatch_star (rule str : Bytes) :
    TableMatch (rule ++ [any_many]) (str ++ [any_many]) ↔ TableMatch rule str := by
  simp [tableMatch_many_cases]

theorem tableMatch_many (rule str : Bytes) (c : UInt8) (hc : c ≠ any_many) :
    TableMatch (rule ++ [any_many]) (str ++ [c]) ↔
      TableMatch (rule ++ [any_many]) str ∨ TableMatch rule (str ++ [c]) := by
  rw [tableMatch_many_cases, tableMatch_concat rule str]
  simp only [globReads_many (show any_many ≠ any_one by decide), hc, ne_eq, not_false_eq_true, true_and, imp_false]
  constructor
  · rintro (h | ⟨hlast, h⟩ | ⟨first, piece, hsplit, -, hfirst, htakes⟩)
    · exact .inr h
    · exact .inl ⟨str, [], (List.append_nil _).symm, h, by simp, fun h => absurd h hlast⟩
    · exact .inl ⟨first, piece, hsplit, hfirst, htakes⟩
  · rintro (⟨first, piece, rfl, hfirst, htakes⟩ | h)
    · by_cases hne : piece = []
      · subst hne
        rw [List.append_nil]
        exact .inr (.inl ⟨fun hlast => absurd (htakes.2 hlast) (by simp), hfirst⟩)
      · exact .inr (.inr ⟨first, piece, rfl, hne, hfirst, htakes⟩)
    · exact .inl h

/-! ## The rows -/

section

open Classical

/-- The row of the table for the string `str`, behind the columns of `done`. -/
noncomputable def cells (str : Bytes) : Bytes → Bytes → List Bool
  | done, [] => [decide (TableMatch done str)]
  | done, x :: rule => decide (TableMatch done str) :: cells str (done ++ [x]) rule

theorem cells_ne_nil (str done rule : Bytes) :
    cells str done rule = decide (TableMatch done str) :: (cells str done rule).tail := by
  cases rule <;> rfl

theorem wildcard_row_zero_cells (done rule : Bytes) :
    wildcard_row_zero rule (decide (TableMatch done [])) = cells [] done rule := by
  induction rule generalizing done with
  | nil => rfl
  | cons x rule ih =>
    have hnext : (if x = 0x2A then decide (TableMatch done []) else false) = decide (TableMatch (done ++ [x]) []) := by
      rw [Bool.eq_iff_iff]
      simp [tableMatch_empty, any_many]
    rw [wildcard_row_zero, hnext, ih]
    rfl

/-- What one cell adds to the weight -/
def cell_weight (c x : UInt8) : ℤ := if x = any_one then 1 else if x = c then 0 else if x = any_many then 2 else 0

theorem wildcard_cell (str done : Bytes) (c x : UInt8) :
    (if x = 0x3F then (decide (TableMatch done str), (1 : ℤ))
      else if x = c then (decide (TableMatch done str), 0)
      else if x = 0x2A then
        (decide (TableMatch (done ++ [x]) str) || decide (TableMatch done (str ++ [c])), 2)
      else (false, 0)) = (decide (TableMatch (done ++ [x]) (str ++ [c])), cell_weight c x) := by
  unfold cell_weight
  by_cases hone : x = any_one
  · subst hone
    simp only [show any_one = 0x3F from rfl, if_true, ← tableMatch_one done str c]
  · rw [if_neg hone, if_neg (show ¬ x = 0x3F from hone)]
    by_cases hc : x = c
    · subst hc
      have hsame : TableMatch (done ++ [x]) (str ++ [x]) ↔ TableMatch done str := by
        by_cases hmany : x = any_many
        · exact hmany ▸ tableMatch_star done str
        · rw [tableMatch_other done str x x hone hmany, and_iff_right rfl]
      simp only [if_true, hsame]
    · rw [if_neg hc, if_neg hc]
      by_cases hmany : x = any_many
      · subst hmany
        rw [if_pos (show any_many = 0x2A from rfl), if_pos rfl]
        simp only [← Bool.decide_or, tableMatch_many done str c (Ne.symm hc)]
      · rw [if_neg hmany, if_neg (show ¬ x = 0x2A from hmany)]
        simp only [tableMatch_other done str x c hone hmany, hc, false_and, decide_false]

theorem wildcard_row_cells (str done rule : Bytes) (c : UInt8) :
    wildcard_row c rule (cells str done rule) (decide (TableMatch done (str ++ [c]))) =
      ((cells (str ++ [c]) done rule).tail, (rule.map (cell_weight c)).sum) := by
  induction rule generalizing done with
  | nil => rfl
  | cons x rule ih =>
    have hrest := ih (done ++ [x])
    rw [cells_ne_nil str (done ++ [x]) rule] at hrest
    rw [cells, cells_ne_nil str (done ++ [x]) rule, wildcard_row, wildcard_cell]
    dsimp only
    rw [hrest]
    simp only [cells, List.tail_cons, ← cells_ne_nil, List.map_cons, List.sum_cons]

theorem wildcard_rows_cells (str more rule : Bytes) (weight : ℤ) :
    wildcard_rows rule more (cells str [] rule) weight =
      (cells (str ++ more) [] rule, weight + (more.map fun c => (rule.map (cell_weight c)).sum).sum) := by
  induction more generalizing str weight with
  | nil => simp [wildcard_rows]
  | cons c more ih =>
    have hfirst : decide (TableMatch [] (str ++ [c])) = false := by
      simp [tableMatch_nil]
    have hrow := wildcard_row_cells str [] rule c
    rw [hfirst] at hrow
    rw [wildcard_rows, hrow]
    dsimp only
    rw [← hfirst, ← cells_ne_nil, ih]
    simp [Int.add_assoc]

theorem cells_getLast (str done rule : Bytes) :
    (cells str done rule).getLast? = some (decide (TableMatch (done ++ rule) str)) := by
  induction rule generalizing done with
  | nil => simp [cells]
  | cons x rule ih =>
    rw [cells, List.getLast?_cons, ih]
    simp

end

/-! ## The result -/

/-- The sum over the cells: one for a question mark and any byte, two for a star and a byte that is not a star -/
def wildcard_weight (rule str : Bytes) : ℕ :=
  str.length * rule.count any_one + 2 * rule.count any_many * str.countP (· ≠ any_many)

theorem row_weight (rule : Bytes) (c : UInt8) :
    (rule.map (cell_weight c)).sum =
      (rule.count any_one : ℤ) + if c ≠ any_many then 2 * (rule.count any_many : ℤ) else 0 := by
  induction rule with
  | nil => simp
  | cons x rule ih =>
    rw [List.map_cons, List.sum_cons, ih]
    by_cases hone : x = any_one
    · subst hone
      rw [List.count_cons_self, List.count_cons_of_ne (by decide), cell_weight, if_pos rfl]
      push_cast
      omega
    · rw [List.count_cons_of_ne hone]
      by_cases hmany : x = any_many
      · subst hmany
        rw [List.count_cons_self, cell_weight, if_neg hone, if_pos rfl]
        rcases eq_or_ne c any_many with rfl | hc
        · rw [if_pos rfl, if_neg (not_not.mpr rfl), if_neg (not_not.mpr rfl), zero_add]
        · rw [if_neg (Ne.symm hc), if_pos hc, if_pos hc]
          push_cast
          ring
      · rw [List.count_cons_of_ne hmany, cell_weight, if_neg hone, if_neg hmany, ite_self, zero_add]

theorem wildcard_weight_spec (rule str : Bytes) :
    (str.map fun c => (rule.map (cell_weight c)).sum).sum = (wildcard_weight rule str : ℤ) := by
  unfold wildcard_weight
  induction str with
  | nil => simp
  | cons c str ih =>
    rw [List.map_cons, List.sum_cons, ih, row_weight, List.length_cons, List.countP_cons]
    rcases eq_or_ne c any_many with rfl | hc
    · rw [if_neg (not_not.mpr rfl), if_neg (by simp)]
      push_cast
      ring
    · rw [if_pos hc, if_pos (by simpa using hc)]
      push_cast
      ring

theorem cells_match (rule str : Bytes) : (cells str [] rule).getLast? = some true ↔ TableMatch rule str := by
  simp [cells_getLast]

/-- **The table.** A rule that matches has the weight of its cells, as a value of type `int32_t`. -/
theorem wildcard_match_nonneg (rule str : Bytes) :
    0 ≤ wildcard_match rule str ↔ TableMatch rule str ∧ wildcard_weight rule str % 2 ^ 32 < 2 ^ 31 := by
  have hzero : wildcard_row_zero rule true = cells [] [] rule := by
    rw [← wildcard_row_zero_cells]
    simp [tableMatch_nil]
  unfold wildcard_match
  rw [hzero, wildcard_rows_cells, wildcard_weight_spec, List.nil_append, zero_add]
  dsimp only
  by_cases hmatch : TableMatch rule str
  · rw [if_pos ((cells_match rule str).mpr hmatch), and_iff_right hmatch, Int.bmod_def]
    split_ifs <;> omega
  · rw [if_neg fun h => hmatch ((cells_match rule str).mp h), iff_false_right fun h => hmatch h.1]
    decide

/-- **The glob.** The sign of the result tells whether the rule matches, if and only if a rule that matches does so with
what the table lets its stars take, and its weight is not negative as a value of type `int32_t`. -/
theorem wildcard_match_glob_iff (rule str : Bytes) :
    (0 ≤ wildcard_match rule str ↔ GlobMatch rule str) ↔
      (GlobMatch rule str → TableMatch rule str ∧ wildcard_weight rule str % 2 ^ 32 < 2 ^ 31) := by
  rw [wildcard_match_nonneg]
  constructor
  · exact fun h hglob => h.mpr hglob
  · exact fun h => ⟨fun htable => globMatch_of_tableMatch htable.1, h⟩

theorem star_of_string_unmatched : ¬ ∀ rule str : Bytes, 0 ≤ wildcard_match rule str ↔ GlobMatch rule str := by
  intro h
  have hglob : GlobMatch (ascii "*") (ascii "a*") :=
    .cons [] any_many [] (ascii "a*") [] ((globReads_many (by decide) _ _).mpr trivial) (.nil _)
  have hmatch := (h (ascii "*") (ascii "a*")).mpr hglob
  revert hmatch
  decide

/-- A star of the string is read by a star of the rule as itself. -/
example : wildcard_match (ascii "*") (ascii "a*") = -1 := by decide

end Libgs
