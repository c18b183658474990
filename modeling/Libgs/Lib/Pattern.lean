import Mathlib.Data.List.Basic

/-!
# Patterns

A pattern is a list of symbols that read a text from its begin to its end, one piece each. What a symbol may read can
depend on the text in front of it.
-/

namespace Lib

variable {κ α : Type}

section

variable (reads : κ → List α → List α → Prop)

/-- The symbols read the whole text, behind the text `front`. -/
inductive Parse : List α → List κ → List α → Prop
  | nil (front : List α) : Parse front [] []
  | cons (front : List α) (x : κ) (rule : List κ) (piece text : List α) (hread : reads x front piece)
      (hrest : Parse (front ++ piece) rule text) : Parse front (x :: rule) (piece ++ text)

variable {reads}

theorem parse_nil (front text : List α) : Parse reads front [] text ↔ text = [] := by
  constructor
  · intro h
    cases h
    rfl
  · rintro rfl
    exact .nil front

theorem parse_cons (front : List α) (x : κ) (rule : List κ) (text : List α) :
    Parse reads front (x :: rule) text ↔
      ∃ piece rest, text = piece ++ rest ∧ reads x front piece ∧ Parse reads (front ++ piece) rule rest := by
  constructor
  · intro h
    cases h with
    | cons _ _ _ piece rest hread hrest => exact ⟨piece, rest, rfl, hread, hrest⟩
  · rintro ⟨piece, rest, rfl, hread, hrest⟩
    exact .cons front x rule piece rest hread hrest

theorem parse_append (front : List α) (rule more : List κ) (text : List α) :
    Parse reads front (rule ++ more) text ↔
      ∃ first rest, text = first ++ rest ∧ Parse reads front rule first ∧ Parse reads (front ++ first) more rest := by
  induction rule generalizing front text with
  | nil => simp [parse_nil]
  | cons x rule ih =>
    rw [List.cons_append, parse_cons]
    constructor
    · rintro ⟨piece, rest, rfl, hread, hrest⟩
      obtain ⟨first, last, rfl, hfirst, hlast⟩ := (ih _ _).mp hrest
      refine ⟨piece ++ first, last, (List.append_assoc _ _ _).symm, .cons _ _ _ _ _ hread hfirst, ?_⟩
      rwa [← List.append_assoc]
    · rintro ⟨first, last, rfl, hfirst, hlast⟩
      obtain ⟨piece, first, rfl, hread, hrest⟩ := (parse_cons _ _ _ _).mp hfirst
      refine ⟨piece, first ++ last, List.append_assoc _ _ _, hread, (ih _ _).mpr ⟨first, last, rfl, hrest, ?_⟩⟩
      rwa [List.append_assoc]

theorem parse_concat (front : List α) (rule : List κ) (x : κ) (text : List α) :
    Parse reads front (rule ++ [x]) text ↔
      ∃ first piece, text = first ++ piece ∧ Parse reads front rule first ∧ reads x (front ++ first) piece := by
  simp [parse_append, parse_cons, parse_nil]

theorem Parse.imp {reads' : κ → List α → List α → Prop} {front : List α} {rule : List κ} {text : List α}
    (h : Parse reads front rule text)
    (himp : ∀ x before piece after, front ++ text = before ++ (piece ++ after) → reads x before piece →
      reads' x before piece) : Parse reads' front rule text := by
  induction h with
  | nil front => exact .nil front
  | cons front x rule piece text hread hrest ih =>
    refine .cons front x rule piece text (himp x front piece text rfl hread) (ih fun y before piece' after hsplit => ?_)
    exact himp y before piece' after (by rw [← hsplit, List.append_assoc])

end

/-! ## Globs -/

section

variable [DecidableEq α] (one many : α) (takes : List α → List α → Prop)

/-- A symbol reads itself. `one` reads any one symbol, and `many` any piece that `takes` allows. -/
def globReads (x : α) (front piece : List α) : Prop :=
  if x = one then piece.length = 1 else if x = many then takes front piece else piece = [x]

variable {one many takes}

theorem globReads_one (front piece : List α) : globReads one many takes one front piece ↔ piece.length = 1 := by
  rw [globReads, if_pos rfl]

theorem globReads_many (h : many ≠ one) (front piece : List α) :
    globReads one many takes many front piece ↔ takes front piece := by
  rw [globReads, if_neg h, if_pos rfl]

theorem globReads_other {x : α} (hone : x ≠ one) (hmany : x ≠ many) (front piece : List α) :
    globReads one many takes x front piece ↔ piece = [x] := by
  rw [globReads, if_neg hone, if_neg hmany]

end

end Lib
