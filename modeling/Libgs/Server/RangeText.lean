import Libgs.Core.StringList
import Libgs.Server.Ranges
import Mathlib.Data.List.Forall2

/-!
# Which ranges are accepted

`from_file_range` and `range_text_parsing` of `http/server/detail/response.h`, against the ranges that a file has.
-/

namespace Libgs.Server

open Lib Libgs.Http

/-! ## Ranges that a caller gives -/

/-- The byte behind the range, as it is counted in a `size_t` -/
def behind (range : file_range) : ℕ :=
  if size_max < range.begin + range.total then range.begin + range.total - size_max else range.begin + range.total

/-- What `from_file_range` is meant to do -/
structure Validates (file_size : ℕ) (ranges : List file_range) : Prop where
  clear : (from_file_range file_size ranges).2 = none ↔ ∀ range ∈ ranges, Accepted file_size range
  same : (from_file_range file_size ranges).2 = none →
    (from_file_range file_size ranges).1.map (·.tofile_range) = ranges ∧
      ∀ value ∈ (from_file_range file_size ranges).1, value.end = value.begin + value.total - 1

theorem last_lt_iff (file_size : ℕ) (range : file_range) (hsize : file_size < size_max)
    (hbegin : range.begin < size_max) (htotal : range.total < size_max) :
    ¬ (range.total = 0 ∨ file_size ≤ (range.begin + range.total + size_max - 1) % size_max) ↔
      0 < range.total ∧ behind range ≤ file_size := by
  unfold behind
  have hpow : size_max = 2 ^ 64 := rfl
  rcases Nat.eq_zero_or_pos range.total with hzero | hpos
  · simp [hzero]
  · by_cases hover : size_max < range.begin + range.total
    · have hlast : (range.begin + range.total + size_max - 1) % size_max =
          range.begin + range.total - size_max - 1 := by
        rw [show range.begin + range.total + size_max - 1 =
          (range.begin + range.total - size_max - 1) + size_max * 2 by omega, Nat.add_mul_mod_self_left]
        exact Nat.mod_eq_of_lt (by omega)
      rw [hlast, if_pos hover]
      omega
    · have hlast : (range.begin + range.total + size_max - 1) % size_max = range.begin + range.total - 1 := by
        rw [show range.begin + range.total + size_max - 1 = (range.begin + range.total - 1) + size_max by omega,
          Nat.add_mod_right]
        exact Nat.mod_eq_of_lt (by omega)
      rw [hlast, if_neg hover]
      omega

theorem from_file_range_clear (file_size : ℕ) (ranges : List file_range) (hsize : file_size < size_max)
    (hrange : ∀ range ∈ ranges, range.begin < size_max ∧ range.total < size_max) :
    (from_file_range file_size ranges).2 = none ↔ ∀ range ∈ ranges, 0 < range.total ∧ behind range ≤ file_size := by
  induction ranges with
  | nil => exact iff_of_true rfl fun range hr => (by cases hr)
  | cons range ranges ih =>
    obtain ⟨⟨hbegin, htotal⟩, hranges⟩ := List.forall_mem_cons.mp hrange
    have hrefused := last_lt_iff file_size range hsize hbegin htotal
    rw [List.forall_mem_cons, ← hrefused]
    unfold from_file_range
    dsimp only
    split
    · rename_i hbad
      exact iff_of_false (by simp) fun h => h.1 hbad
    · rename_i hgood
      rw [and_iff_right hgood]
      exact ih hranges

/-- **Ranges that a caller gives.** They are checked as they should be if and only if a range is refused, or no range
ends behind the greatest value of a `size_t`. -/
theorem validates_iff (file_size : ℕ) (ranges : List file_range) (hsize : file_size < size_max)
    (hrange : ∀ range ∈ ranges, range.begin < size_max ∧ range.total < size_max) :
    Validates file_size ranges ↔
      (∃ range ∈ ranges, range.total = 0 ∨ file_size < behind range) ∨
        ∀ range ∈ ranges, range.begin + range.total ≤ size_max := by
  have hclear := from_file_range_clear file_size ranges hsize hrange
  by_cases hrefused : ∃ range ∈ ranges, range.total = 0 ∨ file_size < behind range
  · have herror : (from_file_range file_size ranges).2 ≠ none := by
      obtain ⟨range, hr, hbad⟩ := hrefused
      intro hnone
      have := hclear.mp hnone range hr
      omega
    refine iff_of_true ⟨iff_of_false herror fun h => herror ?_, fun h => absurd h herror⟩ (.inl hrefused)
    rw [from_file_range_accepted file_size ranges hsize h]
  · have hnone : (from_file_range file_size ranges).2 = none := by
      refine hclear.mpr fun range hr => ?_
      by_contra hbad
      exact hrefused ⟨range, hr, by omega⟩
    rw [or_iff_right hrefused]
    constructor
    · intro h range hr
      have := (h.clear.mp hnone range hr).inside
      omega
    · intro h
      have haccepted : ∀ range ∈ ranges, Accepted file_size range := by
        intro range hr
        obtain ⟨hpos, hle⟩ := hclear.mp hnone range hr
        have hfits := h range hr
        unfold behind at hle
        rw [if_neg (by omega)] at hle
        exact ⟨hpos, hle⟩
      refine ⟨iff_of_true hnone haccepted, fun _ => ?_⟩
      rw [from_file_range_accepted file_size ranges hsize haccepted]
      refine ⟨?_, ?_⟩
      · rw [List.map_map]
        exact List.map_id ranges
      · intro value hvalue
        obtain ⟨range, -, rfl⟩ := List.mem_map.mp hvalue
        rfl

theorem validates_iff_two :
    Validates 10 [⟨0, 3⟩, ⟨8, 2⟩] ↔
      (∃ range ∈ [(⟨0, 3⟩ : file_range), ⟨8, 2⟩], range.total = 0 ∨ 10 < behind range) ∨
        ∀ range ∈ [(⟨0, 3⟩ : file_range), ⟨8, 2⟩], range.begin + range.total ≤ size_max :=
  validates_iff 10 [⟨0, 3⟩, ⟨8, 2⟩] (by decide) (by decide)

/-- The last byte of the range is counted as the fourth byte of the file. -/
theorem end_wraps_around :
    ¬ ∀ file_size ranges, file_size < size_max → (∀ range ∈ ranges, range.begin < size_max ∧ range.total < size_max) →
      Validates file_size ranges := by
  intro h
  have hvalid := h 10 [⟨size_max - 1, 5⟩] (by decide) (by decide)
  have haccepted := hvalid.clear.mp (by decide) ⟨size_max - 1, 5⟩ List.mem_cons_self
  exact absurd haccepted.inside (by decide)

/-! ## Ranges that a client asks for -/

def bytes_start : Bytes := ascii "bytes="

def comma : UInt8 := 0x2C

def minus : UInt8 := 0x2D

/-- The loop goes from the end down to the second byte. -/
def erase_spaces : Bytes → Bytes
  | [] => []
  | c :: str => c :: str.filter (· ≠ 0x20)

/-- A range that was accepted -/
def make_range (file_size begin total last : ℕ) : range_value where
  begin := begin
  total := total
  «end» := last
  cr_line := content_range_line begin last file_size

/-- One turn of the loop in `range_text_parsing`: the range, or none if it is refused. -/
def sub_range (file_size : ℕ) (sub_range_str : Bytes) : Option range_value :=
  match from_string sub_range_str [minus] false with
  | [first, last] =>
    if first = [] then
      if last = [] then none
      else if ston_or last = 0 ∨ file_size < ston_or last then none
      else some (make_range file_size (size_sub file_size (ston_or last)) (ston_or last) (size_sub file_size 1))
    else if last = [] then
      if size_sub file_size 1 < ston_or first then none
      else some (make_range file_size (ston_or first) (size_sub file_size (ston_or first)) (size_sub file_size 1))
    else if ston_or last < ston_or first ∨ file_size ≤ ston_or last then none
    else
      some (make_range file_size (ston_or first) ((size_sub (ston_or last) (ston_or first) + 1) % size_max)
        (ston_or last))
  | _ => none

/-- The sub-ranges one by one, up to the first that is refused -/
def sub_ranges (file_size : ℕ) : List Bytes → status_t × List range_value
  | [] => (200, [])
  | sub_range_str :: rest =>
    match sub_range file_size sub_range_str with
    | none => (416, [])
    | some range => ((sub_ranges file_size rest).1, range :: (sub_ranges file_size rest).2)

/-- The status, and what is in `ranges` then -/
def range_text_parsing (range_str : Bytes) (file_size : ℕ) : status_t × List range_value :=
  if erase_spaces range_str = [] then (400, [])
  else if (erase_spaces range_str).take 6 ≠ bytes_start then (416, [])
  else if (erase_spaces range_str).drop 6 = [] then (416, [])
  else sub_ranges file_size (from_string ((erase_spaces range_str).drop 6) [comma])

/-! ### One range -/

/-- What `ston_or` makes of the two parts of a sub-range is in order. -/
def InOrder (file_size : ℕ) (first last : Bytes) : Prop :=
  (first = [] ∧ last ≠ [] ∧ 0 < ston_or last ∧ ston_or last ≤ file_size) ∨
    (first ≠ [] ∧ last = [] ∧ (file_size = 0 ∨ ston_or first < file_size)) ∨
    (first ≠ [] ∧ last ≠ [] ∧ ston_or first ≤ ston_or last ∧ ston_or last < file_size)

/-- The range of two parts that are in order -/
def range_of (file_size : ℕ) (first last : Bytes) : range_value :=
  if first = [] then make_range file_size (file_size - ston_or last) (ston_or last) (file_size - 1)
  else if last = [] then
    make_range file_size (ston_or first) (size_sub file_size (ston_or first)) (size_sub file_size 1)
  else make_range file_size (ston_or first) (ston_or last - ston_or first + 1) (ston_or last)

theorem size_sub_one_lt (n m : ℕ) (hn : n < size_max) (hm : m < size_max) :
    ¬ size_sub n 1 < m ↔ n = 0 ∨ m < n := by
  rcases Nat.eq_zero_or_pos n with rfl | hpos
  · have hlast : size_sub 0 1 = size_max - 1 := by decide
    rw [hlast]
    omega
  · rw [size_sub_of_le n 1 hn hpos]
    omega

theorem from_string_all (c : UInt8) (str : Bytes) (hne : str ≠ []) : from_string str [c] false = str.splitOn c := by
  rw [from_string_splitOn c str false hne]
  exact List.filter_eq_self.mpr fun l _ => stays_false l

theorem sub_range_parts (file_size : ℕ) (piece first last : Bytes) (range : range_value) (hsize : file_size < size_max)
    (hparts : from_string piece [minus] false = [first, last]) :
    sub_range file_size piece = some range ↔ InOrder file_size first last ∧ range = range_of file_size first last := by
  unfold sub_range InOrder range_of
  rw [hparts]
  dsimp only
  by_cases hfirst : first = []
  · by_cases hlast : last = []
    · simp [hfirst, hlast]
    · simp only [hfirst, hlast, if_true, if_false, ne_eq, not_true_eq_false, not_false_eq_true, true_and, false_and,
        or_false]
      by_cases hbad : ston_or last = 0 ∨ file_size < ston_or last
      · rw [if_pos hbad]
        exact iff_of_false (by simp) fun h => by omega
      · rw [if_neg hbad, size_sub_of_le file_size _ hsize (by omega), size_sub_of_le file_size 1 hsize (by omega),
          Option.some.injEq, and_iff_right (by omega)]
        exact eq_comm
  · by_cases hlast : last = []
    · have hend := size_sub_one_lt file_size (ston_or first) hsize (ston_or_lt first)
      simp only [hfirst, hlast, if_true, if_false, ne_eq, not_true_eq_false, not_false_eq_true, true_and, false_and,
        or_false, false_or, ← hend]
      by_cases hbad : size_sub file_size 1 < ston_or first
      · simp [hbad]
      · simp [hbad, eq_comm]
    · simp only [hfirst, hlast, if_false, ne_eq, not_false_eq_true, true_and, false_and, and_false, false_or]
      by_cases hbad : ston_or last < ston_or first ∨ file_size ≤ ston_or last
      · rw [if_pos hbad]
        exact iff_of_false (by simp) fun h => by omega
      · have hlt := ston_or_lt last
        have hmod : (ston_or last - ston_or first + 1) % size_max = ston_or last - ston_or first + 1 :=
          Nat.mod_eq_of_lt (by omega)
        rw [if_neg hbad, size_sub_of_le _ _ hlt (by omega), hmod, Option.some.injEq, and_iff_right (by omega)]
        exact eq_comm

theorem sub_range_some (file_size : ℕ) (piece : Bytes) (range : range_value) (hsize : file_size < size_max)
    (hne : piece ≠ []) :
    sub_range file_size piece = some range ↔
      ∃ first last, piece = first ++ minus :: last ∧ minus ∉ first ∧ minus ∉ last ∧ InOrder file_size first last ∧
        range = range_of file_size first last := by
  have hsplit := from_string_all minus piece hne
  constructor
  · intro h
    have hpair : ∃ first last, piece.splitOn minus = [first, last] := by
      unfold sub_range at h
      rw [hsplit] at h
      split at h
      · rename_i first last heq
        exact ⟨first, last, heq⟩
      · cases h
    obtain ⟨first, last, hpair⟩ := hpair
    obtain ⟨hpiece, hf, hl⟩ := (splitOn_eq_pair minus piece first last).mp hpair
    refine ⟨first, last, hpiece, hf, hl, ?_⟩
    exact (sub_range_parts file_size piece first last range hsize (hsplit.trans hpair)).mp h
  · rintro ⟨first, last, hpiece, hf, hl, h⟩
    have hpair := (splitOn_eq_pair minus piece first last).mpr ⟨hpiece, hf, hl⟩
    exact (sub_range_parts file_size piece first last range hsize (hsplit.trans hpair)).mpr h

/-! ### The whole text -/

/-- The sub-range is not refused. -/
def Readable (file_size : ℕ) (piece : Bytes) : Prop :=
  ∃ first last, piece = first ++ minus :: last ∧ minus ∉ first ∧ minus ∉ last ∧ InOrder file_size first last

theorem readable_iff (file_size : ℕ) (piece : Bytes) (hsize : file_size < size_max) (hne : piece ≠ []) :
    Readable file_size piece ↔ ∃ range, sub_range file_size piece = some range := by
  constructor
  · rintro ⟨first, last, hpiece, hfirst, hlast, horder⟩
    exact ⟨_, (sub_range_some file_size piece _ hsize hne).mpr ⟨first, last, hpiece, hfirst, hlast, horder, rfl⟩⟩
  · rintro ⟨range, hrange⟩
    obtain ⟨first, last, hpiece, hfirst, hlast, horder, -⟩ := (sub_range_some file_size piece range hsize hne).mp hrange
    exact ⟨first, last, hpiece, hfirst, hlast, horder⟩

theorem sub_ranges_spec (file_size : ℕ) (pieces : List Bytes) :
    ((sub_ranges file_size pieces).1 = 200 ∧
        pieces.map (sub_range file_size) = (sub_ranges file_size pieces).2.map some) ∨
      ((sub_ranges file_size pieces).1 = 416 ∧ ∃ piece ∈ pieces, sub_range file_size piece = none) := by
  induction pieces with
  | nil => exact .inl ⟨rfl, rfl⟩
  | cons piece pieces ih =>
    unfold sub_ranges
    cases hpiece : sub_range file_size piece with
    | none => exact .inr ⟨rfl, piece, List.mem_cons_self, hpiece⟩
    | some range =>
      rcases ih with ⟨hok, hmap⟩ | ⟨hbad, q, hq, hnone⟩
      · exact .inl ⟨hok, by rw [List.map_cons, List.map_cons, hpiece, hmap]⟩
      · exact .inr ⟨hbad, q, List.mem_cons_of_mem _ hq, hnone⟩

/-- The sub-ranges that are looked at: those that are not blank -/
def pieces_of (rest : Bytes) : List Bytes := (rest.splitOn comma).filter (stays true)

theorem mem_pieces_of (rest piece : Bytes) :
    piece ∈ pieces_of rest ↔ piece ∈ rest.splitOn comma ∧ str_trimmed piece ≠ [] := by
  simp [pieces_of, stays]

theorem piece_ne_nil {rest piece : Bytes} (h : piece ∈ pieces_of rest) : piece ≠ [] := by
  rintro rfl
  exact ((mem_pieces_of rest []).mp h).2 rfl

theorem range_text_parsing_eq (text rest : Bytes) (file_size : ℕ) (htext : erase_spaces text = bytes_start ++ rest)
    (hne : rest ≠ []) : range_text_parsing text file_size = sub_ranges file_size (pieces_of rest) := by
  have htake : (bytes_start ++ rest).take 6 = bytes_start := List.take_left' rfl
  have hdrop : (bytes_start ++ rest).drop 6 = rest := List.drop_left' rfl
  have hstart : bytes_start ++ rest ≠ [] := fun h => hne (List.append_eq_nil_iff.mp h).2
  unfold range_text_parsing
  rw [htext, if_neg hstart, htake, if_neg (not_not.mpr rfl), hdrop, if_neg hne, from_string_splitOn comma rest true hne]
  rfl

theorem range_text_parsing_empty (text : Bytes) (file_size : ℕ) (htext : erase_spaces text = bytes_start) :
    (range_text_parsing text file_size).1 = 416 := by
  unfold range_text_parsing
  rw [htext]
  rfl

theorem range_text_ok (text : Bytes) (file_size : ℕ) (h : (range_text_parsing text file_size).1 = 200) :
    ∃ rest, erase_spaces text = bytes_start ++ rest ∧ rest ≠ [] := by
  unfold range_text_parsing at h
  split at h
  · cases h
  · split at h
    · cases h
    · rename_i hstart
      split at h
      · cases h
      · rename_i hrest
        refine ⟨(erase_spaces text).drop 6, ?_, hrest⟩
        rw [← not_not.mp hstart, List.take_append_drop]

/-! ### Ranges that are in the file -/

/-- The range is in the file, and no difference and no sum of values of type `size_t` wraps around. -/
structure Satisfiable (file_size : ℕ) (range : range_value) : Prop where
  order : range.begin ≤ range.end
  inside : range.end < file_size
  total : range.total = range.end - range.begin + 1
  exact : 1 ≤ file_size ∧ range.begin ≤ file_size ∧ range.total ≤ file_size ∧
    range.end - range.begin + 1 < size_max

theorem satisfiable_range_of {file_size : ℕ} {first last : Bytes} (hsize : file_size < size_max) (hpos : 0 < file_size)
    (h : InOrder file_size first last) : Satisfiable file_size (range_of file_size first last) := by
  unfold range_of
  rcases h with ⟨hfirst, -, hsome, hle⟩ | ⟨hfirst, hlast, hlt⟩ | ⟨hfirst, hlast, hle, hlt⟩
  · rw [if_pos hfirst]
    constructor <;> simp only [make_range] <;> omega
  · rw [if_neg hfirst, if_pos hlast, size_sub_of_le file_size _ hsize (by omega), size_sub_of_le file_size 1 hsize hpos]
    constructor <;> simp only [make_range] <;> omega
  · rw [if_neg hfirst, if_neg hlast]
    constructor <;> simp only [make_range] <;> omega

/-- What `range_text_parsing` promises to the senders -/
def AcceptsSatisfiable (text : Bytes) (file_size : ℕ) : Prop :=
  (range_text_parsing text file_size).1 = 200 →
    (range_text_parsing text file_size).2 ≠ [] ∧
      ∀ range ∈ (range_text_parsing text file_size).2, Satisfiable file_size range

/-- A sub-range without an end -/
def OpenEnded (piece : Bytes) : Prop := ∃ first, piece = first ++ [minus] ∧ minus ∉ first ∧ first ≠ []

theorem openEnded_iff (piece : Bytes) : OpenEnded piece ↔ Readable 0 piece := by
  constructor
  · rintro ⟨first, rfl, hfirst, hne⟩
    exact ⟨first, [], rfl, hfirst, List.not_mem_nil, .inr (.inl ⟨hne, rfl, .inl rfl⟩)⟩
  · rintro ⟨first, last, rfl, hfirst, -, horder⟩
    unfold InOrder at horder
    rcases horder with h | ⟨hne, rfl, -⟩ | h
    · omega
    · exact ⟨first, rfl, hfirst, hne⟩
    · omega

/-- The texts that are accepted with no range, or with ranges of an empty file -/
def Unsatisfiable (text : Bytes) (file_size : ℕ) : Prop :=
  ∃ rest, erase_spaces text = bytes_start ++ rest ∧ rest ≠ [] ∧
    ((∀ piece ∈ rest.splitOn comma, str_trimmed piece = []) ∨
      file_size = 0 ∧ ∀ piece ∈ rest.splitOn comma, str_trimmed piece ≠ [] → OpenEnded piece)

/-- **The ranges of a text.** Those of an accepted text are in the file, and there is one, if and only if the text has
more than blanks between its commas and, where the file is empty, more than sub-ranges without an end. -/
theorem accepts_satisfiable_iff (text : Bytes) (file_size : ℕ) (hsize : file_size < size_max) :
    AcceptsSatisfiable text file_size ↔ ¬ Unsatisfiable text file_size := by
  constructor
  · rintro h ⟨rest, htext, hne, hbad⟩
    have heq := range_text_parsing_eq text rest file_size htext hne
    unfold AcceptsSatisfiable at h
    rw [heq] at h
    rcases sub_ranges_spec file_size (pieces_of rest) with ⟨hok, hmap⟩ | ⟨-, piece, hpiece, hnone⟩
    · obtain ⟨hranges, hall⟩ := h hok
      obtain ⟨range, hrange⟩ := List.exists_mem_of_ne_nil _ hranges
      obtain ⟨piece, hpiece, -⟩ := List.mem_map.mp (hmap ▸ List.mem_map_of_mem hrange)
      obtain ⟨hin, hsome⟩ := (mem_pieces_of rest piece).mp hpiece
      rcases hbad with hblank | ⟨rfl, -⟩
      · exact hsome (hblank piece hin)
      · exact absurd (hall range hrange).inside (Nat.not_lt_zero _)
    · obtain ⟨hin, hsome⟩ := (mem_pieces_of rest piece).mp hpiece
      rcases hbad with hblank | ⟨rfl, hopen⟩
      · exact hsome (hblank piece hin)
      · have hreadable := (openEnded_iff piece).mp (hopen piece hin hsome)
        obtain ⟨range, hrange⟩ := (readable_iff 0 piece hsize (piece_ne_nil hpiece)).mp hreadable
        rw [hnone] at hrange
        cases hrange
  · intro h hok
    obtain ⟨rest, htext, hne⟩ := range_text_ok text file_size hok
    have hgood : ¬ ((∀ piece ∈ rest.splitOn comma, str_trimmed piece = []) ∨
        file_size = 0 ∧ ∀ piece ∈ rest.splitOn comma, str_trimmed piece ≠ [] → OpenEnded piece) :=
      fun hbad => h ⟨rest, htext, hne, hbad⟩
    rw [not_or] at hgood
    rw [range_text_parsing_eq text rest file_size htext hne] at hok ⊢
    rcases sub_ranges_spec file_size (pieces_of rest) with ⟨-, hmap⟩ | ⟨hbad, -⟩
    · have hread : ∀ piece ∈ pieces_of rest, ∃ range, sub_range file_size piece = some range := by
        intro piece hpiece
        have hmem : sub_range file_size piece ∈ (sub_ranges file_size (pieces_of rest)).2.map some :=
          hmap ▸ List.mem_map_of_mem hpiece
        obtain ⟨range, -, hrange⟩ := List.mem_map.mp hmem
        exact ⟨range, hrange.symm⟩
      have hpos : 0 < file_size := by
        by_contra hzero
        obtain rfl : file_size = 0 := by omega
        refine hgood.2 ⟨rfl, fun piece hin hsome => ?_⟩
        have hpiece := (mem_pieces_of rest piece).mpr ⟨hin, hsome⟩
        exact (openEnded_iff piece).mpr ((readable_iff 0 piece hsize (piece_ne_nil hpiece)).mpr (hread piece hpiece))
      constructor
      · intro hnil
        refine hgood.1 fun piece hin => ?_
        by_contra hsome
        have hpiece := (mem_pieces_of rest piece).mpr ⟨hin, hsome⟩
        rw [hnil, List.map_nil, List.map_eq_nil_iff] at hmap
        rw [hmap] at hpiece
        cases hpiece
      · intro range hrange
        obtain ⟨piece, hpiece, hsub⟩ := List.mem_map.mp (hmap ▸ List.mem_map_of_mem hrange)
        obtain ⟨first, last, -, -, -, horder, rfl⟩ :=
          (sub_range_some file_size piece range hsize (piece_ne_nil hpiece)).mp hsub
        exact satisfiable_range_of hsize hpos horder
    · rw [hbad] at hok
      cases hok

theorem accepts_satisfiable_iff_two :
    AcceptsSatisfiable (ascii "bytes=0-3, -2") 10 ↔ ¬ Unsatisfiable (ascii "bytes=0-3, -2") 10 :=
  accepts_satisfiable_iff (ascii "bytes=0-3, -2") 10 (by decide)

theorem accepted_without_range :
    ¬ ∀ text file_size, file_size < size_max → AcceptsSatisfiable text file_size := by
  intro h
  obtain ⟨hranges, -⟩ := h (ascii "bytes=,") 10 (by decide) (by decide)
  exact hranges (by decide)

/-! ### The grammar -/

/-- Decimal digits, for a value of type `size_t` -/
def Decimal (d : Bytes) : Prop := d ≠ [] ∧ d.all (isDigit 10) = true ∧ digitsVal 10 d < size_max

/-- The sub-range is `d-d`, `d-` or `-d`. -/
def Grammar (piece : Bytes) : Prop :=
  ∃ first last, piece = first ++ minus :: last ∧
    ((Decimal first ∧ Decimal last) ∨ (Decimal first ∧ last = []) ∨ (first = [] ∧ Decimal last))

/-- The numbers of the sub-range are the bounds of the range. -/
def HasBounds (piece : Bytes) (range : range_value) : Prop :=
  ∃ first last, piece = first ++ minus :: last ∧
    ((Decimal first ∧ Decimal last ∧ range.begin = digitsVal 10 first ∧ range.end = digitsVal 10 last) ∨
      (Decimal first ∧ last = [] ∧ range.begin = digitsVal 10 first) ∨
      (first = [] ∧ Decimal last ∧ range.total = digitsVal 10 last))

/-- What the grammar says about a text whose list of sub-ranges is `rest` -/
structure ReadsGrammar (text rest : Bytes) (file_size : ℕ) : Prop where
  bounds : (range_text_parsing text file_size).1 = 200 →
    List.Forall₂ HasBounds (rest.splitOn comma) (range_text_parsing text file_size).2
  refused : (∃ piece ∈ rest.splitOn comma, ¬ Grammar piece) → (range_text_parsing text file_size).1 = 416

theorem Decimal.no_minus {d : Bytes} (h : Decimal d) : minus ∉ d := by
  intro hmem
  have hdigit := List.all_eq_true.mp h.2.1 minus hmem
  revert hdigit
  decide

theorem Decimal.ston_or {d : Bytes} (h : Decimal d) : ston_or d = digitsVal 10 d :=
  ston_or_decimal d h.1 h.2.1 h.2.2

theorem Grammar.not_blank {piece : Bytes} (h : Grammar piece) : str_trimmed piece ≠ [] := by
  obtain ⟨first, last, rfl, -⟩ := h
  have hmem := mem_str_trimmed (first ++ minus :: last) minus (by simp) (by decide)
  exact List.ne_nil_of_mem hmem

theorem Grammar.split {piece : Bytes} (h : Grammar piece) :
    ∃ first last, piece.splitOn minus = [first, last] ∧
      ((Decimal first ∧ Decimal last) ∨ (Decimal first ∧ last = []) ∨ (first = [] ∧ Decimal last)) := by
  obtain ⟨first, last, hpiece, hparts⟩ := h
  refine ⟨first, last, (splitOn_eq_pair minus piece first last).mpr ⟨hpiece, ?_, ?_⟩, hparts⟩
  · rcases hparts with ⟨hfirst, -⟩ | ⟨hfirst, -⟩ | ⟨rfl, -⟩
    · exact hfirst.no_minus
    · exact hfirst.no_minus
    · exact List.not_mem_nil
  · rcases hparts with ⟨-, hlast⟩ | ⟨-, rfl⟩ | ⟨-, hlast⟩
    · exact hlast.no_minus
    · exact List.not_mem_nil
    · exact hlast.no_minus

theorem Grammar.bounds {piece : Bytes} (h : Grammar piece) (file_size : ℕ) (range : range_value)
    (hsize : file_size < size_max) (hrange : sub_range file_size piece = some range) : HasBounds piece range := by
  have hne : piece ≠ [] := fun hnil => h.not_blank (by rw [hnil]; rfl)
  obtain ⟨first, last, hsplit, hparts⟩ := h.split
  have hpiece := ((splitOn_eq_pair minus piece first last).mp hsplit).1
  obtain ⟨-, rfl⟩ := (sub_range_parts file_size piece first last range hsize
    ((from_string_all minus piece hne).trans hsplit)).mp hrange
  refine ⟨first, last, hpiece, ?_⟩
  unfold range_of
  rcases hparts with ⟨hfirst, hlast⟩ | ⟨hfirst, rfl⟩ | ⟨rfl, hlast⟩
  · rw [if_neg hfirst.1, if_neg hlast.1, hfirst.ston_or, hlast.ston_or]
    exact .inl ⟨hfirst, hlast, rfl, rfl⟩
  · rw [if_neg hfirst.1, if_pos rfl, hfirst.ston_or]
    exact .inr (.inl ⟨hfirst, rfl, rfl⟩)
  · rw [if_pos rfl, hlast.ston_or]
    exact .inr (.inr ⟨rfl, hlast, rfl⟩)

/-- **The grammar of a text.** It is kept to if and only if every sub-range is of the grammar, or there is none at all,
or one of them that is not blank is refused for what `ston_or` makes of it. -/
theorem reads_grammar_iff (text rest : Bytes) (file_size : ℕ) (hsize : file_size < size_max)
    (htext : erase_spaces text = bytes_start ++ rest) :
    ReadsGrammar text rest file_size ↔
      (∀ piece ∈ rest.splitOn comma, Grammar piece) ∨ rest = [] ∨
        ∃ piece ∈ rest.splitOn comma, str_trimmed piece ≠ [] ∧ ¬ Readable file_size piece := by
  by_cases hempty : rest = []
  · have hstatus := range_text_parsing_empty text file_size (by rw [htext, hempty, List.append_nil])
    refine iff_of_true ⟨fun hok => ?_, fun _ => hstatus⟩ (.inr (.inl hempty))
    rw [hstatus] at hok
    cases hok
  · have heq := range_text_parsing_eq text rest file_size htext hempty
    have hnone : ∀ piece ∈ pieces_of rest, sub_range file_size piece = none ↔ ¬ Readable file_size piece := by
      intro piece hpiece
      rw [readable_iff file_size piece hsize (piece_ne_nil hpiece), ← Option.ne_none_iff_exists', not_not]
    rcases sub_ranges_spec file_size (pieces_of rest) with ⟨hok, hmap⟩ | ⟨hbad, piece, hpiece, hrefused⟩
    · have hreadable : ¬ ∃ piece ∈ rest.splitOn comma, str_trimmed piece ≠ [] ∧ ¬ Readable file_size piece := by
        rintro ⟨piece, hin, hsome, hunread⟩
        have hpiece := (mem_pieces_of rest piece).mpr ⟨hin, hsome⟩
        have hmem : sub_range file_size piece ∈ (sub_ranges file_size (pieces_of rest)).2.map some :=
          hmap ▸ List.mem_map_of_mem hpiece
        rw [(hnone piece hpiece).mpr hunread] at hmem
        simp at hmem
      constructor
      · intro h
        left
        by_contra hall
        push Not at hall
        have hstatus := h.refused hall
        rw [heq, hok] at hstatus
        cases hstatus
      · intro h
        have hall := h.resolve_right (not_or.mpr ⟨hempty, hreadable⟩)
        refine ⟨fun _ => ?_, fun ⟨piece, hin, hnot⟩ => absurd (hall piece hin) hnot⟩
        have hpieces : pieces_of rest = rest.splitOn comma :=
          List.filter_eq_self.mpr fun piece hin => by simp [stays, (hall piece hin).not_blank]
        rw [heq, ← hpieces]
        have hpairs : List.Forall₂ (fun piece range => sub_range file_size piece = some range) (pieces_of rest)
            (sub_ranges file_size (pieces_of rest)).2 := by
          have hsame := (List.forall₂_eq_eq_eq ▸ hmap : List.Forall₂ Eq _ _)
          exact List.forall₂_map_left_iff.mp (List.forall₂_map_right_iff.mp hsame)
        have hgrammar : ∀ piece ∈ pieces_of rest, Grammar piece := hpieces ▸ hall
        have hboth := (List.forall₂_and_left _ _).mpr ⟨hgrammar, hpairs⟩
        exact hboth.imp fun piece range h => h.1.bounds file_size range hsize h.2
    · have hin := (mem_pieces_of rest piece).mp hpiece
      refine iff_of_true ⟨fun hok => ?_, fun _ => ?_⟩ ?_
      · rw [heq, hbad] at hok
        cases hok
      · rw [heq, hbad]
      · exact .inr (.inr ⟨piece, hin.1, hin.2, (hnone piece hpiece).mp hrefused⟩)

theorem reads_grammar_iff_two :
    ReadsGrammar (ascii "bytes=0-3, -2") (ascii "0-3,-2") 10 ↔
      (∀ piece ∈ (ascii "0-3,-2").splitOn comma, Grammar piece) ∨ ascii "0-3,-2" = [] ∨
        ∃ piece ∈ (ascii "0-3,-2").splitOn comma, str_trimmed piece ≠ [] ∧ ¬ Readable 10 piece :=
  reads_grammar_iff (ascii "bytes=0-3, -2") (ascii "0-3,-2") 10 (by decide) (by decide)

theorem word_accepted :
    ¬ ∀ text rest file_size, file_size < size_max → erase_spaces text = bytes_start ++ rest →
      ReadsGrammar text rest file_size := by
  intro h
  have hreads := h (ascii "bytes=abc-5") (ascii "abc-5") 10 (by decide) (by decide)
  have hpiece : ¬ Grammar (ascii "abc-5") := by
    intro hgrammar
    obtain ⟨first, last, hsplit, hparts⟩ := hgrammar.split
    have hpair : [ascii "abc", ascii "5"] = [first, last] := by rw [← hsplit]; decide
    obtain ⟨rfl, rfl⟩ : ascii "abc" = first ∧ ascii "5" = last := by simpa using hpair
    rcases hparts with ⟨hfirst, -⟩ | ⟨hfirst, -⟩ | ⟨hfirst, -⟩
    · exact absurd hfirst.2.1 (by decide)
    · exact absurd hfirst.2.1 (by decide)
    · exact absurd hfirst (by decide)
  have hstatus := hreads.refused ⟨ascii "abc-5", by decide, hpiece⟩
  revert hstatus
  decide

end Libgs.Server
