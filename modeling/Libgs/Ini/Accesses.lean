import Libgs.Ini.Lines

/-!
# Strings with every access watched

`str_trimmed` and `from_string` once more, with what goes wrong where an index or a position is not in the string.
-/

namespace Libgs.checked

open Lib

/-- What stops the code beside an exception `E` that is thrown on purpose. -/
inductive fault (E : Type)
  | thrown (e : E)
  /-- `std::out_of_range` of `substr` -/
  | out_of_range
  /-- An access outside of the data or an overflow of an `int`, which mean nothing in C++ -/
  | undefined
  deriving DecidableEq, Repr

variable {E : Type}

/-- The greatest `int` -/
def int_max : ℕ := 2 ^ 31 - 1

/-- `view[i]` of a `std::string_view` -/
def view_at (view : Bytes) (i : ℕ) : Except (fault E) UInt8 :=
  match view[i]? with
  | some c => .ok c
  | none => .error .undefined

def substr (s : Bytes) (pos n : ℕ) : Except (fault E) Bytes :=
  if s.length < pos then .error .out_of_range else .ok ((s.drop pos).take n)

theorem ok_bind {α β : Type} (a : α) (f : α → Except (fault E) β) : (Except.ok a).bind f = f a := rfl

theorem substr_front (s : Bytes) (n : ℕ) : substr (E := E) s 0 n = .ok (s.take n) := rfl

theorem substr_back (s : Bytes) (pos n : ℕ) (h : pos ≤ s.length) (hn : s.length ≤ pos + n) :
    substr (E := E) s pos n = .ok (s.drop pos) := by
  unfold substr
  rw [if_neg (by omega), List.take_of_length_le (by rw [List.length_drop]; omega)]

/-! ## Trimming -/

/-- The loop that counts `right` down, as `right + 1`. An index of -1 is as a `size_t` above every `left`. -/
def trim_right (view : Bytes) (left : ℕ) : ℕ → Except (fault E) ℕ
  | 0 => .error .undefined
  | right + 1 =>
    if right < left then .ok (right + 1)
    else (view_at view right).bind fun c => if isBlank c then trim_right view left right else .ok (right + 1)

/-- The index `right` is an `int`. A negative one is as a `size_t` beyond every text. -/
def str_trimmed (view : Bytes) : Except (fault E) Bytes :=
  let left := (view.takeWhile isBlank).length
  if view.length ≤ left then .ok []
  else if int_cast (view.length - 1) < 0 then .error .undefined
  else
    (trim_right view left ((int_cast (view.length - 1)).toNat + 1)).bind fun stop =>
      if stop ≤ left then .ok []
      else if int_max < stop then .error .undefined
      else (substr view 0 stop).bind fun result => substr result left result.length

/-- The text is too long for an `int` to find its last character. -/
def Overlong (view : Bytes) : Prop :=
  (view.takeWhile isBlank).length < view.length ∧
    (int_cast (view.length - 1) < 0 ∨
      (int_cast (view.length - 1)).toNat = int_max ∧ ∃ c, view[int_max]? = some c ∧ isBlank c = false)

theorem int_cast_eq (n : ℕ) : int_cast n = if n % 2 ^ 32 < 2 ^ 31 then (n % 2 ^ 32 : ℤ) else n % 2 ^ 32 - 2 ^ 32 := by
  unfold int_cast
  rw [BitVec.toInt_eq_toNat_cond, BitVec.toNat_ofNat]
  split_ifs <;> omega

theorem int_cast_of_lt (n : ℕ) (h : n < 2 ^ 31) : int_cast n = n := by
  rw [int_cast_eq]
  split_ifs <;> omega

theorem int_cast_le (n : ℕ) : (int_cast n).toNat ≤ int_max ∧ (int_cast n).toNat ≤ n := by
  rw [int_cast_eq]
  unfold int_max
  split_ifs <;> omega

theorem trim_right_eq (view : Bytes) (left n : ℕ) (c : UInt8) (hc : view[left]? = some c) (hblank : isBlank c = false)
    (hleft : left < n) (hn : n ≤ view.length) :
    trim_right (E := E) view left n = .ok ((view.take n).rdropWhile isBlank).length := by
  induction n with
  | zero => omega
  | succ right ih =>
    have hget : view[right]? = some view[right] := List.getElem?_eq_getElem hn
    have htake : view.take (right + 1) = view.take right ++ [view[right]] := by
      rw [List.take_add_one, hget]
      rfl
    unfold trim_right
    rw [if_neg (by omega), view_at, hget, htake, List.rdropWhile_concat]
    dsimp only [Except.bind]
    split_ifs with hright
    · have hne : left ≠ right := by
        rintro rfl
        rw [hget] at hc
        cases hc
        rw [hright] at hblank
        cases hblank
      exact ih (by omega) (by omega)
    · rw [List.length_append, List.length_take_of_le (by omega)]
      rfl

theorem rdropWhile_append_of_ne (p : UInt8 → Bool) (a b : Bytes) (h : b.rdropWhile p ≠ []) :
    (a ++ b).rdropWhile p = a ++ b.rdropWhile p := by
  unfold List.rdropWhile at h ⊢
  rw [List.reverse_append, List.dropWhile_append, if_neg (by simpa using h), List.reverse_append, List.reverse_reverse]

theorem trimmed_of_counts (text : Bytes) (c : UInt8) (hc : c ∈ text) (hblank : isBlank c = false) :
    text.rdropWhile isBlank = text.takeWhile isBlank ++ Libgs.str_trimmed text ∧ Libgs.str_trimmed text ≠ [] := by
  have hne := List.ne_nil_of_mem (mem_str_trimmed text c hc hblank)
  refine ⟨?_, hne⟩
  conv => lhs; rw [← List.takeWhile_append_dropWhile (p := isBlank) (l := text)]
  exact rdropWhile_append_of_ne isBlank _ _ hne

theorem first_plain (view : Bytes) (h : (view.takeWhile isBlank).length < view.length) :
    ∃ c, view[(view.takeWhile isBlank).length]? = some c ∧ isBlank c = false := by
  have hsplit := List.takeWhile_append_dropWhile (p := isBlank) (l := view)
  cases hdrop : view.dropWhile isBlank with
  | nil =>
    have := congrArg List.length hsplit
    rw [hdrop, List.append_nil] at this
    omega
  | cons c rest =>
    have hc := List.head?_dropWhile_not isBlank view
    rw [hdrop] at hc hsplit
    refine ⟨c, ?_, by simpa using hc⟩
    generalize view.takeWhile isBlank = front at hsplit
    rw [← hsplit]
    simp

/-- The part of a text that the index `right` starts at the end of. -/
def counted (view : Bytes) : Bytes := view.take ((int_cast (view.length - 1)).toNat + 1)

theorem str_trimmed_blank (text : Bytes) (h : ∀ c ∈ text, isBlank c = true) : Libgs.str_trimmed text = [] := by
  rw [str_trimmed_eq, List.dropWhile_eq_nil_iff.mpr h]
  rfl

theorem not_overlong_stop (view : Bytes) (h : ¬ Overlong view)
    (hblank : (view.takeWhile isBlank).length < view.length) :
    ¬ int_max < ((counted view).rdropWhile isBlank).length := by
  intro hstop
  obtain ⟨hmax, hle⟩ := int_cast_le (view.length - 1)
  have hfront := List.rdropWhile_prefix isBlank (counted view)
  have hcounted : (counted view).length = min ((int_cast (view.length - 1)).toNat + 1) view.length := List.length_take
  have hfront_le := hfront.length_le
  have hall : (counted view).rdropWhile isBlank = counted view := hfront.eq_of_length_le (by omega)
  have hne : counted view ≠ [] := List.ne_nil_of_length_pos (by omega)
  have hlast := List.rdropWhile_eq_self_iff.mp hall hne
  refine h ⟨hblank, .inr ⟨by omega, (counted view).getLast hne, ?_, by simpa using hlast⟩⟩
  have hget : (counted view)[int_max]? = some ((counted view).getLast hne) := by
    rw [← List.getLast?_eq_getLast_of_ne_nil hne, List.getLast?_eq_getElem?]
    congr 1
    omega
  rw [← hget]
  unfold counted
  exact (List.getElem?_take_of_lt (by omega)).symm

theorem str_trimmed_ok (view : Bytes) (h : ¬ Overlong view) :
    str_trimmed (E := E) view = .ok (Libgs.str_trimmed (counted view)) := by
  have hsub : counted view <+: view := List.take_prefix _ _
  unfold str_trimmed
  dsimp only
  split_ifs with hblank hnegative
  · have hall : view.takeWhile isBlank = view := (List.takeWhile_prefix _).eq_of_length_le hblank
    rw [str_trimmed_blank _ fun c hc => List.mem_takeWhile_imp (hall ▸ hsub.subset hc)]
  · exact absurd ⟨not_le.mp hblank, .inl hnegative⟩ h
  · rw [not_le] at hblank
    obtain ⟨c, hget, hc⟩ := first_plain view hblank
    obtain ⟨hmax, hle⟩ := int_cast_le (view.length - 1)
    by_cases hright : (view.takeWhile isBlank).length < (int_cast (view.length - 1)).toNat + 1
    · have hfront : (counted view).takeWhile isBlank = view.takeWhile isBlank := by
        unfold counted
        rw [← List.take_takeWhile]
        exact List.take_of_length_le (by omega)
      have hmem : c ∈ counted view := by
        refine List.mem_of_getElem? (i := (view.takeWhile isBlank).length) ?_
        unfold counted
        rw [List.getElem?_take_of_lt hright, hget]
      obtain ⟨hcut, hne⟩ := trimmed_of_counts _ c hmem hc
      rw [hfront] at hcut
      have hlen := congrArg List.length hcut
      have hpos := List.length_pos_iff.mpr hne
      rw [List.length_append] at hlen
      have hstop := trim_right_eq (E := E) view _ _ c hget hc hright (by omega)
      rw [show view.take _ = counted view from rfl] at hstop
      rw [hstop]
      dsimp only [Except.bind]
      have htaken : view.take ((counted view).rdropWhile isBlank).length = (counted view).rdropWhile isBlank :=
        (List.prefix_iff_eq_take.mp ((List.rdropWhile_prefix isBlank _).trans hsub)).symm
      rw [if_neg (by omega), if_neg (not_overlong_stop view h hblank)]
      rw [substr_front, htaken]
      dsimp only
      rw [substr_back _ _ _ (by omega) (by omega), hcut, List.drop_left]
    · -- The text is longer than what an `int` counts to, and the first of its characters are blank.
      have hstop : trim_right (E := E) view (view.takeWhile isBlank).length
          ((int_cast (view.length - 1)).toNat + 1) = .ok ((int_cast (view.length - 1)).toNat + 1) := by
        unfold trim_right
        rw [if_pos (by omega)]
      rw [hstop]
      dsimp only [Except.bind]
      rw [if_pos (by omega), str_trimmed_blank]
      intro d hd
      have hfront : counted view <+: view.takeWhile isBlank := by
        refine List.prefix_of_prefix_length_le hsub (List.takeWhile_prefix _) ?_
        unfold counted
        rw [List.length_take]
        omega
      exact List.mem_takeWhile_imp (hfront.subset hd)

theorem str_trimmed_overlong (view : Bytes) (h : Overlong view) : str_trimmed (E := E) view = .error .undefined := by
  obtain ⟨hblank, hend⟩ := h
  unfold str_trimmed
  dsimp only
  rw [if_neg (not_le.mpr hblank)]
  rcases hend with hnegative | ⟨hright, c, hget, hc⟩
  · rw [if_pos hnegative]
  · have hbehind : (view.takeWhile isBlank).length ≤ int_max := by
      by_contra hlt
      have hmem : c ∈ view.takeWhile isBlank := by
        have hin := List.prefix_iff_getElem?.mp (List.takeWhile_prefix isBlank (l := view)) int_max (by omega)
        rw [hget, Option.some.injEq] at hin
        exact hin ▸ List.getElem_mem _
      rw [List.mem_takeWhile_imp hmem] at hc
      cases hc
    have hstop : trim_right (E := E) view (view.takeWhile isBlank).length (int_max + 1) = .ok (int_max + 1) := by
      unfold trim_right
      rw [if_neg (by omega), view_at, hget]
      simp [Except.bind, hc]
    split_ifs
    · rfl
    · rw [hright, hstop]
      dsimp only [Except.bind]
      rw [if_neg (by omega), if_pos (by omega)]

theorem str_trimmed_length (view : Bytes) (h : ¬ Overlong view) :
    (Libgs.str_trimmed (counted view)).length < 2 ^ 31 := by
  by_cases hall : ∀ c ∈ counted view, isBlank c = true
  · rw [str_trimmed_blank _ hall]
    decide
  · simp only [not_forall, Bool.not_eq_true] at hall
    obtain ⟨c, hc, hplain⟩ := hall
    have hblank : (view.takeWhile isBlank).length < view.length := by
      by_contra hle
      have hview := (List.takeWhile_prefix isBlank).eq_of_length_le (not_lt.mp hle)
      have hmem : c ∈ view := (List.take_prefix _ _).subset hc
      rw [← hview] at hmem
      rw [List.mem_takeWhile_imp hmem] at hplain
      cases hplain
    have hstop := not_overlong_stop view h hblank
    rw [(trimmed_of_counts _ c hc hplain).1, List.length_append] at hstop
    unfold int_max at hstop
    omega

theorem counted_self (view : Bytes) (h : view.length < 2 ^ 31) : counted view = view := by
  unfold counted
  rw [int_cast_of_lt _ (by omega)]
  exact List.take_of_length_le (by omega)

theorem not_overlong (view : Bytes) (h : view.length < 2 ^ 31) : ¬ Overlong view := by
  rintro ⟨hblank, hend⟩
  rw [int_cast_of_lt _ (by omega)] at hend
  unfold int_max at hend
  omega

theorem str_trimmed_short (view : Bytes) (h : view.length < 2 ^ 31) :
    str_trimmed (E := E) view = .ok (Libgs.str_trimmed view) := by
  rw [str_trimmed_ok view (not_overlong view h), counted_self view h]

/-! ## Splitting -/

/-- The loop of `from_string`, in which every piece is trimmed to see if it is blank. -/
def split_pieces (splits : Bytes) (ignore_empty : Bool) : ℕ → Bytes → Except (fault E) (List Bytes)
  | 0, _ => .ok []
  | n + 1, strs =>
    match find splits strs with
    | none => .ok []
    | some pos =>
      (substr strs 0 pos).bind fun tmp => (str_trimmed tmp).bind fun trimmed =>
        (substr strs (pos + splits.length) strs.length).bind fun rest =>
          (split_pieces splits ignore_empty n rest).map fun more =>
            if trimmed ≠ [] ∨ ¬ ignore_empty then tmp :: more else more

def from_string (str splits : Bytes) (ignore_empty : Bool := true) : Except (fault E) (List Bytes) :=
  if str = [] then .ok []
  else split_pieces splits ignore_empty (str ++ splits).length (str ++ splits)

theorem split_pieces_short (splits : Bytes) (ignore_empty : Bool) (n : ℕ) (strs : Bytes)
    (h : strs.length < 2 ^ 31 + splits.length) :
    split_pieces (E := E) splits ignore_empty n strs = .ok (Libgs.split_pieces splits ignore_empty n strs) := by
  induction n generalizing strs with
  | zero => rfl
  | succ n ih =>
    unfold split_pieces Libgs.split_pieces cut
    cases hpos : find splits strs with
    | none => rfl
    | some pos =>
      have hle := find_le splits strs pos hpos
      dsimp only [Option.map_some]
      rw [substr_front, substr_back _ _ _ hle (by omega)]
      dsimp only [Except.bind]
      rw [str_trimmed_short _ (by rw [List.length_take]; omega)]
      dsimp only
      rw [ih _ (by rw [List.length_drop]; omega)]
      rfl

theorem from_string_short (str splits : Bytes) (ignore_empty : Bool) (h : str.length < 2 ^ 31) :
    from_string (E := E) str splits ignore_empty = .ok (Libgs.from_string str splits ignore_empty) := by
  unfold from_string Libgs.from_string
  split_ifs
  · rfl
  · exact split_pieces_short splits ignore_empty _ _ (by rw [List.length_append]; omega)

theorem split_pieces_length (splits : Bytes) (ignore_empty : Bool) (n : ℕ) (strs l : Bytes)
    (h : l ∈ Libgs.split_pieces splits ignore_empty n strs) : l.length + splits.length ≤ strs.length := by
  induction n generalizing strs with
  | zero => cases h
  | succ n ih =>
    unfold Libgs.split_pieces cut at h
    cases hpos : find splits strs with
    | none =>
      rw [hpos] at h
      cases h
    | some pos =>
      have hle := find_le splits strs pos hpos
      have hrest : l ∈ Libgs.split_pieces splits ignore_empty n (strs.drop (pos + splits.length)) →
          l.length + splits.length ≤ strs.length := by
        intro hl
        have := ih _ hl
        rw [List.length_drop] at this
        omega
      rw [hpos] at h
      dsimp only [Option.map_some] at h
      split_ifs at h
      · rcases List.mem_cons.mp h with rfl | h
        · rw [List.length_take]
          omega
        · exact hrest h
      · exact hrest h

theorem from_string_length (str splits l : Bytes) (ignore_empty : Bool)
    (h : l ∈ Libgs.from_string str splits ignore_empty) : l.length ≤ str.length := by
  unfold Libgs.from_string at h
  split_ifs at h
  · cases h
  · have := split_pieces_length splits ignore_empty _ _ l h
    rw [List.length_append] at this
    omega

end Libgs.checked
