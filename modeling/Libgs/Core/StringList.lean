import Libgs.Core.Trimmed
import Libgs.Lib.LineLoop
import Mathlib.Data.List.TakeWhile

/-!
# What `from_string` makes of joined pieces
-/

namespace Libgs

open Lib

variable {splits : Bytes}

theorem isLine_singleton (c : UInt8) (l : Bytes) : IsLine [c] l ↔ c ∉ l := by
  simp [IsLine, List.singleton_infix_iff]

theorem split_pieces_isLine (hsep : splits ≠ []) (ignore_empty : Bool) (n : ℕ) (strs l : Bytes)
    (h : l ∈ split_pieces splits ignore_empty n strs) : IsLine splits l := by
  induction n generalizing strs with
  | zero => cases h
  | succ n ih =>
    unfold split_pieces at h
    cases hcut : cut splits strs with
    | none => simp [hcut] at h
    | some cutting =>
      obtain ⟨tmp, rest⟩ := cutting
      simp only [hcut] at h
      split at h
      · rcases List.mem_cons.mp h with rfl | h
        · exact (cut_eq_some splits strs l rest hsep hcut).2
        · exact ih rest h
      · exact ih rest h

theorem from_string_isLine (hsep : splits ≠ []) (ignore_empty : Bool) (str l : Bytes)
    (h : l ∈ from_string str splits ignore_empty) : IsLine splits l := by
  unfold from_string at h
  split at h
  · cases h
  · exact split_pieces_isLine hsep ignore_empty _ _ l h

/-- A piece stays if it is not blank, or if blank ones are to stay. -/
def stays (ignore_empty : Bool) (l : Bytes) : Bool := str_trimmed l ≠ [] ∨ ¬ ignore_empty

@[simp] theorem stays_false (l : Bytes) : stays false l = true := by simp [stays]

theorem split_pieces_unlines (hsep : splits ≠ []) (ls : List Bytes) (hl : ∀ l ∈ ls, IsLine splits l) (rest : Bytes)
    (hrest : ¬ splits <:+: rest) (ignore_empty : Bool) (n : ℕ) (hn : ls.length ≤ n) :
    split_pieces splits ignore_empty n (unlines splits ls ++ rest) = ls.filter (stays ignore_empty) := by
  induction ls generalizing n with
  | nil =>
    cases n with
    | zero => rfl
    | succ n =>
      rw [unlines_nil, List.nil_append, split_pieces, (cut_eq_none splits rest).mpr hrest]
      rfl
  | cons l ls ih =>
    rw [List.length_cons] at hn
    obtain ⟨n, rfl⟩ : ∃ m, n = m + 1 := ⟨n - 1, by omega⟩
    have hcut : cut splits (unlines splits (l :: ls) ++ rest) = some (l, unlines splits ls ++ rest) := by
      rw [unlines_cons, List.append_assoc, List.append_assoc]
      exact cut_append_pat splits l _ hsep (hl l List.mem_cons_self)
    have hrest := ih (fun k hk => hl k (List.mem_cons_of_mem _ hk)) n (by omega)
    simp only [split_pieces, hcut, hrest]
    rw [List.filter_cons]
    simp only [stays, decide_eq_true_eq]

theorem length_le_unlines (hsep : splits ≠ []) (ls : List Bytes) : ls.length ≤ (unlines splits ls).length := by
  induction ls with
  | nil => exact Nat.zero_le _
  | cons l ls ih =>
    have := List.length_pos_iff.mpr hsep
    rw [unlines_cons, List.length_append, List.length_append, List.length_cons]
    omega

theorem from_string_unlines (hsep : splits ≠ []) (str : Bytes) (ls : List Bytes) (hne : str ≠ [])
    (hstr : str ++ splits = unlines splits ls) (hl : ∀ l ∈ ls, IsLine splits l) (ignore_empty : Bool) :
    from_string str splits ignore_empty = ls.filter (stays ignore_empty) := by
  unfold from_string
  have hnil : ¬ splits <:+: [] := fun h => hsep (List.infix_nil.mp h)
  rw [if_neg hne, hstr, ← List.append_nil (unlines splits ls)]
  refine split_pieces_unlines hsep ls hl [] hnil ignore_empty _ ?_
  rw [List.append_nil]
  exact length_le_unlines hsep ls

/-- **Joined pieces are found again**, when none is blank and none has a separator in it. -/
theorem from_string_pieces (hsep : splits ≠ []) (str : Bytes) (ls : List Bytes)
    (hstr : str ++ splits = unlines splits ls) (hl : ∀ l ∈ ls, IsLine splits l)
    (hblank : ∀ l ∈ ls, str_trimmed l ≠ []) (ignore_empty : Bool) : from_string str splits ignore_empty = ls := by
  by_cases hempty : str = []
  · rw [hempty, List.nil_append] at hstr
    rw [hempty]
    cases ls with
    | nil => rfl
    | cons l ls =>
      rw [unlines_cons] at hstr
      have hlen := congrArg List.length hstr
      simp only [List.length_append] at hlen
      have hnil : l = [] := List.eq_nil_of_length_eq_zero (by omega)
      exact absurd (by rw [hnil]; rfl) (hblank l List.mem_cons_self)
  · rw [from_string_unlines hsep str ls hempty hstr hl]
    exact List.filter_eq_self.mpr fun l hl => by simp [stays, hblank l hl]

/-! ## One byte as the separator -/

theorem append_each_eq (splits : Bytes) (strs : List Bytes) (h : strs ≠ []) :
    append_each strs splits = splits.intercalate strs ++ splits := by
  induction strs with
  | nil => exact absurd rfl h
  | cons s strs ih =>
    cases strs with
    | nil => simp [append_each]
    | cons t strs =>
      have hrest := ih (List.cons_ne_nil _ _)
      unfold append_each at *
      rw [List.map_cons, List.flatten_cons, hrest]
      simp [List.intercalate]

theorem not_mem_splitOn (c : UInt8) (str l : Bytes) (h : l ∈ str.splitOn c) : c ∉ l := by
  induction str generalizing l with
  | nil =>
    rw [List.splitOn_nil, List.mem_singleton] at h
    simp [h]
  | cons d str ih =>
    rw [List.splitOn_cons_eq_if_modifyHead] at h
    split at h
    · rcases List.mem_cons.mp h with rfl | h
      · simp
      · exact ih l h
    · rename_i hd
      obtain ⟨first, more, hsplit⟩ := List.exists_cons_of_ne_nil (List.splitOn_ne_nil c str)
      rw [hsplit] at h ih
      rcases List.mem_cons.mp h with rfl | h
      · have hfirst := ih first List.mem_cons_self
        simp only [beq_iff_eq] at hd
        simp [Ne.symm hd, hfirst]
      · exact ih l (List.mem_cons_of_mem _ h)

theorem from_string_splitOn (c : UInt8) (str : Bytes) (ignore_empty : Bool) (hne : str ≠ []) :
    from_string str [c] ignore_empty = (str.splitOn c).filter (stays ignore_empty) := by
  refine from_string_unlines (List.cons_ne_nil _ _) str _ hne ?_ (fun l hl => ?_) ignore_empty
  · have hjoin := append_each_eq [c] (str.splitOn c) (List.splitOn_ne_nil c str)
    rw [List.intercalate_splitOn] at hjoin
    exact hjoin.symm
  · exact (isLine_singleton c l).mpr (not_mem_splitOn c str l hl)

theorem splitOn_eq_pair (c : UInt8) (str first last : Bytes) :
    str.splitOn c = [first, last] ↔ str = first ++ c :: last ∧ c ∉ first ∧ c ∉ last := by
  constructor
  · intro h
    have hjoin : [c].intercalate (str.splitOn c) = str := List.intercalate_splitOn c
    rw [h] at hjoin
    refine ⟨?_, not_mem_splitOn c str first (by simp [h]), not_mem_splitOn c str last (by simp [h])⟩
    simpa [List.intercalate] using hjoin.symm
  · rintro ⟨rfl, hfirst, hlast⟩
    rw [List.splitOn_append_cons_self_of_not_mem hfirst, List.splitOn_eq_singleton hlast]

/-! ## Splitting and joining -/

theorem split_pieces_ends (hsep : splits ≠ []) (ignore_empty : Bool) (strs : Bytes) (n : ℕ) (hn : strs.length ≤ n) :
    split_pieces splits ignore_empty n strs = split_pieces splits ignore_empty strs.length strs := by
  obtain ⟨ls, rest, rfl, hls, hrest⟩ := exists_unlines_append hsep strs
  have hlen : ls.length ≤ (unlines splits ls ++ rest).length := by
    rw [List.length_append]
    exact Nat.le_add_right_of_le (length_le_unlines hsep ls)
  rw [split_pieces_unlines hsep ls hls rest hrest ignore_empty n (hlen.trans hn),
    split_pieces_unlines hsep ls hls rest hrest ignore_empty _ hlen]

theorem not_infix_of_isLine {l : Bytes} (h : IsLine splits l) : ¬ splits <:+: l :=
  fun hin => h (hin.trans (List.prefix_append l _).isInfix)

theorem from_string_rest (hsep : splits ≠ []) (str : Bytes) (hstr : str ≠ []) :
    ∃ rest, str ++ splits = unlines splits (from_string str splits false) ++ rest ∧ ¬ splits <:+: rest ∧
      ∀ l ∈ from_string str splits false, IsLine splits l := by
  obtain ⟨ls, rest, htext, hls, hrest⟩ := exists_unlines_append hsep (str ++ splits)
  have hlen : ls.length ≤ (str ++ splits).length := by
    rw [htext, List.length_append]
    exact Nat.le_add_right_of_le (length_le_unlines hsep ls)
  have hpieces : from_string str splits false = ls := by
    unfold from_string
    rw [if_neg hstr, htext, split_pieces_unlines hsep ls hls rest hrest false _ (htext ▸ hlen)]
    exact List.filter_eq_self.mpr fun l _ => stays_false l
  rw [hpieces]
  exact ⟨rest, htext, hrest, hls⟩

theorem join_eq_ok_iff (strs : List Bytes) (str : Bytes) (hne : strs ≠ []) :
    join strs splits = .ok str ↔ str ++ splits = unlines splits strs := by
  obtain ⟨s, strs, rfl⟩ := List.exists_cons_of_ne_nil hne
  obtain ⟨front, hfront⟩ : ∃ front, unlines splits (s :: strs) = front ++ splits :=
    ⟨_, append_each_eq splits (s :: strs) hne⟩
  have heach : append_each (s :: strs) splits = front ++ splits := hfront
  unfold join erase_split
  rw [heach, hfront, List.append_left_inj, List.length_append, if_neg (by omega), Nat.add_sub_cancel,
    List.take_left, Except.ok.injEq]
  exact eq_comm

/-- Where the separators are taken from the left, and one is added at the end, none begins in the text behind
the last of them and ends in the added one. -/
def CleanEnd (splits str : Bytes) : Prop :=
  ∀ ls last, str = unlines splits ls ++ last → (∀ l ∈ ls, IsLine splits l) → ¬ splits <:+: last → IsLine splits last

/-- Splitting ends, the pieces have no separator in them, and joined they are the text. -/
structure SplitsAndJoins (splits str : Bytes) : Prop where
  ends : ∀ n, (str ++ splits).length ≤ n → split_pieces splits false n (str ++ splits) = from_string str splits false
  apart : ∀ l ∈ from_string str splits false, ¬ splits <:+: l
  joined : join (from_string str splits false) splits = .ok str

theorem cleanEnd_iff (hsep : splits ≠ []) (ls : List Bytes) (last : Bytes) (hlines : ∀ l ∈ ls, IsLine splits l)
    (hlast : ¬ splits <:+: last) : CleanEnd splits (unlines splits ls ++ last) ↔ IsLine splits last := by
  constructor
  · intro hclean
    exact hclean ls last rfl hlines hlast
  · intro hline ks other hsame hks hother
    obtain ⟨-, rfl⟩ := unlines_append_inj hsep hlines hks hlast hother hsame
    exact hline

theorem cleanEnd_iff_rest (hsep : splits ≠ []) (str rest : Bytes) (strs : List Bytes)
    (hstrs : ∀ l ∈ strs, IsLine splits l) (hrest : ¬ splits <:+: rest)
    (htext : str ++ splits = unlines splits strs ++ rest) : CleanEnd splits str ↔ rest = [] := by
  have hnil : ¬ splits <:+: [] := fun h => hsep (List.infix_nil.mp h)
  obtain ⟨ls, last, rfl, hlines, hlast⟩ := exists_unlines_append hsep str
  rw [cleanEnd_iff hsep ls last hlines hlast]
  constructor
  · intro hline
    have hall : ∀ l ∈ ls ++ [last], IsLine splits l := by simpa [or_imp, forall_and] using ⟨hlines, hline⟩
    have hsame : unlines splits (ls ++ [last]) ++ [] = unlines splits strs ++ rest := by
      rw [← htext]
      simp
    exact (unlines_append_inj hsep hall hstrs hnil hrest hsame).2.symm
  · rintro rfl
    -- The first separator behind the lines is the one that ends the last piece.
    cases hcut : cut splits (last ++ splits) with
    | none => exact absurd (List.suffix_append last splits).isInfix ((cut_eq_none _ _).mp hcut)
    | some e =>
      obtain ⟨l, more⟩ := e
      obtain ⟨hsplit, hl⟩ := cut_eq_some splits _ l more hsep hcut
      have hmore : ¬ splits <:+: more := by
        intro hin
        have hlen := congrArg List.length hsplit
        have hle := hin.length_le
        simp only [List.length_append] at hlen
        have hinside : l ++ splits <+: last :=
          List.prefix_of_prefix_length_le ⟨more, by rw [hsplit, List.append_assoc]⟩ (List.prefix_append last splits)
            (by rw [List.length_append]; omega)
        exact hlast ((List.suffix_append l splits).isInfix.trans hinside.isInfix)
      have hall : ∀ k ∈ ls ++ [l], IsLine splits k := by simpa [or_imp, forall_and] using ⟨hlines, hl⟩
      have hsame : unlines splits (ls ++ [l]) ++ more = unlines splits strs ++ [] := by
        rw [← htext, List.append_assoc, hsplit]
        simp
      obtain rfl := (unlines_append_inj hsep hall hstrs hmore hnil hsame).2
      have hl' : last = l := List.append_cancel_right (hsplit.trans (by rw [List.append_nil]))
      rw [hl']
      exact hl

/-- **Splitting and joining.** They are inverse if and only if the text ends clean. -/
theorem splits_and_joins_iff (str splits : Bytes) (hstr : str ≠ []) (hsep : splits ≠ []) :
    SplitsAndJoins splits str ↔ CleanEnd splits str := by
  obtain ⟨rest, htext, hrest, hlines⟩ := from_string_rest hsep str hstr
  have hne : from_string str splits false ≠ [] := by
    intro hnil
    rw [hnil, unlines_nil, List.nil_append] at htext
    exact hrest (htext ▸ (List.suffix_append str splits).isInfix)
  have hjoin : join (from_string str splits false) splits = .ok str ↔ rest = [] := by
    rw [join_eq_ok_iff _ _ hne, htext]
    exact List.append_right_eq_self
  rw [cleanEnd_iff_rest hsep str rest _ hlines hrest htext, ← hjoin]
  refine ⟨fun h => h.joined, fun h => ⟨fun n hn => ?_, fun l hl => not_infix_of_isLine (hlines l hl), h⟩⟩
  unfold from_string
  rw [if_neg hstr]
  exact split_pieces_ends hsep false _ n hn

theorem splits_and_joins_dashes : SplitsAndJoins (ascii "--") (ascii "a--b-c") := by
  have hclean := cleanEnd_iff (by decide : ascii "--" ≠ []) [ascii "a"] (ascii "b-c") (by decide) (by decide)
  exact (splits_and_joins_iff (ascii "a--b-c") (ascii "--") (by decide) (by decide)).mpr (hclean.mpr (by decide))

theorem splits_not_joined :
    ¬ ∀ str splits : Bytes, str ≠ [] → splits ≠ [] → SplitsAndJoins splits str := by
  intro hall
  have hjoined := (hall (ascii "ba") (ascii "aa") (by decide) (by decide)).joined
  revert hjoined
  decide

end Libgs
