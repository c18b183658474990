import Libgs.Ini.Store
import Libgs.Lib.Earnings

/-!
# What a line of an INI file is read as

A line is read by itself: as a group, as a key with its value, or as nothing. Only where the key goes depends on the
lines before.
-/

namespace Libgs.basic_ini

open Lib ini_keyword_char

/-! ## The text up to a character -/

def before (c : UInt8) (text : Bytes) : Bytes := text.takeWhile (· ≠ c)

theorem not_mem_before (c : UInt8) (text : Bytes) : c ∉ before c text := by
  intro h
  have := List.mem_takeWhile_imp h
  simp at this

theorem ne_of_not_mem (c : UInt8) (l : Bytes) (h : c ∉ l) : ∀ d ∈ l, decide (d ≠ c) = true := by
  intro d hd
  rw [decide_eq_true_iff]
  rintro rfl
  exact h hd

theorem before_eq_self (c : UInt8) (text : Bytes) (h : c ∉ text) : before c text = text :=
  List.takeWhile_eq_self_iff.mpr (ne_of_not_mem c text h)

theorem before_append (c : UInt8) (l rest : Bytes) (h : c ∉ l) : before c (l ++ c :: rest) = l := by
  unfold before
  rw [List.takeWhile_append_of_pos (ne_of_not_mem c l h)]
  simp

theorem before_start (c : UInt8) (text : Bytes) : before c text <+: text := List.takeWhile_prefix _

theorem before_split (c : UInt8) (text : Bytes) (h : c ∈ text) : ∃ rest, text = before c text ++ c :: rest := by
  obtain ⟨l, rest, htext, hl⟩ := List.eq_append_cons_of_mem h
  exact ⟨rest, by rw [htext, before_append c l rest hl]⟩

/-! ## Comments and blanks -/

/-- The line without the blanks around it and the comment behind it. -/
def stripped (line : Bytes) : Bytes := str_trimmed (before semicolon (str_trimmed (before sharp (str_trimmed line))))

theorem first_piece_eq (buf : Bytes) (c d : UInt8) (hd : buf.head? = some d) (hne : d ≠ c)
    (hblank : isBlank d = false) :
    first_piece buf c = .ok (str_trimmed (before c buf)) := by
  have hhead : (before c buf).head? = some d := by
    rw [before, List.head?_takeWhile, hd]
    simp [hne]
  have hkept : str_trimmed (before c buf) ≠ [] :=
    List.ne_nil_of_mem (mem_str_trimmed _ d (List.mem_of_head? hhead) hblank)
  have hcut : ∃ rest, cut [c] (buf ++ [c]) = some (before c buf, rest) := by
    have hline : IsLine [c] (before c buf) := (isLine_singleton c _).mpr (not_mem_before c buf)
    by_cases hc : c ∈ buf
    · obtain ⟨rest, hrest⟩ := before_split c buf hc
      refine ⟨rest ++ [c], ?_⟩
      have := cut_append_pat [c] (before c buf) (rest ++ [c]) (by simp) hline
      rwa [← List.append_assoc, ← List.append_assoc, List.append_assoc _ [c] rest, List.singleton_append,
        ← hrest] at this
    · refine ⟨[], ?_⟩
      rw [before_eq_self c buf hc] at hline ⊢
      exact cut_append_pat [c] buf [] (by simp) hline
  obtain ⟨rest, hcut⟩ := hcut
  have hne : buf ≠ [] := by rintro rfl; simp at hd
  unfold first_piece from_string
  rw [if_neg hne, List.length_append, List.length_singleton, split_pieces, hcut]
  simp [hkept]

/-- **The split never comes up empty**: a line is passed over, or its stripped text is parsed. -/
theorem load_text_eq (line : Bytes) :
    load_text line = .ok (if stripped line = [] then none else some (stripped line)) := by
  unfold load_text
  dsimp only
  cases hhead : (str_trimmed line).head? with
  | none =>
    have hnil : str_trimmed line = [] := List.head?_eq_none_iff.mp hhead
    have hstripped : stripped line = [] := by
      rw [stripped, hnil]
      rfl
    rw [if_pos (.inl hnil), if_pos hstripped]
  | some d =>
    obtain ⟨rest, hrest⟩ := List.head?_eq_some_iff.mp hhead
    by_cases hcomment : d = sharp ∨ d = semicolon
    · have hnil : stripped line = [] := by
        rcases hcomment with rfl | rfl <;> rw [stripped, hrest]
        · simp [before, str_trimmed]
        · have hkeep : before sharp (semicolon :: rest) = semicolon :: before sharp rest := by
            simp [before, sharp, semicolon]
          have hsemi : (str_trimmed (semicolon :: before sharp rest)).head? = some semicolon :=
            str_trimmed_head _ semicolon rfl (by decide)
          obtain ⟨more, hmore⟩ := List.head?_eq_some_iff.mp hsemi
          rw [hkeep, hmore]
          simp [before, str_trimmed]
      rw [if_pos (by simpa [or_assoc] using .inr hcomment), hnil, if_pos rfl]
    · rw [not_or] at hcomment
      have hblank : isBlank d = false := by
        have := unpadded_str_trimmed line
        simp only [unpadded, hhead, decide_eq_true_eq] at this
        simpa using this.1
      have hhead' : (str_trimmed (before sharp (str_trimmed line))).head? = some d := by
        refine str_trimmed_head _ d ?_ hblank
        rw [before, List.head?_takeWhile, hhead]
        simp [hcomment.1]
      have hkept : stripped line ≠ [] := by
        refine List.ne_nil_of_mem (mem_str_trimmed _ d (List.mem_of_head? ?_) hblank)
        rw [before, List.head?_takeWhile, hhead']
        simp [hcomment.2]
      have hne : str_trimmed line ≠ [] := by simp [hrest]
      rw [if_neg (by simp [hne, hcomment.1, hcomment.2]),
        first_piece_eq _ sharp d hhead hcomment.1 hblank, if_neg hkept]
      exact congrArg (Except.map some) (first_piece_eq _ semicolon d hhead' hcomment.2 hblank)

theorem stripped_split (line : Bytes) :
    ∃ a b, line = a ++ (stripped line ++ b) ∧ ∀ c ∈ a, isBlank c = true := by
  obtain ⟨a₁, b₁, h₁, ha₁, -⟩ := str_trimmed_split line
  obtain ⟨c₁, hc₁⟩ := before_start sharp (str_trimmed line)
  obtain ⟨a₂, b₂, h₂, ha₂, -⟩ := str_trimmed_split (before sharp (str_trimmed line))
  obtain ⟨c₂, hc₂⟩ := before_start semicolon (str_trimmed (before sharp (str_trimmed line)))
  obtain ⟨a₃, b₃, h₃, ha₃, -⟩ := str_trimmed_split (before semicolon (str_trimmed (before sharp (str_trimmed line))))
  refine ⟨a₁ ++ (a₂ ++ a₃), b₃ ++ (c₂ ++ (b₂ ++ (c₁ ++ b₁))), ?_, ?_⟩
  · calc line = a₁ ++ (str_trimmed line ++ b₁) := h₁
      _ = a₁ ++ (before sharp (str_trimmed line) ++ (c₁ ++ b₁)) := by rw [← List.append_assoc _ c₁, hc₁]
      _ = a₁ ++ (a₂ ++ (str_trimmed (before sharp (str_trimmed line)) ++ (b₂ ++ (c₁ ++ b₁)))) := by
        conv => lhs; rw [h₂]
        simp
      _ = a₁ ++ (a₂ ++ (before semicolon (str_trimmed (before sharp (str_trimmed line))) ++
          (c₂ ++ (b₂ ++ (c₁ ++ b₁))))) := by rw [← List.append_assoc _ c₂, hc₂]
      _ = _ := by
        conv => lhs; rw [h₃]
        simp [stripped]
  · simp only [List.mem_append]
    rintro c (hc | hc | hc)
    · exact ha₁ c hc
    · exact ha₂ c hc
    · exact ha₃ c hc

theorem before_assigning (line name value a b : Bytes) (hline : line = a ++ (stripped line ++ b))
    (ha : ∀ c ∈ a, isBlank c = true) (h : stripped line = name ++ assigning :: value) (hname : assigning ∉ name) :
    before assigning line = a ++ name ∧ line = (a ++ name) ++ assigning :: (value ++ b) := by
  have hsplit : line = (a ++ name) ++ assigning :: (value ++ b) := by
    conv => lhs; rw [hline, h]
    simp
  refine ⟨?_, hsplit⟩
  conv => lhs; rw [hsplit]
  apply before_append
  rw [List.mem_append, not_or]
  exact ⟨fun hc => absurd (ha _ hc) (by decide), hname⟩

theorem stripped_within (line : Bytes) : stripped line <:+: line := by
  obtain ⟨a, b, h, -⟩ := stripped_split line
  exact ⟨a, b, by rw [List.append_assoc]; exact h.symm⟩

theorem not_mem_stripped (line : Bytes) : sharp ∉ stripped line ∧ semicolon ∉ stripped line := by
  have hsemi : before semicolon (str_trimmed (before sharp (str_trimmed line))) <:+: before sharp (str_trimmed line) :=
    (before_start semicolon _).isInfix.trans (str_trimmed_within _)
  constructor <;> intro h
  · exact not_mem_before sharp _ (hsemi.subset ((str_trimmed_within _).subset h))
  · exact not_mem_before semicolon _ ((str_trimmed_within _).subset h)

theorem unpadded_stripped (line : Bytes) : unpadded (stripped line) = true := unpadded_str_trimmed _

theorem stripped_of_plain (line : Bytes) (hsharp : sharp ∉ line) (hsemicolon : semicolon ∉ line) :
    stripped line = str_trimmed line := by
  have hidem : str_trimmed (str_trimmed line) = str_trimmed line :=
    str_trimmed_of_unpadded _ (unpadded_str_trimmed line)
  have h₁ : sharp ∉ str_trimmed line := fun h => hsharp ((str_trimmed_within line).subset h)
  have h₂ : semicolon ∉ str_trimmed line := fun h => hsemicolon ((str_trimmed_within line).subset h)
  rw [stripped, before_eq_self _ _ h₁, hidem, before_eq_self _ _ h₂, hidem]

/-! ## Reading -/

/-- What the lines of a file say -/
inductive item
  | group (name : Bytes)
  | key (name value : Bytes)
  deriving DecidableEq

/-- The line is read as the item. Its value is parsed with some line number, which only an error would show. -/
inductive Reads (line : Bytes) : item → Prop
  | group (inner : Bytes) (h : stripped line = left_bracket :: (inner ++ [right_bracket])) :
      Reads line (.group (from_percent_encoding (str_trimmed inner)))
  | key (name value text : Bytes) (n : ℕ) (h : stripped line = name ++ assigning :: value) (hname : assigning ∉ name)
      (hhead : (stripped line).head? ≠ some left_bracket)
      (htext : parsing_value (skip_assigning (str_trimmed value)) n = .ok text) :
      Reads line (.key (from_percent_encoding (str_trimmed name)) (from_percent_encoding text))

/-- Whatever the line is read as weighs at most `n`. -/
def Worth (w : item → ℕ) (line : Bytes) (n : ℕ) : Prop := ∀ i, Reads line i → w i ≤ n

theorem not_reads_blank (line : Bytes) (i : item) (hline : stripped line = []) : ¬ Reads line i := by
  intro h
  cases h with
  | group inner h => simp [hline] at h
  | key name value text n h => simp [hline] at h

theorem parsing_value_within (value text : Bytes) (n : ℕ) (h : parsing_value value n = .ok text) : text <:+: value := by
  unfold parsing_value syntax_error at h
  split_ifs at h
  · cases h
    exact List.infix_refl _
  · cases h
    exact (List.take_prefix _ _).isInfix.trans (List.drop_suffix _ _).isInfix
  · cases h
    exact List.infix_refl _

theorem skip_assigning_start (value : Bytes) : skip_assigning value <+: value := by
  unfold skip_assigning
  dsimp only
  split
  · exact List.prefix_refl _
  · exact List.take_prefix _ _

theorem value_text_within (value text : Bytes) (n : ℕ)
    (h : parsing_value (skip_assigning (str_trimmed value)) n = .ok text) : text <:+: value :=
  (parsing_value_within _ text n h).trans ((skip_assigning_start _).isInfix.trans (str_trimmed_within value))

theorem find_assigning (str : Bytes) (pos : ℕ) (h : find [assigning] str = some pos) :
    str = str.take pos ++ assigning :: str.drop (pos + 1) ∧ assigning ∉ str.take pos := by
  have hsplit := find_split [assigning] str pos h
  have hfirst : IsLine [assigning] (str.take pos) := find_first [assigning] str pos (by simp) h
  exact ⟨by simpa using hsplit.symm, (isLine_singleton _ _).mp hfirst⟩

/-- What a line does to the store and to the current group. -/
inductive LineEnd (p : impl) (curr_group line : Bytes) : impl × Except thrown Bytes → Prop
  | error (code : ini_error) : LineEnd p curr_group line (p, .error (.system_error code))
  | passed : LineEnd p curr_group line (p, .ok curr_group)
  | group (name : Bytes) (h : Reads line (.group name)) (hne : name ≠ []) :
      LineEnd p curr_group line (p.create name, .ok name)
  | key (name value : Bytes) (h : Reads line (.key name value)) (hgroup : curr_group ≠ []) (hne : name ≠ []) :
      LineEnd p curr_group line (p.store curr_group name value, .ok curr_group)

theorem parsing_group_end (p : impl) (curr_group line : Bytes) (n : ℕ)
    (hhead : (stripped line).head? = some left_bracket) :
    LineEnd p curr_group line (parsing_group p (stripped line) n) := by
  unfold parsing_group
  dsimp only
  split
  · exact .error _
  · rename_i hshape
    rw [not_or, not_not, Nat.not_lt] at hshape
    obtain ⟨rest, hrest⟩ := List.head?_eq_some_iff.mp hhead
    obtain ⟨front, hfront⟩ := List.getLast?_eq_some_iff.mp hshape.2
    have hinner : ∃ inner, stripped line = left_bracket :: (inner ++ [right_bracket]) := by
      cases front with
      | nil => simp [hfront] at hshape
      | cons c inner =>
        have hc : c = left_bracket := by simpa [hfront] using hhead
        exact ⟨inner, by rw [hfront, hc, List.cons_append]⟩
    obtain ⟨inner, hinner⟩ := hinner
    have hcut : ((stripped line).drop 1).take ((stripped line).length - 2) = inner := by simp [hinner]
    rw [hcut]
    split
    · exact .error _
    · rename_i hne
      exact .group _ (.group inner hinner) hne

theorem parsing_key_value_end (p : impl) (curr_group line : Bytes) (n : ℕ)
    (hhead : (stripped line).head? ≠ some left_bracket) :
    LineEnd p curr_group line ((parsing_key_value p curr_group (stripped line) n).1,
      (parsing_key_value p curr_group (stripped line) n).2.map fun _ => curr_group) := by
  unfold parsing_key_value
  by_cases hgroup : curr_group = []
  · rw [if_pos hgroup]
    exact .error _
  rw [if_neg hgroup]
  split
  · exact .error _
  cases hpos : find [assigning] (stripped line) with
  | none => exact .error _
  | some pos =>
    obtain ⟨hsplit, hname⟩ := find_assigning _ pos hpos
    dsimp only
    split
    · exact .error _
    split
    · exact .error _
    rename_i hne
    cases hvalue : parsing_value (skip_assigning (str_trimmed ((stripped line).drop (pos + 1)))) n with
    | ok text => exact .key _ _ (.key _ _ text n hsplit hname hhead hvalue) hgroup hne
    | error e =>
      have hcode : ∃ code, e = .system_error code := by
        unfold parsing_value syntax_error at hvalue
        split_ifs at hvalue <;> cases hvalue <;> exact ⟨_, rfl⟩
      obtain ⟨code, rfl⟩ := hcode
      exact .error code

/-- **A line at a time.** All that a line can do. -/
theorem load_line_end (p : impl) (curr_group line : Bytes) (n : ℕ) :
    LineEnd p curr_group line (load_line p curr_group line n) := by
  unfold load_line
  rw [load_text_eq]
  split_ifs
  · exact .passed
  · dsimp only
    split
    · rename_i hhead
      exact parsing_group_end p curr_group line n hhead
    · rename_i hhead
      exact parsing_key_value_end p curr_group line n hhead

/-! ## What the store holds -/

def keys_total (w : item → ℕ) (keys : ini_keys_t) : ℕ := (keys.entries.map fun e => w (.key e.1 e.2)).sum

/-- The weight of all groups and keys. -/
def total (w : item → ℕ) (m : group_map_t) : ℕ := (m.entries.map fun e => w (.group e.1) + keys_total w e.2).sum

theorem keys_total_assign (w : item → ℕ) (keys : ini_keys_t) (key value : Bytes) :
    keys_total w (keys.assign key value) ≤ keys_total w keys + w (.key key value) := by
  refine sum_alterEntry_le (fun e => w (.key e.1 e.2)) key _ _ keys.entries keys.sorted (fun _ => le_refl _) ?_
  intro e _ hrank
  rw [string_rank_injective hrank]
  exact Nat.le_add_left _ _

theorem total_create (w : item → ℕ) (p : impl) (group : Bytes) :
    total w (p.create group).m_groups ≤ total w p.m_groups + w (.group group) := by
  refine sum_alterEntry_le (fun e => w (.group e.1) + keys_total w e.2) group _ _ p.m_groups.entries p.m_groups.sorted
    (fun _ => le_refl _) ?_
  intro e _ _
  exact Nat.le_add_right _ _

def impl.has (p : impl) (group : Bytes) : Prop := ∃ e ∈ p.m_groups.entries, e.1 = group

theorem total_store (w : item → ℕ) (p : impl) (group key value : Bytes) (h : p.has group) :
    total w (p.store group key value).m_groups ≤ total w p.m_groups + w (.key key value) := by
  refine sum_alterEntry_le (fun e => w (.group e.1) + keys_total w e.2) group _ _ p.m_groups.entries p.m_groups.sorted
    ?_ ?_
  · intro hnew
    obtain ⟨e, he, hgroup⟩ := h
    exact absurd (congrArg string_rank hgroup) (hnew e he)
  · intro e _ _
    have := keys_total_assign w e.2 key value
    dsimp only [Option.getD_some]
    omega

theorem has_create (p : impl) (group : Bytes) : (p.create group).has group := by
  obtain ⟨e, he, hrank⟩ : ∃ e ∈ (p.create group).m_groups.entries, string_rank e.1 = string_rank group :=
    alterEntry_self group _ p.m_groups.entries
  exact ⟨e, he, string_rank_injective hrank⟩

theorem has_store (p : impl) (group key value : Bytes) (h : p.has group) : (p.store group key value).has group := by
  obtain ⟨e, he, rfl⟩ := h
  exact alterEntry_keeps e.1 _ p.m_groups.entries e he

/-! ## The loop -/

section

variable (cancelled : ℕ → Bool)

theorem load_turn_of_ok (l : Bytes) (s : load_loop) (obj : impl) (group : Bytes) (hgo : cancelled s.line = false)
    (hline : load_line s.obj s.curr_group l s.line = (obj, .ok group)) :
    load_turn cancelled l s = .again { s with obj := obj, curr_group := group, line := s.line + 1 } := by
  simp [load_turn, hgo, hline]

theorem load_turn_again (l : Bytes) (s s' : load_loop) (h : load_turn cancelled l s = .again s') :
    cancelled s.line = false ∧ ∃ obj group, load_line s.obj s.curr_group l s.line = (obj, .ok group) ∧
      s' = { s with obj := obj, curr_group := group, line := s.line + 1 } := by
  unfold load_turn at h
  split at h
  · cases h
  · rename_i hgo
    split at h
    · cases h
    · rename_i obj group hline
      cases h
      exact ⟨by simpa using hgo, obj, group, hline, rfl⟩

theorem load_turn_leave (l : Bytes) (s : load_loop) (r : load_end) (h : load_turn cancelled l s = .leave r) :
    r.obj = s.obj := by
  unfold load_turn at h
  split at h
  · cases h
    rfl
  · split at h
    · rename_i obj e hline
      have hend := load_line_end s.obj s.curr_group l s.line
      rw [hline] at hend
      cases hend
      cases h
      rfl
    · cases h

theorem load_turn_framed : Framed loadBuffer (load_turn cancelled) where
  keeps l s s' h := by
    obtain ⟨-, obj, group, -, rfl⟩ := load_turn_again cancelled l s s' h
    rfl
  moves l s s' b h := by
    obtain ⟨hgo, obj, group, hline, rfl⟩ := load_turn_again cancelled l s s' h
    exact load_turn_of_ok cancelled l { s with file := b } obj group hgo hline

theorem load_tail_done (s : load_loop) (h : s.file = []) :
    load_tail cancelled s = ⟨s.obj, .ok (if cancelled s.line then some errc.operation_aborted else none)⟩ :=
  if_pos h

/-- What the loop keeps: the current group is in the store. -/
def Opened (s : load_loop) : Prop := s.curr_group = [] ∨ s.obj.has s.curr_group

theorem load_turn_gain (w : item → ℕ) (l : Bytes) (s s' : load_loop) (n : ℕ) (hworth : Worth w l n)
    (hs : Opened s) (h : load_turn cancelled l s = .again s') :
    Opened s' ∧ total w s'.obj.m_groups ≤ total w s.obj.m_groups + n := by
  obtain ⟨-, obj, group, hline, rfl⟩ := load_turn_again cancelled l s s' h
  have hend := load_line_end s.obj s.curr_group l s.line
  rw [hline] at hend
  cases hend with
  | passed => exact ⟨hs, Nat.le_add_right _ _⟩
  | group _ hreads _ =>
    have := total_create w s.obj group
    have := hworth _ hreads
    exact ⟨.inr (has_create s.obj group), by dsimp only; omega⟩
  | key name value hreads hgroup _ =>
    have hhas := hs.resolve_left hgroup
    have := total_store w s.obj s.curr_group name value hhas
    have := hworth _ hreads
    exact ⟨.inr (has_store s.obj s.curr_group name value hhas), by dsimp only; omega⟩

/-- **A load gains no more than its lines are worth.** -/
theorem load_earn (w : item → ℕ) (text : Bytes) (n : ℕ)
    (h : Earns [line_break] (Worth w) text n) :
    total w (load {} (some text) cancelled).obj.m_groups ≤ n := by
  have hrun := lines_earn (load_turn_framed cancelled) (by simp) (fun s => total w s.obj.m_groups)
    (fun r : load_end => total w r.obj.m_groups) Opened (fun s b hs => ⟨hs, rfl⟩)
    (fun l s s' n hworth hs hb => load_turn_gain cancelled w l s s' n hworth hs hb)
    (fun l s r n _ _ hb => by rw [load_turn_leave cancelled l s r hb]; exact Nat.le_add_right _ _)
    h ⟨{}, [], 1, []⟩ (.inl rfl)
  have hstart : loadBuffer.set ⟨{}, [], 1, []⟩ text = ⟨{}, [], 1, text⟩ := rfl
  have hempty : total w (({} : impl).m_groups) = 0 := rfl
  rw [hstart, hempty, Nat.zero_add] at hrun
  unfold load
  dsimp only
  generalize lines loadBuffer [line_break] (load_turn cancelled) ⟨{}, [], 1, text⟩ = out at hrun
  cases hrun with
  | leave h => exact h
  | @again s hget _ h =>
    show total w (load_tail cancelled s).obj.m_groups ≤ n
    rwa [load_tail_done cancelled s hget]

end

end Libgs.basic_ini
