import Libgs.Ini.Lines
import Mathlib.Algebra.Order.BigOperators.Group.List

/-!
# What comes back from an INI file needs no escape

A line has to be as long as what it is read as, and longer where something had to be escaped. `sync` escapes nothing,
so a store that comes back has nothing in it that needs an escape.
-/

namespace Libgs.basic_ini

open Lib ini_keyword_char

/-! ## Text that needs no escape -/

/-- A text that stands on a line as it is -/
def plain (text : Bytes) : Bool :=
  line_break ∉ text ∧ sharp ∉ text ∧ semicolon ∉ text ∧ undecoded text = true

def plain_name (name : Bytes) : Bool := plain name ∧ unpadded name

def plain_key (key : Bytes) : Bool := plain_name key ∧ assigning ∉ key ∧ key.head? ≠ some left_bracket

/-- A number must not have a plus sign in front. -/
def plain_value (value : Bytes) : Bool := plain value ∧ ¬ (is_rlnum value ∧ value.head? = some 0x2B)

theorem plain_of_infix (line text : Bytes) (hline : line_break ∉ line) (h : text <:+: stripped line)
    (hundecoded : undecoded text = true) : plain text = true := by
  have hsub : text ⊆ line := fun c hc => (stripped_within line).subset (h.subset hc)
  have hcomment := not_mem_stripped line
  unfold plain
  rw [decide_eq_true_iff]
  exact ⟨fun hc => hline (hsub hc), fun hc => hcomment.1 (h.subset hc), fun hc => hcomment.2 (h.subset hc), hundecoded⟩

/-! ## The room on a line -/

def cost (text : Bytes) (asis : Bool) : ℕ := text.length + if asis then 0 else 2

theorem length_le_cost (text : Bytes) (asis : Bool) : text.length ≤ cost text asis := Nat.le_add_right _ _

theorem cost_of_not (text : Bytes) (asis : Bool) (h : asis = false) : cost text asis = text.length + 2 := by
  simp [cost, h]

theorem asis_of_cost_le (text : Bytes) (asis : Bool) (h : cost text asis ≤ text.length) : asis = true := by
  cases asis with
  | true => rfl
  | false =>
    rw [cost_of_not text false rfl] at h
    omega

/-- The length of a line that is read as the item, at least. -/
def room : item → ℕ
  | .group name => cost name (plain_name name) + 2
  | .key name value => cost name (plain_key name) + 1 + cost value (plain value)

theorem cost_decoded (source : Bytes) (asis : Bytes → Bool) (h : undecoded source = true → asis source = true) :
    cost (from_percent_encoding source) (asis (from_percent_encoding source)) ≤ source.length := by
  obtain ⟨hsame, hshort⟩ := from_percent_cases source
  cases hu : undecoded source with
  | true => rw [hsame hu, h hu]; exact le_refl _
  | false =>
    have := hshort hu
    unfold cost
    split <;> omega

theorem group_room (line inner : Bytes) (hline : line_break ∉ line)
    (h : stripped line = left_bracket :: (inner ++ [right_bracket])) :
    room (.group (from_percent_encoding (str_trimmed inner))) ≤ (stripped line).length := by
  have hinfix : str_trimmed inner <:+: stripped line :=
    (str_trimmed_within inner).trans ⟨[left_bracket], [right_bracket], by rw [h]; rfl⟩
  have hcost := cost_decoded (str_trimmed inner) plain_name fun hu => by
    simp [plain_name, plain_of_infix line _ hline hinfix hu, unpadded_str_trimmed]
  have := (str_trimmed_within inner).length_le
  simp only [room, h, List.length_cons, List.length_append, List.length_nil]
  omega

theorem key_head (line name value : Bytes) (h : stripped line = name ++ assigning :: value)
    (hhead : (stripped line).head? ≠ some left_bracket) : (str_trimmed name).head? ≠ some left_bracket := by
  cases name with
  | nil => simp [str_trimmed]
  | cons c rest =>
    have hblank : isBlank c = false := by
      have := unpadded_stripped line
      simp only [unpadded, h, decide_eq_true_eq] at this
      simpa using this.1
    rw [str_trimmed_head (c :: rest) c rfl hblank]
    rwa [h] at hhead

theorem key_room (line name value text : Bytes) (n : ℕ) (hline : line_break ∉ line)
    (h : stripped line = name ++ assigning :: value) (hname : assigning ∉ name)
    (hhead : (stripped line).head? ≠ some left_bracket)
    (htext : parsing_value (skip_assigning (str_trimmed value)) n = .ok text) :
    room (.key (from_percent_encoding (str_trimmed name)) (from_percent_encoding text)) ≤
      name.length + 1 + text.length := by
  have hn : str_trimmed name <:+: stripped line :=
    (str_trimmed_within name).trans ⟨[], assigning :: value, by rw [h]; rfl⟩
  have ht : text <:+: stripped line :=
    (value_text_within value text n htext).trans ⟨name ++ [assigning], [], by rw [h]; simp⟩
  have hkey := cost_decoded (str_trimmed name) plain_key fun hu => by
    have hassign : assigning ∉ str_trimmed name := fun hc => hname ((str_trimmed_within name).subset hc)
    simp [plain_key, plain_name, plain_of_infix line _ hline hn hu, unpadded_str_trimmed, hassign,
      key_head line name value h hhead]
  have hvalue := cost_decoded text plain fun hu => plain_of_infix line _ hline ht hu
  have := (str_trimmed_within name).length_le
  dsimp only [room]
  omega

/-- **What is read fits on the line.** -/
theorem reads_room (line : Bytes) (i : item) (hline : line_break ∉ line) (h : Reads line i) :
    room i ≤ (stripped line).length := by
  cases h with
  | group inner h => exact group_room line inner hline h
  | key name value text n h hname hhead htext =>
    have := key_room line name value text n hline h hname hhead htext
    have := (value_text_within value text n htext).length_le
    rw [h, List.length_append, List.length_cons]
    omega

/-! ## A value in quotes -/

theorem before_short (c d : UInt8) (text : Bytes) (hc : c ∈ text) (hlast : text.getLast? = some d) (hne : d ≠ c) :
    (before c text).length + 2 ≤ text.length := by
  obtain ⟨rest, hrest⟩ := before_split c text hc
  have hmore : rest ≠ [] := by
    rintro rfl
    rw [hrest, List.getLast?_append, List.getLast?_singleton, Option.some_or, Option.some_inj] at hlast
    exact hne hlast.symm
  have := List.length_pos_iff.mpr hmore
  have hlen := congrArg List.length hrest
  rw [List.length_append, List.length_cons] at hlen
  omega

theorem stripped_short (line : Bytes) (hlast : line.getLast? = some double_quotes)
    (hcomment : sharp ∈ line ∨ semicolon ∈ line) : (stripped line).length + 2 ≤ line.length := by
  have htrim := str_trimmed_last line double_quotes hlast (by decide)
  have hline := (str_trimmed_within line).length_le
  have hidem : str_trimmed (str_trimmed line) = str_trimmed line :=
    str_trimmed_of_unpadded _ (unpadded_str_trimmed line)
  unfold stripped
  by_cases hsharp : sharp ∈ str_trimmed line
  · have hshort := before_short sharp double_quotes _ hsharp htrim (by decide)
    have h₁ := (str_trimmed_within (before sharp (str_trimmed line))).length_le
    have h₂ := (before_start semicolon (str_trimmed (before sharp (str_trimmed line)))).length_le
    have h₃ := (str_trimmed_within (before semicolon (str_trimmed (before sharp (str_trimmed line))))).length_le
    omega
  · rw [before_eq_self _ _ hsharp, hidem]
    have hsemicolon : semicolon ∈ str_trimmed line := by
      rcases hcomment with h | h
      · exact absurd (mem_str_trimmed line sharp h (by decide)) hsharp
      · exact mem_str_trimmed line semicolon h (by decide)
    have hshort := before_short semicolon double_quotes _ hsemicolon htrim (by decide)
    have h₃ := (str_trimmed_within (before semicolon (str_trimmed line))).length_le
    omega

/-- The value between double quotes -/
def quoted (value : Bytes) : Bytes := double_quotes :: (value ++ [double_quotes])

@[simp] theorem quoted_length (value : Bytes) : (quoted value).length = value.length + 2 := by simp [quoted]

theorem skip_assigning_self (value : Bytes) (h : value.head? ≠ some assigning) : skip_assigning value = value := by
  have hnone : (value.take (int_cast value.length).toNat).takeWhile (· = assigning) = [] := by
    cases value with
    | nil => simp
    | cons c rest =>
      have hc : c ≠ assigning := by simpa using h
      cases (int_cast (c :: rest).length).toNat with
      | zero => rfl
      | succ k => simp [hc]
  unfold skip_assigning
  rw [hnone]
  rfl

theorem parsing_quoted (value : Bytes) (n : ℕ) :
    parsing_value (skip_assigning (str_trimmed (quoted value))) n = .ok value := by
  have htrim : str_trimmed (quoted value) = quoted value := by
    apply str_trimmed_of_unpadded
    simp [unpadded, quoted, List.getLast?_cons, show isBlank double_quotes = false by decide]
  rw [htrim, skip_assigning_self (quoted value) (by simp [quoted, show double_quotes ≠ assigning by decide])]
  unfold parsing_value
  simp [quoted, List.getLast?_cons]

/-- The line that is written for a key, without its line break. -/
def key_line (key text : Bytes) : Bytes := key ++ assigning :: text

@[simp] theorem key_line_length (key text : Bytes) : (key_line key text).length = key.length + 1 + text.length := by
  simp [key_line]
  omega

/-- **The quotes do not count.** Behind a key without `=` they are taken off again. -/
theorem quoted_room (key value : Bytes) (i : item) (hkey : assigning ∉ key)
    (hline : line_break ∉ key_line key (quoted value)) (h : Reads (key_line key (quoted value)) i) :
    room i + 2 ≤ (key_line key (quoted value)).length := by
  have hlast : (key_line key (quoted value)).getLast? = some double_quotes := by
    simp [key_line, quoted, List.getLast?_append, List.getLast?_cons]
  by_cases hcomment : sharp ∈ key_line key (quoted value) ∨ semicolon ∈ key_line key (quoted value)
  · have := stripped_short _ hlast hcomment
    have := reads_room _ i hline h
    omega
  · rw [not_or] at hcomment
    have hstrip := stripped_of_plain _ hcomment.1 hcomment.2
    obtain ⟨a, b, hsplit, ha, hb⟩ := str_trimmed_split (key_line key (quoted value))
    rw [← hstrip] at hsplit
    cases h with
    | group inner h =>
      have htrim := str_trimmed_last _ double_quotes hlast (by decide)
      rw [← hstrip, h, ← List.cons_append, List.getLast?_append, List.getLast?_singleton, Option.some_or,
        Option.some_inj] at htrim
      exact absurd htrim (by decide)
    | key name rest text n h hname hhead htext =>
      obtain ⟨hbefore, hwhole⟩ := before_assigning _ name rest a b hsplit ha h hname
      rw [key_line, before_append _ _ _ hkey] at hbefore
      have hrest : quoted value = rest ++ b := by simpa [key_line, hbefore] using hwhole
      have hb : b = [] := by
        rw [← List.getLast?_eq_none_iff]
        cases hd : b.getLast? with
        | none => rfl
        | some d =>
          have hquote : (quoted value).getLast? = some double_quotes := by simp [quoted, List.getLast?_cons]
          rw [hrest, List.getLast?_append, hd, Option.some_or] at hquote
          have := hb d (List.mem_of_getLast? hd)
          rw [Option.some.inj hquote] at this
          exact absurd this (by decide)
      rw [hb, List.append_nil] at hrest
      rw [← hrest, parsing_quoted] at htext
      have hroom := key_room _ name rest text n hline h hname hhead (by rw [← hrest, parsing_quoted]; exact htext)
      have hlen := congrArg List.length hbefore
      have htextlen := congrArg List.length (Except.ok.inj htext)
      rw [List.length_append] at hlen
      rw [key_line_length, quoted_length]
      omega

/-! ## What the written lines are worth -/

theorem encode_text_eq (text : Bytes) : encode_text text = text := if_pos (is_ascii_true text)

/-- The line of a group -/
def group_line (name : Bytes) : Bytes := left_bracket :: (name ++ [right_bracket])

def value_text (key value : Bytes) : Bytes := if is_rlnum value then sync_value key value else quoted value

theorem sync_key_eq (key value : Bytes) (hkey : key ≠ []) (hvalue : value ≠ []) :
    sync_key key value = key_line key (value_text key value) ++ [line_break] := by
  have hskip : skipped key value = false := by simp [skipped, hkey, hvalue]
  unfold sync_key value_text
  rw [hskip, encode_text_eq, encode_text_eq]
  simp [key_line, quoted]

theorem sync_group_eq (name : Bytes) (keys : ini_keys_t) :
    sync_group name keys =
      (group_line name ++ [line_break]) ++
        (keys.entries.flatMap (fun e => sync_key e.1 e.2) ++ ([] ++ [line_break])) := by
  simp [sync_group, encode_text_eq, group_line]

theorem room_earns (text : Bytes) :
    ∃ n, Earns [line_break] (Worth room) (text ++ [line_break]) n ∧ n + text.count line_break = text.length := by
  refine earns_length line_break (fun line hline i hi => ?_) text
  exact (reads_room line i ((isLine_singleton _ _).mp hline) hi).trans (stripped_within line).length_le

theorem group_earns (name : Bytes) :
    ∃ n, Earns [line_break] (Worth room) (group_line name ++ [line_break]) n ∧ n ≤ room (.group name) ∧
      (room (.group name) ≤ n → plain_name name = true) := by
  obtain ⟨n, hn, hlen⟩ := room_earns (group_line name)
  have hname := length_le_cost name (plain_name name)
  simp only [group_line, List.length_cons, List.length_append, List.length_nil] at hlen
  refine ⟨n, hn, ?_, fun h => asis_of_cost_le name _ ?_⟩ <;> dsimp only [room] at * <;> omega

theorem break_of_plain (text : Bytes) (h : plain text = true) : line_break ∉ text := by
  simp only [plain, decide_eq_true_eq] at h
  exact h.1

theorem plain_of_value (value : Bytes) (h : plain_value value = true) : plain value = true := by
  simp only [plain_value, decide_eq_true_eq] at h
  exact h.1

theorem plain_of_name (name : Bytes) (h : plain_name name = true) : plain name = true := by
  simp only [plain_name, decide_eq_true_eq] at h
  exact h.1

theorem plain_of_key (key : Bytes) (h : plain_key key = true) : plain key = true := by
  simp only [plain_key, decide_eq_true_eq] at h
  exact plain_of_name key h.1

theorem number_earns (key value : Bytes) (hkey : key ≠ []) (hvalue : value ≠ []) (hnumber : is_rlnum value = true) :
    ∃ n, Earns [line_break] (Worth room) (sync_key key value) n ∧ n ≤ room (.key key value) ∧
      (room (.key key value) ≤ n → plain_key key = true ∧ plain_value value = true) := by
  obtain ⟨n, hn, hlen⟩ := room_earns (key_line key (value_text key value))
  rw [← sync_key_eq key value hkey hvalue] at hn
  have hk := length_le_cost key (plain_key key)
  have hv := length_le_cost value (plain value)
  have hpos := List.length_pos_iff.mpr hvalue
  have htext : (value_text key value).length + (if value.head? = some 0x2B then 1 else 0) = value.length := by
    unfold value_text sync_value
    rw [if_pos hnumber]
    by_cases hplus : value.head? = some 0x2B
    · simp [skipped, hkey, hvalue, hnumber, hplus]
      omega
    · simp [hplus]
  rw [key_line_length] at hlen
  dsimp only [room]
  refine ⟨n, hn, by omega, fun h => ⟨asis_of_cost_le key _ (by omega), ?_⟩⟩
  have hplain := asis_of_cost_le value (plain value) (by omega)
  by_cases hplus : value.head? = some 0x2B
  · rw [if_pos hplus] at htext
    omega
  · simp [plain_value, hplain, hplus]

theorem quoted_earns (key value : Bytes) (hkey : key ≠ []) (hvalue : value ≠ []) (hnumber : is_rlnum value = false) :
    ∃ n, Earns [line_break] (Worth room) (sync_key key value) n ∧ n ≤ room (.key key value) ∧
      (room (.key key value) ≤ n →
        line_break ∉ key ∧ line_break ∉ value ∧
          (assigning ∉ key → plain_key key = true ∧ plain_value value = true)) := by
  obtain ⟨n, hn, hlen⟩ := room_earns (key_line key (quoted value))
  have htext : value_text key value = quoted value := if_neg (by simp [hnumber])
  rw [sync_key_eq key value hkey hvalue, htext]
  have hk := length_le_cost key (plain_key key)
  have hv := length_le_cost value (plain value)
  rw [key_line_length, quoted_length] at hlen
  by_cases hbreak : line_break ∈ key_line key (quoted value)
  · -- Every line break costs a line end, and an escape where the text is read.
    have hcount := List.count_pos_iff.mpr hbreak
    have hescape : key.length + value.length + 2 ≤ cost key (plain_key key) + cost value (plain value) := by
      have hmem : line_break ∈ key ∨ line_break ∈ value := by
        simpa [key_line, quoted, show line_break ≠ assigning by decide, show line_break ≠ double_quotes by decide]
          using hbreak
      rcases hmem with h | h
      · have hkeyplain : plain_key key = false :=
          Bool.eq_false_iff.mpr fun hp => break_of_plain key (plain_of_key key hp) h
        have := cost_of_not key _ hkeyplain
        omega
      · have hvalueplain : plain value = false := Bool.eq_false_iff.mpr fun hp => break_of_plain value hp h
        have := cost_of_not value _ hvalueplain
        omega
    dsimp only [room]
    exact ⟨n, hn, by omega, fun h => absurd h (by omega)⟩
  · have hfree : line_break ∉ key ∧ line_break ∉ value := by
      simp only [key_line, quoted, List.mem_append, List.mem_cons, not_or] at hbreak
      exact ⟨hbreak.1, hbreak.2.2.2.1⟩
    by_cases hassign : assigning ∈ key
    · have hkeyplain : plain_key key = false := by simp [plain_key, hassign]
      have := cost_of_not key _ hkeyplain
      dsimp only [room]
      exact ⟨n, hn, by omega, fun _ => ⟨hfree.1, hfree.2, fun h => absurd hassign h⟩⟩
    · refine ⟨key.length + 1 + value.length, .one ((isLine_singleton _ _).mpr hbreak) fun i hi => ?_, ?_, ?_⟩
      · have := quoted_room key value i hassign hbreak hi
        rw [key_line_length, quoted_length] at this
        omega
      · dsimp only [room]
        omega
      · intro h
        dsimp only [room] at h
        have hplain := asis_of_cost_le value (plain value) (by omega)
        exact ⟨hfree.1, hfree.2, fun _ => ⟨asis_of_cost_le key _ (by omega), by simp [plain_value, hplain, hnumber]⟩⟩

/-- **A key is written with no more room than it needs**, and with less only where it will not come back. -/
theorem key_earns (key value : Bytes) (hkey : key ≠ []) (hvalue : value ≠ []) :
    ∃ n, Earns [line_break] (Worth room) (sync_key key value) n ∧ n ≤ room (.key key value) ∧
      (room (.key key value) ≤ n →
        line_break ∉ key ∧ line_break ∉ value ∧
          (assigning ∉ key → plain_key key = true ∧ plain_value value = true)) := by
  cases hnumber : is_rlnum value with
  | false => exact quoted_earns key value hkey hvalue hnumber
  | true =>
    obtain ⟨n, hn, hle, hplain⟩ := number_earns key value hkey hvalue hnumber
    refine ⟨n, hn, hle, fun h => ?_⟩
    obtain ⟨hk, hv⟩ := hplain h
    exact ⟨break_of_plain key (plain_of_key key hk), break_of_plain value (plain_of_value value hv), fun _ => ⟨hk, hv⟩⟩

/-! ## A store that comes back -/

/-- Nothing is cancelled. -/
def never : ℕ → Bool := fun _ => false

/-- The store as `sync` writes it, loaded into a fresh one. -/
def reload (m : group_map_t) : load_end := load {} (some (sync ⟨m⟩ never).file) never

theorem sync_file (m : group_map_t) :
    (sync ⟨m⟩ never).file = m.entries.flatMap fun e => sync_group e.1 e.2 := by
  have hgo : ∀ n l, (sync_groups never n l).file = l.flatMap fun e => sync_group e.1 e.2 := by
    intro n l
    induction l generalizing n with
    | nil => rfl
    | cons e l ih => simp [sync_groups, never, ← ih (n + 1)]
  exact hgo 0 m.entries

theorem pointwise_of_sum {β : Type} (l : List β) (f g : β → ℕ) (hle : ∀ a ∈ l, f a ≤ g a)
    (hsum : (l.map g).sum ≤ (l.map f).sum) : ∀ a ∈ l, g a ≤ f a := by
  intro a ha
  by_contra hlt
  exact absurd (List.sum_lt_sum f g hle ⟨a, ha, not_le.mp hlt⟩) (not_lt.mpr hsum)

/-- **Nothing to spare.** Where no part of the text is worth more than it is written for, a store that comes back has
every part worth as much. -/
theorem earned_of_reload (w : item → ℕ) (m : group_map_t) (hload : (reload m).obj.m_groups = m) (ng : Bytes → ℕ)
    (nk : Bytes → Bytes → ℕ)
    (hg : ∀ e ∈ m.entries, Earns [line_break] (Worth w) (group_line e.1 ++ [line_break]) (ng e.1) ∧
      ng e.1 ≤ w (.group e.1))
    (hk : ∀ e ∈ m.entries, ∀ k ∈ e.2.entries, Earns [line_break] (Worth w) (sync_key k.1 k.2) (nk k.1 k.2) ∧
      nk k.1 k.2 ≤ w (.key k.1 k.2)) :
    ∀ e ∈ m.entries, w (.group e.1) ≤ ng e.1 ∧ ∀ k ∈ e.2.entries, w (.key k.1 k.2) ≤ nk k.1 k.2 := by
  have hblank : Earns [line_break] (Worth w) ([] ++ [line_break]) 0 :=
    .one (by decide) fun i hi => absurd hi (not_reads_blank [] i rfl)
  have hearn : Earns [line_break] (Worth w) (sync ⟨m⟩ never).file
      (m.entries.map fun e => ng e.1 + ((e.2.entries.map fun k => nk k.1 k.2).sum + 0)).sum := by
    rw [sync_file]
    refine .flatMap _ _ _ fun e he => ?_
    rw [sync_group_eq]
    exact (hg e he).1.append ((Earns.flatMap _ _ _ fun k hkey => (hk e he k hkey).1).append hblank)
  have hgain := load_earn never w _ _ hearn
  have hsame : total w (load {} (some (sync ⟨m⟩ never).file) never).obj.m_groups = total w m := congrArg (total w) hload
  rw [hsame] at hgain
  have hkeys : ∀ e ∈ m.entries, (e.2.entries.map fun k => nk k.1 k.2).sum ≤ keys_total w e.2 := fun e he =>
    List.sum_le_sum fun k hkey => (hk e he k hkey).2
  have hgroups := pointwise_of_sum m.entries _ _ (fun e he => by
    have := hkeys e he
    have := (hg e he).2
    show ng e.1 + (_ + 0) ≤ w (.group e.1) + keys_total w e.2
    omega) hgain
  intro e he
  have hle := hgroups e he
  have hsum := hkeys e he
  have hgle := (hg e he).2
  refine ⟨by omega, ?_⟩
  exact pointwise_of_sum e.2.entries _ _ (fun k hkey => (hk e he k hkey).2) (show keys_total w e.2 ≤ _ by omega)

/-! ## No `=` in a key -/

def name_length : item → ℕ
  | .group _ => 0
  | .key name _ => name.length

theorem reads_name (line : Bytes) (i : item) (h : Reads line i) : name_length i ≤ (before assigning line).length := by
  cases h with
  | group inner h => exact Nat.zero_le _
  | key name value text n h hname hhead htext =>
    obtain ⟨a, b, hsplit, ha⟩ := stripped_split line
    obtain ⟨hbefore, -⟩ := before_assigning line name value a b hsplit ha h hname
    have h₁ := from_percent_length (str_trimmed name)
    have h₂ := (str_trimmed_within name).length_le
    rw [hbefore, List.length_append]
    dsimp only [name_length]
    omega

theorem reads_group_line (name : Bytes) (i : item) (h : Reads (group_line name) i) : name_length i = 0 := by
  cases h with
  | group inner h => rfl
  | key key value text n h hname hhead htext =>
    -- The bracket in front stays.
    obtain ⟨a, b, hsplit, ha⟩ := stripped_split (group_line name)
    have hnil : a = [] := by
      cases a with
      | nil => rfl
      | cons c a =>
        have hc : c = left_bracket := by
          have := congrArg List.head? hsplit
          simpa [group_line] using this.symm
        exact absurd (ha c List.mem_cons_self) (by rw [hc]; decide)
    obtain ⟨c, rest, hrest⟩ : ∃ c rest, stripped (group_line name) = c :: rest := by
      cases key with
      | nil => exact ⟨_, _, h⟩
      | cons c key => exact ⟨_, _, h⟩
    rw [hnil, hrest] at hsplit
    have hc : c = left_bracket := by
      have := congrArg List.head? hsplit
      simpa [group_line] using this.symm
    exact absurd (by rw [hrest, hc]; rfl) hhead

theorem before_key_line (key text : Bytes) : before assigning (key_line key text) = before assigning key := by
  by_cases hkey : assigning ∈ key
  · obtain ⟨rest, hrest⟩ := before_split assigning key hkey
    have hline : key_line key text = before assigning key ++ assigning :: (rest ++ assigning :: text) := by
      conv => lhs; rw [key_line, hrest]
      simp
    rw [hline, before_append _ _ _ (not_mem_before _ _)]
  · rw [key_line, before_append _ _ _ hkey, before_eq_self _ _ hkey]

theorem break_group_line (name : Bytes) (h : line_break ∉ name) : line_break ∉ group_line name := by
  simp [group_line, h, show line_break ≠ left_bracket by decide, show line_break ≠ right_bracket by decide]

theorem not_mem_key_line (c : UInt8) (key text : Bytes) (hkey : c ∉ key) (htext : c ∉ text) (hne : c ≠ assigning) :
    c ∉ key_line key text := by
  simp [key_line, hkey, htext, hne]

theorem break_key_line (key value : Bytes) (hkey : line_break ∉ key) (hvalue : line_break ∉ value) :
    line_break ∉ key_line key (value_text key value) := by
  have htext : line_break ∉ value_text key value := by
    unfold value_text sync_value
    split_ifs
    · exact fun hc => hvalue (List.mem_of_mem_drop hc)
    · exact hvalue
    · simp [quoted, hvalue, show line_break ≠ double_quotes by decide]
  exact not_mem_key_line line_break key _ hkey htext (by decide)

theorem no_assigning (m : group_map_t) (hload : (reload m).obj.m_groups = m)
    (hnamed : ∀ e ∈ m.entries, ∀ k ∈ e.2.entries, k.1 ≠ [] ∧ k.2 ≠ [])
    (hbreak : ∀ e ∈ m.entries, line_break ∉ e.1 ∧ ∀ k ∈ e.2.entries, line_break ∉ k.1 ∧ line_break ∉ k.2) :
    ∀ e ∈ m.entries, ∀ k ∈ e.2.entries, assigning ∉ k.1 := by
  have htight := earned_of_reload name_length m hload (fun _ => 0) (fun key _ => (before assigning key).length) ?_ ?_
  · intro e he k hk hmem
    have hle : k.1.length ≤ (before assigning k.1).length := (htight e he).2 k hk
    obtain ⟨rest, hrest⟩ := before_split assigning k.1 hmem
    have hlen := congrArg List.length hrest
    rw [List.length_append, List.length_cons] at hlen
    omega
  · intro e he
    refine ⟨.one ((isLine_singleton _ _).mpr ?_) fun i hi => (reads_group_line e.1 i hi).le, le_refl _⟩
    exact break_group_line e.1 (hbreak e he).1
  · intro e he k hk
    obtain ⟨hkey, hvalue⟩ := hnamed e he k hk
    obtain ⟨hkbreak, hvbreak⟩ := (hbreak e he).2 k hk
    rw [sync_key_eq k.1 k.2 hkey hvalue]
    refine ⟨.one ((isLine_singleton _ _).mpr ?_) fun i hi => ?_, (before_start assigning k.1).length_le⟩
    · exact break_key_line k.1 k.2 hkbreak hvbreak
    · rw [← before_key_line k.1 (value_text k.1 k.2)]
      exact reads_name _ i hi

/-! ## What comes back -/

/-- Every group, key and value has at least one character. -/
def Named (m : group_map_t) : Prop :=
  ∀ e ∈ m.entries, e.1 ≠ [] ∧ ∀ k ∈ e.2.entries, k.1 ≠ [] ∧ k.2 ≠ []

/-- Nothing in the store needs an escape. -/
def Plain (m : group_map_t) : Prop :=
  ∀ e ∈ m.entries, plain_name e.1 = true ∧ ∀ k ∈ e.2.entries, plain_key k.1 = true ∧ plain_value k.2 = true

instance (m : group_map_t) : Decidable (Named m) := inferInstanceAs (Decidable (∀ e ∈ m.entries, _ ∧ _))

instance (m : group_map_t) : Decidable (Plain m) := inferInstanceAs (Decidable (∀ e ∈ m.entries, _ ∧ _))

/-- **What comes back needs no escape.** -/
theorem plain_of_reload (m : group_map_t) (hnamed : Named m) (hload : (reload m).obj.m_groups = m) : Plain m := by
  choose ng hng using group_earns
  choose! nk hnk using key_earns
  have htight := earned_of_reload room m hload ng nk (fun e _ => ⟨(hng e.1).1, (hng e.1).2.1⟩) fun e he k hk => by
    obtain ⟨hkey, hvalue⟩ := (hnamed e he).2 k hk
    exact ⟨(hnk k.1 k.2 hkey hvalue).1, (hnk k.1 k.2 hkey hvalue).2.1⟩
  have hgroup : ∀ e ∈ m.entries, plain_name e.1 = true := fun e he => (hng e.1).2.2 (htight e he).1
  have hkeys : ∀ e ∈ m.entries, ∀ k ∈ e.2.entries, line_break ∉ k.1 ∧ line_break ∉ k.2 ∧
      (assigning ∉ k.1 → plain_key k.1 = true ∧ plain_value k.2 = true) := fun e he k hk => by
    obtain ⟨hkey, hvalue⟩ := (hnamed e he).2 k hk
    exact (hnk k.1 k.2 hkey hvalue).2.2 ((htight e he).2 k hk)
  have hassign := no_assigning m hload (fun e he => (hnamed e he).2) fun e he =>
    ⟨break_of_plain e.1 (plain_of_name e.1 (hgroup e he)), fun k hk => ⟨(hkeys e he k hk).1, (hkeys e he k hk).2.1⟩⟩
  exact fun e he => ⟨hgroup e he, fun k hk => (hkeys e he k hk).2.2 (hassign e he k hk)⟩

end Libgs.basic_ini
