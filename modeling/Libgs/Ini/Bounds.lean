import Libgs.Core.PercentBuffers
import Libgs.Ini.Accesses
import Libgs.Ini.Stream

/-!
# The bounds of the data in `load`

The line handling of `load` with every access watched. It differs from the one of the store only where a line is longer
than an `int` counts.
-/

namespace Libgs.checked

open Lib Libgs.basic_ini ini_keyword_char

/-! ## The accesses -/

section

variable {E : Type}

/-- `s[i]` of a `std::string`, which has its terminator behind the last character. -/
def string_at (s : Bytes) (i : ℕ) : Except (fault E) UInt8 := if i = s.length then .ok 0 else view_at s i

def back (s : Bytes) : Except (fault E) UInt8 := if s = [] then .error .undefined else view_at s (s.length - 1)

/-- `list[0]` -/
def list_front (list : List Bytes) : Except (fault E) Bytes :=
  match list with
  | [] => .error .undefined
  | piece :: _ => .ok piece

/-- `string_t(s.c_str() + pos, n)` -/
def copy (s : Bytes) (pos n : ℕ) : Except (fault E) Bytes :=
  if s.length < pos + n then .error .undefined else .ok ((s.drop pos).take n)

/-- The decoder on its buffer -/
def from_percent_encoding (str : Bytes) : Except (fault E) Bytes :=
  match percent_coding.from_percent_buffer str with
  | none => .error .undefined
  | some text => .ok text

/-- The loop over the `=` in front of the value, for `n` turns at most. -/
def assigning_run (value : Bytes) : ℕ → ℕ → Except (fault E) ℕ
  | 0, i => .ok i
  | n + 1, i => (string_at value i).bind fun c => if c ≠ assigning then .ok i else assigning_run value n (i + 1)

def skip_assigning (value : Bytes) : Except (fault E) Bytes :=
  (assigning_run value (int_cast value.length).toNat 0).bind fun i =>
    if i = 0 then .ok value else substr value 0 (i - 1)

end

/-! ## The line -/

def syntax_error {α : Type} (category : ini_category) (line : ℕ) : Except (fault ini_error) α :=
  .error (.thrown ⟨category, Libgs.int_cast line⟩)

def parsing_group (p : impl) (str : Bytes) (line : ℕ) : impl × Except (fault ini_error) Bytes :=
  if str.length < 3 ∨ str.getLast? ≠ some right_bracket then (p, syntax_error .invalid_group line)
  else
    match (copy str 1 (size_sub str.length 2)).bind fun inner => (str_trimmed inner).bind from_percent_encoding with
    | .error e => (p, .error e)
    | .ok group => if group = [] then (p, syntax_error .invalid_group line) else (p.create group, .ok group)

def parsing_value (value : Bytes) (line : ℕ) : Except (fault ini_error) Bytes :=
  (string_at value 0).bind fun first =>
    if value.length = 1 then
      if first = assigning ∨ first = single_quotes ∨ first = double_quotes then syntax_error .invalid_value line
      else .ok value
    else if first = single_quotes ∨ first = double_quotes then
      (back value).bind fun last =>
        if last ≠ first then syntax_error .invalid_value line else substr value 1 (size_sub value.length 2)
    else .ok value

/-- The name and the value of a line. -/
def key_value (curr_group str : Bytes) (line : ℕ) : Except (fault ini_error) (Bytes × Bytes) :=
  if curr_group = [] then syntax_error .no_group_specified line
  else if str.length < 2 then syntax_error .invalid_key_value_line line
  else
    match find [assigning] str with
    | none => syntax_error .invalid_key_value_line line
    | some pos =>
      if pos = 0 then syntax_error .key_is_empty line
      else
        (substr str 0 pos).bind fun name => (str_trimmed name).bind fun name =>
        (from_percent_encoding name).bind fun key =>
          if key = [] then syntax_error .key_is_empty line
          else
            (substr str (pos + 1) str.length).bind fun text => (str_trimmed text).bind fun text =>
              (skip_assigning text).bind fun text => (parsing_value text line).bind fun text =>
                (from_percent_encoding text).map fun value => (key, value)

def parsing_key_value (p : impl) (curr_group str : Bytes) (line : ℕ) : impl × Except (fault ini_error) Unit :=
  match key_value curr_group str line with
  | .error e => (p, .error e)
  | .ok (key, value) => (p.store curr_group key value, .ok ())

def first_piece (buf : Bytes) (c : UInt8) : Except (fault ini_error) Bytes :=
  (from_string buf [c]).bind fun list => (list_front list).bind str_trimmed

def load_text (buf : Bytes) : Except (fault ini_error) (Option Bytes) :=
  (str_trimmed buf).bind fun buf =>
    if buf = [] then .ok none
    else
      (string_at buf 0).bind fun first =>
        if first = sharp ∨ first = semicolon then .ok none
        else (first_piece buf sharp).bind fun buf => (first_piece buf semicolon).map some

def load_line (p : impl) (curr_group buf : Bytes) (line : ℕ) : impl × Except (fault ini_error) Bytes :=
  match load_text buf with
  | .error e => (p, .error e)
  | .ok none => (p, .ok curr_group)
  | .ok (some buf) =>
    if buf.head? = some left_bracket then parsing_group p buf line
    else
      let r := parsing_key_value p curr_group buf line
      (r.1, r.2.map fun _ => curr_group)

/-- `load` with every access watched. The error that it catches is the one that is thrown on purpose. -/
def load (p : impl) (file : Option Bytes) (cancelled : ℕ → Bool) :
    impl × Except (fault ini_error) (Option ini_error) :=
  match file with
  | none => (p, .ok (some errc.no_such_file_or_directory))
  | some text =>
    match stream_run .thrown load_line cancelled (stream_start p text) with
    | (obj, .error (.thrown code)) => (obj, .ok (some code))
    | r => r

/-! ## What the watched accesses find -/

section

variable {E : Type}

theorem string_at_first (value : Bytes) : string_at (E := E) value 0 = .ok (value.head?.getD 0) := by
  cases value <;> rfl

theorem back_ok (s : Bytes) (c : UInt8) (h : s.getLast? = some c) : back (E := E) s = .ok c := by
  have hne : s ≠ [] := by rintro rfl; cases h
  unfold back view_at
  rw [if_neg hne, ← List.getLast?_eq_getElem?, h]

theorem copy_ok (s : Bytes) (pos n : ℕ) (h : pos + n ≤ s.length) : copy (E := E) s pos n = .ok ((s.drop pos).take n) :=
  if_neg (by omega)

theorem from_percent_encoding_ok (str : Bytes) :
    from_percent_encoding (E := E) str = .ok (Libgs.from_percent_encoding str) := by
  unfold from_percent_encoding
  rw [percent_coding.from_percent_buffer_eq]

theorem assigning_run_ok (value : Bytes) (n i : ℕ) (h : i + n ≤ value.length) :
    assigning_run (E := E) value n i =
      .ok (i + (((value.drop i).take n).takeWhile (· = assigning)).length) := by
  induction n generalizing i with
  | zero => simp [assigning_run]
  | succ n ih =>
    have hi : i < value.length := by omega
    have hget : value[i]? = some value[i] := List.getElem?_eq_getElem hi
    have hdrop : value.drop i = value[i] :: value.drop (i + 1) := List.drop_eq_getElem_cons hi
    unfold assigning_run string_at view_at
    rw [if_neg (by omega), hget, hdrop, List.take_succ_cons, List.takeWhile_cons]
    dsimp only [Except.bind]
    by_cases hc : value[i] = assigning
    · rw [if_neg (not_not.mpr hc), ih (i + 1) (by omega), if_pos (by simpa using hc), List.length_cons]
      congr 1
      omega
    · rw [if_pos hc, if_neg (by simpa using hc)]
      rfl

theorem skip_assigning_ok (value : Bytes) :
    skip_assigning (E := E) value = .ok (basic_ini.skip_assigning value) := by
  obtain ⟨-, hle⟩ := int_cast_le value.length
  unfold skip_assigning basic_ini.skip_assigning
  rw [assigning_run_ok value _ 0 (by omega)]
  dsimp only [Except.bind]
  rw [List.drop_zero, Nat.zero_add]
  split_ifs
  · rfl
  · exact substr_front _ _

end

/-! ## The line handling of a text that is not overlong -/

/-- What `load` throws, as it is thrown with the accesses watched. -/
def lift : thrown → fault ini_error
  | .system_error code => .thrown code
  | .no_element => .undefined

theorem size_sub_two (s : Bytes) (h : s.length < 2 ^ 31) (htwo : 2 ≤ s.length) :
    size_sub s.length 2 = s.length - 2 :=
  size_sub_of_le _ _ (h.trans (by decide)) htwo

theorem mapError_ok {α : Type} (a : α) : (Except.ok a).mapError lift = .ok a := rfl

theorem parsing_value_ok (value : Bytes) (line : ℕ) (h : value.length < 2 ^ 31) :
    parsing_value value line = (basic_ini.parsing_value value line).mapError lift := by
  unfold parsing_value basic_ini.parsing_value
  rw [string_at_first]
  dsimp only [Except.bind]
  cases value with
  | nil => rfl
  | cons c rest =>
    rw [List.head?_cons, Option.getD_some]
    simp only [Option.some.injEq]
    by_cases hone : (c :: rest).length = 1
    · rw [if_pos hone, if_pos hone]
      by_cases hsingle : c = assigning ∨ c = single_quotes ∨ c = double_quotes
      · rw [if_pos hsingle, if_pos hsingle]
        rfl
      · rw [if_neg hsingle, if_neg hsingle]
        rfl
    · rw [if_neg hone, if_neg hone]
      by_cases hquote : c = single_quotes ∨ c = double_quotes
      · obtain ⟨d, hd⟩ : ∃ d, (c :: rest).getLast? = some d := ⟨_, List.getLast?_eq_getLast_of_ne_nil (by simp)⟩
        have htwo : 2 ≤ (c :: rest).length := by
          rw [List.length_cons] at hone ⊢
          omega
        rw [if_pos hquote, if_pos hquote, back_ok _ d hd, hd]
        simp only [Option.some.injEq, ne_eq]
        by_cases hlast : d = c
        · rw [if_neg (not_not.mpr hlast), if_neg (not_not.mpr hlast), size_sub_two _ h htwo]
          exact if_neg (by omega)
        · rw [if_pos hlast, if_pos hlast]
          rfl
      · rw [if_neg hquote, if_neg hquote]
        rfl

theorem decoded_trimmed (text : Bytes) (h : text.length < 2 ^ 31) :
    (str_trimmed (E := ini_error) text).bind from_percent_encoding =
      .ok (Libgs.from_percent_encoding (Libgs.str_trimmed text)) := by
  rw [str_trimmed_short text h]
  exact from_percent_encoding_ok _

theorem parsing_group_ok (p : impl) (str : Bytes) (line : ℕ) (h : str.length < 2 ^ 31) :
    parsing_group p str line =
      ((basic_ini.parsing_group p str line).1, (basic_ini.parsing_group p str line).2.mapError lift) := by
  unfold parsing_group basic_ini.parsing_group
  by_cases hshape : str.length < 3 ∨ str.getLast? ≠ some right_bracket
  · rw [if_pos hshape, if_pos hshape]
    rfl
  · have hname : ((copy str 1 (size_sub str.length 2)).bind fun inner =>
        (str_trimmed inner).bind from_percent_encoding : Except (fault ini_error) Bytes) =
          .ok (Libgs.from_percent_encoding (Libgs.str_trimmed ((str.drop 1).take (str.length - 2)))) := by
      rw [size_sub_two _ h (by omega), copy_ok _ _ _ (by omega)]
      exact decoded_trimmed _ (by rw [List.length_take, List.length_drop]; omega)
    rw [if_neg hshape, if_neg hshape, hname]
    dsimp only
    split_ifs <;> rfl

theorem parsing_key_value_ok (p : impl) (curr_group str : Bytes) (line : ℕ) (h : str.length < 2 ^ 31) :
    parsing_key_value p curr_group str line =
      ((basic_ini.parsing_key_value p curr_group str line).1,
        (basic_ini.parsing_key_value p curr_group str line).2.mapError lift) := by
  unfold parsing_key_value key_value basic_ini.parsing_key_value
  by_cases hgroup : curr_group = []
  · rw [if_pos hgroup, if_pos hgroup]
    rfl
  rw [if_neg hgroup, if_neg hgroup]
  by_cases htwo : str.length < 2
  · rw [if_pos htwo, if_pos htwo]
    rfl
  rw [if_neg htwo, if_neg htwo]
  cases hpos : find [assigning] str with
  | none => rfl
  | some pos =>
    have hle := find_le [assigning] str pos hpos
    rw [List.length_singleton] at hle
    dsimp only
    by_cases hzero : pos = 0
    · rw [if_pos hzero, if_pos hzero]
      rfl
    have hname : (str.take pos).length < 2 ^ 31 := by
      rw [List.length_take]
      omega
    have htext : (str.drop (pos + 1)).length < 2 ^ 31 := by
      rw [List.length_drop]
      omega
    have hvalue : (basic_ini.skip_assigning (Libgs.str_trimmed (str.drop (pos + 1)))).length < 2 ^ 31 :=
      (((skip_assigning_start _).isInfix.trans (str_trimmed_within _)).length_le).trans_lt htext
    rw [if_neg hzero, if_neg hzero, substr_front, ok_bind, str_trimmed_short _ hname, ok_bind,
      from_percent_encoding_ok, ok_bind]
    by_cases hkey : Libgs.from_percent_encoding (Libgs.str_trimmed (str.take pos)) = []
    · rw [if_pos hkey, if_pos hkey]
      rfl
    rw [if_neg hkey, if_neg hkey, substr_back _ _ _ hle (by omega), ok_bind, str_trimmed_short _ htext, ok_bind,
      skip_assigning_ok, ok_bind, parsing_value_ok _ line hvalue]
    cases basic_ini.parsing_value (basic_ini.skip_assigning (Libgs.str_trimmed (str.drop (pos + 1)))) line with
    | error e => rfl
    | ok value =>
      dsimp only [Except.mapError]
      rw [ok_bind, from_percent_encoding_ok]
      rfl

theorem first_piece_ok (buf : Bytes) (c : UInt8) (h : buf.length < 2 ^ 31) :
    first_piece buf c = (basic_ini.first_piece buf c).mapError lift := by
  unfold first_piece basic_ini.first_piece
  rw [from_string_short buf [c] true h, ok_bind]
  cases hlist : Libgs.from_string buf [c] with
  | nil => rfl
  | cons piece more =>
    have hpiece := from_string_length buf [c] piece true (by rw [hlist]; exact List.mem_cons_self)
    rw [list_front, ok_bind, str_trimmed_short piece (hpiece.trans_lt h)]
    rfl

theorem first_piece_length (buf text : Bytes) (c : UInt8) (h : basic_ini.first_piece buf c = .ok text) :
    text.length ≤ buf.length := by
  unfold basic_ini.first_piece at h
  cases hlist : Libgs.from_string buf [c] with
  | nil =>
    rw [hlist] at h
    cases h
  | cons piece more =>
    rw [hlist] at h
    cases h
    have hpiece := from_string_length buf [c] piece true (by rw [hlist]; exact List.mem_cons_self)
    exact (str_trimmed_within piece).length_le.trans hpiece

theorem load_text_ok (buf : Bytes) (h : ¬ Overlong buf) :
    load_text buf = (basic_ini.load_text (counted buf)).mapError lift := by
  have hshort := str_trimmed_length buf h
  unfold load_text basic_ini.load_text
  rw [str_trimmed_ok buf h, ok_bind]
  dsimp only
  cases hb : Libgs.str_trimmed (counted buf) with
  | nil => rfl
  | cons c rest =>
    rw [hb] at hshort
    rw [if_neg (List.cons_ne_nil c rest), string_at_first, ok_bind, List.head?_cons, Option.getD_some]
    by_cases hcomment : c = sharp ∨ c = semicolon
    · rw [if_pos hcomment, if_pos (by simpa using hcomment)]
      rfl
    · rw [if_neg hcomment, if_neg (by simpa using hcomment), first_piece_ok _ _ hshort]
      cases hfirst : basic_ini.first_piece (c :: rest) sharp with
      | error e => rfl
      | ok text =>
        have htext := (first_piece_length _ _ _ hfirst).trans_lt hshort
        dsimp only [Except.mapError, Except.bind]
        rw [first_piece_ok _ _ htext]
        cases basic_ini.first_piece text semicolon <;> rfl

theorem stripped_length (line : Bytes) : (stripped line).length ≤ (Libgs.str_trimmed line).length := by
  have hcut : ∀ c text, (Libgs.str_trimmed (before c text)).length ≤ text.length := fun c text =>
    (str_trimmed_within _).length_le.trans (before_start c text).length_le
  exact (hcut _ _).trans (hcut _ _)

theorem load_line_ok (p : impl) (curr_group buf : Bytes) (line : ℕ) (h : ¬ Overlong buf) :
    load_line p curr_group buf line =
      ((basic_ini.load_line p curr_group (counted buf) line).1,
        (basic_ini.load_line p curr_group (counted buf) line).2.mapError lift) := by
  have hshort := (stripped_length (counted buf)).trans_lt (str_trimmed_length buf h)
  unfold load_line basic_ini.load_line
  rw [load_text_ok buf h, load_text_eq]
  by_cases hblank : stripped (counted buf) = []
  · rw [if_pos hblank]
    rfl
  · rw [if_neg hblank]
    rw [mapError_ok]
    dsimp only
    split_ifs
    · exact parsing_group_ok p _ line hshort
    · rw [parsing_key_value_ok p curr_group _ line hshort]
      cases (basic_ini.parsing_key_value p curr_group (stripped (counted buf)) line).2 <;> rfl

theorem load_line_overlong (p : impl) (curr_group buf : Bytes) (line : ℕ) (h : Overlong buf) :
    load_line p curr_group buf line = (p, .error .undefined) := by
  unfold load_line load_text
  rw [str_trimmed_overlong buf h]
  rfl

/-! ## The whole loop -/

/-- The states that the loop comes to. -/
inductive Reached (cancelled : ℕ → Bool) : stream_loop → stream_loop → Prop
  | start (s : stream_loop) : Reached cancelled s s
  | turn {s s' t : stream_loop} (hturn : stream_turn .thrown load_line cancelled s = .again s')
      (h : Reached cancelled s' t) : Reached cancelled s t

/-- No line that is taken up is overlong. -/
def Countable (cancelled : ℕ → Bool) (s : stream_loop) : Prop :=
  ∀ t buf file, Reached cancelled s t → Takes cancelled t buf file → ¬ Overlong buf

/-- Nothing but an error that is thrown on purpose ends the loop. -/
def InBounds (r : Except (fault ini_error) (Option ini_error)) : Prop :=
  (∃ error, r = .ok error) ∨ ∃ code, r = .error (.thrown code)

theorem takes_unique {cancelled : ℕ → Bool} {s : stream_loop} {buf buf' : Bytes} {file file' : ifstream}
    (h : Takes cancelled s buf file) (h' : Takes cancelled s buf' file') : buf = buf' := by
  have heq := h.2.2.2.symm.trans h'.2.2.2
  cases heq
  rfl

theorem countable_leave {cancelled : ℕ → Bool} {s : stream_loop}
    {r : impl × Except (fault ini_error) (Option ini_error)}
    (hturn : stream_turn .thrown load_line cancelled s = .leave r) :
    Countable cancelled s ↔ ∀ buf file, Takes cancelled s buf file → ¬ Overlong buf := by
  constructor
  · exact fun h buf file => h s buf file (.start s)
  · intro h t buf file hreached
    cases hreached with
    | start => exact h buf file
    | turn hturn' _ =>
      rw [hturn] at hturn'
      cases hturn'

theorem countable_again {cancelled : ℕ → Bool} {s s' : stream_loop}
    (hturn : stream_turn .thrown load_line cancelled s = .again s') :
    Countable cancelled s ↔ (∀ buf file, Takes cancelled s buf file → ¬ Overlong buf) ∧ Countable cancelled s' := by
  constructor
  · intro h
    exact ⟨fun buf file => h s buf file (.start s),
      fun t buf file hreached => h t buf file (.turn hturn hreached)⟩
  · rintro ⟨hfirst, hrest⟩ t buf file hreached
    cases hreached with
    | start => exact hfirst buf file
    | turn hturn' h =>
      rw [hturn] at hturn'
      cases hturn'
      exact hrest t buf file h

theorem run_in_bounds_iff (cancelled : ℕ → Bool) (s : stream_loop) :
    InBounds (stream_run .thrown load_line cancelled s).2 ↔ Countable cancelled s := by
  induction hn : s.file.rest.length using Nat.strong_induction_on generalizing s with
  | _ n ih =>
    by_cases htakes : ∃ buf file, Takes cancelled s buf file
    · obtain ⟨buf, file, htakes⟩ := htakes
      have honly : (∀ buf' file', Takes cancelled s buf' file' → ¬ Overlong buf') ↔ ¬ Overlong buf :=
        ⟨fun h => h buf file htakes, fun h buf' file' h' => takes_unique htakes h' ▸ h⟩
      have hturn := stream_turn_takes .thrown load_line htakes
      by_cases hlong : Overlong buf
      · rw [load_line_overlong _ _ _ _ hlong] at hturn
        rw [stream_run_leave _ _ hturn, countable_leave hturn, honly]
        refine iff_of_false ?_ fun h => h hlong
        rintro (⟨_, ⟨⟩⟩ | ⟨_, ⟨⟩⟩)
      · rw [load_line_ok _ _ _ _ hlong] at hturn
        have hend := load_line_end s.obj s.curr_group (counted buf) s.line
        cases hline : basic_ini.load_line s.obj s.curr_group (counted buf) s.line with
        | mk obj out =>
          rw [hline] at hturn hend
          cases out with
          | error e =>
            cases hend with
            | error code =>
              rw [stream_run_leave _ _ hturn, countable_leave hturn, honly]
              exact iff_of_true (.inr ⟨code, rfl⟩) hlong
          | ok group =>
            have hshorter := stream_turn_shorter .thrown load_line hturn
            rw [stream_run_again _ _ hturn, countable_again hturn, honly, ih _ (hn ▸ hshorter) _ rfl]
            exact (and_iff_right hlong).symm
    · have hnone : ∀ buf file, ¬ Takes cancelled s buf file := fun buf file h => htakes ⟨buf, file, h⟩
      have hturn := stream_turn_ends .thrown load_line hnone
      rw [stream_run_leave _ _ hturn, countable_leave hturn]
      refine iff_of_true ?_ fun buf file h => absurd h (hnone buf file)
      dsimp only
      split_ifs
      · exact .inl ⟨_, rfl⟩
      · exact .inr ⟨_, rfl⟩
      · exact .inl ⟨_, rfl⟩

theorem load_in_bounds (p : impl) (text : Bytes) (cancelled : ℕ → Bool) :
    (∃ error, (load p (some text) cancelled).2 = .ok error) ↔
      InBounds (stream_run .thrown load_line cancelled (stream_start p text)).2 := by
  unfold load InBounds
  dsimp only
  cases stream_run .thrown load_line cancelled (stream_start p text) with
  | mk obj r =>
    cases r with
    | ok error => simp
    | error f => cases f <;> simp

/-- **The bounds of the data.** `load` ends without leaving them, and without an exception that it does not catch, if
and only if no line that it takes up is overlong. -/
theorem load_in_bounds_iff (p : impl) (file : Option Bytes) (cancelled : ℕ → Bool) :
    (∃ error, (load p file cancelled).2 = .ok error) ↔
      ∀ text, file = some text → Countable cancelled (stream_start p text) := by
  cases file with
  | none => exact iff_of_true ⟨_, rfl⟩ fun text h => by cases h
  | some text =>
    rw [load_in_bounds, run_in_bounds_iff]
    exact ⟨fun h text' htext => by cases htext; exact h, fun h => h text rfl⟩

theorem one_line_out_of_bounds (p : impl) (text : Bytes) (hline : line_break ∉ text) (h : Overlong text) :
    ¬ ∃ error, (load p (some text) never).2 = .ok error := by
  have hne : text ≠ [] := by
    rintro rfl
    exact absurd h.1 (lt_irrefl 0)
  have hcut : cut [line_break] text = none := by
    rw [cut_eq_none, List.singleton_infix_iff]
    exact hline
  have hgetline : getline { rest := text } = .ok (text, ⟨[], true⟩) := by
    unfold getline
    rw [if_neg Bool.false_ne_true, hcut]
    exact if_neg hne
  rw [load_in_bounds, run_in_bounds_iff]
  exact fun hall => hall _ text _ (.start _) ⟨rfl, rfl, hne, hgetline⟩ h

/-- One character more than an `int` counts -/
def longFile : Bytes := List.replicate (2 ^ 31 + 1) 97

theorem longFile_overlong : Overlong longFile := by
  have hlength : longFile.length = 2 ^ 31 + 1 := List.length_replicate
  have hfront : longFile.takeWhile isBlank = [] := by
    unfold longFile
    rw [List.takeWhile_replicate]
    rfl
  refine ⟨?_, .inl ?_⟩
  · rw [hfront, hlength]
    exact Nat.succ_pos _
  · rw [hlength]
    decide

theorem longFile_leaves_bounds :
    ¬ ∀ (p : impl) (file : Option Bytes) (cancelled : ℕ → Bool), ∃ error, (load p file cancelled).2 = .ok error := by
  intro hall
  have hline : line_break ∉ longFile := fun h => absurd (List.eq_of_mem_replicate h) (by decide)
  exact one_line_out_of_bounds {} longFile hline longFile_overlong (hall {} (some longFile) never)

/-! ## The texts that an `int` counts -/

theorem run_short (cancelled : ℕ → Bool) (s : stream_loop) (h : s.file.rest.length < 2 ^ 31) :
    stream_run .thrown load_line cancelled s =
      ((stream_run .system_error basic_ini.load_line cancelled s).1,
        (stream_run .system_error basic_ini.load_line cancelled s).2.mapError lift) := by
  induction hn : s.file.rest.length using Nat.strong_induction_on generalizing s with
  | _ n ih =>
    by_cases htakes : ∃ buf file, Takes cancelled s buf file
    · obtain ⟨buf, file, htakes⟩ := htakes
      have hbuf : buf.length < 2 ^ 31 := htakes.length.1.trans_lt h
      have hturn := stream_turn_takes .thrown load_line htakes
      have hturn' := stream_turn_takes .system_error basic_ini.load_line htakes
      rw [load_line_ok _ _ _ _ (not_overlong buf hbuf), counted_self buf hbuf] at hturn
      cases hline : basic_ini.load_line s.obj s.curr_group buf s.line with
      | mk obj out =>
        rw [hline] at hturn hturn'
        cases out with
        | error e =>
          rw [stream_run_leave _ _ hturn, stream_run_leave _ _ hturn']
          rfl
        | ok group =>
          have hshorter := stream_turn_shorter .thrown load_line hturn
          rw [stream_run_again _ _ hturn, stream_run_again _ _ hturn']
          exact ih _ (hn ▸ hshorter) _ (hshorter.trans h) rfl
    · have hnone : ∀ buf file, ¬ Takes cancelled s buf file := fun buf file h => htakes ⟨buf, file, h⟩
      rw [stream_run_leave _ _ (stream_turn_ends .thrown load_line hnone),
        stream_run_leave _ _ (stream_turn_ends .system_error basic_ini.load_line hnone)]
      dsimp only
      split_ifs <;> rfl

end Libgs.checked
