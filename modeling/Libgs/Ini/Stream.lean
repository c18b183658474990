import Libgs.Ini.Failure

/-!
# The file as a stream

The loop of `load` over a `std::basic_ifstream` whose `failbit` throws.
-/

namespace Libgs.basic_ini

open Lib ini_keyword_char

/-! ## The stream -/

/-- What is left of the file, and the bit that a read at its end sets. A `failbit` is thrown when it is set. -/
structure ifstream where
  rest : Bytes
  eofbit : Bool := false

/-- On a stream that is not good this is a failure. On a good one the end of the file sets `eofbit` only. -/
def ifstream.peek (file : ifstream) : Except ini_error (Option UInt8 × ifstream) :=
  if file.eofbit then .error errc.stream
  else
    match file.rest with
    | [] => .ok (none, { file with eofbit := true })
    | c :: _ => .ok (some c, file)

/-- A line that the end of the file ends sets `eofbit`, and `failbit` where it has no character. -/
def getline (file : ifstream) : Except ini_error (Bytes × ifstream) :=
  if file.eofbit then .error errc.stream
  else
    match cut [line_break] file.rest with
    | some (buf, rest) => .ok (buf, { file with rest := rest })
    | none => if file.rest = [] then .error errc.stream else .ok (file.rest, ⟨[], true⟩)

theorem getline_some (file : ifstream) (heof : file.eofbit = false) (hrest : file.rest ≠ []) :
    ∃ buf file', getline file = .ok (buf, file') ∧ buf.length ≤ file.rest.length ∧
      file'.rest.length < file.rest.length := by
  unfold getline
  rw [heof, if_neg Bool.false_ne_true]
  cases hcut : cut [line_break] file.rest with
  | none => exact ⟨file.rest, ⟨[], true⟩, if_neg hrest, le_refl _, List.length_pos_iff.mpr hrest⟩
  | some lr =>
    obtain ⟨buf, rest⟩ := lr
    have hlen := congrArg List.length (cut_eq_some [line_break] file.rest buf rest (by simp) hcut).1
    simp only [List.length_append, List.length_singleton] at hlen
    exact ⟨buf, { file with rest := rest }, by rw [heof], by omega, by dsimp only; omega⟩

/-! ## The loop -/

/-- The loop of `load` with the state of its stream -/
structure stream_loop where
  obj : impl
  curr_group : Bytes
  line : ℕ
  file : ifstream

section

variable {E : Type} (io : ini_error → E) (handle : impl → Bytes → Bytes → ℕ → impl × Except E Bytes)
  (cancelled : ℕ → Bool)

/-- One turn. `io` is what a failure of the stream is thrown as, and `handle` is what is done with a line. -/
def stream_turn (s : stream_loop) : Turn stream_loop (impl × Except E (Option ini_error)) :=
  if cancelled s.line then .leave (s.obj, .ok (some errc.operation_aborted))
  else
    match s.file.peek with
    | .error code => .leave (s.obj, .error (io code))
    | .ok (none, _) => .leave (s.obj, .ok none)
    | .ok (some _, file) =>
      match getline file with
      | .error code => .leave (s.obj, .error (io code))
      | .ok (buf, file) =>
        match handle s.obj s.curr_group buf s.line with
        | (obj, .error e) => .leave (obj, .error e)
        | (obj, .ok group) => .again ⟨obj, group, s.line + 1, file⟩

/-- The turn takes up the line `buf`, behind which `file` is left. -/
def Takes (s : stream_loop) (buf : Bytes) (file : ifstream) : Prop :=
  cancelled s.line = false ∧ s.file.eofbit = false ∧ s.file.rest ≠ [] ∧ getline s.file = .ok (buf, file)

variable {cancelled}

theorem Takes.length {s : stream_loop} {buf : Bytes} {file : ifstream} (h : Takes cancelled s buf file) :
    buf.length ≤ s.file.rest.length ∧ file.rest.length < s.file.rest.length := by
  obtain ⟨-, heof, hrest, hline⟩ := h
  obtain ⟨buf', file', hline', hlength⟩ := getline_some s.file heof hrest
  rw [hline'] at hline
  cases hline
  exact hlength

theorem stream_turn_takes {s : stream_loop} {buf : Bytes} {file : ifstream} (h : Takes cancelled s buf file) :
    stream_turn io handle cancelled s =
      match handle s.obj s.curr_group buf s.line with
      | (obj, .error e) => .leave (obj, .error e)
      | (obj, .ok group) => .again ⟨obj, group, s.line + 1, file⟩ := by
  obtain ⟨hgo, heof, hrest, hline⟩ := h
  obtain ⟨c, rest, hrest⟩ := List.exists_cons_of_ne_nil hrest
  have hpeek : s.file.peek = .ok (some c, s.file) := by
    unfold ifstream.peek
    rw [heof, hrest]
    rfl
  unfold stream_turn
  rw [hgo, if_neg Bool.false_ne_true, hpeek]
  dsimp only
  rw [hline]

theorem stream_turn_ends {s : stream_loop} (h : ∀ buf file, ¬ Takes cancelled s buf file) :
    stream_turn io handle cancelled s =
      .leave (s.obj,
        if cancelled s.line then .ok (some errc.operation_aborted)
        else if s.file.eofbit then .error (io errc.stream) else .ok none) := by
  unfold stream_turn
  cases hgo : cancelled s.line with
  | true => rfl
  | false =>
    rw [if_neg Bool.false_ne_true, if_neg Bool.false_ne_true]
    unfold ifstream.peek
    cases heof : s.file.eofbit with
    | true => rfl
    | false =>
      rw [if_neg Bool.false_ne_true, if_neg Bool.false_ne_true]
      cases hrest : s.file.rest with
      | nil => rfl
      | cons c rest =>
        have hne : s.file.rest ≠ [] := by simp [hrest]
        obtain ⟨buf, file, hline, -, -⟩ := getline_some s.file heof hne
        exact absurd ⟨hgo, heof, hne, hline⟩ (h buf file)

theorem stream_turn_again {s s' : stream_loop} (h : stream_turn io handle cancelled s = .again s') :
    ∃ buf file obj group, Takes cancelled s buf file ∧ handle s.obj s.curr_group buf s.line = (obj, .ok group) ∧
      s' = ⟨obj, group, s.line + 1, file⟩ := by
  by_cases htakes : ∃ buf file, Takes cancelled s buf file
  · obtain ⟨buf, file, htakes⟩ := htakes
    rw [stream_turn_takes io handle htakes] at h
    cases hline : handle s.obj s.curr_group buf s.line with
    | mk obj out =>
      rw [hline] at h
      cases out with
      | error e => cases h
      | ok group =>
        cases h
        exact ⟨buf, file, obj, group, htakes, hline, rfl⟩
  · rw [stream_turn_ends io handle fun buf file ht => htakes ⟨buf, file, ht⟩] at h
    cases h

theorem stream_turn_shorter {s s' : stream_loop} (h : stream_turn io handle cancelled s = .again s') :
    s'.file.rest.length < s.file.rest.length := by
  obtain ⟨buf, file, obj, group, htakes, -, rfl⟩ := stream_turn_again io handle h
  exact htakes.length.2

variable (cancelled)

/-- The loop ends, since every turn takes a line off the file. -/
def stream_run (s : stream_loop) : impl × Except E (Option ini_error) :=
  match _ : stream_turn io handle cancelled s with
  | .leave r => r
  | .again s' => stream_run s'
termination_by s.file.rest.length
decreasing_by exact stream_turn_shorter io handle (by assumption)

variable {cancelled}

theorem stream_run_leave {s : stream_loop} {r : impl × Except E (Option ini_error)}
    (h : stream_turn io handle cancelled s = .leave r) : stream_run io handle cancelled s = r := by
  unfold stream_run
  split
  · rename_i r' hturn
    rw [h] at hturn
    cases hturn
    rfl
  · rename_i s' hturn
    rw [h] at hturn
    cases hturn

theorem stream_run_again {s s' : stream_loop} (h : stream_turn io handle cancelled s = .again s') :
    stream_run io handle cancelled s = stream_run io handle cancelled s' := by
  rw [stream_run]
  split
  · rename_i r hturn
    rw [h] at hturn
    cases hturn
  · rename_i t hturn
    rw [h] at hturn
    cases hturn
    rfl

/-- The loop on a file that has just been opened -/
def stream_start (p : impl) (text : Bytes) : stream_loop := ⟨p, [], 1, { rest := text }⟩

end

/-! ## The whole call -/

def load_result (r : impl × Except thrown (Option ini_error)) : load_end :=
  match r with
  | (obj, .ok error) => ⟨obj, .ok error⟩
  | (obj, .error e) => caught obj e

/-- `load` over the stream -/
def load_stream (p : impl) (file : Option Bytes) (cancelled : ℕ → Bool) : load_end :=
  match file with
  | none => ⟨p, .ok (some errc.no_such_file_or_directory)⟩
  | some text => load_result (stream_run .system_error load_line cancelled (stream_start p text))

/-- What `load` does from the state `s` on. -/
def load_rest (cancelled : ℕ → Bool) (s : load_loop) : load_end :=
  match lines loadBuffer [line_break] (load_turn cancelled) s with
  | .leave r => r
  | .again s => load_tail cancelled s

def load_loop.stream (s : load_loop) (eofbit : Bool) : stream_loop := ⟨s.obj, s.curr_group, s.line, s.file, eofbit⟩

section

variable (cancelled : ℕ → Bool)

theorem stream_line (s : load_loop) {buf rest : Bytes} {eofbit : Bool} (hrest : s.file ≠ [])
    (hline : getline { rest := s.file } = .ok (buf, ⟨rest, eofbit⟩)) :
    (∃ r, load_turn cancelled buf s = .leave r ∧
        load_result (stream_run .system_error load_line cancelled (s.stream false)) = r) ∨
      ∃ s', load_turn cancelled buf s = .again s' ∧
        stream_run .system_error load_line cancelled (s.stream false) =
          stream_run .system_error load_line cancelled ({ s' with file := rest }.stream eofbit) := by
  unfold load_turn
  cases hgo : cancelled s.line with
  | true =>
    have hnone : ∀ buf file, ¬ Takes cancelled (s.stream false) buf file :=
      fun buf file h => by simp [load_loop.stream, Takes, hgo] at h
    have hturn := stream_turn_ends .system_error load_line hnone
    refine .inl ⟨_, rfl, ?_⟩
    rw [stream_run_leave _ _ hturn]
    simp [load_loop.stream, hgo, load_result]
  | false =>
    have htakes : Takes cancelled (s.stream false) buf ⟨rest, eofbit⟩ := ⟨hgo, rfl, hrest, hline⟩
    have hturn := stream_turn_takes .system_error load_line htakes
    rw [if_neg Bool.false_ne_true]
    cases hload : load_line s.obj s.curr_group buf s.line with
    | mk obj out =>
      simp only [load_loop.stream, hload] at hturn
      cases out with
      | error e =>
        refine .inl ⟨_, rfl, ?_⟩
        rw [load_loop.stream, stream_run_leave _ _ hturn]
        rfl
      | ok group => exact .inr ⟨_, rfl, stream_run_again _ _ hturn⟩

theorem stream_run_eq (s : load_loop) :
    load_result (stream_run .system_error load_line cancelled (s.stream false)) = load_rest cancelled s := by
  induction hn : s.file.length using Nat.strong_induction_on generalizing s with
  | _ n ih =>
    unfold load_rest
    cases hcut : cut [line_break] s.file with
    | some lr =>
      obtain ⟨l, r⟩ := lr
      have hsplit := (cut_eq_some [line_break] s.file l r (by simp) hcut).1
      have hrest : s.file ≠ [] := by simp [hsplit]
      have hline : getline { rest := s.file } = .ok (l, ⟨r, false⟩) := by
        unfold getline
        rw [if_neg Bool.false_ne_true, hcut]
      rcases stream_line cancelled s hrest hline with ⟨out, hleave, hrun⟩ | ⟨s', hagain, hrun⟩
      · rw [lines_leave s l r out (by simp) hcut (load_turn_leave_moves cancelled l s out r hleave), hrun]
      · have hagain := (load_turn_framed cancelled).moves l s s' r hagain
        rw [lines_again (load_turn_framed cancelled) s _ l r (by simp) hcut hagain, hrun]
        refine ih r.length ?_ _ rfl
        rw [← hn, hsplit]
        simp only [List.length_append, List.length_singleton]
        omega
    | none =>
      rw [lines_none s hcut]
      dsimp only
      by_cases hempty : s.file = []
      · have hnone : ∀ buf file, ¬ Takes cancelled (s.stream false) buf file := fun buf file h => h.2.2.1 hempty
        have hturn := stream_turn_ends .system_error load_line hnone
        rw [load_tail_done cancelled s hempty, stream_run_leave _ _ hturn]
        by_cases hgo : cancelled s.line = true <;> simp [load_loop.stream, load_result, hgo]
      · have hline : getline { rest := s.file } = .ok (s.file, ⟨[], true⟩) := by
          unfold getline
          rw [if_neg Bool.false_ne_true, hcut]
          exact if_neg hempty
        unfold load_tail
        rw [if_neg hempty]
        rcases stream_line cancelled s hempty hline with ⟨out, hleave, hrun⟩ | ⟨s', hagain, hrun⟩
        · rw [hleave, hrun]
        · have hnone : ∀ buf file, ¬ Takes cancelled ({ s' with file := [] }.stream true) buf file :=
            fun buf file h => h.2.2.1 rfl
          have hturn := stream_turn_ends .system_error load_line hnone
          rw [hagain, hrun, stream_run_leave _ _ hturn]
          by_cases hgo : cancelled s'.line = true <;> simp [load_loop.stream, load_result, caught, hgo]

theorem load_stream_eq (p : impl) (file : Option Bytes) : load_stream p file cancelled = load p file cancelled := by
  cases file with
  | none => rfl
  | some text => exact stream_run_eq cancelled (load_start p text)

end

/-! ## The last line -/

theorem load_turn_leave_fails (cancelled : ℕ → Bool) (l : Bytes) (s : load_loop) (r : load_end)
    (h : load_turn cancelled l s = .leave r) : r.result ≠ .ok none := by
  unfold load_turn at h
  split_ifs at h
  · cases h
    simp
  · split at h
    · rename_i obj e hline
      cases h
      cases e <;> simp [caught]
    · cases h

theorem load_tail_accepts (cancelled : ℕ → Bool) (q : impl) (s : load_loop) :
    load_tail cancelled s = ⟨q, .ok none⟩ ↔ s.file = [] ∧ cancelled s.line = false ∧ q = s.obj := by
  unfold load_tail
  by_cases hempty : s.file = []
  · rw [if_pos hempty]
    by_cases hgo : cancelled s.line = true <;> simp [hempty, hgo, eq_comm]
  · rw [if_neg hempty]
    refine iff_of_false (fun h => ?_) fun h => hempty h.1
    split at h
    · rename_i r hleave
      exact load_turn_leave_fails cancelled s.file s r hleave (by rw [h])
    · split_ifs at h <;> cases h

theorem load_accepts (p q : impl) (ls : List Bytes) (rest : Bytes) (cancelled : ℕ → Bool)
    (hls : ∀ l ∈ ls, IsLine [line_break] l) (hrest : ¬ [line_break] <:+: rest) :
    load p (some (unlines [line_break] ls ++ rest)) cancelled = ⟨q, .ok none⟩ ↔
      rest = [] ∧ ∃ s, turns (load_turn cancelled) ls (load_start p []) = some s ∧
        cancelled s.line = false ∧ q = s.obj := by
  rw [load_set]
  rcases lines_unlines_cases (load_turn_framed cancelled) (by simp) ls (load_start p []) rest hls with
    ⟨s, hturns⟩ | ⟨done, l, more, s, r, rfl, hturns, hleave, hlines⟩
  · have hrun : lines loadBuffer [line_break] (load_turn cancelled)
        (loadBuffer.set (load_start p []) (unlines [line_break] ls ++ rest)) = .again (loadBuffer.set s rest) :=
      lines_unlines_rest (load_turn_framed cancelled) (by simp) ls _ s rest hls hturns hrest
    rw [hrun, load_tail_accepts, hturns]
    constructor
    · rintro ⟨hfile, hgo, hobj⟩
      exact ⟨hfile, s, rfl, hgo, hobj⟩
    · rintro ⟨hfile, _, ⟨⟩, hgo, hobj⟩
      exact ⟨hfile, hgo, hobj⟩
  · rw [hlines]
    refine iff_of_false (fun h => load_turn_leave_fails cancelled l _ r hleave (congrArg load_end.result h)) ?_
    rintro ⟨-, t, hall, -⟩
    rw [turns_append, hturns] at hall
    obtain ⟨u, hagain, -⟩ := turns_cons hall
    have hmoved := (load_turn_framed cancelled).moves l s u (unlines [line_break] more ++ rest) hagain
    rw [hleave] at hmoved
    cases hmoved

theorem ended_iff (ls : List Bytes) (rest : Bytes) (hrest : ¬ [line_break] <:+: rest) :
    (unlines [line_break] ls ++ rest = [] ∨ (unlines [line_break] ls ++ rest).getLast? = some line_break) ↔
      rest = [] := by
  constructor
  · rintro (hnil | hlast)
    · exact (List.append_eq_nil_iff.mp hnil).2
    · by_contra hne
      rw [List.getLast?_append_of_ne_nil _ hne] at hlast
      exact hrest ((List.singleton_infix_iff line_break rest).mpr (List.mem_of_getLast? hlast))
  · rintro rfl
    rcases List.eq_nil_or_concat' ls with rfl | ⟨front, l, rfl⟩
    · exact .inl rfl
    · exact .inr (by simp)

/-- **Where the last line break is missing.** Of a text that is accepted with one more line break the load is the same
without it if and only if nothing stands behind the last line break that is left. -/
theorem final_newline_iff (p q : impl) (text : Bytes) (cancelled : ℕ → Bool)
    (h : load_stream p (some (text ++ [line_break])) cancelled = ⟨q, .ok none⟩) :
    load_stream p (some text) cancelled = ⟨q, .ok none⟩ ↔ text = [] ∨ text.getLast? = some line_break := by
  rw [load_stream_eq] at h ⊢
  obtain ⟨ls, rest, rfl, hls, hrest⟩ := exists_unlines_append (List.cons_ne_nil line_break []) text
  have hline : IsLine [line_break] rest := by simpa [IsLine] using hrest
  have htext : unlines [line_break] ls ++ rest ++ [line_break] = unlines [line_break] (ls ++ [rest]) ++ [] := by simp
  rw [htext, load_accepts p q _ [] cancelled (List.forall_mem_append.mpr ⟨hls, List.forall_mem_singleton.mpr hline⟩)
    (by simp)] at h
  obtain ⟨-, t, hturns, -, rfl⟩ := h
  rw [turns_append] at hturns
  obtain ⟨s, hfront, hlast⟩ := Option.bind_eq_some_iff.mp hturns
  obtain ⟨u, hagain, hu⟩ := turns_cons hlast
  cases hu
  rw [load_accepts p _ ls rest cancelled hls hrest]
  rw [ended_iff ls rest hrest]
  constructor
  · rintro ⟨hempty, -⟩
    exact hempty
  · rintro rfl
    obtain ⟨hgo, obj, group, hblank, rfl⟩ := load_turn_again cancelled [] s _ hagain
    rw [show load_line s.obj s.curr_group [] s.line = (s.obj, .ok s.curr_group) from rfl] at hblank
    cases hblank
    exact ⟨rfl, s, hfront, hgo, rfl⟩

def unendedFile : Bytes := ascii "[a]\nk=1"

theorem final_newline_unended :
    load_stream {} (some unendedFile) never =
        ⟨({} : impl).store (ascii "a") (ascii "k") (ascii "1"), .ok none⟩ ↔
      unendedFile = [] ∨ unendedFile.getLast? = some line_break :=
  final_newline_iff {} _ unendedFile never (by rw [load_stream_eq]; rfl)

theorem unended_fails :
    ¬ ∀ (p q : impl) (text : Bytes) (cancelled : ℕ → Bool),
      load_stream p (some (text ++ [line_break])) cancelled = ⟨q, .ok none⟩ →
        load_stream p (some text) cancelled = ⟨q, .ok none⟩ := by
  intro hall
  have hload := hall {} (({} : impl).store (ascii "a") (ascii "k") (ascii "1")) unendedFile never
    (by rw [load_stream_eq]; rfl)
  rw [load_stream_eq] at hload
  exact absurd (congrArg load_end.result hload) (by decide +kernel)

end Libgs.basic_ini
