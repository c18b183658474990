import Libgs.Ini.Escapes

/-!
# What a failed load leaves behind

The lines in front of the failure are in the store, and nothing else is.
-/

namespace Libgs.basic_ini

open Lib ini_keyword_char

/-! ## Where the loop stops -/

theorem turns_line (cancelled : ℕ → Bool) (ls : List Bytes) (s s' : load_loop)
    (h : turns (load_turn cancelled) ls s = some s') : s'.line = s.line + ls.length := by
  induction ls generalizing s with
  | nil =>
    cases h
    rfl
  | cons l ls ih =>
    obtain ⟨t, hturn, hrest⟩ := turns_cons h
    obtain ⟨-, obj, group, -, rfl⟩ := load_turn_again cancelled l s t hturn
    have := ih _ hrest
    simp only [List.length_cons] at this ⊢
    omega

theorem turns_never (cancelled : ℕ → Bool) (ls : List Bytes) (s s' : load_loop)
    (h : turns (load_turn cancelled) ls s = some s') : turns (load_turn never) ls s = some s' := by
  induction ls generalizing s with
  | nil => exact h
  | cons l ls ih =>
    obtain ⟨t, hturn, hrest⟩ := turns_cons h
    obtain ⟨-, obj, group, hline, rfl⟩ := load_turn_again cancelled l s t hturn
    rw [turns_again _ _ _ _ _ (load_turn_of_ok never l s obj group rfl hline)]
    exact ih _ hrest

theorem load_turn_stops (cancelled : ℕ → Bool) (l : Bytes) (s : load_loop) (r : load_end)
    (h : load_turn cancelled l s = .leave r) :
    (cancelled s.line = true ∧ r = ⟨s.obj, .ok (some errc.operation_aborted)⟩) ∨
      load_turn never l s = .leave r ∧ r.obj = s.obj := by
  have hobj := load_turn_leave cancelled l s r h
  unfold load_turn at h ⊢
  by_cases hcancelled : cancelled s.line = true
  · rw [if_pos hcancelled] at h
    cases h
    exact .inl ⟨hcancelled, rfl⟩
  · rw [if_neg hcancelled] at h
    exact .inr ⟨h, hobj⟩

/-! ## The loads of the lines in front -/

def load_start (p : impl) (text : Bytes) : load_loop := ⟨p, [], 1, text⟩

theorem load_set (cancelled : ℕ → Bool) (p : impl) (text : Bytes) :
    load p (some text) cancelled =
      match lines loadBuffer [line_break] (load_turn cancelled) (loadBuffer.set (load_start p []) text) with
      | .leave r => r
      | .again s => load_tail cancelled s := rfl

theorem load_of_turns (p : impl) (ls : List Bytes) (s : load_loop) (hls : ∀ l ∈ ls, IsLine [line_break] l)
    (h : turns (load_turn never) ls (load_start p []) = some s) :
    load p (some (unlines [line_break] ls)) never = ⟨s.obj, .ok none⟩ := by
  have hrun := lines_unlines (load_turn_framed never) (by simp) ls (load_start p []) s [] hls h
  have hend : lines loadBuffer [line_break] (load_turn never) (loadBuffer.set s []) = .again (loadBuffer.set s []) :=
    lines_none _ (by rw [loadBuffer.get_set]; rfl)
  rw [load_set, ← List.append_nil (unlines [line_break] ls), hrun, hend]
  exact load_tail_done never (loadBuffer.set s []) rfl

theorem load_turn_leave_moves (cancelled : ℕ → Bool) (l : Bytes) (s : load_loop) (r : load_end) (b : Bytes)
    (h : load_turn cancelled l s = .leave r) : load_turn cancelled l (loadBuffer.set s b) = .leave r := by
  rw [show loadBuffer.set s b = { s with file := b } from rfl]
  unfold load_turn at h ⊢
  dsimp only
  split_ifs at h ⊢ with hcancelled
  · exact h
  · cases hline : load_line s.obj s.curr_group l s.line with
    | mk obj out =>
      cases out with
      | error e => rwa [hline] at h
      | ok group => simp [hline] at h

theorem load_of_leave (p : impl) (ls : List Bytes) (l : Bytes) (s : load_loop) (r : load_end)
    (hls : ∀ k ∈ ls, IsLine [line_break] k) (hl : IsLine [line_break] l)
    (h : turns (load_turn never) ls (load_start p []) = some s) (hleave : load_turn never l s = .leave r) :
    load p (some (unlines [line_break] (ls ++ [l]))) never = r := by
  have hrun := lines_unlines_leave (load_turn_framed never) (by simp) ls (load_start p []) s l [] r hls hl h
    (load_turn_leave_moves never l s r [] hleave)
  have htext : unlines [line_break] (ls ++ [l]) = unlines [line_break] ls ++ (l ++ ([line_break] ++ [])) := by
    simp
  rw [load_set, htext, hrun]

/-! ## The failure -/

/-- The lines are the first ones of the text; the last line of a text may lack its line break. -/
def Begins (ls : List Bytes) (text : Bytes) : Prop :=
  (∀ l ∈ ls, IsLine [line_break] l) ∧ unlines [line_break] ls <+: text ++ [line_break]

/-- Why a load of the text ends with the error behind the lines `ls`: it is cancelled before the next line, the next
line fails, or there is no next line and no line break behind the last one. -/
inductive Stops (p : impl) (cancelled : ℕ → Bool) (text : Bytes) (ls : List Bytes) : ini_error → Prop
  | cancelled (h : cancelled (ls.length + 1) = true) : Stops p cancelled text ls errc.operation_aborted
  | line (l : Bytes) (code : ini_error) (hl : Begins (ls ++ [l]) text)
      (hfail : (load p (some (unlines [line_break] (ls ++ [l]))) never).result = .ok (some code)) :
      Stops p cancelled text ls code
  | unended (h : unlines [line_break] ls = text ++ [line_break]) : Stops p cancelled text ls errc.stream

theorem begins_of_unlines (ls done more : List Bytes) (rest : Bytes) (hls : ∀ l ∈ ls, IsLine [line_break] l)
    (h : ls = done ++ more) : Begins done (unlines [line_break] ls ++ rest) := by
  subst h
  refine ⟨fun l hl => hls l (List.mem_append_left _ hl), ?_⟩
  rw [unlines_append, List.append_assoc, List.append_assoc]
  exact List.prefix_append _ _

theorem begins_unended (ls : List Bytes) (rest : Bytes) (hls : ∀ l ∈ ls, IsLine [line_break] l)
    (hrest : ¬ [line_break] <:+: rest) :
    Begins (ls ++ [rest]) (unlines [line_break] ls ++ rest) ∧
      unlines [line_break] (ls ++ [rest]) = unlines [line_break] ls ++ rest ++ [line_break] := by
  have hline : IsLine [line_break] rest := by simpa [IsLine] using hrest
  have htext : unlines [line_break] (ls ++ [rest]) = unlines [line_break] ls ++ rest ++ [line_break] := by simp
  refine ⟨⟨List.forall_mem_append.mpr ⟨hls, List.forall_mem_singleton.mpr hline⟩, ?_⟩, htext⟩
  rw [htext]

theorem stops_of_leave (cancelled : ℕ → Bool) (p : impl) (text : Bytes) (ls : List Bytes) (l : Bytes) (s : load_loop)
    (r : load_end) (code : ini_error) (hbegins : Begins (ls ++ [l]) text)
    (h : turns (load_turn cancelled) ls (load_start p []) = some s) (hleave : load_turn cancelled l s = .leave r)
    (hcode : r.result = .ok (some code)) :
    Stops p cancelled text ls code ∧ load p (some (unlines [line_break] ls)) never = ⟨r.obj, .ok none⟩ := by
  obtain ⟨hls, hl⟩ := List.forall_mem_append.mp hbegins.1
  have hnever := turns_never cancelled ls _ s h
  have hload := load_of_turns p ls s hls hnever
  rcases load_turn_stops cancelled l s r hleave with ⟨hcancelled, rfl⟩ | ⟨hleave, hobj⟩
  · have hline := turns_line cancelled ls _ s h
    cases hcode
    refine ⟨.cancelled ?_, hload⟩
    rw [← hcancelled, hline]
    exact congrArg cancelled (Nat.add_comm _ _)
  · have hfail := load_of_leave p ls l s r hls (hl l List.mem_cons_self) hnever hleave
    refine ⟨.line l code hbegins (by rw [hfail, hcode]), ?_⟩
    rw [hobj, hload]

theorem stops_of_tail (cancelled : ℕ → Bool) (p : impl) (ls : List Bytes) (rest : Bytes) (s : load_loop)
    (code : ini_error) (hls : ∀ l ∈ ls, IsLine [line_break] l) (hrest : ¬ [line_break] <:+: rest)
    (h : turns (load_turn cancelled) ls (load_start p []) = some s)
    (hcode : (load_tail cancelled (loadBuffer.set s rest)).result = .ok (some code)) :
    ∃ done, Begins done (unlines [line_break] ls ++ rest) ∧
      Stops p cancelled (unlines [line_break] ls ++ rest) done code ∧
      load p (some (unlines [line_break] done)) never =
        ⟨(load_tail cancelled (loadBuffer.set s rest)).obj, .ok none⟩ := by
  have hline := turns_line cancelled ls _ s h
  have hload := load_of_turns p ls s hls (turns_never cancelled ls _ s h)
  by_cases hempty : rest = []
  · subst hempty
    have htail := load_tail_done cancelled (loadBuffer.set s []) rfl
    rw [htail] at hcode ⊢
    refine ⟨ls, begins_of_unlines ls ls [] [] hls (by simp), ?_, hload⟩
    by_cases hcancelled : cancelled s.line = true
    · have hcode : errc.operation_aborted = code := by simpa [loadBuffer, hcancelled] using hcode
      subst hcode
      refine .cancelled ?_
      rw [← hcancelled, hline]
      exact congrArg cancelled (Nat.add_comm _ _)
    · simp [loadBuffer, hcancelled] at hcode
  · obtain ⟨hbegins, htext⟩ := begins_unended ls rest hls hrest
    unfold load_tail at hcode ⊢
    rw [if_neg (show (loadBuffer.set s rest).file ≠ [] from hempty)] at hcode ⊢
    rw [show (loadBuffer.set s rest).file = rest from rfl] at hcode ⊢
    cases hturn : load_turn cancelled rest (loadBuffer.set s rest) with
    | leave r =>
      rw [hturn] at hcode
      have hleave : load_turn cancelled rest s = .leave r := by
        have := load_turn_leave_moves cancelled rest _ r s.file hturn
        rwa [loadBuffer.set_set] at this
      obtain ⟨hstops, hload⟩ := stops_of_leave cancelled p _ ls rest s r code hbegins h hleave hcode
      exact ⟨ls, begins_of_unlines ls ls [] rest hls (by simp), hstops, hload⟩
    | again t =>
      -- The last line is put in; the error comes behind it.
      rw [hturn] at hcode
      have hagain : load_turn cancelled rest s = .again (loadBuffer.set t s.file) := by
        have := (load_turn_framed cancelled).moves rest _ t s.file hturn
        rwa [loadBuffer.set_set, show loadBuffer.set s s.file = s from rfl] at this
      have hturns : turns (load_turn cancelled) (ls ++ [rest]) (load_start p []) = some (loadBuffer.set t s.file) := by
        rw [turns_append, h]
        exact turns_again _ _ _ _ _ hagain
      have hline := turns_line cancelled _ _ _ hturns
      have hload := load_of_turns p _ _ hbegins.1 (turns_never cancelled _ _ _ hturns)
      dsimp only at hcode ⊢
      refine ⟨ls ++ [rest], hbegins, ?_, ?_⟩
      · by_cases hcancelled : cancelled t.line = true
        · rw [if_pos hcancelled] at hcode
          cases hcode
          refine .cancelled ?_
          rw [← hcancelled, show t.line = _ from hline]
          exact congrArg cancelled (Nat.add_comm _ _)
        · rw [if_neg hcancelled] at hcode
          cases hcode
          exact .unended htext
      · rw [hload]
        split <;> rfl

/-- **A failed load.** When a load of a text reports an error, the store is what a load of the lines in front of the
failure makes of it, which does not fail. Without a file the store is not touched. -/
theorem load_failed (p : impl) (file : Option Bytes) (cancelled : ℕ → Bool) (code : ini_error)
    (h : (load p file cancelled).result = .ok (some code)) :
    (file = none ∧ (load p file cancelled).obj = p) ∨
      ∃ text ls, file = some text ∧ Begins ls text ∧ Stops p cancelled text ls code ∧
        load p (some (unlines [line_break] ls)) never = ⟨(load p file cancelled).obj, .ok none⟩ := by
  cases file with
  | none => exact .inl ⟨rfl, rfl⟩
  | some text =>
    refine .inr ⟨text, ?_⟩
    obtain ⟨ls, rest, rfl, hls, hrest⟩ := exists_unlines_append (List.cons_ne_nil line_break []) text
    rcases lines_unlines_cases (load_turn_framed cancelled) (by simp) ls (load_start p []) rest hls with
      ⟨s, hturns⟩ | ⟨done, l, more, s, r, hsplit, hturns, hleave, hlines⟩
    · have hrun : lines loadBuffer [line_break] (load_turn cancelled)
          (loadBuffer.set (load_start p []) (unlines [line_break] ls ++ rest)) = .again (loadBuffer.set s rest) :=
        lines_unlines_rest (load_turn_framed cancelled) (by simp) ls _ s rest hls hturns hrest
      rw [load_set, hrun] at h ⊢
      obtain ⟨done, hbegins, hstops, hload⟩ := stops_of_tail cancelled p ls rest s code hls hrest hturns h
      exact ⟨done, rfl, hbegins, hstops, hload⟩
    · rw [load_set, hlines] at h ⊢
      have hleave' : load_turn cancelled l s = .leave r := by
        have := load_turn_leave_moves cancelled l _ r s.file hleave
        rwa [loadBuffer.set_set] at this
      have hbegins : Begins (done ++ [l]) (unlines [line_break] ls ++ rest) :=
        begins_of_unlines ls _ more rest hls (by rw [hsplit]; simp)
      obtain ⟨hstops, hload⟩ := stops_of_leave cancelled p _ done l s r code hbegins hturns hleave' h
      exact ⟨done, rfl, begins_of_unlines ls done (l :: more) rest hls hsplit, hstops, hload⟩

/-- A group, and then a line that is no key -/
def brokenFile : Bytes := ascii "[a]\nx\n"

theorem brokenFile_fails :
    (load {} (some brokenFile) never).result = .ok (some ⟨.invalid_key_value_line, 2⟩) := by
  decide +kernel

theorem load_failed_broken :
    (some brokenFile = none ∧ (load {} (some brokenFile) never).obj = {}) ∨
      ∃ text ls, some brokenFile = some text ∧ Begins ls text ∧
        Stops {} never text ls ⟨.invalid_key_value_line, 2⟩ ∧
          load {} (some (unlines [line_break] ls)) never = ⟨(load {} (some brokenFile) never).obj, .ok none⟩ :=
  load_failed {} (some brokenFile) never _ brokenFile_fails

theorem failed_load_keeps_lines :
    ¬ ∀ (p : impl) (file : Option Bytes) (cancelled : ℕ → Bool) (code : ini_error),
      (load p file cancelled).result = .ok (some code) → (load p file cancelled).obj = p := by
  intro hall
  have hobj := hall {} (some brokenFile) never _ brokenFile_fails
  have hgroups : (load {} (some brokenFile) never).obj.m_groups.entries.map (·.1) = [ascii "a"] := by
    decide +kernel
  rw [hobj] at hgroups
  cases hgroups

end Libgs.basic_ini
