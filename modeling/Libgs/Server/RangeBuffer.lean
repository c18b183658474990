import Libgs.Server.Ranges

/-!
# The buffer of a ranged response

The local variable `buf` of `co_send_range` in `http/server/detail/response.h`, and where it is written to.
-/

namespace Libgs.Server

open Lib Libgs.Http

section

variable (os : ℕ → write_outcome)

/-- The indices at which the loop over one range writes to `buf`. A read writes what it gets, and with several ranges a
line end stands behind the last bytes. -/
def copy_indices (several : Bool) (s : sending) (total : ℕ) : List ℕ :=
  if s.stream.eof then []
  else if total ≤ buf_size then
    let size := (s.stream.read total).1.length
    if several ∧ size ≠ 0 then List.range size ++ [size + 0, size + 1] else List.range size
  else
    let got := (s.stream.read buf_size).1
    let s := { s with stream := (s.stream.read buf_size).2 }.write_body os got
    List.range got.length ++ if s.error ≠ none then [] else copy_indices several s (total - buf_size)
termination_by total
decreasing_by
  simp only [buf_size] at *
  omega

/-- The same for the loop over the ranges -/
def parts_indices (boundary ct_line : Bytes) : sending → List range_value → List ℕ
  | _, [] => []
  | s, value :: ranges =>
    let s := s.write_body os (part_head boundary ct_line value.cr_line)
    if s.error ≠ none then []
    else
      let s := { s with stream := s.stream.seekg value.begin }
      let s' := copy_range os true s value.total
      copy_indices os true s value.total ++ if s'.error ≠ none then [] else parts_indices boundary ct_line s' ranges

/-- The same for `co_send_range` -/
def send_indices (r : response) (stream : fstream) (boundary ct_line : Bytes) (ranges : List range_value) : List ℕ :=
  let c := response.header_with response.co_base_write r 0 (os 0)
  match c.value with
  | .error _ => []
  | .ok sum =>
    let s : sending := ⟨c.obj, c.error, sum, stream, []⟩
    if s.error ≠ none then []
    else
      match ranges with
      | [value] => copy_indices os false { s with stream := s.stream.seekg value.begin } value.total
      | _ => parts_indices os boundary ct_line s ranges

end

/-- No call writes behind the end of `buf`, whatever becomes of its writes to the socket. -/
def StaysInside (stream : fstream) (ranges : List range_value) : Prop :=
  ∀ os r boundary ct_line, ∀ i ∈ send_indices os r stream boundary ct_line ranges, i < buf_size

/-- The last block of the range leaves room for a line end. -/
def LeavesRoom (range : file_range) : Prop := range.total % buf_size ≠ 0 ∧ range.total % buf_size ≠ buf_size - 1

theorem buf_size_pos : 0 < buf_size := by decide

theorem sub_block (total : ℕ) (h : buf_size < total) : (total - buf_size) % buf_size = total % buf_size :=
  (Nat.mod_eq_sub_mod h.le).symm

theorem read_length_le (s : fstream) (size : ℕ) : (s.read size).1.length ≤ size := List.length_take_le _ _

/-! ## With room for the line end -/

theorem copy_indices_inside (os : ℕ → write_outcome) (several : Bool) (s : sending) (total : ℕ)
    (hroom : several = true → total % buf_size ≠ 0 ∧ total % buf_size ≠ buf_size - 1) (i : ℕ)
    (hi : i ∈ copy_indices os several s total) : i < buf_size := by
  induction total using Nat.strongRecOn generalizing s with
  | ind total ih =>
    unfold copy_indices at hi
    split at hi
    · cases hi
    · split at hi
      · rename_i hsmall
        have hlen := read_length_le s.stream total
        dsimp only at hi
        split at hi
        · rename_i hline
          obtain ⟨hzero, hlast⟩ := hroom hline.1
          have hne : total ≠ buf_size := by
            rintro rfl
            exact hzero (Nat.mod_self _)
          rw [Nat.mod_eq_of_lt (lt_of_le_of_ne hsmall hne)] at hlast
          rcases List.mem_append.mp hi with hi | hi
          · have := List.mem_range.mp hi
            omega
          · simp only [Nat.add_zero, List.mem_cons, List.not_mem_nil, or_false] at hi
            omega
        · exact lt_of_lt_of_le (List.mem_range.mp hi) (hlen.trans hsmall)
      · rename_i hlarge
        have hpos := buf_size_pos
        have hlen := read_length_le s.stream buf_size
        dsimp only at hi
        rcases List.mem_append.mp hi with hi | hi
        · exact lt_of_lt_of_le (List.mem_range.mp hi) hlen
        · split at hi
          · cases hi
          · refine ih (total - buf_size) (by omega) _ ?_ hi
            rw [sub_block total (Nat.lt_of_not_le hlarge)]
            exact hroom

theorem parts_indices_inside (os : ℕ → write_outcome) (boundary ct_line : Bytes) (s : sending)
    (ranges : List range_value) (h : ∀ range ∈ ranges, LeavesRoom range.tofile_range) (i : ℕ)
    (hi : i ∈ parts_indices os boundary ct_line s ranges) : i < buf_size := by
  induction ranges generalizing s with
  | nil => cases hi
  | cons range ranges ih =>
    obtain ⟨hroom, hranges⟩ := List.forall_mem_cons.mp h
    unfold parts_indices at hi
    dsimp only at hi
    split at hi
    · cases hi
    · rcases List.mem_append.mp hi with hi | hi
      · exact copy_indices_inside os true _ range.total (fun _ => hroom) i hi
      · split at hi
        · cases hi
        · exact ih _ hranges hi

/-! ## Without -/

theorem copy_indices_over {os : ℕ → write_outcome} (hos : ∀ k, (os k).write = none) (s : sending) (total : ℕ)
    (heof : s.stream.eof = false) (hpos : 0 < total) (hinside : s.stream.pos + total ≤ s.stream.data.length)
    (hroom : ¬ (total % buf_size ≠ 0 ∧ total % buf_size ≠ buf_size - 1)) :
    ∃ i ∈ copy_indices os true s total, buf_size ≤ i := by
  induction total using Nat.strongRecOn generalizing s with
  | ind total ih =>
    unfold copy_indices
    rw [if_neg (by simp [heof])]
    rcases Nat.lt_or_ge buf_size total with hlarge | hsmall
    · obtain ⟨-, hlen, hstream⟩ := read_inside s.stream buf_size (by omega)
      have hbuf := buf_size_pos
      rw [if_neg (Nat.not_le.mpr hlarge)]
      dsimp only
      have hnext : (({ s with stream := (s.stream.read buf_size).2 } : sending).write_body os
          (s.stream.read buf_size).1).stream = { s.stream with pos := s.stream.pos + buf_size, eof := false } := hstream
      have herror : (({ s with stream := (s.stream.read buf_size).2 } : sending).write_body os
          (s.stream.read buf_size).1).error = none := hos _
      rw [if_neg (not_not.mpr herror)]
      generalize ({ s with stream := (s.stream.read buf_size).2 } : sending).write_body os
        (s.stream.read buf_size).1 = s' at hnext
      obtain ⟨i, hi, hover⟩ := ih (total - buf_size) (by omega) s' (by rw [hnext]) (by omega)
        (by rw [hnext]; dsimp only; omega) (by rw [sub_block total hlarge]; exact hroom)
      exact ⟨i, List.mem_append_right _ hi, hover⟩
    · obtain ⟨-, hlen, -⟩ := read_inside s.stream total hinside
      rw [if_pos hsmall]
      dsimp only
      rw [hlen, if_pos ⟨rfl, by omega⟩]
      by_cases hfull : total = buf_size
      · exact ⟨total, by simp, hfull.ge⟩
      · have hmod : total % buf_size = total := Nat.mod_eq_of_lt (lt_of_le_of_ne hsmall hfull)
        rw [hmod] at hroom
        exact ⟨total + 1, by simp, by omega⟩

theorem parts_indices_over {os : ℕ → write_outcome} (hos : ∀ k, (os k).write = none) (boundary ct_line : Bytes)
    (s : sending) (ranges : List range_value)
    (h : ∀ range ∈ ranges, Accepted s.stream.data.length range.tofile_range)
    (hroom : ∃ range ∈ ranges, ¬ LeavesRoom range.tofile_range) :
    ∃ i ∈ parts_indices os boundary ct_line s ranges, buf_size ≤ i := by
  induction ranges generalizing s with
  | nil =>
    obtain ⟨range, hrange, -⟩ := hroom
    cases hrange
  | cons range ranges ih =>
    obtain ⟨⟨htotal, hinside⟩, hranges⟩ := List.forall_mem_cons.mp h
    have hhead : (s.write_body os (part_head boundary ct_line range.cr_line)).error = none := hos _
    have hstream : (s.write_body os (part_head boundary ct_line range.cr_line)).stream = s.stream := rfl
    unfold parts_indices
    dsimp only
    rw [if_neg (not_not.mpr hhead)]
    generalize s.write_body os (part_head boundary ct_line range.cr_line) = s' at hstream
    have hcopy := copy_range_sent hos true { s' with stream := s'.stream.seekg range.begin } range.total rfl htotal
      (by rw [hstream]; exact hinside)
    rw [if_neg (not_not.mpr hcopy.error)]
    by_cases hfirst : LeavesRoom range.tofile_range
    · have hrest : ∃ q ∈ ranges, ¬ LeavesRoom q.tofile_range := by
        obtain ⟨q, hq, hbad⟩ := hroom
        rcases List.mem_cons.mp hq with rfl | hq
        · exact absurd hfirst hbad
        · exact ⟨q, hq, hbad⟩
      have haccepted : ∀ q ∈ ranges, Accepted (copy_range os true { s' with stream := s'.stream.seekg range.begin }
          range.total).stream.data.length q.tofile_range := by
        rw [hcopy.file]
        show ∀ q ∈ ranges, Accepted s'.stream.data.length q.tofile_range
        rw [hstream]
        exact hranges
      obtain ⟨i, hi, hover⟩ := ih _ haccepted hrest
      exact ⟨i, List.mem_append_right _ hi, hover⟩
    · obtain ⟨i, hi, hover⟩ := copy_indices_over hos { s' with stream := s'.stream.seekg range.begin } range.total rfl
        htotal (by rw [hstream]; exact hinside) hfirst
      exact ⟨i, List.mem_append_left _ hi, hover⟩

/-! ## The whole call -/

theorem stays_inside_single (stream : fstream) (range : range_value) : StaysInside stream [range] := by
  intro os r boundary ct_line i hi
  unfold send_indices at hi
  dsimp only at hi
  split at hi
  · cases hi
  · split at hi
    · cases hi
    · exact copy_indices_inside os false _ range.total (fun h => by cases h) i hi

theorem send_indices_several (os : ℕ → write_outcome) (r : response) (stream : fstream) (boundary ct_line : Bytes)
    (ranges : List range_value) (hseveral : 2 ≤ ranges.length) (sum : ℕ)
    (hvalue : (response.header_with response.co_base_write r 0 (os 0)).value = .ok sum)
    (herror : (response.header_with response.co_base_write r 0 (os 0)).error = none) :
    send_indices os r stream boundary ct_line ranges = parts_indices os boundary ct_line
      ⟨(response.header_with response.co_base_write r 0 (os 0)).obj, none, sum, stream, []⟩ ranges := by
  unfold send_indices
  dsimp only
  rw [hvalue, herror]
  dsimp only
  rw [if_neg (not_not.mpr rfl)]
  split
  · rename_i value
    exact absurd hseveral (by simp)
  · rfl

theorem outside_of_no_room (stream : fstream) (ranges : List range_value)
    (h : ∀ range ∈ ranges, Accepted stream.data.length range.tofile_range) (hseveral : 2 ≤ ranges.length)
    (hroom : ∃ range ∈ ranges, ¬ LeavesRoom range.tofile_range) : ¬ StaysInside stream ranges := by
  intro hinside
  have hcall := send_indices_several all_sent range_response stream [] [] ranges hseveral 0 rfl rfl
  have hsent : ∀ k, (all_sent k).write = none := fun _ => rfl
  obtain ⟨i, hi, hover⟩ := parts_indices_over hsent [] []
    ⟨(response.header_with response.co_base_write range_response 0 (all_sent 0)).obj, none, 0, stream, []⟩ ranges h
    hroom
  rw [← hcall] at hi
  exact absurd (hinside all_sent range_response [] [] i hi) (Nat.not_lt.mpr hover)

/-- **The buffer.** For two ranges or more that are in the file, nothing is written behind the end of the buffer if and
only if the last block of every range leaves room for the line end. -/
theorem stays_inside_iff (stream : fstream) (ranges : List range_value)
    (h : ∀ range ∈ ranges, Accepted stream.data.length range.tofile_range) (hseveral : 2 ≤ ranges.length) :
    StaysInside stream ranges ↔ ∀ range ∈ ranges, LeavesRoom range.tofile_range := by
  constructor
  · intro hinside
    by_contra hroom
    push Not at hroom
    exact outside_of_no_room stream ranges h hseveral hroom hinside
  · intro hroom os r boundary ct_line i hi
    cases hvalue : (response.header_with response.co_base_write r 0 (os 0)).value with
    | error e =>
      unfold send_indices at hi
      dsimp only at hi
      rw [hvalue] at hi
      cases hi
    | ok sum =>
      by_cases herror : (response.header_with response.co_base_write r 0 (os 0)).error = none
      · rw [send_indices_several os r stream boundary ct_line ranges hseveral sum hvalue herror] at hi
        exact parts_indices_inside os boundary ct_line _ ranges hroom i hi
      · unfold send_indices at hi
        dsimp only at hi
        rw [hvalue] at hi
        dsimp only at hi
        rw [if_pos herror] at hi
        cases hi

theorem stays_inside_iff_two :
    StaysInside small_file two_ranges ↔ ∀ range ∈ two_ranges, LeavesRoom range.tofile_range :=
  stays_inside_iff small_file two_ranges two_ranges_accepted (by decide +kernel)

/-- A file of one block, three times: the line end of a full block is written behind the end of the buffer. -/
theorem line_end_outside :
    (∀ range ∈ whole_ranges buf_size, Accepted (zeros buf_size).data.length range.tofile_range) ∧
      2 ≤ (whole_ranges buf_size).length ∧ ¬ StaysInside (zeros buf_size) (whole_ranges buf_size) := by
  obtain ⟨value, hvalues, htotal, haccepted⟩ := whole_ranges_accepted buf_size buf_size_pos (by decide)
  have hall : ∀ range ∈ [value, value, value], Accepted (zeros buf_size).data.length range.tofile_range := by
    intro range hrange
    obtain rfl : range = value := by simpa using hrange
    exact haccepted
  have hroom : ¬ LeavesRoom value.tofile_range := by
    intro hroom
    exact hroom.1 (by rw [htotal, Nat.mod_self])
  have hseveral : 2 ≤ [value, value, value].length := Nat.le_succ 2
  rw [hvalues]
  exact ⟨hall, hseveral, outside_of_no_room _ _ hall hseveral ⟨value, List.mem_cons_self, hroom⟩⟩

end Libgs.Server
