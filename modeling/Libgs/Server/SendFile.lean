import Libgs.Server.Answers
import Libgs.Server.ContentRange

/-!
# Files as responses

`co_send_file` and `co_default_transfer` of `http/server/detail/response.h`. What `file_opt_token_helper` finds when it
opens the file is given.
-/

namespace Libgs.Server

open Lib Libgs.Http

section

variable (os : ℕ → write_outcome)

/-- The loop over the whole file. It leaves at an error, and where nothing is read any more. -/
def copy_file (s : sending) : sending :=
  if s.stream.eof then s
  else if (s.stream.read buf_size).1 = [] then { s with stream := (s.stream.read buf_size).2 }
  else
    let s' := { s with stream := (s.stream.read buf_size).2 }.write_body os (s.stream.read buf_size).1
    if s'.error ≠ none then s' else copy_file s'
termination_by s.stream.data.length - s.stream.pos
decreasing_by
  rename_i hne _
  have hpos := List.length_pos_of_ne_nil hne
  have hlen : (s.stream.read buf_size).1.length ≤ s.stream.data.length - s.stream.pos := by
    show ((s.stream.data.drop s.stream.pos).take buf_size).length ≤ _
    rw [List.length_take, List.length_drop]
    omega
  show s.stream.data.length - (s.stream.pos + (s.stream.read buf_size).1.length) < _
  omega

/-- An exception that is left is thrown by `header_data`; the function is `noexcept`, and the process ends there. -/
def co_default_transfer (r : response) (stream : fstream) (mtype : Bytes) (fsize : ℕ) : Except exception sending :=
  if fsize = 0 then .ok ⟨r, none, 0, stream, []⟩
  else
    let c := response.header_with response.co_base_write (r.set_header header.content_type mtype) fsize (os 0)
    match c.value with
    | .error e => .error e
    | .ok sum =>
      if c.error ≠ none then .ok ⟨c.obj, c.error, sum, stream, []⟩
      else .ok (copy_file os ⟨c.obj, c.error, sum, stream.seekg 0, []⟩)

end

/-! ## What is counted -/

theorem run_pass_helper (r : response) (bodies : List Bytes) :
    (run response.pass r bodies).m_helper.m_helper =
      helper_base.helper_run version.v11 r.m_helper.m_helper (bodies.map .body_data) := by
  induction bodies generalizing r with
  | nil => rfl
  | cons body bodies ih => exact ih (r.pass body)

theorem counted_finished_iff (r : response) (bodies : List Bytes) (hstate : r.pro_state = .content_length)
    (hne : bodies ≠ []) :
    (run response.pass r bodies).is_finished = true ↔ r.remaining ≤ bodies.flatten.length := by
  obtain ⟨-, hfinish, -⟩ := helper_base.run_counted version.v11 r.m_helper.m_helper (bodies.map .body_data) hstate
    (by simp)
  unfold response.is_finished response.pro_state
  rw [decide_eq_true_iff, run_pass_helper, hfinish]
  constructor
  · rintro ⟨done, buffer, more, hsplit, hle⟩
    rw [← given_bodies, hsplit]
    have : helper_base.given (done ++ .body_data buffer :: more) =
        helper_base.given done ++ (buffer ++ helper_base.given more) := by
      simp [helper_base.given, helper_base.helper_op.given]
    rw [this, List.length_append, List.length_append]
    exact hle.trans (by omega)
  · intro hle
    obtain ⟨front, last, rfl⟩ := (List.eq_nil_or_concat' bodies).resolve_left hne
    refine ⟨front.map .body_data, last, [], by simp, ?_⟩
    rw [given_bodies, ← List.length_append]
    simpa [response.remaining] using hle

/-! ## The whole file -/

theorem read_drop (s : fstream) (size : ℕ) :
    s.data.drop s.pos = (s.read size).1 ++ (s.read size).2.data.drop (s.read size).2.pos := by
  show _ = (s.data.drop s.pos).take size ++ s.data.drop (s.pos + ((s.data.drop s.pos).take size).length)
  rw [← List.drop_drop, List.length_take]
  rcases Nat.le_total size (s.data.drop s.pos).length with hle | hle
  · rw [min_eq_left hle, List.take_append_drop]
  · rw [min_eq_right hle, List.take_of_length_le hle, List.drop_length, List.append_nil]

/-- **The loop.** Whatever the writes come to, the blocks are the file from its place on; without an error they are all
of it. -/
theorem copy_file_spec (os : ℕ → write_outcome) (s : sending)
    (heof : s.stream.eof = true → s.stream.data.drop s.stream.pos = []) :
    (∃ more, (copy_file os s).obj = run response.pass s.obj more ∧ more.flatten <+: s.stream.data.drop s.stream.pos ∧
      ((copy_file os s).error = none → more.flatten = s.stream.data.drop s.stream.pos)) ∧
        ((∀ k, (os k).write = none) → s.error = none → (copy_file os s).error = none) := by
  fun_induction copy_file os s with
  | case1 s h => exact ⟨⟨[], rfl, List.nil_prefix, fun _ => (heof h).symm⟩, fun _ => id⟩
  | case2 s h hnothing =>
    have hrest : s.stream.data.drop s.stream.pos = [] := by
      have hblock : buf_size ≠ 0 := by decide
      simpa [fstream.read, hblock] using hnothing
    exact ⟨⟨[], rfl, List.nil_prefix, fun _ => hrest.symm⟩, fun _ => id⟩
  | case3 s h hsome s' herror =>
    refine ⟨⟨[(s.stream.read buf_size).1], rfl, ?_, fun hnone => absurd hnone herror⟩, fun hos _ => hos _⟩
    rw [List.flatten_singleton]
    exact List.take_prefix _ _
  | case4 s h hsome s' herror ih =>
    have hdrop := read_drop s.stream buf_size
    obtain ⟨⟨more, hobj, hprefix, hall⟩, hgood⟩ := ih fun hend => by
      replace hend : decide ((s.stream.read buf_size).1.length < buf_size) = true := hend
      have hshort := of_decide_eq_true hend
      show s.stream.data.drop (s.stream.pos + (s.stream.read buf_size).1.length) = []
      have hlen : (s.stream.read buf_size).1.length = min buf_size (s.stream.data.length - s.stream.pos) := by
        show ((s.stream.data.drop s.stream.pos).take buf_size).length = _
        rw [List.length_take, List.length_drop]
      exact List.drop_of_length_le (by omega)
    refine ⟨⟨(s.stream.read buf_size).1 :: more, hobj, ?_, fun hnone => ?_⟩, fun hos _ => hgood hos (hos _)⟩
    · rw [List.flatten_cons, hdrop]
      exact (List.prefix_append_right_inj _).mpr hprefix
    · rw [List.flatten_cons, hdrop, hall hnone]
      rfl

theorem Ready.header_data {r : response} (h : Ready r) (size : ℕ) :
    ∃ head helper, r.m_helper.header_data size = .ok (head, helper) ∧ helper.m_status = r.m_helper.m_status ∧
      helper.m_helper.m_state = .content_length ∧ helper.m_helper.m_content_length = size ∧
        helper.m_helper.m_headers.find header.content_length = some (digits 10 size) := by
  obtain ⟨line, hline⟩ := h.line
  have hfind : ∀ key, key_rank key ≠ key_rank string_pool.set_cookie →
      key_rank key ≠ key_rank (str_to_lower header.transfer_encoding) →
        r.m_helper.header_helper.m_headers.find key = r.m_helper.m_helper.m_headers.find key :=
    fun key hcookie hencoding => header_helper_find r.m_helper key hcookie hencoding
  have hcoding : r.m_helper.header_helper.m_headers.find header.transfer_encoding =
      r.m_helper.m_helper.m_headers.find header.transfer_encoding := by
    unfold response_helper.header_helper
    rw [if_neg (by simp [h.request])]
    exact OrderedMap.find_erase_ne _ _ _ (by decide)
  have hfields : r.m_helper.header_helper.header_data version.v11 size =
      .ok (helper_base.field_lines (r.m_helper.header_helper.declare_length size).m_headers,
        r.m_helper.header_helper.declare_length size) := by
    unfold helper_base.header_data
    rw [if_neg (not_not.mpr ((header_helper_state r.m_helper).1.trans h.state)), hfind _ (by decide) (by decide),
      h.length, hcoding]
    dsimp only
    cases htext : r.m_helper.m_helper.m_headers.find header.transfer_encoding with
    | none => simp only [ite_self]
    | some text => simp only [h.coding text htext, if_false, ite_self]
  rw [header_data_of_line r.m_helper size line h.state hline, hfields]
  exact ⟨_, _, rfl, rfl, rfl, rfl, OrderedMap.find_assign_self _ _ _ _ rfl⟩

theorem counted_end (r : response) (more : List Bytes) (n : ℕ) (hstate : r.pro_state = .content_length)
    (hcount : r.remaining = n) (hn : n ≠ 0) :
    (run response.pass r more).socket = r.socket ++ more.flatten.take n ∧
      ((run response.pass r more).is_finished = true ↔ n ≤ more.flatten.length) := by
  refine ⟨?_, ?_⟩
  · rw [counted_socket r more hstate, ← hcount]
    rfl
  · rcases eq_or_ne more [] with rfl | hne
    · have hopen : r.is_finished = false := by
        unfold response.is_finished
        rw [hstate]
        rfl
      simp [hopen, hn]
    · rw [counted_finished_iff r more hstate hne, hcount]

theorem co_default_transfer_given (os : ℕ → write_outcome) (r : response) (stream : fstream) (mtype : Bytes) (fsize : ℕ)
    (h : Ready r) (hsize : fsize ≠ 0) :
    ∃ s head helper more, co_default_transfer os r stream mtype fsize = .ok s ∧
      (r.set_header header.content_type mtype).m_helper.header_data fsize = .ok (head, helper) ∧
      helper.m_helper.m_state = .content_length ∧ helper.m_helper.m_content_length = fsize ∧
      helper.m_helper.m_headers.find header.content_length = some (digits 10 fsize) ∧
      s.obj = run response.pass ⟨helper, r.socket ++ head⟩ more ∧ more.flatten <+: stream.data ∧
      (s.error = none → more.flatten = stream.data) ∧ ((∀ k, (os k).write = none) → s.error = none) := by
  obtain ⟨head, helper, hhead, -, hstate, hcount, htext⟩ := (h.set_content_type mtype).header_data fsize
  have hheader : response.header_with response.co_base_write (r.set_header header.content_type mtype) fsize (os 0) =
      ⟨⟨helper, r.socket ++ head⟩, (os 0).write, .ok (os 0).sent⟩ := by
    unfold response.header_with
    rw [hhead]
    rfl
  unfold co_default_transfer
  rw [if_neg hsize, hheader]
  dsimp only
  by_cases herror : (os 0).write = none
  · obtain ⟨⟨more, hobj, hprefix, hall⟩, hgood⟩ :=
      copy_file_spec os ⟨⟨helper, r.socket ++ head⟩, (os 0).write, (os 0).sent, stream.seekg 0, []⟩ nofun
    rw [if_neg (not_not.mpr herror)]
    exact ⟨_, head, helper, more, rfl, hhead, hstate, hcount, htext, hobj, hprefix, hall,
      fun hos => hgood hos herror⟩
  · rw [if_pos herror]
    exact ⟨_, head, helper, [], rfl, hhead, hstate, hcount, htext, rfl, List.nil_prefix,
      fun hnone => absurd hnone herror, fun hos => hos 0⟩

/-- **A file, whatever happens to it and to the writes.** The file was not empty, and the response is not begun and asks
for neither a length nor chunks (`Ready`). Behind a header that declares the size which the file had, the bytes that are
passed on are the first bytes of the file and never more than declared; without an error they are all of these, and the
response is finished just when they are as many as declared. -/
theorem file_sent_up_to (os : ℕ → write_outcome) (r : response) (stream : fstream) (mtype : Bytes) (fsize : ℕ)
    (h : Ready r) (hsize : fsize ≠ 0) :
    ∃ s head helper n, co_default_transfer os r stream mtype fsize = .ok s ∧
      (r.set_header header.content_type mtype).m_helper.header_data fsize = .ok (head, helper) ∧
      helper.m_helper.m_headers.find header.content_length = some (digits 10 fsize) ∧
      s.obj.socket = r.socket ++ (head ++ stream.data.take n) ∧ n ≤ min fsize stream.data.length ∧
      (s.error = none → n = min fsize stream.data.length) ∧ (s.obj.is_finished = true ↔ n = fsize) := by
  obtain ⟨s, head, helper, more, hs, hhead, hstate, hcount, htext, hobj, hprefix, hall, -⟩ :=
    co_default_transfer_given os r stream mtype fsize h hsize
  obtain ⟨hsocket, hfinished⟩ := counted_end ⟨helper, r.socket ++ head⟩ more fsize hstate hcount hsize
  have hle := hprefix.length_le
  refine ⟨s, head, helper, min fsize more.flatten.length, hs, hhead, htext, ?_, by omega,
    fun hnone => by rw [hall hnone], ?_⟩
  · rw [hobj, hsocket, List.append_assoc, ← List.take_take, ← List.prefix_iff_eq_take.mp hprefix]
  · rw [hobj, hfinished]
    omega

theorem range_response_ready : Ready range_response :=
  ⟨rfl, ⟨_, rfl⟩, rfl, rfl, fun text htext => by cases htext⟩

theorem file_sent_up_to_small :
    ∃ s head helper n, co_default_transfer all_sent range_response small_file (ascii "text/plain") 12 = .ok s ∧
      (range_response.set_header header.content_type (ascii "text/plain")).m_helper.header_data 12 =
        .ok (head, helper) ∧
      helper.m_helper.m_headers.find header.content_length = some (digits 10 12) ∧
      s.obj.socket = range_response.socket ++ (head ++ small_file.data.take n) ∧ n ≤ min 12 small_file.data.length ∧
      (s.error = none → n = min 12 small_file.data.length) ∧ (s.obj.is_finished = true ↔ n = 12) :=
  file_sent_up_to all_sent range_response small_file (ascii "text/plain") 12 range_response_ready (by decide)

/-! ## Every way of a file -/

end Libgs.Server
