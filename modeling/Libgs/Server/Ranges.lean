import Libgs.Http.ContentLength
import Libgs.Server.Response

/-!
# Ranges of a file

`co_range_transfer` and `co_send_range` of `http/server/detail/response.h`, and the bytes of the body that they pass to
the socket. The local buffer is taken as large enough, and the boundary is given.
-/

namespace Libgs.Server

open Lib Libgs.Http

/-! ## The file -/

/-- A file that is read, and the state of its stream -/
structure fstream where
  data : Bytes
  pos : ℕ
  eof : Bool

namespace fstream

def seekg (s : fstream) (pos : ℕ) : fstream := { s with pos := pos, eof := false }

/-- `read` and `gcount`. What is behind the end of the file is not read, and `eof` tells so. -/
def read (s : fstream) (size : ℕ) : Bytes × fstream :=
  let got := (s.data.drop s.pos).take size
  (got, { s with pos := s.pos + got.length, eof := decide (got.length < size) })

end fstream

/-- A range of the caller -/
structure file_range where
  begin : ℕ
  total : ℕ

structure range_value extends file_range where
  «end» : ℕ
  cr_line : Bytes

def content_range_line (first last file_size : ℕ) : Bytes :=
  header.content_range ++ ascii ": bytes " ++ digits 10 first ++ ascii "-" ++ digits 10 last ++ ascii "/" ++
    digits 10 file_size

/-- The ranges before the first one that is not in the file, and an error if there is one. -/
def from_file_range (file_size : ℕ) : List file_range → List range_value × error_code
  | [] => ([], none)
  | range :: ranges =>
    let last := (range.begin + range.total + size_max - 1) % size_max
    if range.total = 0 ∨ file_size ≤ last then ([], some errc.invalid_seek)
    else
      let value := { range with «end» := last, cr_line := content_range_line range.begin last file_size }
      (value :: (from_file_range file_size ranges).1, (from_file_range file_size ranges).2)

/-! ## Sending -/

namespace response

def set_status (r : response) (status : status_t) : response :=
  { r with m_helper := { r.m_helper with m_status := status } }

def set_header (r : response) (key value : Bytes) : response :=
  { r with m_helper := { r.m_helper with m_helper := r.m_helper.m_helper.set_header key value } }

end response

/-- The variables of `co_send_range`. `bodies` are the buffers that were given to `co_write_body`; the header was the
first write. -/
structure sending where
  obj : response
  error : error_code
  sum : ℕ
  stream : fstream
  bodies : List Bytes

def buf_size : ℕ := 0xFFFF

section

variable (os : ℕ → write_outcome)

def sending.write_body (s : sending) (body : Bytes) : sending :=
  let c := response.body_with response.co_base_write s.obj body (os (s.bodies.length + 1))
  { s with
    obj := c.obj
    error := c.error
    sum := s.sum + c.value.toOption.getD 0
    bodies := s.bodies ++ [body] }

/-- The loop over one range. With several ranges, a line end follows the last bytes of each, and nothing is sent when
there are none. -/
def copy_range (several : Bool) (s : sending) (total : ℕ) : sending :=
  if s.stream.eof then s
  else if total ≤ buf_size then
    let got := (s.stream.read total).1
    let s := { s with stream := (s.stream.read total).2 }
    if several ∧ got = [] then s else s.write_body os (if several then got ++ crlf else got)
  else
    let got := (s.stream.read buf_size).1
    let s := { s with stream := (s.stream.read buf_size).2 }.write_body os got
    if s.error ≠ none then s else copy_range several s (total - buf_size)
termination_by total
decreasing_by
  simp only [buf_size] at *
  omega

def part_head (boundary ct_line cr_line : Bytes) : Bytes :=
  ascii "--" ++ boundary ++ crlf ++ ct_line ++ crlf ++ cr_line ++ crlf ++ crlf

def last_boundary (boundary : Bytes) : Bytes := ascii "--" ++ boundary ++ ascii "--" ++ crlf

/-- The loop over several ranges -/
def send_parts (boundary ct_line : Bytes) : sending → List range_value → sending
  | s, [] => s.write_body os (last_boundary boundary)
  | s, value :: ranges =>
    let s := s.write_body os (part_head boundary ct_line value.cr_line)
    if s.error ≠ none then s
    else
      let s := copy_range os true { s with stream := s.stream.seekg value.begin } value.total
      if s.error ≠ none then s else send_parts boundary ct_line s ranges

/-- It is asserted that there is a range. An exception that is left is thrown by `header_data`; the function is
`noexcept`, and the process ends there. -/
def co_send_range (r : response) (stream : fstream) (boundary ct_line : Bytes) (ranges : List range_value) :
    Except exception sending :=
  let c := response.header_with response.co_base_write r 0 (os 0)
  match c.value with
  | .error e => .error e
  | .ok sum =>
    let s : sending := ⟨c.obj, c.error, sum, stream, []⟩
    if s.error ≠ none then .ok s
    else
      match ranges with
      | [value] => .ok (copy_range os false { s with stream := s.stream.seekg value.begin } value.total)
      | _ => .ok (send_parts os boundary ct_line s ranges)

end

/-! ## The header of a ranged response -/

def ct_line (mtype : Bytes) : Bytes := header.content_type ++ ascii ": " ++ mtype

def part_length (boundary ct_line : Bytes) (range : range_value) : ℕ :=
  2 + boundary.length + 2 + (ct_line.length + 2) + (range.cr_line.length + 2) + 2 + (range.total + 2)

/-- The lengths are added up as values of type `size_t`. -/
def multipart_length (boundary ct_line : Bytes) (ranges : List range_value) : ℕ :=
  ((ranges.map (part_length boundary ct_line)).sum + (2 + boundary.length + 2 + 2)) % size_max

def single_headers (r : response) (range : range_value) (mtype : Bytes) : response :=
  ((((r.set_status 206).set_header header.accept_ranges (ascii "bytes")).set_header header.content_type
    mtype).set_header header.content_length (digits 10 range.total)).set_header header.content_range
      (digits 10 range.begin ++ ascii "-" ++ digits 10 range.end ++ ascii "/" ++ digits 10 range.total)

def multipart_headers (r : response) (boundary : Bytes) (ranges : List range_value) (mtype : Bytes) : response :=
  (((r.set_status 206).set_header header.content_type (ascii "multipart/byteranges; boundary=" ++ boundary)).set_header
    header.content_length (digits 10 (multipart_length boundary (ct_line mtype) ranges))).set_header
      header.accept_ranges (ascii "bytes")

def range_headers (r : response) (boundary : Bytes) (ranges : List range_value) (mtype : Bytes) : response :=
  match ranges with
  | [range] => single_headers r range mtype
  | _ => multipart_headers r boundary ranges mtype

def co_range_transfer (os : ℕ → write_outcome) (r : response) (stream : fstream) (boundary : Bytes)
    (ranges : List range_value) (mtype : Bytes) : Except exception sending :=
  match ranges with
  | [_] => co_send_range os (range_headers r boundary ranges mtype) stream [] [] ranges
  | _ => co_send_range os (range_headers r boundary ranges mtype) stream boundary (ct_line mtype) ranges

/-! ## What a ranged response carries -/

/-- A range of at least one byte that is in the file -/
structure Accepted (file_size : ℕ) (range : file_range) : Prop where
  total : 0 < range.total
  inside : range.begin + range.total ≤ file_size

theorem from_file_range_accepted (file_size : ℕ) (ranges : List file_range) (hsize : file_size < size_max)
    (h : ∀ range ∈ ranges, Accepted file_size range) :
    from_file_range file_size ranges = (ranges.map fun range => { range with
      «end» := range.begin + range.total - 1
      cr_line := content_range_line range.begin (range.begin + range.total - 1) file_size }, none) := by
  induction ranges with
  | nil => rfl
  | cons range ranges ih =>
    obtain ⟨⟨htotal, hinside⟩, hranges⟩ := List.forall_mem_cons.mp h
    have hlast : (range.begin + range.total + size_max - 1) % size_max = range.begin + range.total - 1 := by
      rw [show range.begin + range.total + size_max - 1 = (range.begin + range.total - 1) + size_max by omega,
        Nat.add_mod_right]
      exact Nat.mod_eq_of_lt (by omega)
    unfold from_file_range
    dsimp only
    rw [hlast, if_neg (by omega), ih hranges]
    rfl

def file_part (file : Bytes) (range : file_range) : Bytes := (file.drop range.begin).take range.total

def part (file boundary ct_line : Bytes) (range : range_value) : Bytes :=
  part_head boundary ct_line range.cr_line ++ (file_part file range.tofile_range ++ crlf)

/-- The body of a ranged response: the one range, or a part for each range and the last boundary -/
def ranged_body (file boundary ct_line : Bytes) : List range_value → Bytes
  | [range] => file_part file range.tofile_range
  | ranges => (ranges.map (part file boundary ct_line)).flatten ++ last_boundary boundary

theorem ranged_body_several (file boundary ct_line : Bytes) (ranges : List range_value)
    (h : ∀ range, ranges = [range] → False) :
    ranged_body file boundary ct_line ranges =
      (ranges.map (part file boundary ct_line)).flatten ++ last_boundary boundary := by
  unfold ranged_body
  split
  · exact (h _ rfl).elim
  · rfl

theorem file_part_length (file : Bytes) (range : file_range) (h : Accepted file.length range) :
    (file_part file range).length = range.total := by
  unfold file_part
  rw [List.length_take, List.length_drop]
  have := h.inside
  omega

theorem part_length_spec (file boundary ct_line : Bytes) (range : range_value)
    (h : Accepted file.length range.tofile_range) :
    (part file boundary ct_line range).length = part_length boundary ct_line range := by
  have htwo : (ascii "--").length = 2 ∧ crlf.length = 2 := ⟨rfl, rfl⟩
  unfold part part_head part_length
  simp only [List.length_append, file_part_length file _ h, htwo]
  omega

theorem parts_length (file boundary ct_line : Bytes) (ranges : List range_value)
    (h : ∀ range ∈ ranges, Accepted file.length range.tofile_range) :
    ((ranges.map (part file boundary ct_line)).flatten ++ last_boundary boundary).length =
      (ranges.map (part_length boundary ct_line)).sum + (2 + boundary.length + 2 + 2) := by
  have hlast : (last_boundary boundary).length = 2 + boundary.length + 2 + 2 := by
    simp only [last_boundary, List.length_append]
    rfl
  rw [List.length_append, List.length_flatten, List.map_map, hlast]
  congr 2
  exact List.map_congr_left fun range hrange => part_length_spec file boundary ct_line range (h range hrange)

/-! ## The loops -/

/-- A body goes through `body_data` and on to the socket. -/
def response.pass (r : response) (body : Bytes) : response where
  m_helper := (r.m_helper.body_data body).2
  socket := r.socket ++ (r.m_helper.body_data body).1

/-- Between the two states `data` was given, in one buffer after another, and nothing has failed. -/
structure Sent (s s' : sending) (data : Bytes) : Prop where
  given : ∃ more, more.flatten = data ∧ s'.bodies = s.bodies ++ more ∧ s'.obj = run response.pass s.obj more
  error : s'.error = none
  file : s'.stream.data = s.stream.data

theorem Sent.trans {s s' s'' : sending} {data data' : Bytes} (h : Sent s s' data) (h' : Sent s' s'' data') :
    Sent s s'' (data ++ data') := by
  obtain ⟨⟨more, hmore, hbodies, hobj⟩, -, hfile⟩ := h
  obtain ⟨⟨more', hmore', hbodies', hobj'⟩, herror, hfile'⟩ := h'
  refine ⟨⟨more ++ more', ?_, ?_, ?_⟩, herror, hfile'.trans hfile⟩
  · rw [List.flatten_append, hmore, hmore']
  · rw [hbodies', hbodies, List.append_assoc]
  · rw [hobj', hobj, run_append]

section

variable {os : ℕ → write_outcome} (hos : ∀ k, (os k).write = none)

include hos

theorem write_body_sent (s : sending) (stream : fstream) (body : Bytes) (hfile : stream.data = s.stream.data) :
    Sent s ({ s with stream := stream }.write_body os body) body where
  given := ⟨[body], List.flatten_singleton, rfl, rfl⟩
  error := hos _
  file := hfile

omit hos in
theorem read_inside (s : fstream) (size : ℕ) (h : s.pos + size ≤ s.data.length) :
    (s.read size).1 = (s.data.drop s.pos).take size ∧ (s.read size).1.length = size ∧
      (s.read size).2 = { s with pos := s.pos + size, eof := false } := by
  have hlen : ((s.data.drop s.pos).take size).length = size := by
    rw [List.length_take, List.length_drop]
    omega
  refine ⟨rfl, hlen, ?_⟩
  unfold fstream.read
  simp only [hlen, lt_irrefl, decide_false]

omit hos in
theorem copy_range_last (several : Bool) (s : sending) (total : ℕ) (heof : s.stream.eof = false)
    (hsmall : total ≤ buf_size) (hgot : (s.stream.read total).1 ≠ []) :
    copy_range os several s total = { s with stream := (s.stream.read total).2 }.write_body os
      ((s.stream.read total).1 ++ if several then crlf else []) := by
  unfold copy_range
  rw [if_neg (by simp [heof]), if_pos hsmall]
  cases several with
  | true =>
    dsimp only
    rw [if_neg fun h => hgot h.2]
    rfl
  | false =>
    dsimp only
    rw [if_neg fun h => Bool.false_ne_true h.1, if_neg Bool.false_ne_true, if_neg Bool.false_ne_true, List.append_nil]

theorem copy_range_block (several : Bool) (s : sending) (total : ℕ) (heof : s.stream.eof = false)
    (hlarge : ¬ total ≤ buf_size) :
    copy_range os several s total = copy_range os several
      ({ s with stream := (s.stream.read buf_size).2 }.write_body os (s.stream.read buf_size).1)
      (total - buf_size) := by
  rw [copy_range, if_neg (by simp [heof]), if_neg hlarge]
  exact if_neg (not_not.mpr (hos _))

/-- **One range.** The blocks that are read are the bytes of the range, whatever its size is. -/
theorem copy_range_sent (several : Bool) (s : sending) (total : ℕ) (heof : s.stream.eof = false) (hpos : 0 < total)
    (hinside : s.stream.pos + total ≤ s.stream.data.length) :
    Sent s (copy_range os several s total)
      ((s.stream.data.drop s.stream.pos).take total ++ if several then crlf else []) := by
  induction total using Nat.strongRecOn generalizing s with
  | ind total ih =>
    rcases Nat.lt_or_ge buf_size total with hlarge | hsmall
    · obtain ⟨hgot, -, hstream⟩ := read_inside s.stream buf_size (by omega)
      have hblock : 0 < buf_size := by decide
      have hdata : (s.stream.data.drop s.stream.pos).take total =
          (s.stream.read buf_size).1 ++ (s.stream.data.drop (s.stream.pos + buf_size)).take (total - buf_size) := by
        rw [hgot, ← List.drop_drop, ← List.take_add, Nat.add_sub_cancel' (Nat.le_of_lt hlarge)]
      have hfirst := write_body_sent hos s (s.stream.read buf_size).2 (s.stream.read buf_size).1 rfl
      have hnext : (({ s with stream := (s.stream.read buf_size).2 } : sending).write_body os
          (s.stream.read buf_size).1).stream = { s.stream with pos := s.stream.pos + buf_size, eof := false } := hstream
      rw [copy_range_block hos several s total heof (Nat.not_le.mpr hlarge), hdata, List.append_assoc]
      generalize ({ s with stream := (s.stream.read buf_size).2 } : sending).write_body os
        (s.stream.read buf_size).1 = s' at hfirst hnext ⊢
      have hrest := ih (total - buf_size) (by omega) s' (by rw [hnext]) (by omega) (by rw [hnext]; dsimp only; omega)
      rw [hnext] at hrest
      exact hfirst.trans hrest
    · obtain ⟨hgot, hlen, -⟩ := read_inside s.stream total hinside
      have hne : (s.stream.read total).1 ≠ [] := List.ne_nil_of_length_pos (by omega)
      rw [copy_range_last several s total heof hsmall hne, ← hgot]
      exact write_body_sent hos s _ _ rfl

/-- **Several ranges.** Induction over the ranges that are left. -/
theorem send_parts_sent (boundary ct_line : Bytes) (s : sending) (ranges : List range_value)
    (h : ∀ range ∈ ranges, Accepted s.stream.data.length range.tofile_range) :
    Sent s (send_parts os boundary ct_line s ranges)
      ((ranges.map (part s.stream.data boundary ct_line)).flatten ++ last_boundary boundary) := by
  induction ranges generalizing s with
  | nil => exact write_body_sent hos s s.stream _ rfl
  | cons range ranges ih =>
    obtain ⟨⟨htotal, hinside⟩, hranges⟩ := List.forall_mem_cons.mp h
    have hhead := write_body_sent hos s s.stream (part_head boundary ct_line range.cr_line) rfl
    have hcopy := copy_range_sent hos true
      { s.write_body os (part_head boundary ct_line range.cr_line) with stream := s.stream.seekg range.begin }
      range.total rfl htotal hinside
    have hpart := hhead.trans ⟨hcopy.given, hcopy.error, hcopy.file⟩
    have hrest := ih _ (by rw [hpart.file]; exact hranges)
    rw [hpart.file] at hrest
    have hnext : send_parts os boundary ct_line s (range :: ranges) = send_parts os boundary ct_line (copy_range os true
        { s.write_body os (part_head boundary ct_line range.cr_line) with stream := s.stream.seekg range.begin }
        range.total) ranges := by
      rw [send_parts]
      exact (if_neg (not_not.mpr (hos _))).trans (if_neg (not_not.mpr hcopy.error))
    rw [hnext, List.map_cons, List.flatten_cons, List.append_assoc]
    exact hpart.trans hrest

theorem co_send_range_sent (r r' : response) (head : Bytes) (helper : response_helper) (stream : fstream)
    (boundary ct_line : Bytes) (ranges : List range_value)
    (h : ∀ range ∈ ranges, Accepted stream.data.length range.tofile_range)
    (hhead : r.m_helper.header_data 0 = .ok (head, helper)) (hr' : r' = ⟨helper, r.socket ++ head⟩) :
    ∃ s, co_send_range os r stream boundary ct_line ranges = .ok s ∧ s.error = none ∧
      s.bodies.flatten = ranged_body stream.data boundary ct_line ranges ∧
        s.obj = run response.pass r' s.bodies := by
  have hheader : response.header_with response.co_base_write r 0 (os 0) = ⟨r', none, .ok (os 0).sent⟩ := by
    unfold response.header_with
    rw [hhead, hr', ← hos 0]
    rfl
  have hbegin : ∀ s, Sent ⟨r', none, (os 0).sent, stream, []⟩ s (ranged_body stream.data boundary ct_line ranges) →
      s.error = none ∧ s.bodies.flatten = ranged_body stream.data boundary ct_line ranges ∧
        s.obj = run response.pass r' s.bodies := by
    rintro s ⟨⟨more, hmore, hbodies, hobj⟩, herror, -⟩
    obtain rfl : s.bodies = more := hbodies
    exact ⟨herror, hmore, hobj⟩
  unfold co_send_range
  rw [hheader]
  dsimp only
  rw [if_neg (not_not.mpr rfl)]
  split
  · rename_i range
    obtain ⟨htotal, hinside⟩ := List.forall_mem_singleton.mp h
    have hcopy := copy_range_sent hos false ⟨r', none, (os 0).sent, stream.seekg range.begin, []⟩ range.total rfl
      htotal hinside
    rw [if_neg Bool.false_ne_true, List.append_nil] at hcopy
    exact ⟨_, rfl, hbegin _ ⟨hcopy.given, hcopy.error, hcopy.file⟩⟩
  · rename_i hseveral
    have hparts := send_parts_sent hos boundary ct_line ⟨r', none, (os 0).sent, stream, []⟩ ranges h
    rw [← ranged_body_several stream.data boundary ct_line ranges hseveral] at hparts
    exact ⟨_, rfl, hbegin _ hparts⟩

end

/-! ## The count -/

theorem pass_socket (r : response) (bodies : List Bytes) :
    (run response.pass r bodies).socket = r.socket ++
      (helper_base.body_answers version.v11 r.m_helper.m_helper (bodies.map .body_data)).flatten := by
  induction bodies generalizing r with
  | nil => exact (List.append_nil _).symm
  | cons body bodies ih =>
    rw [run_cons, ih, List.map_cons, helper_base.body_answers_body _ _ _ _ rfl, List.flatten_cons, response.pass,
      List.append_assoc]
    rfl

theorem given_bodies (bodies : List Bytes) : helper_base.given (bodies.map .body_data) = bodies.flatten := by
  unfold helper_base.given
  rw [List.map_map]
  exact congrArg List.flatten (List.map_id bodies)

theorem counted_socket (r : response) (bodies : List Bytes) (hstate : r.pro_state = .content_length) :
    (run response.pass r bodies).socket =
      r.socket ++ bodies.flatten.take r.m_helper.m_helper.m_content_length := by
  obtain ⟨hout, -⟩ := helper_base.run_counted version.v11 r.m_helper.m_helper (bodies.map .body_data) hstate (by simp)
  rw [pass_socket, hout, given_bodies]

/-! ## The header -/

theorem header_helper_find (r : response_helper) (key : Bytes)
    (hcookie : key_rank key ≠ key_rank string_pool.set_cookie)
    (hencoding : key_rank key ≠ key_rank (str_to_lower header.transfer_encoding)) :
    r.header_helper.m_headers.find key = r.m_helper.m_headers.find key := by
  have herased := OrderedMap.find_erase_ne r.m_helper.m_headers string_pool.set_cookie key hcookie
  unfold response_helper.header_helper
  split
  · exact (OrderedMap.find_assign_ne _ _ _ _ hencoding).trans herased
  · exact herased

theorem header_data_length (r : response_helper) (line : Bytes) (n : ℕ) (hn : n < size_max)
    (hstate : r.m_helper.m_state = .header) (hline : r.status_line = .ok line)
    (hlength : r.m_helper.m_headers.find header.content_length = some (digits 10 n)) :
    ∃ head helper, r.header_data 0 = .ok (head, helper) ∧ helper.m_helper.m_state = .content_length ∧
      helper.m_helper.m_content_length = n ∧
        helper.m_helper.m_headers.find header.content_length = some (digits 10 n) := by
  have hstate' := (header_helper_state r).1.trans hstate
  have hfind := (header_helper_find r _ (by decide) (by decide)).trans hlength
  have hfields : r.header_helper.header_data version.v11 0 = .ok (helper_base.field_lines r.header_helper.m_headers,
      { r.header_helper with m_content_length := n, m_state := .content_length }) := by
    unfold helper_base.header_data
    rw [if_neg (not_not.mpr hstate'), hfind]
    simp only [ston_digits n hn]
  rw [header_data_of_line r 0 line hstate hline, hfields]
  exact ⟨_, _, rfl, rfl, rfl, hfind⟩

def declared_length (boundary mtype : Bytes) : List range_value → ℕ
  | [range] => range.total
  | ranges => multipart_length boundary (ct_line mtype) ranges

theorem declared_length_several (boundary mtype : Bytes) (ranges : List range_value)
    (h : ∀ range, ranges = [range] → False) :
    declared_length boundary mtype ranges = multipart_length boundary (ct_line mtype) ranges := by
  unfold declared_length
  split
  · exact (h _ rfl).elim
  · rfl

theorem declared_length_spec (file boundary mtype : Bytes) (ranges : List range_value)
    (h : ∀ range ∈ ranges, Accepted file.length range.tofile_range)
    (hlt : (ranged_body file boundary (ct_line mtype) ranges).length < size_max) :
    declared_length boundary mtype ranges = (ranged_body file boundary (ct_line mtype) ranges).length := by
  unfold declared_length
  split
  · exact (file_part_length file _ (h _ List.mem_cons_self)).symm
  · rename_i hseveral
    rw [ranged_body_several file boundary _ ranges hseveral, parts_length file boundary _ ranges h] at hlt ⊢
    exact Nat.mod_eq_of_lt hlt

theorem range_headers_spec (r : response) (boundary : Bytes) (ranges : List range_value) (mtype : Bytes) :
    (range_headers r boundary ranges mtype).m_helper.m_version = r.m_helper.m_version ∧
      (range_headers r boundary ranges mtype).m_helper.m_status = 206 ∧
      (range_headers r boundary ranges mtype).m_helper.m_helper.m_state = r.m_helper.m_helper.m_state ∧
      (range_headers r boundary ranges mtype).socket = r.socket ∧
      (range_headers r boundary ranges mtype).m_helper.m_helper.m_headers.find header.content_length =
        some (digits 10 (declared_length boundary mtype ranges)) := by
  unfold range_headers
  split
  · refine ⟨rfl, rfl, rfl, rfl, ?_⟩
    exact (OrderedMap.find_assign_ne _ _ _ _ (by decide)).trans (OrderedMap.find_assign_self _ _ _ _ (by decide))
  · rename_i hseveral
    refine ⟨rfl, rfl, rfl, rfl, ?_⟩
    rw [declared_length_several boundary mtype ranges hseveral]
    exact (OrderedMap.find_assign_ne _ _ _ _ (by decide)).trans (OrderedMap.find_assign_self _ _ _ _ (by decide))

/-! ## The whole response -/

/-- The header declares the length of all that was given to `body_data`; that is the body of the ranges, and it goes to
the socket behind the header. -/
def Framed (os : ℕ → write_outcome) (r : response) (stream : fstream) (boundary : Bytes) (ranges : List range_value)
    (mtype : Bytes) : Prop :=
  ∃ s head helper text,
    co_range_transfer os r stream boundary ranges mtype = .ok s ∧ s.error = none ∧
    (range_headers r boundary ranges mtype).m_helper.header_data 0 = .ok (head, helper) ∧
    helper.m_helper.m_headers.find header.content_length = some text ∧ ston text 10 = .ok s.bodies.flatten.length ∧
    s.bodies.flatten = ranged_body stream.data boundary (ct_line mtype) ranges ∧
    s.obj.socket = r.socket ++ (head ++ s.bodies.flatten)

theorem framed_length {os : ℕ → write_outcome} {r : response} {stream : fstream} {boundary : Bytes}
    {ranges : List range_value} {mtype : Bytes} (h : Framed os r stream boundary ranges mtype) :
    (ranged_body stream.data boundary (ct_line mtype) ranges).length < size_max := by
  obtain ⟨s, head, helper, text, -, -, -, -, hlength, hbody, -⟩ := h
  rw [← hbody]
  exact ston_lt text 10 _ hlength

theorem co_range_transfer_eq (os : ℕ → write_outcome) (r : response) (stream : fstream) (boundary : Bytes)
    (ranges : List range_value) (mtype : Bytes) :
    ∃ boundary' ct_line', co_range_transfer os r stream boundary ranges mtype =
        co_send_range os (range_headers r boundary ranges mtype) stream boundary' ct_line' ranges ∧
      ranged_body stream.data boundary' ct_line' ranges = ranged_body stream.data boundary (ct_line mtype) ranges := by
  unfold co_range_transfer
  split
  · exact ⟨[], [], rfl, rfl⟩
  · exact ⟨boundary, ct_line mtype, rfl, rfl⟩

/-- **Ranges of a file.** The response is framed right if and only if the length of its body is a value of type
`size_t`. -/
theorem range_transfer_framed_iff (os : ℕ → write_outcome) (r : response) (stream : fstream) (boundary : Bytes)
    (ranges : List range_value) (mtype vs : Bytes) (hos : ∀ k, (os k).write = none) (hstate : r.pro_state = .header)
    (hversion : version_string r.m_helper.m_version = .ok vs)
    (h : ∀ range ∈ ranges, Accepted stream.data.length range.tofile_range) :
    Framed os r stream boundary ranges mtype ↔
      (ranged_body stream.data boundary (ct_line mtype) ranges).length < size_max := by
  refine ⟨framed_length, fun hlt => ?_⟩
  obtain ⟨hver, hstatus, hst, hsocket, hfind⟩ := range_headers_spec r boundary ranges mtype
  rw [declared_length_spec stream.data boundary mtype ranges h hlt] at hfind
  have hline : ∃ line, (range_headers r boundary ranges mtype).m_helper.status_line = .ok line := by
    unfold response_helper.status_line
    rw [hver, hstatus, hversion]
    exact ⟨_, rfl⟩
  obtain ⟨line, hline⟩ := hline
  obtain ⟨head, helper, hhead, hcounted, hcount, htext⟩ :=
    header_data_length _ line _ hlt (hst.trans hstate) hline hfind
  obtain ⟨boundary', ct_line', hcall, hbody'⟩ := co_range_transfer_eq os r stream boundary ranges mtype
  obtain ⟨s, hs, herror, hbody, hobj⟩ := co_send_range_sent hos (range_headers r boundary ranges mtype) _ head helper
    stream boundary' ct_line' ranges h hhead rfl
  rw [hbody'] at hbody
  refine ⟨s, head, helper, _, hcall.trans hs, herror, hhead, htext, ?_, hbody, ?_⟩
  · rw [hbody]
    exact ston_digits _ hlt
  · rw [hobj, counted_socket ⟨helper, _⟩ _ hcounted, hcount, hsocket, hbody, List.take_length, List.append_assoc]

def range_response : response := ⟨response_helper.init version.v11 .empty, []⟩

def all_sent (_ : ℕ) : write_outcome := ⟨none, none, 0⟩

def small_file : fstream := ⟨ascii "0123456789", 0, false⟩

def two_ranges : List range_value := (from_file_range 10 [⟨0, 3⟩, ⟨8, 2⟩]).1

theorem two_ranges_accepted : ∀ range ∈ two_ranges, Accepted small_file.data.length range.tofile_range := by
  intro range hrange
  have : range.total ≠ 0 ∧ range.begin + range.total ≤ 10 := by
    revert range
    decide +kernel
  exact ⟨Nat.pos_of_ne_zero this.1, this.2⟩

theorem range_transfer_framed_iff_two :
    Framed all_sent range_response small_file (ascii "b") two_ranges (ascii "text/plain") ↔
      (ranged_body small_file.data (ascii "b") (ct_line (ascii "text/plain")) two_ranges).length < size_max :=
  range_transfer_framed_iff all_sent range_response small_file (ascii "b") two_ranges (ascii "text/plain") (ascii "1.1")
    (fun _ => rfl) rfl rfl two_ranges_accepted

def zeros (n : ℕ) : fstream := ⟨List.replicate n 0, 0, false⟩

def whole_ranges (n : ℕ) : List range_value := (from_file_range n (List.replicate 3 ⟨0, n⟩)).1

theorem whole_ranges_accepted (n : ℕ) (hpos : 0 < n) (hn : n < size_max) :
    ∃ value : range_value, whole_ranges n = [value, value, value] ∧ value.total = n ∧
      Accepted (zeros n).data.length value.tofile_range := by
  have haccepted : Accepted n ⟨0, n⟩ := ⟨hpos, Nat.le_of_eq (Nat.zero_add n)⟩
  have hvalues := from_file_range_accepted n (List.replicate 3 ⟨0, n⟩) hn fun range hrange =>
    List.eq_of_mem_replicate hrange ▸ haccepted
  refine ⟨_, congrArg Prod.fst hvalues, rfl, ?_⟩
  rw [zeros, List.length_replicate]
  exact haccepted

theorem whole_ranges_overflow :
    (∀ range ∈ whole_ranges (2 ^ 63 - 1), Accepted (zeros (2 ^ 63 - 1)).data.length range.tofile_range) ∧
      whole_ranges (2 ^ 63 - 1) ≠ [] ∧
      ¬ Framed all_sent range_response (zeros (2 ^ 63 - 1)) (ascii "b") (whole_ranges (2 ^ 63 - 1))
        (ascii "text/plain") := by
  have hlt : 2 ^ 63 - 1 < size_max := by decide
  obtain ⟨value, hvalues, htotal, haccepted⟩ := whole_ranges_accepted (2 ^ 63 - 1) (by decide) hlt
  have hall : ∀ range ∈ [value, value, value], Accepted (zeros (2 ^ 63 - 1)).data.length range.tofile_range := by
    intro range hrange
    obtain rfl : range = value := by simpa using hrange
    exact haccepted
  rw [hvalues]
  refine ⟨hall, List.cons_ne_nil _ _, fun hframed => ?_⟩
  have hlength := framed_length hframed
  rw [ranged_body_several _ _ _ _ (by simp), parts_length _ _ _ _ hall] at hlength
  have hpart : 2 ^ 63 - 1 ≤ part_length (ascii "b") (ct_line (ascii "text/plain")) value := by
    unfold part_length
    omega
  have hmax : size_max = 2 ^ 64 := rfl
  simp only [List.map_cons, List.map_nil, List.sum_cons, List.sum_nil] at hlength
  omega

end Libgs.Server
