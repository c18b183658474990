import Libgs.Server.RangeText

/-!
# What is said about a range

The Content-Range texts that `co_send_file` of `http/server/detail/response.h` sends: in the header when there is one
range, and in the heads of the parts when there are several.
-/

namespace Libgs.Server

open Lib Libgs.Http

/-! ## The ranges and their texts -/

/-- The ranges that `co_send_file` hands on: those of its caller, or else those of the request. `none` when there are
none, or when one is refused. -/
def send_file_ranges (r : response) (given : List file_range) (file_size : ℕ) : Option (List range_value) :=
  if r.pro_state ≠ .header then none
  else if given ≠ [] then
    if (from_file_range file_size given).2 ≠ none then none else some (from_file_range file_size given).1
  else
    match r.m_helper.m_request_headers.find header.range with
    | none => none
    | some text =>
      if (range_text_parsing text file_size).1 ≠ 200 then none else some (range_text_parsing text file_size).2

/-- What stands behind the name of a header line -/
def field_text (line_buf : Bytes) : Bytes := ((cut (ascii ": ") line_buf).map (·.2)).getD []

section

variable (os : ℕ → write_outcome)

/-- The texts in the heads of the parts that `send_parts` begins -/
def parts_texts (boundary ct_line : Bytes) : sending → List range_value → List (range_value × Bytes)
  | _, [] => []
  | s, value :: ranges =>
    let s := s.write_body os (part_head boundary ct_line value.cr_line)
    (value, field_text value.cr_line) ::
      if s.error ≠ none then []
      else
        let s := copy_range os true { s with stream := s.stream.seekg value.begin } value.total
        if s.error ≠ none then [] else parts_texts boundary ct_line s ranges

/-- The text in the header block, for one range, and in the heads of the parts for several -/
def send_texts (r : response) (stream : fstream) (boundary ct_line : Bytes) (ranges : List range_value) :
    List (range_value × Bytes) :=
  let c := response.header_with response.co_base_write r 0 (os 0)
  match c.value with
  | .error _ => []
  | .ok sum =>
    match ranges with
    | [value] => (c.obj.m_helper.m_helper.m_headers.find header.content_range).toList.map fun text => (value, text)
    | _ => if c.error ≠ none then [] else parts_texts os boundary ct_line ⟨c.obj, c.error, sum, stream, []⟩ ranges

/-- Each range with the Content-Range text that `co_range_transfer` sends for it -/
def transfer_texts (r : response) (stream : fstream) (boundary : Bytes) (ranges : List range_value) (mtype : Bytes) :
    List (range_value × Bytes) :=
  match ranges with
  | [_] => send_texts os (range_headers r boundary ranges mtype) stream [] [] ranges
  | _ => send_texts os (range_headers r boundary ranges mtype) stream boundary (ct_line mtype) ranges

end

/-- The field as the comments of `co_range_transfer` give it -/
def bytes_range (first last file_size : ℕ) : Bytes :=
  ascii "bytes " ++ (digits 10 first ++ (ascii "-" ++ (digits 10 last ++ (ascii "/" ++ digits 10 file_size))))

/-- The text gives the bounds of the range and the size of the file, in bytes. -/
def AdvertisedAlike (texts : List (range_value × Bytes)) (file_size : ℕ) : Prop :=
  ∀ sent ∈ texts, sent.2 = bytes_range sent.1.begin sent.1.end file_size

/-- How many ranges are asked for: those of the caller, or the sub-ranges of the request that are not blank. -/
def asked (r : response) (given : List file_range) : ℕ :=
  if given ≠ [] then given.length
  else
    ((r.m_helper.m_request_headers.find header.range).map fun text =>
      (pieces_of ((erase_spaces text).drop 6)).length).getD 0

/-! ## The ranges that are handed on -/

/-- What both readers of ranges see to -/
structure Made (file_size : ℕ) (value : range_value) : Prop where
  cr_line : value.cr_line = content_range_line value.begin value.end file_size
  total : value.total < size_max

theorem from_file_range_made (file_size : ℕ) (given : List file_range) (h : ∀ range ∈ given, range.total < size_max) :
    (∀ value ∈ (from_file_range file_size given).1, Made file_size value) ∧
      ((from_file_range file_size given).2 = none → (from_file_range file_size given).1.length = given.length) := by
  induction given with
  | nil => exact ⟨List.forall_mem_nil _, fun _ => rfl⟩
  | cons range given ih =>
    obtain ⟨htotal, hgiven⟩ := List.forall_mem_cons.mp h
    obtain ⟨hmade, hlength⟩ := ih hgiven
    unfold from_file_range
    dsimp only
    split
    · exact ⟨List.forall_mem_nil _, fun herror => absurd herror (Option.some_ne_none _)⟩
    · refine ⟨List.forall_mem_cons.mpr ⟨⟨rfl, htotal⟩, hmade⟩, fun hnone => ?_⟩
      rw [List.length_cons, List.length_cons, hlength hnone]

theorem sub_range_made (file_size : ℕ) (piece : Bytes) (value : range_value)
    (h : sub_range file_size piece = some value) : Made file_size value := by
  have hmade : ∀ first total last, total < size_max → Made file_size (make_range file_size first total last) :=
    fun first total last htotal => ⟨rfl, htotal⟩
  unfold sub_range at h
  split at h
  · rename_i first last _
    split_ifs at h <;> cases h
    · exact hmade _ _ _ (ston_or_lt last)
    · exact hmade _ _ _ (size_sub_lt _ _)
    · exact hmade _ _ _ (Nat.mod_lt _ (by decide))
  · cases h

theorem sub_ranges_made (file_size : ℕ) (pieces : List Bytes) (h : (sub_ranges file_size pieces).1 = 200) :
    (∀ value ∈ (sub_ranges file_size pieces).2, Made file_size value) ∧
      (sub_ranges file_size pieces).2.length = pieces.length := by
  rcases sub_ranges_spec file_size pieces with ⟨-, hmap⟩ | ⟨hbad, -⟩
  · constructor
    · intro value hvalue
      have hmem : some value ∈ pieces.map (sub_range file_size) := hmap ▸ List.mem_map_of_mem hvalue
      obtain ⟨piece, -, hpiece⟩ := List.mem_map.mp hmem
      exact sub_range_made file_size piece value hpiece
    · have hlength := congrArg List.length hmap
      rw [List.length_map, List.length_map] at hlength
      exact hlength.symm
  · rw [hbad] at h
    cases h

/-- **The ranges that are handed on.** Each has the part line of the file, and there are as many as were asked for. -/
theorem send_file_ranges_made (r : response) (given : List file_range) (file_size : ℕ) (ranges : List range_value)
    (hgiven : ∀ range ∈ given, range.total < size_max) (h : send_file_ranges r given file_size = some ranges) :
    r.pro_state = .header ∧ (∀ value ∈ ranges, Made file_size value) ∧ ranges.length = asked r given := by
  unfold send_file_ranges at h
  unfold asked
  split at h
  · cases h
  · rename_i hstate
    refine ⟨not_not.mp hstate, ?_⟩
    split at h
    · rename_i hne
      rw [if_pos hne]
      split_ifs at h with herror
      obtain ⟨hmade, hlength⟩ := from_file_range_made file_size given hgiven
      cases h
      exact ⟨hmade, hlength (not_not.mp herror)⟩
    · rename_i hempty
      rw [if_neg hempty]
      split at h
      · cases h
      · rename_i text hfind
        split_ifs at h with hstatus
        cases h
        have hok := not_not.mp hstatus
        obtain ⟨rest, htext, hne⟩ := range_text_ok text file_size hok
        have hrest : (erase_spaces text).drop 6 = rest := by
          rw [htext]
          exact List.drop_left' rfl
        rw [range_text_parsing_eq text rest file_size htext hne] at hok ⊢
        rw [hfind, Option.map_some, Option.getD_some, hrest]
        exact sub_ranges_made file_size (pieces_of rest) hok

/-! ## The heads of the parts -/

theorem field_text_line (first last file_size : ℕ) :
    field_text (content_range_line first last file_size) = bytes_range first last file_size := by
  have hline : content_range_line first last file_size =
      header.content_range ++ (ascii ": " ++ bytes_range first last file_size) := by
    have hcolon : ascii ": bytes " = ascii ": " ++ ascii "bytes " := rfl
    unfold content_range_line bytes_range
    simp only [hcolon, List.append_assoc]
  unfold field_text
  rw [hline, cut_append_pat _ _ _ (by decide) (by decide)]
  rfl

theorem parts_texts_mem (os : ℕ → write_outcome) (boundary ct_line : Bytes) (s : sending) (ranges : List range_value)
    (sent : range_value × Bytes) (h : sent ∈ parts_texts os boundary ct_line s ranges) :
    sent.1 ∈ ranges ∧ sent.2 = field_text sent.1.cr_line := by
  induction ranges generalizing s with
  | nil => cases h
  | cons value ranges ih =>
    unfold parts_texts at h
    rcases List.mem_cons.mp h with rfl | h
    · exact ⟨List.mem_cons_self, rfl⟩
    · split at h
      · cases h
      · dsimp only at h
        split at h
        · cases h
        · obtain ⟨hmem, htext⟩ := ih _ h
          exact ⟨List.mem_cons_of_mem _ hmem, htext⟩

theorem send_texts_several (os : ℕ → write_outcome) (r : response) (stream : fstream) (boundary ct_line : Bytes)
    (ranges : List range_value) (hseveral : ranges.length ≠ 1) (sent : range_value × Bytes)
    (h : sent ∈ send_texts os r stream boundary ct_line ranges) :
    sent.1 ∈ ranges ∧ sent.2 = field_text sent.1.cr_line := by
  unfold send_texts at h
  dsimp only at h
  split at h
  · cases h
  · split at h
    · exact absurd rfl hseveral
    · split at h
      · cases h
      · exact parts_texts_mem os boundary ct_line _ ranges sent h

/-! ## The header block -/

theorem header_data_find (r r' : response_helper) (size : ℕ) (block key : Bytes) (hstate : r.m_helper.m_state = .header)
    (hkey : key_rank key ≠ key_rank header.content_length) (hcookie : key_rank key ≠ key_rank string_pool.set_cookie)
    (hencoding : key_rank key ≠ key_rank (str_to_lower header.transfer_encoding))
    (h : r.header_data size = .ok (block, r')) : r'.m_helper.m_headers.find key = r.m_helper.m_headers.find key := by
  obtain ⟨line, -, -, hfields, -⟩ := header_data_block r r' size block hstate h
  have hsame := header_helper_find r key hcookie hencoding
  obtain ⟨-, hheaders⟩ := helper_base.header_data_fields version.v11 r.header_helper r'.m_helper size _
    ((header_helper_state r).1.trans hstate) hfields
  rcases hheaders with hheaders | ⟨-, hheaders⟩
  · rw [hheaders, hsame]
  · rw [hheaders, OrderedMap.find_assign_ne _ _ _ _ hkey, hsame]

/-- The text that `co_range_transfer` puts into the header for one range -/
def single_text (range : range_value) : Bytes :=
  digits 10 range.begin ++ ascii "-" ++ digits 10 range.end ++ ascii "/" ++ digits 10 range.total

theorem single_text_ne (range : range_value) (first last file_size : ℕ) :
    single_text range ≠ bytes_range first last file_size := by
  intro h
  obtain ⟨c, cs, hdigits⟩ := List.exists_cons_of_ne_nil (digits_ne_nil 10 range.begin)
  have hc : isDigit 10 c = true :=
    List.all_eq_true.mp (digits_all 10 range.begin (by omega) (by omega)) c (hdigits ▸ List.mem_cons_self)
  have hhead := congrArg List.head? h
  unfold single_text bytes_range at hhead
  rw [hdigits] at hhead
  obtain rfl : c = 98 := Option.some.inj hhead
  revert hc
  decide

theorem single_headers_find (r : response) (range : range_value) (mtype : Bytes) :
    (single_headers r range mtype).m_helper.m_helper.m_headers.find header.content_range = some (single_text range) :=
  OrderedMap.find_assign_self _ _ _ _ (by decide)

theorem header_with_ok (os : ℕ → write_outcome) (r : response) (size : ℕ) (head : Bytes) (helper : response_helper)
    (h : r.m_helper.header_data size = .ok (head, helper)) :
    response.header_with response.co_base_write r size (os 0) =
      .ok ⟨helper, r.socket ++ head⟩ (os 0).write (os 0).sent := by
  unfold response.header_with
  rw [h]
  rfl

theorem send_texts_single (os : ℕ → write_outcome) (r : response) (stream : fstream) (range : range_value)
    (mtype : Bytes) (hstate : r.pro_state = .header) (htotal : range.total < size_max) :
    send_texts os (single_headers r range mtype) stream [] [] [range] =
      match version_string r.m_helper.m_version with
      | .error _ => []
      | .ok _ => [(range, single_text range)] := by
  obtain ⟨hver, hstatus, hst, -, hfind⟩ := range_headers_spec r [] [range] mtype
  rw [show range_headers r [] [range] mtype = single_headers r range mtype from rfl] at hver hstatus hst hfind
  have hheader : (single_headers r range mtype).m_helper.m_helper.m_state = .header := hst.trans hstate
  cases hversion : version_string r.m_helper.m_version with
  | error e =>
    have hline : (single_headers r range mtype).m_helper.status_line = .error e := by
      unfold response_helper.status_line
      rw [hver, hstatus, hversion]
    have hdata : (single_headers r range mtype).m_helper.header_data 0 = .error e := by
      unfold response_helper.header_data
      rw [if_neg (not_not.mpr hheader), hline]
    unfold send_texts response.header_with
    rw [hdata]
    rfl
  | ok vs =>
    have hline : ∃ line, (single_headers r range mtype).m_helper.status_line = .ok line := by
      unfold response_helper.status_line
      rw [hver, hstatus, hversion]
      exact ⟨_, rfl⟩
    obtain ⟨line, hline⟩ := hline
    obtain ⟨head, helper, hhead, -⟩ := header_data_length _ line range.total htotal hheader hline hfind
    have htext := header_data_find _ helper 0 head header.content_range hheader (by decide) (by decide) (by decide)
      hhead
    rw [single_headers_find] at htext
    unfold send_texts
    rw [header_with_ok os _ 0 head helper hhead]
    show (helper.m_helper.m_headers.find header.content_range).toList.map (fun text => (range, text)) = _
    rw [htext]
    rfl

/-! ## The texts and what is sent -/

theorem copy_range_bodies (os : ℕ → write_outcome) (several : Bool) (s : sending) (total : ℕ) :
    s.bodies <+: (copy_range os several s total).bodies := by
  induction total using Nat.strongRecOn generalizing s with
  | ind total ih =>
    unfold copy_range
    split
    · exact List.prefix_rfl
    · split
      · dsimp only
        split
        · exact List.prefix_rfl
        · exact List.prefix_append _ _
      · rename_i hlarge
        dsimp only
        split
        · exact List.prefix_append _ _
        · have hpos : 0 < buf_size := by decide
          have hrest := ih (total - buf_size) (by omega)
            ({ s with stream := (s.stream.read buf_size).2 }.write_body os (s.stream.read buf_size).1)
          exact (List.prefix_append _ _).trans hrest

theorem copy_range_seek_bodies (os : ℕ → write_outcome) (several : Bool) (s : sending) (pos total : ℕ) :
    s.bodies <+: (copy_range os several { s with stream := s.stream.seekg pos } total).bodies :=
  copy_range_bodies os several { s with stream := s.stream.seekg pos } total

theorem send_parts_bodies (os : ℕ → write_outcome) (boundary ct_line : Bytes) (s : sending)
    (ranges : List range_value) : s.bodies <+: (send_parts os boundary ct_line s ranges).bodies := by
  induction ranges generalizing s with
  | nil => exact List.prefix_append _ _
  | cons value ranges ih =>
    have hhead : s.bodies <+: (s.write_body os (part_head boundary ct_line value.cr_line)).bodies :=
      List.prefix_append _ _
    unfold send_parts
    dsimp only
    split
    · exact hhead
    · have hcopy := copy_range_seek_bodies os true (s.write_body os (part_head boundary ct_line value.cr_line))
        value.begin value.total
      split
      · exact hhead.trans hcopy
      · exact hhead.trans (hcopy.trans (ih _))

theorem parts_texts_sent (os : ℕ → write_outcome) (boundary ct_line : Bytes) (s : sending) (ranges : List range_value)
    (sent : range_value × Bytes) (h : sent ∈ parts_texts os boundary ct_line s ranges) :
    part_head boundary ct_line sent.1.cr_line ∈ (send_parts os boundary ct_line s ranges).bodies := by
  induction ranges generalizing s with
  | nil => cases h
  | cons value ranges ih =>
    rcases List.mem_cons.mp h with rfl | h
    · have hhead : part_head boundary ct_line value.cr_line ∈
          (s.write_body os (part_head boundary ct_line value.cr_line)).bodies :=
        List.mem_append_right _ (List.mem_singleton.mpr rfl)
      unfold send_parts
      dsimp only
      split
      · exact hhead
      · have hcopied := (copy_range_seek_bodies os true _ value.begin value.total).subset hhead
        split
        · exact hcopied
        · exact (send_parts_bodies os boundary ct_line _ ranges).subset hcopied
    · unfold send_parts
      dsimp only at h ⊢
      split at h
      · cases h
      · rename_i hsent
        rw [if_neg hsent]
        split at h
        · cases h
        · rename_i hcopied
          rw [if_neg hcopied]
          exact ih _ h

theorem parts_texts_all {os : ℕ → write_outcome} (hos : ∀ k, (os k).write = none) (boundary ct_line : Bytes)
    (s : sending) (ranges : List range_value)
    (h : ∀ range ∈ ranges, Accepted s.stream.data.length range.tofile_range) :
    (parts_texts os boundary ct_line s ranges).map (·.1) = ranges := by
  induction ranges generalizing s with
  | nil => rfl
  | cons value ranges ih =>
    obtain ⟨⟨htotal, hinside⟩, hranges⟩ := List.forall_mem_cons.mp h
    have hhead : (s.write_body os (part_head boundary ct_line value.cr_line)).error = none := hos _
    have hcopy := copy_range_sent hos true
      { s.write_body os (part_head boundary ct_line value.cr_line) with stream := s.stream.seekg value.begin }
      value.total rfl htotal hinside
    have hrest := ih _ (by rw [hcopy.file]; exact hranges)
    unfold parts_texts
    dsimp only
    rw [if_neg (not_not.mpr hhead), List.map_cons]
    refine congrArg (value :: ·) ?_
    exact (congrArg _ (if_neg (not_not.mpr hcopy.error))).trans hrest

theorem header_block_line (r r' : response_helper) (size : ℕ) (block key text : Bytes)
    (hstate : r.m_helper.m_state = .header) (h : r.header_data size = .ok (block, r'))
    (hfind : r'.m_helper.m_headers.find key = some text) :
    ∃ key', str_to_lower key' = str_to_lower key ∧ helper_base.field_line (key', text) ++ crlf <:+: block := by
  obtain ⟨line, -, -, -, rfl⟩ := header_data_block r r' size block hstate h
  obtain ⟨e, hentry, rfl⟩ := Option.map_eq_some_iff.mp hfind
  have hmem := List.mem_of_find?_eq_some hentry
  have hrank : key_rank e.1 = key_rank key := by simpa using List.find?_some hentry
  refine ⟨e.1, (key_rank_eq_iff e.1 key).mp hrank, ?_⟩
  have hline : helper_base.field_line e ++ crlf <:+: helper_base.field_lines r'.m_helper.m_headers :=
    List.infix_of_mem_flatten (List.mem_map_of_mem (List.mem_map_of_mem hmem))
  exact hline.trans ((List.prefix_append _ _).isInfix.trans (List.suffix_append line _).isInfix)

/-- **The texts are sent.** A text belongs to a call that returns. It is a field of the header block, or its range has a
part whose head is given to `co_write_body`. -/
theorem send_texts_sent (os : ℕ → write_outcome) (r : response) (stream : fstream) (boundary ct_line : Bytes)
    (ranges : List range_value) (sent : range_value × Bytes) (hstate : r.pro_state = .header)
    (h : sent ∈ send_texts os r stream boundary ct_line ranges) :
    ∃ s head helper, co_send_range os r stream boundary ct_line ranges = .ok s ∧
      r.m_helper.header_data 0 = .ok (head, helper) ∧
      ((ranges = [sent.1] ∧ ∃ key, str_to_lower key = str_to_lower header.content_range ∧
          helper_base.field_line (key, sent.2) ++ crlf <:+: head) ∨
        part_head boundary ct_line sent.1.cr_line ∈ s.bodies) := by
  cases hdata : r.m_helper.header_data 0 with
  | error e =>
    unfold send_texts response.header_with at h
    rw [hdata] at h
    cases h
  | ok c =>
    obtain ⟨head, helper⟩ := c
    have hheader := header_with_ok os r 0 head helper hdata
    unfold send_texts at h
    unfold co_send_range
    rw [hheader] at h ⊢
    rcases ranges with _ | ⟨value, _ | ⟨next, ranges⟩⟩ <;> dsimp only [Call.ok] at h ⊢
    · split at h <;> cases h
    · obtain ⟨text, hfind, rfl⟩ := List.mem_map.mp h
      have hblock := header_block_line r.m_helper helper 0 head header.content_range text hstate hdata
        (Option.mem_toList.mp hfind)
      split_ifs
      · exact ⟨_, head, helper, rfl, rfl, .inl ⟨rfl, hblock⟩⟩
      · exact ⟨_, head, helper, rfl, rfl, .inl ⟨rfl, hblock⟩⟩
    · split_ifs at h ⊢
      · cases h
      · refine ⟨_, head, helper, rfl, rfl, .inr ?_⟩
        exact parts_texts_sent os boundary ct_line _ (value :: next :: ranges) sent h

/-! ## One range or several -/

/-- **What is said about a range.** The Content-Range texts of an accepted request are right if and only if it does not
ask for one range alone, or no header can be made for its version. -/
theorem advertised_alike_iff (os : ℕ → write_outcome) (r : response) (stream : fstream) (boundary mtype : Bytes)
    (given : List file_range) (file_size : ℕ) (ranges : List range_value)
    (hgiven : ∀ range ∈ given, range.total < size_max) (h : send_file_ranges r given file_size = some ranges) :
    AdvertisedAlike (transfer_texts os r stream boundary ranges mtype) file_size ↔
      asked r given ≠ 1 ∨ ∃ e, version_string r.m_helper.m_version = .error e := by
  obtain ⟨hstate, hmade, hlength⟩ := send_file_ranges_made r given file_size ranges hgiven h
  rw [← hlength]
  by_cases hone : ranges.length = 1
  · obtain ⟨range, rfl⟩ := List.length_eq_one_iff.mp hone
    have htexts : transfer_texts os r stream boundary [range] mtype =
        send_texts os (single_headers r range mtype) stream [] [] [range] := rfl
    rw [htexts, send_texts_single os r stream range mtype hstate (hmade range List.mem_cons_self).total]
    cases hversion : version_string r.m_helper.m_version with
    | error e => exact iff_of_true (List.forall_mem_nil _) (.inr ⟨e, rfl⟩)
    | ok vs =>
      refine iff_of_false (fun halike => ?_) (by simp)
      exact single_text_ne range _ _ _ (halike (range, single_text range) List.mem_cons_self)
  · refine iff_of_true (fun sent hsent => ?_) (.inl hone)
    have hsent' : ∃ boundary' ct_line', sent ∈ send_texts os (range_headers r boundary ranges mtype) stream boundary'
        ct_line' ranges := by
      unfold transfer_texts at hsent
      split at hsent
      · exact ⟨_, _, hsent⟩
      · exact ⟨_, _, hsent⟩
    obtain ⟨boundary', ct_line', hsent'⟩ := hsent'
    obtain ⟨hmem, htext⟩ := send_texts_several os _ stream boundary' ct_line' ranges hone sent hsent'
    rw [htext, (hmade sent.1 hmem).cr_line, field_text_line]

theorem advertised_alike_iff_two :
    AdvertisedAlike (transfer_texts all_sent range_response small_file (ascii "b") two_ranges (ascii "text/plain")) 10 ↔
      asked range_response [⟨0, 3⟩, ⟨8, 2⟩] ≠ 1 ∨
        ∃ e, version_string range_response.m_helper.m_version = .error e :=
  advertised_alike_iff all_sent range_response small_file (ascii "b") (ascii "text/plain") [⟨0, 3⟩, ⟨8, 2⟩] 10
    two_ranges (by decide) rfl

/-- The response to a request with this Range header -/
def asking (text : Bytes) : response :=
  ⟨response_helper.init version.v11 (OrderedMap.empty.assign header.range text), []⟩

/-- The first five bytes of ten: their number stands where the size of the file should. -/
theorem single_range_otherwise :
    ¬ ∀ os r stream boundary mtype given file_size ranges, (∀ range ∈ given, range.total < size_max) →
      send_file_ranges r given file_size = some ranges →
        AdvertisedAlike (transfer_texts os r stream boundary ranges mtype) file_size := by
  intro h
  have halike := h all_sent (asking (ascii "bytes=0-4")) small_file [] (ascii "text/plain") [] 10 [make_range 10 0 5 4]
    (List.forall_mem_nil _) rfl
  have htexts : transfer_texts all_sent (asking (ascii "bytes=0-4")) small_file [] [make_range 10 0 5 4]
      (ascii "text/plain") = [(make_range 10 0 5 4, ascii "0-4/5")] :=
    send_texts_single all_sent (asking (ascii "bytes=0-4")) small_file (make_range 10 0 5 4) (ascii "text/plain") rfl
      (by decide)
  rw [htexts] at halike
  have htext := halike (make_range 10 0 5 4, ascii "0-4/5") List.mem_cons_self
  exact absurd htext (by decide)

end Libgs.Server
