import Libgs.Core.Number
import Libgs.Http.Types
import Libgs.Lib.ChunkedCoding
import Libgs.Lib.Run

/-!
# Writing headers and bodies

`basic_helper_base<char>` of `http/detail/helper_base.h`, and that what it writes in its chunked state is
a chunked message.
-/

namespace Libgs.Http

open Lib

/-- What `body_data` does: nothing before the header block and behind the end, else counting or chunking -/
inductive helper_state
  | header
  | content_length
  | chunk
  | finish
  deriving DecidableEq, Repr

/-- `std::set` of strings -/
abbrev value_set := OrderedMap (fun attr : Bytes => attr.map UInt8.toNat) Unit

/-- What both helpers, that of requests and that of responses, write from -/
structure helper_base where
  m_headers : headers_t
  m_chunk_attributes : value_set
  m_content_length : ℕ
  m_state : helper_state

namespace helper_base

def init : helper_base where
  m_headers := OrderedMap.empty.assign header.content_type string_pool.text_plain
  m_chunk_attributes := .empty
  m_content_length := 0
  m_state := .header

/-! ## The operations -/

def set_header (h : helper_base) (key value : Bytes) : helper_base :=
  { h with m_headers := h.m_headers.assign (str_to_lower key) value }

/-- The attributes are added to the set. -/
def set_chunk_attribute (h : helper_base) (attributes : List Bytes) : helper_base :=
  { h with m_chunk_attributes := attributes.foldl (fun set attr => set.emplace attr ()) h.m_chunk_attributes }

/-- A header line -/
def field_line (e : Bytes × Bytes) : Bytes := e.1 ++ (ascii ": " ++ e.2)

/-- The header lines, each with its line end -/
def field_lines (headers : headers_t) : Bytes := unlines crlf (headers.entries.map field_line)

/-- The length is put into the headers, and the body is counted. -/
def declare_length (h : helper_base) (body_size : ℕ) : helper_base :=
  { h with
    m_content_length := body_size
    m_state := .content_length
    m_headers := h.m_headers.assign header.content_length (digits 10 body_size) }

/-- `header_data`, with the template argument `version_v`. -/
def header_data (version_v : version_t) (h : helper_base) (body_size : ℕ) : Except exception (Bytes × helper_base) :=
  if h.m_state ≠ .header then .ok ([], h)
  else
    match h.m_headers.find header.content_length with
    | some text =>
      match ston text 10 with
      | .error e => .error e
      | .ok length => .ok (field_lines h.m_headers, { h with m_content_length := length, m_state := .content_length })
    | none =>
      let h :=
        if 1 < version_v.toNat then
          match h.m_headers.find header.transfer_encoding with
          | some text =>
            if str_to_lower text = string_pool.chunked then { h with m_state := .chunk } else h.declare_length body_size
          | none => h.declare_length body_size
        else h.declare_length body_size
      .ok (field_lines h.m_headers, h)

/-- The attributes behind the size of a chunk -/
def attributes_text (set : value_set) : Bytes := ((set.entries.map fun attr => attr.1 ++ ascii ";").flatten).dropLast

/-- The size line of a chunk -/
def chunk_line (set : value_set) (size : ℕ) : Bytes :=
  if set.entries = [] then digits 16 size else digits 16 size ++ (ascii "; " ++ attributes_text set)

/-- What is written for a piece of the body. Of a counted body there is no more than was declared. -/
def body_data (h : helper_base) (buffer : Bytes) : Bytes × helper_base :=
  match h.m_state with
  | .header | .finish => ([], h)
  | .content_length =>
    if h.m_content_length > buffer.length then
      (buffer, { h with m_content_length := h.m_content_length - buffer.length })
    else (buffer.take h.m_content_length, { h with m_content_length := 0, m_state := .finish })
  | .chunk =>
    (chunk_line h.m_chunk_attributes buffer.length ++ (crlf ++ (buffer ++ crlf)),
      { h with m_chunk_attributes := .empty })

/-- The last chunk, with the trailers behind it -/
def chunk_end_data (h : helper_base) (headers : headers_t) : Bytes × helper_base :=
  if h.m_state ≠ .chunk then ([], h)
  else (ascii "0" ++ (crlf ++ (field_lines headers ++ crlf)), { h with m_state := .finish })

/-- How `header_data` selects the way of the body -/
inductive Selects (version_v : version_t) (h : helper_base) (body_size : ℕ) : helper_base → Prop
  | given (text : Bytes) (length : ℕ) (hfind : h.m_headers.find header.content_length = some text)
      (hlength : ston text 10 = .ok length) :
      Selects version_v h body_size { h with m_content_length := length, m_state := .content_length }
  | chunked (text : Bytes) (hnone : h.m_headers.find header.content_length = none)
      (htext : h.m_headers.find header.transfer_encoding = some text)
      (hlower : str_to_lower text = string_pool.chunked) :
      Selects version_v h body_size { h with m_state := .chunk }
  | declared (hnone : h.m_headers.find header.content_length = none)
      (hnot : 1 < version_v.toNat → ∀ text, h.m_headers.find header.transfer_encoding = some text →
        str_to_lower text ≠ string_pool.chunked) :
      Selects version_v h body_size (h.declare_length body_size)

theorem header_data_selects (version_v : version_t) (h h' : helper_base) (body_size : ℕ) (data : Bytes)
    (hstate : h.m_state = .header) (hdata : header_data version_v h body_size = .ok (data, h')) :
    data = field_lines h'.m_headers ∧ Selects version_v h body_size h' := by
  unfold header_data at hdata
  rw [if_neg (not_not.mpr hstate)] at hdata
  split at hdata
  · rename_i text hfind
    split at hdata
    · cases hdata
    · rename_i length hlength
      cases hdata
      exact ⟨rfl, .given text length hfind hlength⟩
  · rename_i hnone
    cases hdata
    refine ⟨rfl, ?_⟩
    split_ifs with hversion
    · split
      · rename_i text htext
        split_ifs with hlower
        · exact .chunked text hnone htext hlower
        · refine .declared hnone fun _ text' htext' => ?_
          obtain rfl : text = text' := Option.some.inj (htext.symm.trans htext')
          exact hlower
      · rename_i hmissing
        refine .declared hnone fun _ text htext => ?_
        cases hmissing.symm.trans htext
    · exact .declared hnone fun h => absurd h hversion

theorem header_data_state (h h' : helper_base) (body_size : ℕ) (data : Bytes) (hstate : h.m_state = .header)
    (hdata : header_data version.v11 h body_size = .ok (data, h')) :
    h'.m_chunk_attributes = h.m_chunk_attributes ∧ (h'.m_state = .chunk ∨ h'.m_state = .content_length) := by
  cases (header_data_selects _ h h' body_size data hstate hdata).2 with
  | given text length hfind hlength => exact ⟨rfl, .inr rfl⟩
  | chunked text hnone htext hlower => exact ⟨rfl, .inl rfl⟩
  | declared hnone hnot => exact ⟨rfl, .inr rfl⟩

theorem header_data_fields (version_v : version_t) (h h' : helper_base) (body_size : ℕ) (data : Bytes)
    (hstate : h.m_state = .header) (hdata : header_data version_v h body_size = .ok (data, h')) :
    data = field_lines h'.m_headers ∧
      (h'.m_headers = h.m_headers ∨ h.m_headers.find header.content_length = none ∧
        h'.m_headers = h.m_headers.assign header.content_length (digits 10 body_size)) := by
  obtain ⟨hfields, hselects⟩ := header_data_selects version_v h h' body_size data hstate hdata
  refine ⟨hfields, ?_⟩
  cases hselects with
  | given text length hfind hlength => exact .inl rfl
  | chunked text hnone htext hlower => exact .inl rfl
  | declared hnone hnot => exact .inr ⟨hnone, rfl⟩

/-! ## Texts that stay on their line -/

/-- The text is not empty and has no CR and no LF. -/
structure OneLine (text : Bytes) : Prop where
  ne : text ≠ []
  no_cr : 13 ∉ text
  no_lf : 10 ∉ text

/-- No attribute has a line end in it. -/
def AttributesOneLine (set : value_set) : Prop := ∀ attr ∈ set.entries, OneLine attr.1

theorem attributes_empty : AttributesOneLine .empty := by
  intro attr hattr
  cases hattr

theorem attributes_emplace (set : value_set) (attr : Bytes) (h : AttributesOneLine set) (hattr : OneLine attr) :
    AttributesOneLine (set.emplace attr ()) := by
  intro a ha
  rcases mem_alterEntry attr _ set.entries a ha with hrank | ha
  · have : a.1 = attr := List.map_injective_iff.mpr (fun _ _ => UInt8.toNat_inj.mp) hrank
    rwa [this]
  · exact h a ha

theorem attributes_set (h : helper_base) (attributes : List Bytes) (hset : AttributesOneLine h.m_chunk_attributes)
    (hattr : ∀ attr ∈ attributes, OneLine attr) :
    AttributesOneLine (h.set_chunk_attribute attributes).m_chunk_attributes := by
  unfold set_chunk_attribute
  dsimp only
  generalize h.m_chunk_attributes = set at hset
  induction attributes generalizing set with
  | nil => exact hset
  | cons attr attributes ih =>
    exact ih (fun a ha => hattr a (List.mem_cons_of_mem _ ha)) _
      (attributes_emplace set attr hset (hattr attr List.mem_cons_self))

theorem attributes_text_no_lf (set : value_set) (h : AttributesOneLine set) : 10 ∉ attributes_text set := by
  intro hmem
  have hmem := List.dropLast_subset _ hmem
  simp only [List.mem_flatten, List.mem_map] at hmem
  obtain ⟨_, ⟨attr, ha, rfl⟩, hin⟩ := hmem
  rcases List.mem_append.mp hin with hin | hin
  · exact (h attr ha).no_lf hin
  · revert hin
    decide

/-! ## The size line -/

theorem digits_no_lf (base n : ℕ) (hb : 2 ≤ base) (hb' : base ≤ 36) : 10 ∉ digits base n := by
  intro hmem
  have := List.all_eq_true.mp (digits_all base n hb hb') 10 hmem
  cases this

theorem sizeOfLine_digits (n : ℕ) (extension : Bytes) (h : extension = [] ∨ ∃ t, extension = ascii "; " ++ t) :
    Coding.sizeOfLine (digits 16 n ++ extension) = some n := by
  have hall := List.all_eq_true.mp (digits_all 16 n (by omega) (by omega))
  have hstop : extension.takeWhile (isDigit 16) = [] ∧ extension.dropWhile (isDigit 16) = extension := by
    rcases h with rfl | ⟨t, rfl⟩
    · exact ⟨rfl, rfl⟩
    · exact ⟨rfl, rfl⟩
  unfold Coding.sizeOfLine
  rw [List.takeWhile_append_of_pos hall, List.dropWhile_append_of_pos hall, hstop.1, hstop.2, List.append_nil]
  dsimp only
  rw [digitsVal_digits 16 n (by omega) (by omega), if_pos]
  refine ⟨digits_ne_nil 16 n, ?_⟩
  rcases h with rfl | ⟨t, rfl⟩
  · exact .inl rfl
  · exact .inr rfl

theorem chunk_line_spec (set : value_set) (size : ℕ) (h : AttributesOneLine set) :
    IsLine Coding.lineEnd (chunk_line set size) ∧ Coding.sizeOfLine (chunk_line set size) = some size := by
  unfold chunk_line
  split
  · refine ⟨Coding.isLine_of_not_mem _ (digits_no_lf 16 size (by omega) (by omega)), ?_⟩
    have := sizeOfLine_digits size [] (.inl rfl)
    rwa [List.append_nil] at this
  · refine ⟨Coding.isLine_of_not_mem _ ?_, sizeOfLine_digits size _ (.inr ⟨_, rfl⟩)⟩
    simp only [List.mem_append, not_or]
    exact ⟨digits_no_lf 16 size (by omega) (by omega), by decide, attributes_text_no_lf set h⟩

theorem chunk_isChunk (set : value_set) (buffer : Bytes) (h : AttributesOneLine set) (hbuffer : buffer ≠ []) :
    Coding.IsChunk (chunk_line set buffer.length, buffer) := by
  obtain ⟨hline, hsize⟩ := chunk_line_spec set buffer.length h
  exact ⟨hline, hsize, hbuffer⟩

/-! ## A chunked message -/

/-- The calls between the header block and the last chunk -/
inductive chunk_op
  | set_chunk_attribute (attributes : List Bytes)
  | body_data (buffer : Bytes)

/-- The helper behind the call, and what was written so far -/
def chunk_step (s : helper_base × Bytes) : chunk_op → helper_base × Bytes
  | .set_chunk_attribute attributes => (s.1.set_chunk_attribute attributes, s.2)
  | .body_data buffer => ((s.1.body_data buffer).2, s.2 ++ (s.1.body_data buffer).1)

/-- No buffer is empty, and every attribute stays on its line. -/
def chunk_op.Good : chunk_op → Prop
  | .set_chunk_attribute attributes => ∀ attr ∈ attributes, OneLine attr
  | .body_data buffer => buffer ≠ []

/-- The bytes of the body that the call gives -/
def chunk_op.data : chunk_op → Bytes
  | .set_chunk_attribute _ => []
  | .body_data buffer => buffer

theorem body_data_chunk (h : helper_base) (buffer : Bytes) (hstate : h.m_state = .chunk) :
    h.body_data buffer = (Coding.chunkText (chunk_line h.m_chunk_attributes buffer.length) buffer,
      { h with m_chunk_attributes := .empty }) := by
  obtain ⟨headers, attributes, length, st⟩ := h
  obtain rfl : st = .chunk := hstate
  rfl

theorem body_data_counted (h : helper_base) (buffer : Bytes)
    (hstate : h.m_state = .content_length ∨ h.m_state = .finish) :
    (h.body_data buffer).1.length ≤ buffer.length ∧
      ((h.body_data buffer).2.m_state = .content_length ∨ (h.body_data buffer).2.m_state = .finish) := by
  obtain ⟨headers, attributes, length, st⟩ := h
  unfold body_data
  rcases hstate with rfl | rfl
  · dsimp only
    split
    · exact ⟨le_rfl, .inl rfl⟩
    · exact ⟨List.length_take_le' _ _, .inr rfl⟩
  · exact ⟨Nat.zero_le _, .inr rfl⟩

theorem body_data_finish (h : helper_base) (buffer : Bytes) (hstate : h.m_state = .finish) :
    (h.body_data buffer).1 = [] := by
  unfold body_data
  rw [hstate]

theorem chunk_end_data_finish (h : helper_base) (headers : headers_t) (hstate : h.m_state = .chunk) :
    (h.chunk_end_data headers).2.m_state = .finish := by
  unfold chunk_end_data
  rw [if_neg (not_not.mpr hstate)]

theorem chunk_step_spec (s : helper_base × Bytes) (op : chunk_op) (hstate : s.1.m_state = .chunk)
    (hattr : AttributesOneLine s.1.m_chunk_attributes) (hop : op.Good) :
    (chunk_step s op).1.m_state = .chunk ∧ AttributesOneLine (chunk_step s op).1.m_chunk_attributes ∧
      ∃ chunks, (chunk_step s op).2 = s.2 ++ Coding.chunksText chunks ∧
        (chunks.map (·.2)).flatten = op.data ∧ ∀ c ∈ chunks, Coding.IsChunk c := by
  cases op with
  | set_chunk_attribute attributes =>
    exact ⟨hstate, attributes_set s.1 attributes hattr hop, [], (List.append_nil _).symm, rfl, by simp⟩
  | body_data buffer =>
    have hcall := body_data_chunk s.1 buffer hstate
    have hchunk := chunk_isChunk s.1.m_chunk_attributes buffer hattr hop
    simp only [chunk_step, hcall]
    refine ⟨hstate, attributes_empty, [(chunk_line s.1.m_chunk_attributes buffer.length, buffer)], ?_,
      List.append_nil _, List.forall_mem_singleton.mpr hchunk⟩
    simp [Coding.chunksText]

theorem chunk_run_spec (ops : List chunk_op) (s : helper_base × Bytes) (hstate : s.1.m_state = .chunk)
    (hattr : AttributesOneLine s.1.m_chunk_attributes) (hops : ∀ op ∈ ops, op.Good) :
    (run chunk_step s ops).1.m_state = .chunk ∧
      ∃ chunks, (run chunk_step s ops).2 = s.2 ++ Coding.chunksText chunks ∧
        (chunks.map (·.2)).flatten = (ops.map chunk_op.data).flatten ∧ ∀ c ∈ chunks, Coding.IsChunk c := by
  induction ops generalizing s with
  | nil => exact ⟨hstate, [], (List.append_nil _).symm, rfl, by simp⟩
  | cons op ops ih =>
    obtain ⟨hstate', hattr', first, hfirst, hdata, hgood⟩ :=
      chunk_step_spec s op hstate hattr (hops op List.mem_cons_self)
    obtain ⟨hend, chunks, hout, hrest, hall⟩ :=
      ih (chunk_step s op) hstate' hattr' fun o ho => hops o (List.mem_cons_of_mem _ ho)
    refine ⟨hend, first ++ chunks, ?_, by simp [hdata, hrest], List.forall_mem_append.mpr ⟨hgood, hall⟩⟩
    rw [run_cons, hout, hfirst, Coding.chunksText_append, List.append_assoc]

theorem field_line_spec (e : Bytes × Bytes) (hkey : OneLine e.1) (hvalue : 10 ∉ e.2) :
    IsLine Coding.lineEnd (field_line e) ∧ field_line e ≠ [] ∧ 58 ∈ field_line e := by
  refine ⟨Coding.isLine_of_not_mem _ ?_, by simp [field_line, hkey.ne], by simp [field_line, ascii]⟩
  simp only [field_line, List.mem_append, not_or]
  exact ⟨hkey.no_lf, by decide, hvalue⟩

/-- **The chunked encoder.** In the chunked state, the results of the calls of `body_data`, with
attributes set between them, and of `chunk_end_data` are one chunked message. It is decoded to the data
and the trailers, and nothing of it is left over. -/
theorem chunked_message_decodes (h : helper_base) (ops : List chunk_op) (headers : headers_t)
    (hstate : h.m_state = .chunk) (hattr : AttributesOneLine h.m_chunk_attributes) (hops : ∀ op ∈ ops, op.Good)
    (hheaders : ∀ e ∈ headers.entries, OneLine e.1 ∧ 13 ∉ e.2 ∧ 10 ∉ e.2) :
    let s := run chunk_step (h, []) ops
    Coding.decode (s.2 ++ (s.1.chunk_end_data headers).1) =
      some ⟨(ops.map chunk_op.data).flatten, headers.entries.map field_line, []⟩ := by
  intro s
  obtain ⟨hend, chunks, hout, hdata, hgood⟩ := chunk_run_spec ops (h, []) hstate hattr hops
  have hlast : (s.1.chunk_end_data headers).1 = ascii "0" ++ (Coding.lineEnd ++
      (unlines Coding.lineEnd (headers.entries.map field_line) ++ (Coding.lineEnd ++ []))) := by
    unfold chunk_end_data
    rw [if_neg (not_not.mpr hend)]
    rfl
  rw [hlast, show s.2 = _ from hout, List.nil_append, ← hdata]
  apply Coding.decode_message chunks (ascii "0") _ [] hgood (by decide) (by decide)
  intro l hl
  obtain ⟨e, he, rfl⟩ := List.mem_map.mp hl
  obtain ⟨hkey, -, hvalue⟩ := hheaders e he
  exact field_line_spec e hkey hvalue

/-- A helper that has written the header block of a chunked message -/
def chunkedHelper : helper_base :=
  match header_data version.v11 (init.set_header header.transfer_encoding string_pool.chunked) 0 with
  | .ok (_, h) => h
  | .error _ => init

def sumTrailer : headers_t := OrderedMap.empty.assign (ascii "x-sum") (ascii "1")

/-- Data that looks like a last chunk, then a chunk with an attribute. -/
def mixedOps : List chunk_op :=
  let attributes := [ascii "a=1"]
  [.body_data (ascii "0\r\n\r\n"), .set_chunk_attribute attributes, .body_data (ascii "hi")]

theorem chunked_message_decodes_two :
    let s := run chunk_step (chunkedHelper, []) mixedOps
    Coding.decode (s.2 ++ (s.1.chunk_end_data sumTrailer).1) =
      some ⟨(mixedOps.map chunk_op.data).flatten, sumTrailer.entries.map field_line, []⟩ := by
  refine chunked_message_decodes chunkedHelper mixedOps sumTrailer (by decide) attributes_empty ?_ ?_
  · simp only [mixedOps, List.mem_cons, List.not_mem_nil, or_false, forall_eq_or_imp, forall_eq, chunk_op.Good]
    exact ⟨by decide, ⟨by decide, by decide, by decide⟩, by decide⟩
  · intro e he
    obtain rfl := List.mem_singleton.mp he
    exact ⟨⟨by decide, by decide, by decide⟩, by decide, by decide⟩

end helper_base

end Libgs.Http
