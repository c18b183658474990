import Libgs.Http.HelperBase

/-!
# The response

`write` and `chunk_end` of `http/server/detail/response.h`, over the helper of
`http/server/detail/response_helper.h`, and what they pass to the socket for a chunked request.
-/

namespace Libgs.Server

open Lib Libgs.Http

/-! ## The helper -/

structure cookie where
  value : Bytes
  attributes : basic_map Bytes

def pair_text (e : Bytes × Bytes) : Bytes := e.1 ++ (ascii "=" ++ (e.2 ++ ascii ";"))

/-- The semicolon behind the last pair is taken back. -/
def cookie_line (e : Bytes × cookie) : Bytes :=
  let pairs := pair_text (e.1, e.2.value) ++ (e.2.attributes.entries.map pair_text).flatten
  (ascii "set-cookie: " ++ pairs).dropLast ++ crlf

structure response_helper where
  m_version : version_t
  m_request_headers : headers_t
  m_helper : helper_base
  m_status : status_t
  m_cookies : basic_map cookie

namespace response_helper

def init (version_v : version_t) (request_headers : headers_t) : response_helper where
  m_version := version_v
  m_request_headers := request_headers
  m_helper := helper_base.init
  m_status := 200
  m_cookies := .empty

def request_chunked (r : response_helper) : Bool :=
  if r.m_version < version.v11 then false
  else
    match r.m_request_headers.find header.transfer_encoding with
    | some text => str_to_lower text = string_pool.chunked
    | none => false

def status_line (r : response_helper) : Except exception Bytes :=
  match version_string r.m_version, status_description r.m_status with
  | .ok vs, .ok description =>
    .ok (ascii "HTTP/" ++ vs ++ ascii " " ++ digits 10 r.m_status ++ ascii " " ++ description ++ crlf)
  | .error e, _ => .error e
  | .ok _, .error e => .error e

def header_helper (r : response_helper) : helper_base :=
  let helper := { r.m_helper with m_headers := r.m_helper.m_headers.erase string_pool.set_cookie }
  if r.request_chunked then helper.set_header header.transfer_encoding string_pool.chunked else helper

def header_data (r : response_helper) (body_size : ℕ) : Except exception (Bytes × response_helper) :=
  if r.m_helper.m_state ≠ .header then .ok ([], r)
  else
    match r.status_line with
    | .error e => .error e
    | .ok line =>
      match r.header_helper.header_data version.v11 body_size with
      | .error e => .error e
      | .ok (fields, helper) =>
        .ok (line ++ (fields ++ ((r.m_cookies.entries.map cookie_line).flatten ++ crlf)), { r with m_helper := helper })

def body_data (r : response_helper) (buffer : Bytes) : Bytes × response_helper :=
  ((r.m_helper.body_data buffer).1, { r with m_helper := (r.m_helper.body_data buffer).2 })

/-- Read as `chunk_end_data` of the base: the private class that is called has no such member. -/
def chunk_end_data (r : response_helper) (headers : headers_t) : Bytes × response_helper :=
  ((r.m_helper.chunk_end_data headers).1, { r with m_helper := (r.m_helper.chunk_end_data headers).2 })

end response_helper

/-! ## The response -/

/-- `socket` is all that was passed to the socket. -/
structure response where
  m_helper : response_helper
  socket : Bytes

/-- How a write goes: the error of setting the mode, and the error and the size of the write. -/
structure write_outcome where
  non_blocking : error_code
  write : error_code
  sent : ℕ

namespace response

def pro_state (r : response) : helper_state := r.m_helper.m_helper.m_state

def base_write (r : response) (data : Bytes) (o : write_outcome) : Call response ℕ :=
  match o.non_blocking with
  | some e => .ok r (some e) 0
  | none => .ok { r with socket := r.socket ++ data } o.write o.sent

def co_base_write (r : response) (data : Bytes) (o : write_outcome) : Call response ℕ :=
  .ok { r with socket := r.socket ++ data } o.write o.sent

section

variable (base : response → Bytes → write_outcome → Call response ℕ)

def header_with (r : response) (size : ℕ) (o : write_outcome) : Call response ℕ :=
  match r.m_helper.header_data size with
  | .error e => .fail r none e
  | .ok (data, helper) => base { r with m_helper := helper } data o

def body_with (r : response) (body : Bytes) (o : write_outcome) : Call response ℕ :=
  base { r with m_helper := (r.m_helper.body_data body).2 } (r.m_helper.body_data body).1 o

def rest_with (r : response) (sum : ℕ) (body : Bytes) (o : write_outcome) : Call response ℕ :=
  if 0 < body.length then
    let c := body_with base r body o
    { c with value := c.value.map (sum + ·) }
  else .ok r none sum

def write_with (r : response) (body : Bytes) (error : error_code) (header_o body_o : write_outcome) : Call response ℕ :=
  if r.pro_state = .finish then .ok r error 0
  else if r.pro_state = .header then
    let c := header_with base r body.length header_o
    match c.value with
    -- The function is `noexcept`: the process ends here.
    | .error e => .fail c.obj c.error e
    | .ok sum => if c.error ≠ none then .ok c.obj c.error sum else rest_with base c.obj sum body body_o
  else rest_with base r 0 body body_o

def chunk_end_with (r : response) (headers : headers_t) (error : error_code) (o : write_outcome) : Call response ℕ :=
  if r.pro_state ≠ .chunk then .ok r error 0
  else
    let (buf, helper) := r.m_helper.chunk_end_data headers
    let r := { r with m_helper := helper }
    if buf = [] then .ok r error 0 else body_with base r buf o

end

def write := write_with base_write

def co_write := write_with co_base_write

def chunk_end := chunk_end_with base_write

def co_chunk_end := chunk_end_with co_base_write

end response

inductive write_call
  | write (body : Bytes) (header_o body_o : write_outcome)
  | co_write (body : Bytes) (header_o body_o : write_outcome)

def write_call.body : write_call → Bytes
  | .write body _ _ => body
  | .co_write body _ _ => body

def write_step (r : response) : write_call → response
  | .write body header_o body_o => (r.write body none header_o body_o).obj
  | .co_write body header_o body_o => (r.co_write body none header_o body_o).obj

/-! ## The header block -/

theorem request_chunked_helper (r : response_helper) (h : r.request_chunked = true) :
    r.header_helper.m_headers.find header.transfer_encoding = some string_pool.chunked := by
  unfold response_helper.header_helper
  rw [if_pos h]
  exact OrderedMap.find_assign_self _ _ _ _ (by decide)

theorem header_helper_state (r : response_helper) :
    r.header_helper.m_state = r.m_helper.m_state ∧
      r.header_helper.m_chunk_attributes = r.m_helper.m_chunk_attributes := by
  unfold response_helper.header_helper
  split <;> exact ⟨rfl, rfl⟩

theorem header_data_size (r : response_helper) (size size' : ℕ) (h : r.request_chunked = true) :
    r.header_data size = r.header_data size' := by
  have hsame : r.header_helper.header_data version.v11 size = r.header_helper.header_data version.v11 size' := by
    unfold helper_base.header_data
    rw [request_chunked_helper r h]
    simp only [show 1 < version.v11.toNat from by decide, if_true]
    rfl
  unfold response_helper.header_data
  rw [hsame]

theorem status_line_head (r : response_helper) (line : Bytes) (h : r.status_line = .ok line) :
    ∃ t, line = 72 :: t := by
  unfold response_helper.status_line at h
  split at h
  · cases h
    exact ⟨_, rfl⟩
  · cases h
  · cases h

theorem header_data_of_line (r : response_helper) (size : ℕ) (line : Bytes) (hstate : r.m_helper.m_state = .header)
    (hline : r.status_line = .ok line) :
    r.header_data size = (r.header_helper.header_data version.v11 size).map fun c =>
      (line ++ (c.1 ++ ((r.m_cookies.entries.map cookie_line).flatten ++ crlf)), { r with m_helper := c.2 }) := by
  unfold response_helper.header_data
  rw [if_neg (not_not.mpr hstate), hline]
  cases r.header_helper.header_data version.v11 size with
  | error e => rfl
  | ok fields => rfl

theorem header_data_block (r r' : response_helper) (size : ℕ) (block : Bytes) (hstate : r.m_helper.m_state = .header)
    (h : r.header_data size = .ok (block, r')) :
    ∃ line, r.status_line = .ok line ∧ r'.m_cookies = r.m_cookies ∧
      r.header_helper.header_data version.v11 size = .ok (helper_base.field_lines r'.m_helper.m_headers, r'.m_helper) ∧
        block = line ++ (helper_base.field_lines r'.m_helper.m_headers ++
          ((r.m_cookies.entries.map cookie_line).flatten ++ crlf)) := by
  unfold response_helper.header_data at h
  rw [if_neg (not_not.mpr hstate)] at h
  cases hline : r.status_line with
  | error e => simp [hline] at h
  | ok line =>
    simp only [hline] at h
    cases hfields : r.header_helper.header_data version.v11 size with
    | error e => simp [hfields] at h
    | ok c =>
      obtain ⟨fields, helper⟩ := c
      simp only [hfields, Except.ok.injEq, Prod.mk.injEq] at h
      obtain ⟨rfl, rfl⟩ := h
      have hhelper := (header_helper_state r).1.trans hstate
      obtain ⟨rfl, -⟩ := helper_base.header_data_fields _ _ _ size fields hhelper hfields
      exact ⟨line, rfl, rfl, rfl, rfl⟩

theorem header_data_spec (r r' : response_helper) (size : ℕ) (block : Bytes) (hstate : r.m_helper.m_state = .header)
    (h : r.header_data size = .ok (block, r')) :
    (∃ t, block = 72 :: t) ∧ r'.m_helper.m_chunk_attributes = r.m_helper.m_chunk_attributes ∧
      (r'.m_helper.m_state = .chunk ∨ r'.m_helper.m_state = .content_length) := by
  obtain ⟨hst, hattr⟩ := header_helper_state r
  obtain ⟨line, hline, -, hfields, rfl⟩ := header_data_block r r' size block hstate h
  obtain ⟨t, rfl⟩ := status_line_head r line hline
  obtain ⟨hattr', hst'⟩ := helper_base.header_data_state _ _ size _ (hst.trans hstate) hfields
  exact ⟨⟨_, rfl⟩, hattr'.trans hattr, hst'⟩

/-! ## What has been passed to the socket -/

/-- A response on which nothing was called but setters of headers, cookies and the status. -/
structure response.New (r : response) : Prop where
  state : r.pro_state = .header
  attributes : r.m_helper.m_helper.m_chunk_attributes = .empty
  socket : r.socket = []

/-- The data goes to the socket, or nothing does. -/
def Passes (base : response → Bytes → write_outcome → Call response ℕ) : Prop :=
  ∀ r data o, (base r data o).obj.m_helper = r.m_helper ∧
    ((base r data o).obj.socket = r.socket ∨ (base r data o).obj.socket = r.socket ++ data)

theorem base_write_passes : Passes response.base_write := by
  intro r data o
  unfold response.base_write
  cases o.non_blocking with
  | some e => exact ⟨rfl, .inl rfl⟩
  | none => exact ⟨rfl, .inr rfl⟩

theorem co_base_write_passes : Passes response.co_base_write := by
  intro r data o
  exact ⟨rfl, .inr rfl⟩

/-- A header block of the response, or nothing if its write has failed. -/
def HeadOf (r : response) (head : Bytes) : Prop :=
  head = [] ∨ ∃ size r', r.m_helper.header_data size = .ok (head, r')

/-- Where a response that began as `r₀` stands after writes of `data`. -/
inductive Written (r₀ : response) (data : Bytes) (r : response) : Prop
  | header (h : r = r₀)
  | chunk (head : Bytes) (chunks : List (Bytes × Bytes)) (hhead : HeadOf r₀ head) (hstate : r.pro_state = .chunk)
      (hattr : r.m_helper.m_helper.m_chunk_attributes = .empty) (hsocket : r.socket = head ++ Coding.chunksText chunks)
      (hchunks : ∀ c ∈ chunks, Coding.IsChunk c)
  | counted (head raw : Bytes) (hhead : HeadOf r₀ head)
      (hstate : r.pro_state = .content_length ∨ r.pro_state = .finish) (hsocket : r.socket = head ++ raw)
      (hraw : raw.length ≤ data.length)

theorem Written.more {r₀ r : response} {data : Bytes} (h : Written r₀ data r) (body : Bytes) :
    Written r₀ (data ++ body) r := by
  cases h with
  | header h => exact .header h
  | chunk head chunks hhead hstate hattr hsocket hchunks =>
    exact .chunk head chunks hhead hstate hattr hsocket hchunks
  | counted head raw hhead hstate hsocket hraw =>
    refine .counted head raw hhead hstate hsocket ?_
    rw [List.length_append]
    omega

theorem body_with_written (base : response → Bytes → write_outcome → Call response ℕ) (hbase : Passes base)
    (r₀ r : response) (data body : Bytes) (o : write_outcome) (hw : Written r₀ data r) (hr : r.pro_state ≠ .header)
    (hr₀ : r₀.pro_state = .header) (hbody : body ≠ []) :
    Written r₀ (data ++ body) (response.body_with base r body o).obj := by
  obtain ⟨hhelper, hpassed⟩ : (response.body_with base r body o).obj.m_helper = (r.m_helper.body_data body).2 ∧
      ((response.body_with base r body o).obj.socket = r.socket ∨
        (response.body_with base r body o).obj.socket = r.socket ++ (r.m_helper.body_data body).1) := hbase _ _ _
  cases hw with
  | header h => exact absurd (h ▸ hr₀) hr
  | chunk head chunks hhead hstate hattr hsocket hchunks =>
    have hcall := helper_base.body_data_chunk r.m_helper.m_helper body hstate
    have hchunk := helper_base.chunk_isChunk r.m_helper.m_helper.m_chunk_attributes body
      (hattr ▸ helper_base.attributes_empty) hbody
    simp only [response_helper.body_data, hcall] at hhelper hpassed
    have hstate' : (response.body_with base r body o).obj.pro_state = .chunk := by
      unfold response.pro_state
      rw [hhelper]
      exact hstate
    have hattr' : (response.body_with base r body o).obj.m_helper.m_helper.m_chunk_attributes = .empty := by
      rw [hhelper]
    rcases hpassed with hpassed | hpassed
    · exact .chunk head chunks hhead hstate' hattr' (hpassed.trans hsocket) hchunks
    · refine .chunk head (chunks ++ [_]) hhead hstate' hattr' ?_
        (List.forall_mem_append.mpr ⟨hchunks, List.forall_mem_singleton.mpr hchunk⟩)
      rw [hpassed, hsocket, Coding.chunksText_append, List.append_assoc]
      simp [Coding.chunksText]
  | counted head raw hhead hstate hsocket hraw =>
    obtain ⟨hlen, hstate'⟩ := helper_base.body_data_counted r.m_helper.m_helper body hstate
    have hstate'' : (response.body_with base r body o).obj.pro_state = .content_length ∨
        (response.body_with base r body o).obj.pro_state = .finish := by
      unfold response.pro_state
      rw [hhelper]
      exact hstate'
    rcases hpassed with hpassed | hpassed
    · refine .counted head raw hhead hstate'' (hpassed.trans hsocket) ?_
      rw [List.length_append]
      omega
    · refine .counted head (raw ++ (r.m_helper.body_data body).1) hhead hstate'' ?_ ?_
      · rw [hpassed, hsocket, List.append_assoc]
      · rw [List.length_append, List.length_append]
        exact Nat.add_le_add hraw hlen

theorem rest_with_written (base : response → Bytes → write_outcome → Call response ℕ) (hbase : Passes base)
    (r₀ r : response) (data body : Bytes) (sum : ℕ) (o : write_outcome) (hw : Written r₀ data r)
    (hr : r.pro_state ≠ .header) (hr₀ : r₀.pro_state = .header) :
    Written r₀ (data ++ body) (response.rest_with base r sum body o).obj := by
  unfold response.rest_with
  split
  · rename_i hpos
    apply body_with_written base hbase r₀ r data body o hw hr hr₀
    exact List.length_pos_iff.mp hpos
  · exact hw.more body

theorem header_with_written (base : response → Bytes → write_outcome → Call response ℕ) (hbase : Passes base)
    (r : response) (hr : r.New) (size : ℕ) (data : Bytes) (o : write_outcome) :
    Written r data (response.header_with base r size o).obj ∧
      ∀ sum, (response.header_with base r size o).value = .ok sum →
        (response.header_with base r size o).obj.pro_state ≠ .header := by
  unfold response.header_with
  cases hdata : r.m_helper.header_data size with
  | error e => exact ⟨.header rfl, fun sum h => by cases h⟩
  | ok block =>
    obtain ⟨block, helper⟩ := block
    obtain ⟨-, hattr, hstate⟩ := header_data_spec r.m_helper helper size block hr.state hdata
    have hattr := hattr.trans hr.attributes
    dsimp only
    obtain ⟨hhelper, hpassed⟩ := hbase { r with m_helper := helper } block o
    obtain ⟨head, hhead, hsocket⟩ :
        ∃ head, HeadOf r head ∧ (base { r with m_helper := helper } block o).obj.socket = head := by
      rcases hpassed with hpassed | hpassed
      · exact ⟨[], .inl rfl, hpassed.trans hr.socket⟩
      · refine ⟨block, .inr ⟨size, helper, hdata⟩, ?_⟩
        rw [hpassed, hr.socket, List.nil_append]
    rcases hstate with hstate | hstate
    · refine ⟨.chunk head [] hhead ?_ ?_ ?_ (by simp), fun _ _ => ?_⟩
      · unfold response.pro_state
        rw [hhelper, hstate]
      · rw [hhelper, hattr]
      · rw [hsocket]
        exact (List.append_nil head).symm
      · unfold response.pro_state
        rw [hhelper, hstate]
        decide
    · refine ⟨.counted head [] hhead (.inl ?_) ?_ (by simp), fun _ _ => ?_⟩
      · unfold response.pro_state
        rw [hhelper, hstate]
      · rw [hsocket, List.append_nil]
      · unfold response.pro_state
        rw [hhelper, hstate]
        decide

theorem write_with_written (base : response → Bytes → write_outcome → Call response ℕ) (hbase : Passes base)
    (r₀ r : response) (hr₀ : r₀.New) (data body : Bytes) (error : error_code) (header_o body_o : write_outcome)
    (hw : Written r₀ data r) :
    Written r₀ (data ++ body) (response.write_with base r body error header_o body_o).obj := by
  unfold response.write_with
  split
  · exact hw.more body
  · split
    · rename_i hstate
      obtain rfl : r = r₀ := by
        cases hw with
        | header h => exact h
        | chunk head chunks hhead hst => simp [hst] at hstate
        | counted head raw hhead hst => rcases hst with hst | hst <;> simp [hst] at hstate
      obtain ⟨hwritten, hstate'⟩ := header_with_written base hbase r hr₀ body.length data header_o
      dsimp only
      split
      · exact hwritten.more body
      · rename_i sum hsum
        split
        · exact hwritten.more body
        · exact rest_with_written base hbase r _ data body sum body_o hwritten (hstate' sum hsum) hr₀.state
    · rename_i hstate
      exact rest_with_written base hbase r₀ r data body 0 body_o hw hstate hr₀.state

theorem writes_written (r₀ r : response) (hr₀ : r₀.New) (data : Bytes) (calls : List write_call)
    (hw : Written r₀ data r) :
    Written r₀ (data ++ (calls.map write_call.body).flatten) (run write_step r calls) := by
  induction calls generalizing r data with
  | nil => exact hw.more []
  | cons call calls ih =>
    have hstep : Written r₀ (data ++ call.body) (write_step r call) := by
      cases call with
      | write body header_o body_o =>
        exact write_with_written _ base_write_passes r₀ r hr₀ data body none header_o body_o hw
      | co_write body header_o body_o =>
        exact write_with_written _ co_base_write_passes r₀ r hr₀ data body none header_o body_o hw
    have hrest := ih (write_step r call) (data ++ call.body) hstep
    rwa [List.append_assoc] at hrest

/-! ## The end of the chunks -/

theorem chunk_end_with_socket (base : response → Bytes → write_outcome → Call response ℕ) (hbase : Passes base)
    (r : response) (headers : headers_t) (error : error_code) (o : write_outcome) :
    (response.chunk_end_with base r headers error o).obj.socket = r.socket := by
  unfold response.chunk_end_with
  split
  · rfl
  · rename_i hstate
    have hstate : r.m_helper.m_helper.m_state = .chunk := not_not.mp hstate
    dsimp only
    split
    · rfl
    · have hnone : ((r.m_helper.chunk_end_data headers).2.body_data (r.m_helper.chunk_end_data headers).1).1 = [] := by
        apply helper_base.body_data_finish
        exact helper_base.chunk_end_data_finish r.m_helper.m_helper headers hstate
      unfold response.body_with
      dsimp only
      obtain ⟨-, hpassed | hpassed⟩ := hbase
        { r with m_helper := ((r.m_helper.chunk_end_data headers).2.body_data (r.m_helper.chunk_end_data headers).1).2 }
        ((r.m_helper.chunk_end_data headers).2.body_data (r.m_helper.chunk_end_data headers).1).1 o
      · exact hpassed
      · rw [hpassed, hnone, List.append_nil]

/-- The bytes are a header block of the response and a chunked message of `data` and the trailers. -/
def Terminated (r : response) (data : Bytes) (headers : headers_t) (wire : Bytes) : Prop :=
  ∃ size block r' message, r.m_helper.header_data size = .ok (block, r') ∧ wire = block ++ message ∧
    Coding.decode message = some ⟨data, headers.entries.map helper_base.field_line, []⟩

theorem not_terminated_of_written (r₀ r : response) (hr₀ : r₀.New) (hchunked : r₀.m_helper.request_chunked = true)
    (data : Bytes) (headers : headers_t) (hw : Written r₀ data r) : ¬ Terminated r₀ data headers r.socket := by
  rintro ⟨size, block, r', message, hblock, hwire, hmessage⟩
  obtain ⟨⟨t, ht⟩, -, -⟩ := header_data_spec r₀.m_helper r' size block hr₀.state hblock
  have hlong : data.length < message.length := Coding.readChunks_length _ message _ hmessage
  -- What stands behind the head of the wire is the message, if the head is there.
  have hhead : ∀ head tail, HeadOf r₀ head → r.socket = head ++ tail → head = [] ∨ tail = message := by
    rintro head tail (h | ⟨size', r'', h⟩) hsocket
    · exact .inl h
    · rw [header_data_size r₀.m_helper size' size hchunked, hblock] at h
      cases h
      exact .inr (List.append_cancel_left (hsocket.symm.trans hwire))
  cases hw with
  | header h =>
    rw [h, hr₀.socket, ht] at hwire
    cases hwire
  | chunk head chunks hh hstate hattr hsocket hchunks =>
    rcases hhead head _ hh hsocket with rfl | rfl
    · rw [List.nil_append] at hsocket
      rw [hsocket, ht] at hwire
      cases chunks with
      | nil => cases hwire
      | cons c chunks =>
        obtain ⟨-, hsize, -⟩ := hchunks c List.mem_cons_self
        obtain ⟨d, l, hline, hdigit⟩ := Coding.sizeOfLine_head c.1 _ hsize
        simp only [Coding.chunksText_cons, Coding.chunkText, hline, List.cons_append, List.cons.injEq] at hwire
        obtain ⟨rfl, -⟩ := hwire
        revert hdigit
        decide
    · have hnone : Coding.decode (Coding.chunksText chunks) = none := Coding.readChunks_unended chunks _ hchunks
      rw [hnone] at hmessage
      cases hmessage
  | counted head raw hh hstate hsocket hraw =>
    rcases hhead head raw hh hsocket with rfl | rfl
    · rw [List.nil_append] at hsocket
      have := congrArg List.length (hsocket.symm.trans hwire)
      rw [List.length_append] at this
      omega
    · omega

/-- **A chunked response is not terminated.** For no chunked request, no writes and no trailers have the
bytes that reach the socket the last chunk. -/
theorem chunked_response_not_terminated (r : response) (hr : r.New) (hchunked : r.m_helper.request_chunked = true)
    (calls : List write_call) (headers : headers_t) (error : error_code) (o : write_outcome) :
    let data := (calls.map write_call.body).flatten
    ¬ Terminated r data headers ((run write_step r calls).chunk_end headers error o).obj.socket ∧
      ¬ Terminated r data headers ((run write_step r calls).co_chunk_end headers error o).obj.socket := by
  intro data
  have hw : Written r data (run write_step r calls) := writes_written r r hr [] calls (.header rfl)
  have h := not_terminated_of_written r _ hr hchunked data headers hw
  constructor
  · rwa [response.chunk_end, chunk_end_with_socket _ base_write_passes]
  · rwa [response.co_chunk_end, chunk_end_with_socket _ co_base_write_passes]

def chunkedResponse : response where
  m_helper := response_helper.init version.v11 (OrderedMap.empty.assign header.transfer_encoding string_pool.chunked)
  socket := []

def goodWrite : write_outcome := ⟨none, none, 0⟩

def writeAbc : List write_call := [.write (ascii "abc") goodWrite goodWrite]

theorem chunked_response_not_terminated_abc :
    ¬ Terminated chunkedResponse (writeAbc.map write_call.body).flatten .empty
        ((run write_step chunkedResponse writeAbc).chunk_end .empty none goodWrite).obj.socket ∧
      ¬ Terminated chunkedResponse (writeAbc.map write_call.body).flatten .empty
        ((run write_step chunkedResponse writeAbc).co_chunk_end .empty none goodWrite).obj.socket :=
  chunked_response_not_terminated chunkedResponse ⟨rfl, rfl, rfl⟩ (by decide) writeAbc .empty none goodWrite

def chunkedBlock : Bytes :=
  ascii "HTTP/1.1 200 OK\r\nContent-Type: text/plain; charset=utf-8\r\ntransfer-encoding: chunked\r\n\r\n"

/-- One chunk is all that reaches the socket behind the header block. -/
theorem abc_without_last_chunk :
    chunkedResponse.m_helper.request_chunked = true ∧
      ((run write_step chunkedResponse writeAbc).chunk_end .empty none goodWrite).error = none ∧
      ((run write_step chunkedResponse writeAbc).chunk_end .empty none goodWrite).obj.socket =
        chunkedBlock ++ ascii "3\r\nabc\r\n" ∧
      ¬ Terminated chunkedResponse (ascii "abc") .empty
        ((run write_step chunkedResponse writeAbc).chunk_end .empty none goodWrite).obj.socket := by
  have hsocket : ((run write_step chunkedResponse writeAbc).chunk_end .empty none goodWrite).obj.socket =
      chunkedBlock ++ ascii "3\r\nabc\r\n" := by decide +kernel
  refine ⟨by decide, by decide +kernel, hsocket, ?_⟩
  rintro ⟨size, block, r', message, hblock, hwire, hmessage⟩
  have hfirst : (chunkedResponse.m_helper.header_data 0).map (·.1) = .ok chunkedBlock := by decide +kernel
  rw [header_data_size chunkedResponse.m_helper 0 size (by decide), hblock] at hfirst
  obtain rfl : block = chunkedBlock := by simpa [Except.map] using hfirst
  rw [hsocket] at hwire
  rw [← List.append_cancel_left hwire] at hmessage
  revert hmessage
  decide

end Libgs.Server
