import Libgs.Server.Ranges

/-!
# The end of a response

`write`, `redirect` and `is_finished` of `http/server/detail/response.h`, and when a response counts as finished. The
bytes that are emitted are those that are passed to the socket.
-/

namespace Libgs.Server

open Lib Libgs.Http

/-! ## The operations -/

/-- The kinds of a redirect -/
inductive redirect
  | moved_permanently
  | permanent_redirect
  | found
  | see_other
  | temporary_redirect
  | multiple_choices
  | not_modified

def redirect.status : redirect → status_t
  | .moved_permanently => 301
  | .permanent_redirect => 308
  | .found => 302
  | .see_other => 303
  | .temporary_redirect => 307
  | .multiple_choices => 300
  | .not_modified => 304

/-- `write` and `co_write`, and which of them `redirect` calls. -/
inductive writer
  | write
  | co_write

namespace writer

def base : writer → response → Bytes → write_outcome → Call response ℕ
  | .write => response.base_write
  | .co_write => response.co_base_write

/-- The data goes to the socket. -/
def passes : writer → write_outcome → Bool
  | .write, o => o.non_blocking.isNone
  | .co_write, _ => true

end writer

namespace response

def init (version_v : version_t) (request_headers : headers_t) : response where
  m_helper := response_helper.init version_v request_headers
  socket := []

def is_finished (r : response) : Bool := r.pro_state = .finish

/-- `set_status` of any number. `status_check` throws where there is no such status. -/
def set_checked_status (r : response) (status : status_t) : response :=
  match status_description status with
  | .ok _ => r.set_status status
  | .error _ => r

def set_redirect (r : response) (url : Bytes) (redi : redirect) : response :=
  (r.set_status redi.status).set_header header.location url

/-- The condition under which `do_tcp_service` awaits `call_on_default` after `call_on_request`. -/
def calls_default (r : response) : Bool := !r.is_finished

/-- The count that is left. -/
def remaining (r : response) : ℕ := r.m_helper.m_helper.m_content_length

end response

/-- A write is given with its outcomes. A token with an error in it makes an operation do nothing, and is left out. -/
inductive response_op
  | set_header (key value : Bytes)
  | set_status (status : status_t)
  | write (w : writer) (body : Bytes) (header_o body_o : write_outcome)
  | redirect (w : writer) (url : Bytes) (redi : redirect) (header_o body_o : write_outcome)

/-! ## What has been emitted -/

/-- A header block that was passed to the socket: the bytes up to its end, and the length that it declares. -/
structure head_block where
  size : ℕ
  declared : Option ℕ
  deriving DecidableEq

/-- A response and its header block, if that has been emitted. -/
structure progress where
  obj : response
  head : Option head_block

/-- The length that stands in the header block after `header_data`. -/
def response.declared (r : response) : Option ℕ := if r.pro_state = .content_length then some r.remaining else none

/-- The header block that the write emits, if it emits one -/
def head_passed (w : writer) (r : response) (size : ℕ) (o : write_outcome) : Option head_block :=
  let c := response.header_with w.base r size o
  if r.pro_state = .header ∧ c.obj.socket ≠ r.socket then some ⟨c.obj.socket.length, c.obj.declared⟩ else none

namespace progress

def init (version_v : version_t) (request_headers : headers_t) : progress where
  obj := response.init version_v request_headers
  head := none

/-- A write, with the block that it may emit -/
def write (s : progress) (w : writer) (body : Bytes) (header_o body_o : write_outcome) : progress where
  obj := (response.write_with w.base s.obj body none header_o body_o).obj
  head := s.head.or (head_passed w s.obj body.length header_o)

def set_redirect (s : progress) (url : Bytes) (redi : redirect) : progress :=
  { s with obj := s.obj.set_redirect url redi }

end progress

/-- When `header_data` throws, the process ends; here the response stays as it was. -/
def progress_step (s : progress) : response_op → progress
  | .set_header key value => { s with obj := s.obj.set_header key value }
  | .set_status status => { s with obj := s.obj.set_checked_status status }
  | .write w body header_o body_o => s.write w body header_o body_o
  -- Read as a write of the empty buffer: the calls in the source have an argument or an operator too many.
  | .redirect w url redi header_o body_o => (s.set_redirect url redi).write w [] header_o body_o

/-- A header block has been emitted, and behind it as many bytes as it declares. -/
def Complete (s : progress) : Prop :=
  ∃ block n, s.head = some block ∧ block.declared = some n ∧ s.obj.socket.length = block.size + n

/-- Completion is reported exactly, and the default handler does not follow a complete response. -/
structure Exact (s : progress) : Prop where
  finished : s.obj.is_finished = true ↔ Complete s
  no_default : Complete s → s.obj.calls_default = false

/-! ## The condition -/

/-- The length that a header block would declare for a body of `size` bytes: what the user has set, or `size`. There is
no block without a status line, or with a length that is not a number. -/
def response.declares (r : response) (size : ℕ) : Option ℕ :=
  match r.m_helper.status_line with
  | .error _ => none
  | .ok _ =>
    match r.m_helper.header_helper.m_headers.find header.content_length with
    | some text => (ston text 10).toOption
    | none =>
      match r.m_helper.header_helper.m_headers.find header.transfer_encoding with
      | some text => if str_to_lower text = string_pool.chunked then none else some size
      | none => some size

/-- Header block and body are emitted so far as they have been counted. -/
def Whole (s : progress) : Prop :=
  ∃ block n, s.head = some block ∧ block.declared = some n ∧ s.obj.socket.length + s.obj.remaining = block.size + n

/-- Behind a header block that declares no bytes, a body is given in the same call. -/
def BodyBehindZero (s : progress) (w : writer) (body : Bytes) (header_o : write_outcome) : Prop :=
  s.obj.pro_state = .header → s.obj.declares body.length = some 0 → w.passes header_o = true →
    header_o.write = none ∧ body ≠ []

/-- The call that uses the count up emits its bytes, and nothing was lost before. -/
structure NothingLost (s : progress) (w : writer) (body : Bytes) (header_o body_o : write_outcome) : Prop where
  first : s.obj.pro_state = .header → ∀ n, s.obj.declares body.length = some n → 0 < n → n ≤ body.length →
    w.passes header_o = true → header_o.write = none → w.passes body_o = true
  later : s.obj.pro_state = .content_length → body ≠ [] → s.obj.remaining ≤ body.length →
    Whole s ∧ w.passes body_o = true

/-- Both conditions on a write, under which completion is reported exactly -/
structure CarefulWrite (s : progress) (w : writer) (body : Bytes) (header_o body_o : write_outcome) : Prop where
  zero : BodyBehindZero s w body header_o
  lost : NothingLost s w body header_o body_o

/-- The operation is a careful write, or writes nothing. -/
def Careful (s : progress) : response_op → Prop
  | .set_header _ _ | .set_status _ => True
  | .write w body header_o body_o => CarefulWrite s w body header_o body_o
  | .redirect w url redi header_o body_o => CarefulWrite (s.set_redirect url redi) w [] header_o body_o

/-! ## The writes -/

theorem base_spec (w : writer) (r : response) (data : Bytes) (o : write_outcome) :
    (w.base r data o).obj = (if w.passes o then { r with socket := r.socket ++ data } else r) ∧
      ((w.base r data o).error = none ↔ w.passes o = true ∧ o.write = none) ∧
        ∃ sum, (w.base r data o).value = .ok sum := by
  obtain ⟨mode, write, sent⟩ := o
  cases w with
  | write =>
    cases mode with
    | none => exact ⟨rfl, by simp [writer.base, response.base_write, Call.ok, writer.passes], _, rfl⟩
    | some e => exact ⟨rfl, by simp [writer.base, response.base_write, Call.ok, writer.passes], _, rfl⟩
  | co_write => exact ⟨rfl, by simp [writer.base, writer.passes, response.co_base_write, Call.ok], _, rfl⟩

theorem declared_eq (r : response) :
    r.declared = if r.m_helper.m_helper.m_state = .content_length then some r.m_helper.m_helper.m_content_length
      else none := rfl

theorem header_data_declared (r : response) (size : ℕ) (hstate : r.pro_state = .header) :
    (∃ e, r.m_helper.header_data size = .error e ∧ r.declares size = none) ∨
      ∃ block helper, r.m_helper.header_data size = .ok (block, helper) ∧
        ∀ r' : response, r'.m_helper = helper → r'.declared = r.declares size := by
  replace hstate : r.m_helper.m_helper.m_state = .header := hstate
  have hstate' : r.m_helper.header_helper.m_state = .header := (header_helper_state r.m_helper).1.trans hstate
  unfold response.declares
  cases hline : r.m_helper.status_line with
  | error e =>
    refine .inl ⟨e, ?_, rfl⟩
    unfold response_helper.header_data
    rw [if_neg (not_not.mpr hstate), hline]
  | ok line =>
    rw [header_data_of_line r.m_helper size line hstate hline]
    unfold helper_base.header_data
    rw [if_neg (not_not.mpr hstate')]
    dsimp only
    cases r.m_helper.header_helper.m_headers.find header.content_length with
    | some text =>
      dsimp only
      cases ston text 10 with
      | error e => exact .inl ⟨e, rfl, rfl⟩
      | ok n =>
        refine .inr ⟨_, _, rfl, fun r' hhelper => ?_⟩
        rw [declared_eq, hhelper]
        rfl
    | none =>
      refine .inr ⟨_, _, rfl, fun r' hhelper => ?_⟩
      rw [declared_eq, hhelper, if_pos (show 1 < version.v11.toNat from by decide)]
      cases r.m_helper.header_helper.m_headers.find header.transfer_encoding with
      | none => rfl
      | some text =>
        by_cases hchunked : str_to_lower text = string_pool.chunked
        · simp [hchunked]
        · simp [hchunked, helper_base.declare_length]

theorem rest_with_obj (base : response → Bytes → write_outcome → Call response ℕ) (r : response) (sum : ℕ)
    (body : Bytes) (o : write_outcome) :
    (response.rest_with base r sum body o).obj = (response.rest_with base r 0 body o).obj := by
  unfold response.rest_with
  split <;> rfl

/-- The body of a write, behind the header block. -/
def progress.after_body (s : progress) (w : writer) (body : Bytes) (o : write_outcome) : progress :=
  { s with obj := (response.rest_with w.base s.obj 0 body o).obj }

section

variable (s : progress) (w : writer) (body : Bytes) (header_o body_o : write_outcome)

theorem head_passed_later (size : ℕ) (h : s.obj.pro_state ≠ .header) :
    s.head.or (head_passed w s.obj size header_o) = s.head := by
  unfold head_passed
  dsimp only
  rw [if_neg fun hc => h hc.1, Option.or_none]

theorem write_finish (h : s.obj.pro_state = .finish) : s.write w body header_o body_o = s := by
  unfold progress.write response.write_with
  rw [head_passed_later s w header_o _ (by simp [h]), if_pos h]
  rfl

theorem write_later (h : s.obj.pro_state ≠ .header) (h' : s.obj.pro_state ≠ .finish) :
    s.write w body header_o body_o = s.after_body w body body_o := by
  unfold progress.write response.write_with
  rw [head_passed_later s w header_o _ h, if_neg h', if_neg h]
  rfl

/-- **The first write.** No block is made, or a block is made and maybe emitted, and the body comes behind it if nothing
has failed. -/
theorem write_first (hstate : s.obj.pro_state = .header) (hhead : s.head = none) :
    (s.obj.declares body.length = none ∧ s.write w body header_o body_o = s) ∨
      ∃ t : progress, (t.obj.pro_state = .chunk ∨ t.obj.pro_state = .content_length) ∧
        t.obj.declared = s.obj.declares body.length ∧
        t.head = (if w.passes header_o then some ⟨t.obj.socket.length, t.obj.declared⟩ else none) ∧
        s.write w body header_o body_o =
          if w.passes header_o = true ∧ header_o.write = none then t.after_body w body body_o else t := by
  obtain ⟨r, head⟩ := s
  obtain rfl : head = none := hhead
  unfold progress.write response.write_with head_passed
  dsimp only at hstate ⊢
  rw [if_neg (by simp [hstate]), if_pos hstate, Option.none_or]
  rcases header_data_declared r body.length hstate with ⟨e, hdata, hdeclares⟩ | ⟨block, helper, hdata, hdeclares⟩
  · have hcall : response.header_with w.base r body.length header_o = .fail r none e := by
      unfold response.header_with
      rw [hdata]
    refine .inl ⟨hdeclares, ?_⟩
    rw [hcall, if_neg fun h => h.2 rfl]
    rfl
  · obtain ⟨⟨t, hblock⟩, -, hnext⟩ := header_data_spec r.m_helper helper body.length block hstate hdata
    have hcall : response.header_with w.base r body.length header_o =
        w.base { r with m_helper := helper } block header_o := by
      unfold response.header_with
      rw [hdata]
    obtain ⟨hobj, herror, sum, hvalue⟩ := base_spec w { r with m_helper := helper } block header_o
    rw [hcall]
    generalize w.base { r with m_helper := helper } block header_o = c at hobj herror hvalue ⊢
    obtain ⟨obj, error, value⟩ := c
    obtain rfl : value = .ok sum := hvalue
    dsimp only at hobj herror ⊢
    have hhelper : obj.m_helper = helper := by
      rw [hobj]
      split <;> rfl
    refine .inr ⟨⟨obj, if w.passes header_o then some ⟨obj.socket.length, obj.declared⟩ else none⟩, ?_,
      hdeclares obj hhelper, rfl, ?_⟩
    · unfold response.pro_state
      rw [hhelper]
      exact hnext
    · have hpassed : r.pro_state = .header ∧ obj.socket ≠ r.socket ↔ w.passes header_o = true := by
        rw [hobj]
        split
        · rename_i hpasses
          simp [hstate, hpasses, hblock]
        · rename_i hpasses
          simp [hpasses]
      rw [if_congr hpassed rfl rfl]
      by_cases hgood : error = none
      · rw [if_neg (not_not.mpr hgood), if_pos (herror.mp hgood)]
        exact congrArg (progress.mk · _) (rest_with_obj w.base obj sum body body_o)
      · rw [if_pos hgood, if_neg fun h => hgood (herror.mpr h)]
        rfl

theorem after_body_chunk (h : s.obj.pro_state = .chunk) : (s.after_body w body body_o).obj.pro_state = .chunk := by
  unfold progress.after_body response.rest_with
  dsimp only
  split
  · obtain ⟨hobj, -, -⟩ := base_spec w { s.obj with m_helper := (s.obj.m_helper.body_data body).2 }
      (s.obj.m_helper.body_data body).1 body_o
    have hcall := helper_base.body_data_chunk s.obj.m_helper.m_helper body h
    unfold response.body_with response.pro_state
    dsimp only
    rw [hobj]
    split <;> simp [response_helper.body_data, hcall, show s.obj.m_helper.m_helper.m_state = .chunk from h]
  · exact h

theorem after_body_counted (h : s.obj.pro_state = .content_length) (hbody : body ≠ []) :
    let t := s.after_body w body body_o
    (body.length < s.obj.remaining ∧ t.obj.pro_state = .content_length ∧
        t.obj.remaining = s.obj.remaining - body.length ∧ t.obj.socket.length ≤ s.obj.socket.length + body.length) ∨
      (s.obj.remaining ≤ body.length ∧ t.obj.pro_state = .finish ∧
        t.obj.socket.length = s.obj.socket.length + if w.passes body_o then s.obj.remaining else 0) := by
  replace h : s.obj.m_helper.m_helper.m_state = .content_length := h
  have hpos : 0 < body.length := List.length_pos_iff.mpr hbody
  obtain ⟨hobj, -, -⟩ := base_spec w { s.obj with m_helper := (s.obj.m_helper.body_data body).2 }
    (s.obj.m_helper.body_data body).1 body_o
  intro t
  have ht : t.obj = (w.base { s.obj with m_helper := (s.obj.m_helper.body_data body).2 }
      (s.obj.m_helper.body_data body).1 body_o).obj := by
    show (response.rest_with w.base s.obj 0 body body_o).obj = _
    unfold response.rest_with
    rw [if_pos hpos]
    rfl
  unfold response.pro_state response.remaining
  rw [ht, hobj]
  rcases Nat.lt_or_ge body.length s.obj.m_helper.m_helper.m_content_length with hlt | hle
  · obtain ⟨hst, hcount, hout⟩ := helper_base.step_body_below version.v11 body h hlt
    replace hout : (s.obj.m_helper.body_data body).1 = body := hout
    refine .inl ⟨hlt, ?_⟩
    cases w.passes body_o with
    | true => exact ⟨hst, hcount, by simp [hout]⟩
    | false => exact ⟨hst, hcount, Nat.le_add_right _ _⟩
  · obtain ⟨hst, hout⟩ := helper_base.step_body_reached version.v11 body h hle
    replace hout : (s.obj.m_helper.body_data body).1 = body.take s.obj.m_helper.m_helper.m_content_length := hout
    refine .inr ⟨hle, ?_⟩
    cases w.passes body_o with
    | true => exact ⟨hst, by simp [hout, hle]⟩
    | false => exact ⟨hst, rfl⟩

theorem after_body_nil (h : body = []) : s.after_body w body body_o = s := by
  rw [h]
  rfl

end

/-! ## What is left to come -/

/-- While the count runs down, no more than it is left to come behind the header block. -/
structure Counted (s : progress) : Prop where
  header : s.obj.pro_state = .header → s.head = none
  length : s.obj.pro_state = .content_length → ∀ block, s.head = some block →
    ∃ n, block.declared = some n ∧ s.obj.socket.length + s.obj.remaining ≤ block.size + n
  chunk : s.obj.pro_state = .chunk → ∀ block, s.head = some block → block.declared = none

theorem Counted.bound {s : progress} (hs : Counted s) (h : s.obj.pro_state = .content_length) {block : head_block}
    {n : ℕ} (hblock : s.head = some block) (hn : block.declared = some n) :
    s.obj.socket.length + s.obj.remaining ≤ block.size + n := by
  obtain ⟨n', hn', hle⟩ := hs.length h block hblock
  obtain rfl : n = n' := Option.some.inj (hn.symm.trans hn')
  exact hle

theorem counted_of_finish (s : progress) (h : s.obj.pro_state = .finish) : Counted s :=
  ⟨fun hst => by simp [h] at hst, fun hst => by simp [h] at hst, fun hst => by simp [h] at hst⟩

theorem exact_iff (s : progress) : Exact s ↔ (s.obj.pro_state = .finish ↔ Complete s) := by
  have hfinished : s.obj.is_finished = true ↔ s.obj.pro_state = .finish := decide_eq_true_iff
  constructor
  · intro h
    exact hfinished.symm.trans h.finished
  · intro h
    refine ⟨hfinished.trans h, fun hcomplete => ?_⟩
    unfold response.calls_default
    rw [hfinished.mpr (h.mpr hcomplete)]
    rfl

theorem exact_unfinished (s : progress) (h : s.obj.pro_state ≠ .finish) : Exact s ↔ ¬ Complete s := by
  rw [exact_iff]
  exact ⟨fun hs hc => h (hs.mpr hc), fun hc => iff_of_false h hc⟩

theorem exact_finished (s : progress) (h : s.obj.pro_state = .finish) : Exact s ↔ Complete s := by
  rw [exact_iff]
  exact ⟨fun hs => hs.mp h, fun hc => iff_of_true h hc⟩

theorem complete_iff_whole (s : progress) (hs : Counted s) (h : s.obj.pro_state = .content_length) :
    Complete s ↔ Whole s ∧ s.obj.remaining = 0 := by
  constructor
  · rintro ⟨block, n, hblock, hn, hlength⟩
    have hle := hs.bound h hblock hn
    exact ⟨⟨block, n, hblock, hn, by omega⟩, by omega⟩
  · rintro ⟨⟨block, n, hblock, hn, hlength⟩, hzero⟩
    exact ⟨block, n, hblock, hn, by omega⟩

theorem chunk_exact (s : progress) (hs : Counted s) (h : s.obj.pro_state = .chunk) : Exact s := by
  apply (exact_unfinished s (by simp [h])).mpr
  rintro ⟨block, n, hblock, hn, -⟩
  rw [hs.chunk h block hblock] at hn
  cases hn

section

variable (s : progress) (w : writer) (body : Bytes) (o : write_outcome)

theorem after_body_counts (hs : Counted s) (h : s.obj.pro_state = .chunk ∨ s.obj.pro_state = .content_length) :
    Counted (s.after_body w body o) := by
  rcases h with h | h
  · have hnext := after_body_chunk s w body o h
    exact ⟨fun hst => by simp [hnext] at hst, fun hst => by simp [hnext] at hst, fun _ => hs.chunk h⟩
  · by_cases hbody : body = []
    · rw [after_body_nil s w body o hbody]
      exact hs
    · rcases after_body_counted s w body o h hbody with ⟨hlt, hnext, hcount, hsocket⟩ | ⟨-, hnext, -⟩
      · refine ⟨fun hst => by simp [hnext] at hst, fun _ block hblock => ?_, fun hst => by simp [hnext] at hst⟩
        obtain ⟨n, hn, hle⟩ := hs.length h block hblock
        exact ⟨n, hn, by omega⟩
      · exact counted_of_finish _ hnext

theorem after_body_exact_iff (hs : Counted s) (h : s.obj.pro_state = .content_length) :
    Exact (s.after_body w body o) ↔ (body = [] → ¬ Complete s) ∧
      (body ≠ [] → s.obj.remaining ≤ body.length → Whole s ∧ (s.obj.remaining = 0 ∨ w.passes o = true)) := by
  by_cases hbody : body = []
  · rw [after_body_nil s w body o hbody, exact_unfinished s (by simp [h])]
    exact ⟨fun hc => ⟨fun _ => hc, fun hne => absurd hbody hne⟩, fun hc => hc.1 hbody⟩
  · rcases after_body_counted s w body o h hbody with ⟨hlt, hnext, -, hsocket⟩ | ⟨hle, hnext, hsocket⟩
    · rw [exact_unfinished _ (by simp [hnext])]
      refine iff_of_true ?_ ⟨fun hnil => absurd hnil hbody, fun _ hle => absurd hlt (Nat.not_lt.mpr hle)⟩
      rintro ⟨block, n, hblock, hn, hlength⟩
      have hle := hs.bound h hblock hn
      omega
    · rw [exact_finished _ hnext]
      constructor
      · rintro ⟨block, n, hblock, hn, hlength⟩
        refine ⟨fun hnil => absurd hnil hbody, fun _ _ => ?_⟩
        have hle := hs.bound h hblock hn
        rw [hlength] at hsocket
        split at hsocket
        · rename_i hpasses
          exact ⟨⟨block, n, hblock, hn, hsocket.symm⟩, .inr hpasses⟩
        · exact ⟨⟨block, n, hblock, hn, by omega⟩, .inl (by omega)⟩
      · rintro ⟨-, hwhole⟩
        obtain ⟨⟨block, n, hblock, hn, hlength⟩, hall⟩ := hwhole hbody hle
        refine ⟨block, n, hblock, hn, ?_⟩
        rw [hsocket]
        split
        · exact hlength
        · rename_i hpasses
          have := hall.resolve_right hpasses
          omega

end

/-! ## One step -/

theorem first_block (t : progress) (passed : Bool)
    (hstate : t.obj.pro_state = .chunk ∨ t.obj.pro_state = .content_length)
    (hhead : t.head = if passed then some ⟨t.obj.socket.length, t.obj.declared⟩ else none) :
    Counted t ∧ (t.obj.pro_state = .content_length → (Whole t ↔ passed = true)) := by
  cases passed with
  | false =>
    have hnone : t.head = none := hhead
    refine ⟨⟨fun _ => hnone, ?_, ?_⟩, fun _ => iff_of_false ?_ Bool.false_ne_true⟩
    · intro _ block hblock
      simp [hnone] at hblock
    · intro _ block hblock
      simp [hnone] at hblock
    · rintro ⟨block, n, hblock, -⟩
      simp [hnone] at hblock
  | true =>
    have hsome : t.head = some ⟨t.obj.socket.length, t.obj.declared⟩ := hhead
    have hdeclared : t.obj.pro_state = .content_length → t.obj.declared = some t.obj.remaining := fun h => if_pos h
    refine ⟨⟨fun h => ?_, fun h block hblock => ?_, fun h block hblock => ?_⟩, fun h => iff_of_true ?_ rfl⟩
    · simp [h] at hstate
    · obtain rfl := Option.some.inj (hsome.symm.trans hblock)
      exact ⟨t.obj.remaining, hdeclared h, le_rfl⟩
    · obtain rfl := Option.some.inj (hsome.symm.trans hblock)
      exact if_neg (by simp [h])
    · exact ⟨_, t.obj.remaining, hsome, hdeclared h, rfl⟩

section

variable (s : progress) (w : writer) (body : Bytes) (header_o body_o : write_outcome)

theorem write_counts (hs : Counted s) : Counted (s.write w body header_o body_o) := by
  cases hstate : s.obj.pro_state with
  | finish =>
    rw [write_finish s w body header_o body_o hstate]
    exact hs
  | header =>
    rcases write_first s w body header_o body_o hstate (hs.header hstate) with ⟨-, hw⟩ | ⟨t, ht, -, hhead, hw⟩
    · rw [hw]
      exact hs
    · have hcounts := (first_block t _ ht hhead).1
      rw [hw]
      split
      · exact after_body_counts t w body body_o hcounts ht
      · exact hcounts
  | content_length =>
    rw [write_later s w body header_o body_o (by simp [hstate]) (by simp [hstate])]
    exact after_body_counts s w body body_o hs (.inr hstate)
  | chunk =>
    rw [write_later s w body header_o body_o (by simp [hstate]) (by simp [hstate])]
    exact after_body_counts s w body body_o hs (.inl hstate)

theorem careful_of_state (h : s.obj.pro_state = .chunk ∨ s.obj.pro_state = .finish) :
    CarefulWrite s w body header_o body_o := by
  rcases h with h | h
  · exact ⟨fun hst => by simp [h] at hst, fun hst => by simp [h] at hst, fun hst => by simp [h] at hst⟩
  · exact ⟨fun hst => by simp [h] at hst, fun hst => by simp [h] at hst, fun hst => by simp [h] at hst⟩

theorem write_first_exact_iff (hs : Counted s) (he : Exact s) (hstate : s.obj.pro_state = .header) :
    Exact (s.write w body header_o body_o) ↔ CarefulWrite s w body header_o body_o := by
  have hlater : s.obj.pro_state ≠ .content_length := by simp [hstate]
  rcases write_first s w body header_o body_o hstate (hs.header hstate) with
    ⟨hnone, hw⟩ | ⟨t, ht, hdeclared, hhead, hw⟩
  · rw [hw]
    refine iff_of_true he ⟨fun _ h => ?_, fun _ n h => ?_, fun h => absurd h hlater⟩
    · simp [hnone] at h
    · simp [hnone] at h
  · obtain ⟨hcounts, hwhole⟩ := first_block t _ ht hhead
    rw [hw]
    rcases ht with ht | ht
    · have hnone : s.obj.declares body.length = none := hdeclared.symm.trans (if_neg (by simp [ht]))
      refine iff_of_true ?_ ⟨fun _ h => ?_, fun _ n h => ?_, fun h => absurd h hlater⟩
      · split
        · have hnext := after_body_counts t w body body_o hcounts (.inl ht)
          exact chunk_exact _ hnext (after_body_chunk t w body body_o ht)
        · exact chunk_exact t hcounts ht
      · simp [hnone] at h
      · simp [hnone] at h
    · have hsome : s.obj.declares body.length = some t.obj.remaining := hdeclared.symm.trans (if_pos ht)
      have hcomplete : Complete t ↔ w.passes header_o = true ∧ t.obj.remaining = 0 := by
        rw [complete_iff_whole t hcounts ht, hwhole ht]
      by_cases hgood : w.passes header_o = true ∧ header_o.write = none
      · rw [if_pos hgood, after_body_exact_iff t w body body_o hcounts ht, hcomplete, hwhole ht]
        constructor
        · intro h
          refine ⟨fun _ hzero _ => ⟨hgood.2, fun hnil => ?_⟩, fun _ n hn hpos hle _ _ => ?_, fun h => absurd h hlater⟩
          · exact h.1 hnil ⟨hgood.1, Option.some.inj (hsome.symm.trans hzero)⟩
          · obtain rfl : t.obj.remaining = n := Option.some.inj (hsome.symm.trans hn)
            have hbody : body ≠ [] := List.length_pos_iff.mp (by omega)
            exact (h.2 hbody hle).2.resolve_left (by omega)
        · intro h
          refine ⟨fun hnil hnone => ?_, fun _ hle => ⟨hgood.1, ?_⟩⟩
          · exact (h.zero hstate (hnone.2 ▸ hsome) hgood.1).2 hnil
          · rcases Nat.eq_zero_or_pos t.obj.remaining with hzero | hpos
            · exact .inl hzero
            · exact .inr (h.lost.first hstate _ hsome hpos hle hgood.1 hgood.2)
      · -- The write of the header block has failed, and no body comes behind it.
        rw [if_neg hgood, exact_unfinished t (by simp [ht]), hcomplete]
        constructor
        · intro h
          refine ⟨fun _ hzero hpasses => ?_, fun _ n _ _ _ hpasses hwrite => ?_, fun h => absurd h hlater⟩
          · exact absurd ⟨hpasses, Option.some.inj (hsome.symm.trans hzero)⟩ h
          · exact absurd ⟨hpasses, hwrite⟩ hgood
        · rintro h ⟨hpasses, hzero⟩
          exact hgood ⟨hpasses, (h.zero hstate (hzero ▸ hsome) hpasses).1⟩

theorem write_exact_iff (hs : Counted s) (he : Exact s) :
    Exact (s.write w body header_o body_o) ↔ CarefulWrite s w body header_o body_o := by
  cases hstate : s.obj.pro_state with
  | finish =>
    rw [write_finish s w body header_o body_o hstate]
    exact iff_of_true he (careful_of_state s w body header_o body_o (.inr hstate))
  | header => exact write_first_exact_iff s w body header_o body_o hs he hstate
  | content_length =>
    have hnot : ¬ Complete s := (exact_unfinished s (by simp [hstate])).mp he
    rw [write_later s w body header_o body_o (by simp [hstate]) (by simp [hstate]),
      after_body_exact_iff s w body body_o hs hstate]
    constructor
    · intro h
      refine ⟨fun hst => by simp [hstate] at hst, fun hst => by simp [hstate] at hst, fun _ hbody hle => ?_⟩
      obtain ⟨hwhole, hall⟩ := h.2 hbody hle
      refine ⟨hwhole, hall.resolve_left fun hzero => hnot ?_⟩
      exact (complete_iff_whole s hs hstate).mpr ⟨hwhole, hzero⟩
    · intro h
      refine ⟨fun _ => hnot, fun hbody hle => ?_⟩
      obtain ⟨hwhole, hpasses⟩ := h.lost.later hstate hbody hle
      exact ⟨hwhole, .inr hpasses⟩
  | chunk =>
    rw [write_later s w body header_o body_o (by simp [hstate]) (by simp [hstate])]
    refine iff_of_true ?_ (careful_of_state s w body header_o body_o (.inl hstate))
    exact chunk_exact _ (after_body_counts s w body body_o hs (.inl hstate)) (after_body_chunk s w body body_o hstate)

end

/-- Only headers and the status are set. -/
structure Sets (r r' : response) : Prop where
  state : r'.pro_state = r.pro_state
  remaining : r'.remaining = r.remaining
  socket : r'.socket = r.socket

theorem set_header_sets (r : response) (key value : Bytes) : Sets r (r.set_header key value) := ⟨rfl, rfl, rfl⟩

theorem set_redirect_sets (r : response) (url : Bytes) (redi : redirect) : Sets r (r.set_redirect url redi) :=
  ⟨rfl, rfl, rfl⟩

theorem set_checked_status_sets (r : response) (status : status_t) : Sets r (r.set_checked_status status) := by
  unfold response.set_checked_status
  split <;> exact ⟨rfl, rfl, rfl⟩

theorem Sets.counts {s : progress} {r : response} (h : Sets s.obj r) (hs : Counted s) :
    Counted { s with obj := r } := by
  obtain ⟨hstate, hremaining, hsocket⟩ := h
  refine ⟨fun hst => hs.header (hstate ▸ hst), fun hst block hblock => ?_, fun hst => hs.chunk (hstate ▸ hst)⟩
  dsimp only
  rw [hsocket, hremaining]
  exact hs.length (hstate ▸ hst) block hblock

theorem Sets.exact {s : progress} {r : response} (h : Sets s.obj r) (he : Exact s) : Exact { s with obj := r } := by
  obtain ⟨hstate, -, hsocket⟩ := h
  rw [exact_iff] at he ⊢
  unfold Complete at he ⊢
  dsimp only
  rw [hstate, hsocket]
  exact he

theorem progress_step_counts (s : progress) (op : response_op) (hs : Counted s) : Counted (progress_step s op) := by
  cases op with
  | set_header key value => exact (set_header_sets s.obj key value).counts hs
  | set_status status => exact (set_checked_status_sets s.obj status).counts hs
  | write w body header_o body_o => exact write_counts s w body header_o body_o hs
  | redirect w url redi header_o body_o =>
    exact write_counts _ w [] header_o body_o ((set_redirect_sets s.obj url redi).counts hs)

theorem progress_step_exact_iff (s : progress) (op : response_op) (hs : Counted s) (he : Exact s) :
    Exact (progress_step s op) ↔ Careful s op := by
  cases op with
  | set_header key value => exact iff_of_true ((set_header_sets s.obj key value).exact he) trivial
  | set_status status => exact iff_of_true ((set_checked_status_sets s.obj status).exact he) trivial
  | write w body header_o body_o => exact write_exact_iff s w body header_o body_o hs he
  | redirect w url redi header_o body_o =>
    have hset := set_redirect_sets s.obj url redi
    exact write_exact_iff _ w [] header_o body_o (hset.counts hs) (hset.exact he)

/-! ## The run -/

theorem init_counts (version_v : version_t) (request_headers : headers_t) :
    Counted (progress.init version_v request_headers) where
  header _ := rfl
  length _ _ hblock := by cases hblock
  chunk _ _ hblock := by cases hblock

theorem init_exact (version_v : version_t) (request_headers : headers_t) :
    Exact (progress.init version_v request_headers) := by
  have hstate : (progress.init version_v request_headers).obj.pro_state = .header := rfl
  apply (exact_unfinished _ (by simp [hstate])).mpr
  rintro ⟨block, n, hblock, -⟩
  cases hblock

/-- **Completion is reported exactly where no block declares zero alone.** For every request, chunked or not, and all
operations in any order: `is_finished` tells in every state whether the response is complete, if and only if no header
block that declares no bytes is emitted without a body in its call, and nothing that is counted is lost. -/
theorem finished_exactly_iff (version_v : version_t) (request_headers : headers_t) (ops : List response_op) :
    Throughout progress_step Exact (progress.init version_v request_headers) ops ↔
      Guarded progress_step Careful (progress.init version_v request_headers) ops :=
  throughout_iff_guarded (fun s op hs _ _ => progress_step_counts s op hs)
    (fun s op hs he => progress_step_exact_iff s op hs he) _ ops (init_counts version_v request_headers)
    (init_exact version_v request_headers)

/-- A redirect of a request of version 1.1 without headers. -/
def redirectOps : List response_op :=
  [.redirect .co_write (ascii "/new") .moved_permanently goodWrite goodWrite]

/-- The header block of the redirect declares no bytes. It is all of the response, and the default handler follows. -/
theorem redirect_not_finished :
    let s := run progress_step (progress.init version.v11 .empty) redirectOps
    s.obj.m_helper.request_chunked = false ∧ s.obj.socket =
        ascii "HTTP/1.1 301 Moved Permanently\r\n" ++ ascii "Content-Length: 0\r\n" ++
          ascii "Content-Type: text/plain; charset=utf-8\r\n" ++ ascii "location: /new\r\n\r\n" ∧
      Complete s ∧ s.obj.is_finished = false ∧ s.obj.calls_default = true ∧
        ¬ Throughout progress_step Exact (progress.init version.v11 .empty) redirectOps := by
  intro s
  have hhead : s.head = some ⟨110, some 0⟩ := by decide +kernel
  have hlength : s.obj.socket.length = 110 := by decide +kernel
  have hopen : s.obj.is_finished = false := by decide +kernel
  have hcomplete : Complete s := ⟨_, 0, hhead, rfl, hlength⟩
  refine ⟨by decide, by decide +kernel, hcomplete, hopen, by decide +kernel, fun h => ?_⟩
  have hfinished := h.last.finished.mpr hcomplete
  rw [hopen] at hfinished
  cases hfinished

end Libgs.Server
