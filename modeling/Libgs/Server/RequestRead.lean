import Libgs.Server.RequestBodies

/-!
# Reading the body of a request

`read` and `co_read` of `http/server/detail/request.h` copy what the parser holds, and what they read
from the socket, into the buffer of their caller.
-/

namespace Libgs.Server

open Lib Libgs.Http

/-! ## The caller's buffer -/

/-- What a call has written, by the distance from the start of the buffer. -/
abbrev Memory := ℕ → Option UInt8

def memcpy (mem : Memory) (dst : ℕ) (src : Bytes) : Memory :=
  fun i => if dst ≤ i ∧ i < dst + src.length then src[i - dst]? else mem i

/-! ## The calls -/

/-- What one read on the socket comes to. The read that a timer ends has an error of its own. -/
inductive socket_read
  | data (buf : Bytes)
  | failed (error : error_value)
  | timed_out (error : error_value)

structure reading where
  parser : RequestParser
  buf : Memory
  sum : ℕ

structure read_end where
  last : reading
  error : error_code
  socket : List socket_read
  timer : Bool

def reading.start (p : RequestParser) : reading := ⟨p, fun _ => none, 0⟩

def copy_body (buf_size : ℕ) (s : reading) : reading :=
  let (body, parser) := take_partial_body s.parser buf_size
  let sum := s.sum + body.length
  { parser := parser, buf := memcpy s.buf sum body, sum := sum }

def copied (buf_size : ℕ) (s : reading) : Bool := s.sum = buf_size ∨ ¬ can_read_from_device s.parser

def read_more (buf_size : ℕ) : List socket_read → reading → Except exception read_end
  | [], s => .ok ⟨s, some errc.eof, [], false⟩
  | .failed e :: socket, s => .ok ⟨s, some e, socket, false⟩
  | .timed_out e :: socket, s => .ok ⟨s, some e, socket, true⟩
  | .data body :: socket, s =>
    let c := append s.parser body
    let s := { s with parser := c.obj }
    match c.value, c.error with
    | .error e, _ => .error e
    | .ok _, some e => .ok ⟨s, some e, socket, false⟩
    | .ok false, none => read_more buf_size socket s
    | .ok true, none =>
      let s := copy_body buf_size s
      if copied buf_size s then .ok ⟨s, none, socket, false⟩ else read_more buf_size socket s

/-- `read(buf, error)`, where `option` is the error of `get_option`. -/
def read (p : RequestParser) (socket : List socket_read) (option : error_code) (buf_size : ℕ) :
    Except exception read_end :=
  if buf_size = 0 then .ok ⟨.start p, none, socket, false⟩
  else if is_eof p then .ok ⟨.start p, some (errc.make_error_code errc.eof.value), socket, false⟩
  else if option ≠ none then .ok ⟨.start p, option, socket, false⟩
  else
    let s := copy_body buf_size (.start p)
    if copied buf_size s then .ok ⟨s, none, socket, false⟩ else read_more buf_size socket s

/-- `co_read(buf, error)`: the loop of `read` beside a timer. -/
def co_read (p : RequestParser) (socket : List socket_read) (option : error_code) (buf_size : ℕ) :
    Except exception read_end :=
  (read p socket option buf_size).map fun r =>
    if r.timer ∧ r.last.sum = 0 then { r with error := some errc.timed_out } else r

/-! ## What a call does -/

theorem copy_body_sum (buf_size : ℕ) (s : reading) :
    (copy_body buf_size s).sum = s.sum + min buf_size s.parser.m_parser_base.m_partial_body.length := by
  simp [copy_body, take_partial_body, Http.take_partial_body]

theorem copy_body_first (buf_size : ℕ) (s : reading) : (copy_body buf_size s).buf 0 = s.buf 0 := by
  unfold copy_body memcpy
  dsimp only
  rw [if_neg]
  omega

theorem copy_body_none (buf_size : ℕ) (s : reading) (h : s.parser.m_parser_base.m_partial_body = []) :
    (copy_body buf_size s).buf = s.buf := by
  funext i
  unfold copy_body memcpy take_partial_body Http.take_partial_body
  dsimp only
  rw [if_neg]
  simp only [h, List.take_nil, List.length_nil]
  omega

/-- The body of `n` bytes is being received, or has been. -/
def Receiving (n : ℕ) (p : RequestParser) : Prop := ∃ b, Filling n p.m_parser_base b ∨ Filled p.m_parser_base b

theorem receiving_copy (n buf_size : ℕ) (s : reading) (h : Receiving n s.parser) :
    Receiving n (copy_body buf_size s).parser := by
  obtain ⟨b, h | h⟩ := h
  · exact ⟨_, .inl (filling_drop n _ b _ h)⟩
  · exact ⟨_, .inr ⟨h.state, rfl⟩⟩

theorem append_receiving (n : ℕ) (p : RequestParser) (b x : Bytes) (h : Filling n p.m_parser_base b) (hx : x ≠ []) :
    (append p x).Clean true ∧ Receiving n (append p x).obj ∧ (append p x).obj.m_parser_base.m_partial_body ≠ [] := by
  obtain ⟨hobj, herror, hvalue⟩ := append_base p x
  obtain ⟨hless, hmore⟩ := append_filling request_handlers n p.m_parser_base b x h
  have hcall : (Http.append request_handlers p.m_parser_base x).Clean true := by
    simp [Http.append, hx, h.state, Call.ok, Call.Clean]
  have hlen := List.length_pos_iff.mpr hx
  refine ⟨⟨herror.trans hcall.1, hvalue.trans hcall.2⟩, ?_⟩
  unfold Receiving
  rw [hobj]
  by_cases hlt : b.length + x.length < n
  · refine ⟨⟨_, .inl (hless hlt)⟩, ?_⟩
    rw [(hless hlt).body]
    simp [hx]
  · refine ⟨⟨_, .inr (hmore (not_lt.mp hlt))⟩, ?_⟩
    rw [(hmore (not_lt.mp hlt)).body]
    have hn : n ≠ 0 := by
      have := h.more
      omega
    simp [hn, hx]

def Brings (socket : List socket_read) : Prop := ∃ x rest, socket = .data x :: rest ∧ x ≠ []

theorem read_more_spec (n buf_size : ℕ) (socket : List socket_read) (s : reading) (b : Bytes) (hsize : 0 < buf_size)
    (h : Filling n s.parser.m_parser_base b) :
    ∃ r, read_more buf_size socket s = .ok r ∧ Receiving n r.last.parser ∧ r.last.buf 0 = s.buf 0 ∧
      s.sum ≤ r.last.sum ∧ (s.sum < r.last.sum ↔ Brings socket) ∧ (s.sum = r.last.sum → r.last.buf = s.buf) := by
  have hrec : Receiving n s.parser := ⟨b, .inl h⟩
  induction socket generalizing s b with
  | nil => exact ⟨_, rfl, hrec, rfl, le_refl _, by simp [Brings], fun _ => rfl⟩
  | cons o socket ih =>
    cases o with
    | failed e => exact ⟨_, rfl, hrec, rfl, le_refl _, by simp [Brings], fun _ => rfl⟩
    | timed_out e => exact ⟨_, rfl, hrec, rfl, le_refl _, by simp [Brings], fun _ => rfl⟩
    | data x =>
      by_cases hx : x = []
      · subst hx
        refine ⟨⟨s, (make_error_code .IDE), socket, false⟩, rfl, hrec, rfl, le_refl _, by simp [Brings], fun _ => rfl⟩
      · obtain ⟨⟨herror, hvalue⟩, hnext, hheld⟩ := append_receiving n s.parser b x h hx
        set t : reading := copy_body buf_size { s with parser := (append s.parser x).obj } with ht
        have hsum : s.sum < t.sum := by
          have := List.length_pos_iff.mpr hheld
          rw [ht, copy_body_sum]
          dsimp only
          omega
        have hfirst : t.buf 0 = s.buf 0 := copy_body_first _ _
        have hbrings : Brings (.data x :: socket) := ⟨x, socket, rfl, hx⟩
        have hrect : Receiving n t.parser := receiving_copy n buf_size _ hnext
        unfold read_more
        simp only [herror, hvalue, ← ht]
        by_cases hc : copied buf_size t = true
        · rw [if_pos hc]
          exact ⟨_, rfl, hrect, hfirst, hsum.le, by simp [hbrings, hsum], fun h => absurd h hsum.ne⟩
        · rw [if_neg hc]
          obtain ⟨b', hf | hf⟩ := hrect
          · obtain ⟨r, hr, hrr, hb, hle, -, -⟩ := ih t b' hf ⟨b', .inl hf⟩
            have hlt := lt_of_lt_of_le hsum hle
            exact ⟨r, hr, hrr, hb.trans hfirst, hlt.le, by simp [hbrings, hlt], fun h => absurd h hlt.ne⟩
          · exfalso
            apply hc
            simp [copied, can_read_from_device, Http.can_read_from_device, hf.state]

/-- The call asks for nothing, cannot start, or finds nothing to deliver. -/
def Nothing (p : RequestParser) (socket : List socket_read) (option : error_code) (buf_size : ℕ) : Prop :=
  buf_size = 0 ∨ option ≠ none ∨
    p.m_parser_base.m_partial_body = [] ∧ (can_read_from_device p = true → ¬ Brings socket)

/-- Such calls apart, a call returns some bytes. The first byte of the buffer is never written. -/
theorem read_spec (n : ℕ) (p : RequestParser) (socket : List socket_read) (option : error_code) (buf_size : ℕ)
    (h : Receiving n p) :
    ∃ r, read p socket option buf_size = .ok r ∧ Receiving n r.last.parser ∧ r.last.buf 0 = none ∧
      (r.last.sum = 0 ↔ Nothing p socket option buf_size) ∧ (r.last.sum = 0 → ∀ i, r.last.buf i = none) := by
  unfold read
  by_cases hsize : buf_size = 0
  · rw [if_pos hsize]
    exact ⟨_, rfl, h, rfl, by simp [Nothing, hsize, reading.start], fun _ _ => rfl⟩
  rw [if_neg hsize]
  by_cases heof : is_eof p = true
  · rw [if_pos heof]
    simp only [is_eof, Http.is_eof, decide_eq_true_eq] at heof
    refine ⟨_, rfl, h, rfl, ?_, fun _ _ => rfl⟩
    simp [Nothing, reading.start, heof.1, can_read_from_device, heof.2]
  rw [if_neg heof]
  by_cases hoption : option = none
  · rw [if_neg (not_not.mpr hoption)]
    dsimp only
    have hsum := copy_body_sum buf_size (.start p)
    have hfirst := copy_body_first buf_size (.start p)
    have hrec := receiving_copy n buf_size (.start p) h
    have hcan : can_read_from_device (copy_body buf_size (.start p)).parser = can_read_from_device p := rfl
    have hnone := copy_body_none buf_size (.start p)
    set t := copy_body buf_size (.start p)
    simp only [reading.start, Nat.zero_add] at hsum hfirst
    have hheld : t.sum = 0 ↔ p.m_parser_base.m_partial_body = [] := by
      rw [hsum, ← List.length_eq_zero_iff]
      omega
    have hnothing : Nothing p socket option buf_size ↔
        p.m_parser_base.m_partial_body = [] ∧ (can_read_from_device p = true → ¬ Brings socket) := by
      simp [Nothing, hsize, hoption]
    by_cases hc : copied buf_size t = true
    · rw [if_pos hc]
      have hne : p.m_parser_base.m_partial_body ≠ [] := by
        intro hnil
        have h0 := hheld.mpr hnil
        simp only [copied, h0, hcan, decide_eq_true_eq] at hc
        rcases hc with hc | hc
        · exact hsize hc.symm
        · apply heof
          simp only [can_read_from_device] at hc
          simp [is_eof, Http.is_eof, hnil, hc]
      exact ⟨_, rfl, hrec, hfirst, by simp [hnothing, hheld, hne], by simp [hheld, hne]⟩
    · rw [if_neg hc]
      have hread : can_read_from_device p = true := by
        by_contra hno
        exact hc (by simp [copied, hcan, hno])
      obtain ⟨b, hf | hf⟩ := hrec
      · obtain ⟨r, hr, hrr, hb, hle, hmore, hsame⟩ := read_more_spec n buf_size socket t b (Nat.pos_of_ne_zero hsize) hf
        refine ⟨r, hr, hrr, hb.trans hfirst, ?_, fun h0 i => ?_⟩
        · rw [hnothing, ← hheld, ← hmore]
          simp only [hread, forall_true_left]
          omega
        · rw [hsame (by omega), hnone (hheld.mp (by omega))]
          rfl
      · rw [← hcan] at hread
        simp [can_read_from_device, Http.can_read_from_device, hf.state] at hread
  · rw [if_pos hoption]
    exact ⟨_, rfl, h, rfl, by simp [Nothing, hoption, reading.start], fun _ _ => rfl⟩

/-! ## A sequence of calls -/

structure read_call where
  co : Bool
  option : error_code
  buf_size : ℕ

/-- A request whose body is read, with the number of bytes that earlier calls returned. -/
structure Reader where
  parser : RequestParser
  socket : List socket_read
  returned : ℕ

def Reader.call (r : Reader) (c : read_call) : Except exception read_end :=
  if c.co then co_read r.parser r.socket c.option c.buf_size else read r.parser r.socket c.option c.buf_size

def Reader.step (r : Reader) (c : read_call) : Reader :=
  match r.call c with
  | .error _ => r
  | .ok e => ⟨e.last.parser, e.socket, r.returned + e.last.sum⟩

/-- The call returns the next bytes of `body`, in the first bytes of the buffer, and writes nothing
behind it. -/
def Delivers (body : Bytes) (r : Reader) (c : read_call) : Prop :=
  ∃ e, r.call c = .ok e ∧ e.last.sum ≤ c.buf_size ∧ r.returned + e.last.sum ≤ body.length ∧
    (∀ i < e.last.sum, e.last.buf i = body[r.returned + i]?) ∧ ∀ i, c.buf_size ≤ i → e.last.buf i = none

def arriving : List socket_read → Bytes
  | [] => []
  | .data x :: socket => x ++ arriving socket
  | _ :: socket => arriving socket

theorem call_spec (n : ℕ) (r : Reader) (c : read_call) (h : Receiving n r.parser) :
    ∃ e, r.call c = .ok e ∧ Receiving n e.last.parser ∧ e.last.buf 0 = none ∧
      (e.last.sum = 0 ↔ Nothing r.parser r.socket c.option c.buf_size) ∧
      (e.last.sum = 0 → ∀ i, e.last.buf i = none) := by
  obtain ⟨e, he, hrest⟩ := read_spec n r.parser r.socket c.option c.buf_size h
  unfold Reader.call
  by_cases hco : c.co = true
  · rw [if_pos hco, co_read, he]
    refine ⟨_, rfl, ?_⟩
    dsimp only
    split <;> exact hrest
  · rw [if_neg hco]
    exact ⟨e, he, hrest⟩

theorem step_receiving (n : ℕ) (r : Reader) (c : read_call) (h : Receiving n r.parser) :
    Receiving n (r.step c).parser := by
  obtain ⟨e, he, hrec, -⟩ := call_spec n r c h
  unfold Reader.step
  rw [he]
  exact hrec

theorem nothing_of_delivers (n : ℕ) (body : Bytes) (r : Reader) (c : read_call) (h : Receiving n r.parser)
    (hd : Delivers body r c) : Nothing r.parser r.socket c.option c.buf_size := by
  obtain ⟨e, he, -, hfirst, hnothing, -⟩ := call_spec n r c h
  obtain ⟨e', he', -, hlength, hbytes, -⟩ := hd
  obtain rfl : e = e' := by simpa [he] using he'
  rw [← hnothing]
  by_contra hpos
  -- The first byte would have to be written.
  have h0 := hbytes 0 (Nat.pos_of_ne_zero hpos)
  rw [hfirst, List.getElem?_eq_getElem (by omega)] at h0
  cases h0

theorem delivers_of_nothing (n : ℕ) (body : Bytes) (r : Reader) (c : read_call) (h : Receiving n r.parser)
    (hr : r.returned = 0) (hn : Nothing r.parser r.socket c.option c.buf_size) :
    Delivers body r c ∧ (r.step c).returned = 0 := by
  obtain ⟨e, he, -, -, hnothing, hnone⟩ := call_spec n r c h
  have h0 := hnothing.mpr hn
  refine ⟨⟨e, he, by omega, by omega, by omega, fun i _ => hnone h0 i⟩, ?_⟩
  unfold Reader.step
  rw [he]
  simp [hr, h0]

/-- **Reads that deliver the body.** The head of a request with a Content-Length of `n` has arrived,
with the first bytes `b` of the body behind it. All calls meet their contract exactly when none of
them has a byte to deliver. -/
theorem reads_deliver_iff (version : version_t) (h : Head) (n : ℕ) (xs : List Bytes) (x b : Bytes)
    (socket : List socket_read) (calls : List read_call)
    (hr : LengthHead request_handlers (RequestParser.init version).m_parser_base h n) (hne : ∀ x ∈ xs, x ≠ [])
    (hx : x ≠ []) (hlt : xs.flatten.length < h.text.length) (hb : xs.flatten ++ x = h.text ++ b) :
    let start : Reader := ⟨(append (fed (.init version) xs) x).obj, socket, 0⟩
    Guarded Reader.step (Delivers ((b ++ arriving socket).take n)) start calls ↔
      Guarded Reader.step (fun r c => Nothing r.parser r.socket c.option c.buf_size) start calls := by
  intro start
  have hp : Fresh (RequestParser.init version).m_parser_base := fresh_init version _
  obtain ⟨hn, q, hcall⟩ := append_fed_length _ h n xs x b hp hr hne hx hlt hb
  have hstart : Receiving n start.parser := by
    unfold Receiving
    rw [(append_base _ _).1, fed_base, hcall]
    by_cases hshort : b.length < n
    · exact ⟨b, .inl (received_filling q n b hn hshort)⟩
    · exact ⟨b.take n, .inr (received_filled q n b (not_lt.mp hshort))⟩
  constructor
  · intro hall done c more hsplit
    have hrec : Throughout Reader.step (fun r => Receiving n r.parser) start calls :=
      throughout_of_inv (G := fun _ _ => True) (fun r c hr _ => step_receiving n r c hr) start calls hstart
        fun _ _ _ _ => trivial
    exact nothing_of_delivers n _ _ c (hrec done (c :: more) hsplit) (hall done c more hsplit)
  · intro hall done c more hsplit
    have hinv : Throughout Reader.step (fun r => Receiving n r.parser ∧ r.returned = 0) start calls :=
      throughout_of_inv (fun r c hr hn => ⟨step_receiving n r c hr.1, (delivers_of_nothing n [] r c hr.1 hr.2 hn).2⟩)
        start calls ⟨hstart, rfl⟩ hall
    obtain ⟨hrec, hzero⟩ := hinv done (c :: more) hsplit
    exact (delivers_of_nothing n _ _ c hrec hzero (hall done c more hsplit)).1

theorem reads_deliver_iff_post :
    let start : Reader := ⟨(append (fed (.init 0) []) (postHead.text ++ ascii "he")).obj, [.data (ascii "llo")], 0⟩
    Guarded Reader.step (Delivers ((ascii "he" ++ arriving [.data (ascii "llo")]).take 5)) start [⟨true, none, 9⟩] ↔
      Guarded Reader.step (fun r c => Nothing r.parser r.socket c.option c.buf_size) start [⟨true, none, 9⟩] :=
  reads_deliver_iff 0 postHead 5 [] (postHead.text ++ ascii "he") (ascii "he") _ _ post_length (by simp) (by decide)
    (by decide) rfl

/-- The whole body is held, and `co_read` copies it to the bytes behind the caller's buffer. -/
theorem read_behind_buffer :
    ¬ Guarded Reader.step (Delivers (ascii "hello"))
      ⟨(append (.init 0) (postHead.text ++ ascii "hello")).obj, [], 0⟩ [⟨true, none, 5⟩] := by
  intro h
  obtain ⟨e, he, -, -, -, hnone⟩ := h.head
  have hwritten : (Reader.call ⟨(append (.init 0) (postHead.text ++ ascii "hello")).obj, [], 0⟩
      ⟨true, none, 5⟩).toOption.map (fun e => e.last.buf 5) = some (some 104) := by decide +kernel
  rw [he] at hwritten
  simp [Except.toOption, hnone 5 (le_refl _)] at hwritten

end Libgs.Server
