import Libgs.Core.PercentEncoding
import Mathlib.Data.List.Forall2
import Mathlib.Data.List.TakeDrop

/-!
# Percent encoding in place

The two loops of `core/algorithm/misc.cpp` with their buffers: the decoder writes over the text that it reads, and the
encoder grows its result at the first escape.
-/

namespace Libgs.percent_coding

open Lib

/-- `buf[i] = c`. `none` is a write beyond what is allocated. -/
def write_char (buf : Bytes) (i : ℕ) (c : UInt8) : Option Bytes := if i < buf.length then some (buf.set i c) else none

/-- `std::string::resize` -/
def resize (buf : Bytes) (n : ℕ) : Bytes := buf.take n ++ List.replicate (n - buf.length) 0

theorem write_char_at (done rest : Bytes) (c d : UInt8) :
    write_char (done ++ d :: rest) done.length c = some (done ++ c :: rest) := by
  rw [write_char, if_pos (by simp)]
  simp

/-! ## The decoder -/

/-- `result` is read at `i` and written at `outlen`. -/
structure decode_loop where
  result : Bytes
  i : ℕ
  outlen : ℕ

/-- One turn. `inputPtr` and `data` point into the same text. -/
def decode_turn (len : ℕ) (s : decode_loop) : Option decode_loop :=
  (s.result[s.i]?).bind fun c =>
    if c = 0x25 ∧ s.i + 2 < len then
      (s.result[s.i + 1]?).bind fun a => (s.result[s.i + 2]?).bind fun b =>
        (write_char s.result s.outlen (hex_value a <<< 4 ||| hex_value b)).map fun result =>
          { result := result, i := s.i + 3, outlen := s.outlen + 1 }
    else
      (write_char s.result s.outlen c).map fun result => { result := result, i := s.i + 1, outlen := s.outlen + 1 }

/-- `while( i < len )`, for `n` turns at most -/
def decode_turns (len : ℕ) : ℕ → decode_loop → Option decode_loop
  | 0, s => if s.i < len then none else some s
  | n + 1, s => if s.i < len then (decode_turn len s).bind (decode_turns len n) else some s

/-- `from_percent_encoding` with its buffer. `none` is an access outside of it. -/
def from_percent_buffer (str : Bytes) : Option Bytes :=
  if str = [] then some []
  else
    (decode_turns str.length str.length { result := str, i := 0, outlen := 0 }).map fun s =>
      if s.outlen ≠ str.length then s.result.take s.outlen else s.result

/-- The text has been read up to `rest`, and `done` has been written. What lies between has been read and is free. -/
structure Decoded (len : ℕ) (s : decode_loop) (done rest : Bytes) : Prop where
  text : ∃ gap, s.result = done ++ (gap ++ rest) ∧ s.i = done.length + gap.length
  outlen : s.outlen = done.length
  length : s.result.length = len

theorem Decoded.read {len : ℕ} {s : decode_loop} {done rest : Bytes} (h : Decoded len s done rest) (k : ℕ) :
    s.result[s.i + k]? = rest[k]? := by
  obtain ⟨gap, hresult, hi⟩ := h.text
  rw [hresult, hi, ← List.append_assoc, List.getElem?_append_right (by simp), List.length_append]
  congr 1
  omega

theorem Decoded.left {len : ℕ} {s : decode_loop} {done rest : Bytes} (h : Decoded len s done rest) :
    len = s.i + rest.length := by
  obtain ⟨gap, hresult, hi⟩ := h.text
  rw [← h.length, hresult, hi, List.length_append, List.length_append]
  omega

theorem Decoded.write {len : ℕ} {s : decode_loop} {done rest : Bytes} (taken : Bytes)
    (h : Decoded len s done (taken ++ rest)) (htaken : taken ≠ []) (c : UInt8) :
    ∃ result, write_char s.result s.outlen c = some result ∧
      Decoded len { result := result, i := s.i + taken.length, outlen := s.outlen + 1 } (done ++ [c]) rest := by
  obtain ⟨gap, hresult, hi⟩ := h.text
  obtain ⟨d, free, hfree⟩ : ∃ d free, gap ++ taken = d :: free :=
    List.exists_cons_of_ne_nil (by simp [htaken])
  have hlen := congrArg List.length hfree
  have htext : s.result = done ++ d :: (free ++ rest) := by
    rw [hresult, ← List.append_assoc gap, hfree, List.cons_append]
  have hlength := h.length
  refine ⟨done ++ c :: (free ++ rest), ?_, ⟨⟨free, by simp, ?_⟩, ?_, ?_⟩⟩
  · rw [htext, h.outlen]
    exact write_char_at done _ c d
  · simp only [List.length_append, List.length_cons, List.length_nil] at hlen ⊢
    omega
  · rw [List.length_append, List.length_singleton, h.outlen]
  · rw [← hlength, htext]
    simp

theorem decode_turn_spec {len : ℕ} {s : decode_loop} {done : Bytes} {c : UInt8} {rest : Bytes}
    (h : Decoded len s done (c :: rest)) :
    ∃ s' d more, decode_turn len s = some s' ∧ Decoded len s' (done ++ [d]) more ∧ more.length ≤ rest.length ∧
      from_percent_encoding (c :: rest) = d :: from_percent_encoding more := by
  have hc : s.result[s.i]? = some c := h.read 0
  have hleft := h.left
  unfold decode_turn
  rw [hc, Option.bind_some]
  by_cases hescape : c = 0x25 ∧ s.i + 2 < len
  · obtain ⟨rfl, hroom⟩ := hescape
    obtain ⟨a, b, more, rfl⟩ : ∃ a b more, rest = a :: b :: more := by
      rcases rest with _ | ⟨a, _ | ⟨b, more⟩⟩
      · simp at hleft; omega
      · simp at hleft; omega
      · exact ⟨a, b, more, rfl⟩
    obtain ⟨result, hwrite, hnext⟩ :=
      Decoded.write [0x25, a, b] h (by simp) (hex_value a <<< 4 ||| hex_value b)
    refine ⟨_, _, more, ?_, hnext, ?_, ?_⟩
    · rw [if_pos ⟨rfl, hroom⟩, h.read 1, h.read 2, List.getElem?_cons_succ, List.getElem?_cons_succ]
      simp [hwrite]
    · simp only [List.length_cons]
      omega
    · rw [from_percent_encoding, if_pos rfl]
  · obtain ⟨result, hwrite, hnext⟩ := Decoded.write [c] h (by simp) c
    refine ⟨_, c, rest, ?_, hnext, le_refl _, ?_⟩
    · rw [if_neg hescape, hwrite, Option.map_some]
      rfl
    · -- No escape: another character, or too little behind it.
      rcases rest with _ | ⟨a, _ | ⟨b, more⟩⟩
      · rfl
      · rfl
      · have hroom : s.i + 2 < len := by
          simp only [List.length_cons] at hleft
          omega
        exact from_percent_cons c _ fun hpercent => hescape ⟨hpercent, hroom⟩

theorem decode_turns_spec (len n : ℕ) (s : decode_loop) (done rest : Bytes) (h : Decoded len s done rest)
    (hn : rest.length ≤ n) :
    ∃ s', decode_turns len n s = some s' ∧ Decoded len s' (done ++ from_percent_encoding rest) [] := by
  induction n generalizing s done rest with
  | zero =>
    obtain rfl := List.eq_nil_of_length_eq_zero (Nat.le_zero.mp hn)
    have hleft := h.left
    refine ⟨s, ?_, by simpa [from_percent_encoding] using h⟩
    rw [decode_turns, if_neg (by simp at hleft; omega)]
  | succ n ih =>
    have hleft := h.left
    cases rest with
    | nil =>
      refine ⟨s, ?_, by simpa [from_percent_encoding] using h⟩
      rw [decode_turns, if_neg (by simp at hleft; omega)]
    | cons c rest =>
      obtain ⟨s', d, more, hturn, hnext, hmore, htext⟩ := decode_turn_spec h
      rw [List.length_cons] at hn hleft
      obtain ⟨s'', hrun, hend⟩ := ih s' (done ++ [d]) more hnext (by omega)
      refine ⟨s'', ?_, by rw [htext]; simpa using hend⟩
      rw [decode_turns, if_pos (by omega), hturn, Option.bind_some, hrun]

/-- **The decoder stays inside its text** and gives what `from_percent_encoding` says. -/
theorem from_percent_buffer_eq (str : Bytes) : from_percent_buffer str = some (from_percent_encoding str) := by
  unfold from_percent_buffer
  split
  · rename_i hempty
    rw [hempty]
    rfl
  · have hstart : Decoded str.length { result := str, i := 0, outlen := 0 } [] str :=
      ⟨⟨[], by simp, by simp⟩, rfl, rfl⟩
    obtain ⟨s, hrun, hend⟩ := decode_turns_spec str.length str.length _ [] str hstart (le_refl _)
    obtain ⟨gap, hresult, -⟩ := hend.text
    have hlength := hend.length
    have houtlen := hend.outlen
    rw [List.nil_append, List.append_nil] at hresult
    rw [List.nil_append] at houtlen
    rw [hrun, Option.map_some, hresult, houtlen, List.take_left' rfl, Option.some.injEq]
    split
    · rfl
    · rename_i hfull
      rw [not_not] at hfull
      rw [hresult, List.length_append, hfull] at hlength
      have hgap : gap = [] := List.eq_nil_of_length_eq_zero (by omega)
      rw [hgap, List.append_nil]

/-! ## The encoder -/

/-- `length` bytes of the result are written. `expanded` is whether it has grown already. -/
structure encode_loop where
  result : Bytes
  length : ℕ
  expanded : Bool

/-- A turn for the character `c` of `size` characters -/
def encode_turn (size : ℕ) (exclude include_ : Bytes) (percent : UInt8) (s : encode_loop) (c : UInt8) :
    Option encode_loop :=
  if c ≠ percent ∧ (isUnreserved c ∨ c ∈ exclude) ∧ c ∉ include_ then
    (write_char s.result s.length c).map fun result => { s with result := result, length := s.length + 1 }
  else
    let result := if s.expanded then s.result else resize s.result (size * 3)
    (write_char result s.length percent).bind fun result =>
      (write_char result (s.length + 1) (to_hex_upper ((c &&& 0xF0) >>> 4))).bind fun result =>
        (write_char result (s.length + 2) (to_hex_upper (c &&& 0xF))).map fun result =>
          { result := result, length := s.length + 3, expanded := true }

/-- `to_percent_encoding` with its buffer. `none` is an access outside of it. -/
def to_percent_buffer (str exclude include_ : Bytes) (percent : UInt8) : Option Bytes :=
  if str = [] then some []
  else
    let start : encode_loop := { result := List.replicate str.length 0, length := 0, expanded := false }
    (str.foldlM (encode_turn str.length exclude include_ percent) start).map fun s =>
      if s.expanded then s.result.take s.length else s.result

/-- `out` has been written for the first `n` of `size` bytes. Without an escape it has no more room than it needs. -/
structure Encoded (size : ℕ) (s : encode_loop) (out : Bytes) (n : ℕ) : Prop where
  text : ∃ free, s.result = out ++ free ∧ s.length = out.length
  allocated : s.result.length = if s.expanded then size * 3 else size
  used : out.length ≤ n * 3
  tight : s.expanded = false → out.length = n

theorem write_char_next (out free : Bytes) (hfree : free ≠ []) (c : UInt8) :
    write_char (out ++ free) out.length c = some ((out ++ [c]) ++ free.tail) := by
  obtain ⟨d, free, rfl⟩ := List.exists_cons_of_ne_nil hfree
  rw [write_char_at]
  simp

theorem resize_keeps (out free : Bytes) (n : ℕ) (h : out.length ≤ n) :
    ∃ free', resize (out ++ free) n = out ++ free' ∧ (out ++ free').length = n := by
  refine ⟨free.take (n - out.length) ++ List.replicate (n - (out ++ free).length) 0, ?_, ?_⟩
  · rw [resize, List.take_append, List.take_of_length_le h, List.append_assoc]
  · simp only [List.length_append, List.length_take, List.length_replicate]
    omega

theorem Encoded.room {size : ℕ} {s : encode_loop} {out : Bytes} {n : ℕ} (h : Encoded size s out n) (hn : n < size) :
    out.length < s.result.length := by
  have hallocated := h.allocated
  have hused := h.used
  cases hexpanded : s.expanded with
  | true =>
    rw [hexpanded, if_pos rfl] at hallocated
    omega
  | false =>
    have := h.tight hexpanded
    rw [hexpanded, if_neg (by simp)] at hallocated
    omega

theorem encode_plain {size : ℕ} {exclude include_ : Bytes} {percent c : UInt8} {s : encode_loop} {out : Bytes} {n : ℕ}
    (h : Encoded size s out n) (hn : n < size)
    (hplain : c ≠ percent ∧ (isUnreserved c ∨ c ∈ exclude) ∧ c ∉ include_) :
    ∃ s', encode_turn size exclude include_ percent s c = some s' ∧ Encoded size s' (out ++ [c]) (n + 1) := by
  obtain ⟨free, hresult, hlength⟩ := h.text
  have hroom := h.room hn
  have hallocated := h.allocated
  have hused := h.used
  rw [hresult] at hroom hallocated
  have hfree : free ≠ [] := by
    rintro rfl
    simp at hroom
  have hpos := List.length_pos_iff.mpr hfree
  refine ⟨{ s with result := (out ++ [c]) ++ free.tail, length := s.length + 1 }, ?_, ⟨free.tail, rfl, ?_⟩, ?_, ?_, ?_⟩
  · rw [encode_turn, if_pos hplain, hresult, hlength, write_char_next out free hfree c]
    rfl
  · simp [hlength]
  · rw [← hallocated]
    simp only [List.length_append, List.length_tail, List.length_singleton]
    omega
  · rw [List.length_append, List.length_singleton]
    omega
  · intro hexpanded
    rw [List.length_append, h.tight hexpanded, List.length_singleton]

theorem encode_escape {size : ℕ} {exclude include_ : Bytes} {percent c : UInt8} {s : encode_loop} {out : Bytes} {n : ℕ}
    (h : Encoded size s out n) (hn : n < size)
    (hescape : ¬ (c ≠ percent ∧ (isUnreserved c ∨ c ∈ exclude) ∧ c ∉ include_)) :
    ∃ s', encode_turn size exclude include_ percent s c = some s' ∧
      Encoded size s' (out ++ [percent, to_hex_upper ((c &&& 0xF0) >>> 4), to_hex_upper (c &&& 0xF)]) (n + 1) := by
  obtain ⟨free, hresult, hlength⟩ := h.text
  have hused := h.used
  have hallocated := h.allocated
  obtain ⟨free', hgrown, htotal⟩ : ∃ free', (if s.expanded then s.result else resize s.result (size * 3)) =
      out ++ free' ∧ (out ++ free').length = size * 3 := by
    cases hexpanded : s.expanded with
    | true =>
      rw [hexpanded, if_pos rfl] at hallocated
      exact ⟨free, by rw [if_pos rfl, hresult], by rw [← hallocated, hresult]⟩
    | false =>
      rw [if_neg (by simp), hresult]
      exact resize_keeps out free (size * 3) (by omega)
  obtain ⟨x, y, z, more, rfl⟩ : ∃ x y z more, free' = x :: y :: z :: more := by
    rcases free' with _ | ⟨x, _ | ⟨y, _ | ⟨z, more⟩⟩⟩
    · simp at htotal; omega
    · simp at htotal; omega
    · simp at htotal; omega
    · exact ⟨x, y, z, more, rfl⟩
  have hfirst := write_char_at out (y :: z :: more) percent x
  have hsecond := write_char_at (out ++ [percent]) (z :: more) (to_hex_upper ((c &&& 0xF0) >>> 4)) y
  have hthird := write_char_at (out ++ [percent, to_hex_upper ((c &&& 0xF0) >>> 4)]) more (to_hex_upper (c &&& 0xF)) z
  simp only [List.append_assoc, List.cons_append, List.nil_append, List.length_append, List.length_cons,
    List.length_nil, Nat.zero_add] at hsecond hthird
  refine ⟨{ result := out ++ percent :: to_hex_upper ((c &&& 0xF0) >>> 4) :: to_hex_upper (c &&& 0xF) :: more,
            length := s.length + 3, expanded := true }, ?_, ⟨more, by simp, ?_⟩, ?_, ?_, by simp⟩
  · rw [encode_turn, if_neg hescape]
    dsimp only
    rw [hgrown, hlength, hfirst, Option.bind_some, hsecond, Option.bind_some, hthird, Option.map_some]
  · simp [hlength]
  · rw [if_pos rfl, ← htotal]
    simp
  · simp only [List.length_append, List.length_cons, List.length_nil]
    omega

theorem encode_turns (exclude include_ : Bytes) (percent : UInt8) (str : Bytes) {size : ℕ} {s : encode_loop}
    {out : Bytes} {n : ℕ} (h : Encoded size s out n) (hn : n + str.length ≤ size) :
    ∃ s', str.foldlM (encode_turn size exclude include_ percent) s = some s' ∧
      Encoded size s' (out ++ str.flatMap (encode_byte exclude include_ percent)) (n + str.length) := by
  induction str generalizing s out n with
  | nil => exact ⟨s, rfl, by simpa using h⟩
  | cons c str ih =>
    rw [List.length_cons] at hn
    have hturn : ∃ s', encode_turn size exclude include_ percent s c = some s' ∧
        Encoded size s' (out ++ encode_byte exclude include_ percent c) (n + 1) := by
      unfold encode_byte
      split
      · rename_i hplain
        exact encode_plain h (by omega) hplain
      · rename_i hescape
        exact encode_escape h (by omega) hescape
    obtain ⟨s', hs', hnext⟩ := hturn
    obtain ⟨s'', hrun, hend⟩ := ih hnext (by omega)
    refine ⟨s'', ?_, ?_⟩
    · rw [List.foldlM_cons, hs']
      exact hrun
    · rw [List.flatMap_cons, List.length_cons, ← List.append_assoc,
        show n + (str.length + 1) = n + 1 + str.length by omega]
      exact hend

/-- **The encoder stays inside its result** and gives what `to_percent_encoding` says. -/
theorem to_percent_buffer_eq (str exclude include_ : Bytes) (percent : UInt8) :
    to_percent_buffer str exclude include_ percent = some (to_percent_encoding str exclude include_ percent) := by
  unfold to_percent_buffer
  split
  · rename_i hempty
    rw [hempty]
    rfl
  · have hstart : Encoded str.length { result := List.replicate str.length 0, length := 0, expanded := false } [] 0 :=
      ⟨⟨_, rfl, rfl⟩, by simp, by simp, by simp⟩
    obtain ⟨s, hrun, hend⟩ := encode_turns exclude include_ percent str hstart (by omega)
    obtain ⟨free, hresult, hlength⟩ := hend.text
    have hallocated := hend.allocated
    rw [List.nil_append] at hresult hlength
    dsimp only
    rw [hrun, Option.map_some, Option.some.injEq]
    cases hexpanded : s.expanded with
    | true => rw [if_pos rfl, hresult, hlength, List.take_left' rfl, to_percent_encoding]
    | false =>
      -- Every character is one place, and there are no more places.
      have htight := hend.tight hexpanded
      rw [hexpanded, if_neg (by simp), hresult, List.length_append] at hallocated
      rw [List.nil_append] at htight
      have hfree : free = [] := List.eq_nil_of_length_eq_zero (by omega)
      rw [if_neg (by simp), hresult, hfree, List.append_nil, to_percent_encoding]

/-! ## The round trip -/

/-- What stands for a character: itself, where it needs no escape and none is asked for, or its escape. -/
def Piece (exclude include_ : Bytes) (percent c : UInt8) (piece : Bytes) : Prop :=
  (piece = [c] ∧ c ≠ percent ∧ (isUnreserved c = true ∨ c ∈ exclude) ∧ c ∉ include_) ∨
    piece = [percent, to_hex_upper ((c &&& 0xF0) >>> 4), to_hex_upper (c &&& 0xF)]

theorem encode_byte_piece (exclude include_ : Bytes) (percent c : UInt8) :
    Piece exclude include_ percent c (encode_byte exclude include_ percent c) := by
  unfold encode_byte
  split
  · rename_i hplain
    exact .inl ⟨rfl, hplain⟩
  · exact .inr rfl

/-- **Percent coding round-trips**, in the buffers of the two loops. The text in between is one piece for each
character: the character itself or its escape. -/
theorem round_trip (str exclude include_ : Bytes) :
    ∃ pieces : List Bytes, to_percent_buffer str exclude include_ 0x25 = some pieces.flatten ∧
      from_percent_buffer pieces.flatten = some str ∧
      List.Forall₂ (Piece exclude include_ 0x25) str pieces := by
  refine ⟨str.map (encode_byte exclude include_ 0x25), ?_, ?_, ?_⟩
  · rw [to_percent_buffer_eq, to_percent_encoding, List.flatMap_def]
  · rw [from_percent_buffer_eq, ← List.flatMap_def]
    exact congrArg some (from_to_percent_encoding str exclude include_)
  · rw [List.forall₂_map_right_iff]
    exact List.forall₂_same.mpr fun c _ => encode_byte_piece exclude include_ 0x25 c

end Libgs.percent_coding
