import Libgs.Core.Sha1Block

/-!
# SHA-1 over a stream

`sha1` of `core/algorithm/sha1.cpp`. A `char` is an `Int8`, a `wchar_t` a `UInt32`, and `wcstombs` is whatever the
locale makes of it.
-/

namespace Libgs.sha1

open Lib Lib.Fips180

/-! ## The hash object -/

/-- `m_buf` holds the first `m_i` bytes of a block that is not whole yet. -/
structure impl where
  m_state : Vector (BitVec 32) 5
  m_buf : Vector UInt8 64
  m_i : ℕ
  m_n_bits : BitVec 64
  m_i_lt : m_i < 64

def impl.init : impl :=
  { m_state := ⟨#[0x67452301, 0xEFCDAB89, 0x98BADCFE, 0x10325476, 0xC3D2E1F0], rfl⟩
    m_buf := Vector.replicate 64 0
    m_i := 0
    m_n_bits := 0
    m_i_lt := Nat.zero_lt_succ _ }

/-- A whole block is compressed. -/
def process_block (s : impl) (ptr : Bytes) : impl := { s with m_state := block_state s.m_state ptr }

/-- A byte for the buffer. The 64th one makes it a block. -/
def add_byte_dont_count_bits (s : impl) (x : UInt8) : impl :=
  let m_buf := s.m_buf.set s.m_i x s.m_i_lt
  if h : s.m_i + 1 ≥ 64 then
    process_block { s with m_buf := m_buf, m_i := 0, m_i_lt := Nat.zero_lt_succ _ } m_buf.toList
  else { s with m_buf := m_buf, m_i := s.m_i + 1, m_i_lt := Nat.lt_of_not_ge h }

/-- A byte of the message, which is counted -/
def append_byte (s : impl) (x : UInt8) : impl :=
  let s := add_byte_dont_count_bits s x
  { s with m_n_bits := s.m_n_bits + 8 }

def append_char (s : impl) (c : Int8) : impl := append_byte s c.toUInt8

/-- The first loop of `append`: to the end of the block in the buffer -/
def append_head (s : impl) : Bytes → impl × Bytes
  | [] => (s, [])
  | x :: ptr => if s.m_i % 64 ≠ 0 then append_head (append_byte s x) ptr else (s, x :: ptr)

/-- The whole blocks of the data, and what is left of it -/
def append_blocks (s : impl) (ptr : Bytes) : impl × Bytes :=
  if ptr.length ≥ 64 then
    let s := process_block s ptr
    append_blocks { s with m_n_bits := s.m_n_bits + 64 <<< 3 } (ptr.drop 64)
  else (s, ptr)
termination_by ptr.length
decreasing_by
  rw [List.length_drop]
  omega

/-- `append` of a pointer and a size. A null pointer is refused. -/
def append_data (s : impl) (data : Option Bytes) : Except exception impl :=
  match data with
  | none => .error .invalid_argument
  | some ptr =>
    let (s, ptr) := append_head s ptr
    let (s, ptr) := append_blocks s ptr
    .ok (ptr.foldl append_byte s)

/-- `append` of a `std::string` -/
def append_text (s : impl) (text : Bytes) : Except exception impl :=
  if text = [] then .ok s else append_data s (some text)

section
variable (wcstombs : List UInt32 → Bytes)

/-- `append` of a `std::wstring`, which is converted first -/
def append_wtext (s : impl) (text : List UInt32) : Except exception impl :=
  if text = [] then .ok s else append_data s (some (wcstombs text))

def append_wchar (s : impl) (c : UInt32) : Except exception impl := append_text s (wcstombs [c])

end

theorem add_byte_m_i (s : impl) (x : UInt8) : (add_byte_dont_count_bits s x).m_i = (s.m_i + 1) % 64 := by
  have := s.m_i_lt
  unfold add_byte_dont_count_bits
  split
  · simp only [process_block]
    omega
  · simp only
    omega

/-- Zeros up to the place of the length -/
def pad_zeros (s : impl) : impl :=
  if s.m_i % 64 ≠ 56 then pad_zeros (add_byte_dont_count_bits s 0x00) else s
termination_by (120 - s.m_i) % 64
decreasing_by
  have := s.m_i_lt
  rw [add_byte_m_i]
  omega

/-- A one bit, the zeros, and the length in bits -/
def finalize (s : impl) : impl :=
  let s := pad_zeros (add_byte_dont_count_bits s 0x80)
  [7, 6, 5, 4, 3, 2, 1, 0].foldl (fun s j =>
    add_byte_dont_count_bits s (UInt8.ofBitVec ((s.m_n_bits >>> (j <<< 3)).setWidth 8))) s

/-- The state in hexadecimal digits -/
def hex (s : impl) (upper_case : Bool) : Bytes :=
  let alphabet := ascii (if upper_case then "0123456789ABCDEF" else "0123456789abcdef")
  s.m_state.toList.flatMap fun x : BitVec 32 =>
    [7, 6, 5, 4, 3, 2, 1, 0].map fun j : ℕ => alphabet.getD ((x >>> (j <<< 2)) &&& 0x0F).toNat 0

/-! ## The stream -/

/-- The state of the hash and the bytes of a block that is not full -/
def view (s : impl) : Hash × List UInt8 := (s.m_state, s.m_buf.toList.take s.m_i)

/-- `s'` is `s` after it has taken in some bytes, without counting them. -/
structure Absorbs (s s' : impl) (l : Bytes) : Prop where
  view : view s' = absorbAll compress 64 (view s) l
  bits : s'.m_n_bits = s.m_n_bits

theorem Absorbs.refl (s : impl) : Absorbs s s [] := ⟨rfl, rfl⟩

theorem Absorbs.trans {s s' s'' : impl} {l l' : Bytes} (h : Absorbs s s' l) (h' : Absorbs s' s'' l') :
    Absorbs s s'' (l ++ l') := by
  constructor
  · rw [h'.view, h.view, absorbAll_append]
  · rw [h'.bits, h.bits]

@[simp] theorem view_buffer_length (s : impl) : (view s).2.length = s.m_i := by
  have := s.m_i_lt
  simp only [view, List.length_take, Vector.length_toList]
  omega

theorem absorbs_byte (s : impl) (x : UInt8) : Absorbs s (add_byte_dont_count_bits s x) [x] := by
  have hset : (s.m_buf.set s.m_i x s.m_i_lt).toList.take (s.m_i + 1) = s.m_buf.toList.take s.m_i ++ [x] := by
    have := s.m_i_lt
    rw [Vector.toList_set, List.take_add_one, List.take_set_of_le (Nat.le_refl _)]
    simp [this]
  have hlen : (view s).2.length = s.m_i := view_buffer_length s
  by_cases hfull : s.m_i + 1 ≥ 64
  · have hend : s.m_i + 1 = 64 := by
      have := s.m_i_lt
      omega
    have hall : (s.m_buf.set s.m_i x s.m_i_lt).toList = s.m_buf.toList.take s.m_i ++ [x] := by
      rw [← hset, hend, List.take_of_length_le (by simp)]
    constructor
    · rw [absorbAll_cons, absorb, if_pos (by omega)]
      simp [add_byte_dont_count_bits, hfull, process_block, view, hall, block_state_eq]
    · simp [add_byte_dont_count_bits, hfull, process_block]
  · constructor
    · rw [absorbAll_cons, absorb, if_neg (by omega)]
      simp [add_byte_dont_count_bits, hfull, view, hset]
    · simp [add_byte_dont_count_bits, hfull]

/-- `s'` is `s` after it has taken in and counted some bytes. -/
structure Appends (s s' : impl) (l : Bytes) : Prop where
  view : view s' = absorbAll compress 64 (view s) l
  bits : s'.m_n_bits = s.m_n_bits + BitVec.ofNat 64 (8 * l.length)

theorem Appends.refl (s : impl) : Appends s s [] := ⟨rfl, by simp⟩

theorem Appends.trans {s s' s'' : impl} {l l' : Bytes} (h : Appends s s' l) (h' : Appends s' s'' l') :
    Appends s s'' (l ++ l') := by
  constructor
  · rw [h'.view, h.view, absorbAll_append]
  · rw [h'.bits, h.bits, List.length_append, Nat.mul_add, BitVec.ofNat_add, BitVec.add_assoc]

theorem appends_byte (s : impl) (x : UInt8) : Appends s (append_byte s x) [x] := by
  obtain ⟨hview, hbits⟩ := absorbs_byte s x
  exact ⟨hview, by simp [append_byte, hbits]⟩

theorem appends_bytes (s : impl) (l : Bytes) : Appends s (l.foldl append_byte s) l := by
  induction l generalizing s with
  | nil => exact Appends.refl s
  | cons x l ih => exact (appends_byte s x).trans (ih (append_byte s x))

theorem append_head_spec (s : impl) (ptr : Bytes) :
    ∃ l, ptr = l ++ (append_head s ptr).2 ∧ Appends s (append_head s ptr).1 l ∧
      ((append_head s ptr).2 = [] ∨ (append_head s ptr).1.m_i = 0) := by
  induction ptr generalizing s with
  | nil => exact ⟨[], rfl, Appends.refl s, .inl rfl⟩
  | cons x ptr ih =>
    unfold append_head
    split
    · obtain ⟨l, hsplit, happ, hend⟩ := ih (append_byte s x)
      exact ⟨x :: l, congrArg _ hsplit, (appends_byte s x).trans happ, hend⟩
    · rename_i hi
      have hlt := s.m_i_lt
      have hzero : s.m_i = 0 := by omega
      exact ⟨[], rfl, Appends.refl s, .inr hzero⟩

theorem W_take (ptr : Bytes) (t : ℕ) : W (ptr.take 64) t = W ptr t := by
  induction t using Nat.strong_induction_on with
  | h t ih =>
    rw [W, W.eq_def ptr t]
    split
    · have hbyte (k : ℕ) (hk : k < 4) : (ptr.take 64).getD (4 * t + k) 0 = ptr.getD (4 * t + k) 0 := by
        rw [List.getD_eq_getElem?_getD, List.getD_eq_getElem?_getD, List.getElem?_take_of_lt (by omega)]
      simp only [word, hbyte 0 (by decide), hbyte 1 (by decide), hbyte 2 (by decide), hbyte 3 (by decide)]
    · rw [ih (t - 3) (by omega), ih (t - 8) (by omega), ih (t - 14) (by omega), ih (t - 16) (by omega)]

theorem compress_take (H : Hash) (ptr : Bytes) : compress H (ptr.take 64) = compress H ptr := by
  have hrounds (n : ℕ) : rounds (ptr.take 64) H n = rounds ptr H n := by
    induction n with
    | zero => rfl
    | succ n ih => rw [rounds, rounds, ih, W_take]
  rw [compress, compress, hrounds]

theorem appends_block (s : impl) (ptr : Bytes) (hi : s.m_i = 0) (hptr : 64 ≤ ptr.length) :
    Appends s { process_block s ptr with m_n_bits := s.m_n_bits + 64 <<< 3 } (ptr.take 64) := by
  have hlen : (ptr.take 64).length = 64 := by
    rw [List.length_take]
    omega
  constructor
  · have hview : view s = (s.m_state, []) := by simp [view, hi]
    rw [hview, absorbAll_block _ _ (by decide) hlen, compress_take]
    simp [view, process_block, hi, block_state_eq]
  · rw [hlen]
    rfl

theorem append_blocks_spec (s : impl) (ptr : Bytes) (h : ptr = [] ∨ s.m_i = 0) :
    ∃ l, ptr = l ++ (append_blocks s ptr).2 ∧ Appends s (append_blocks s ptr).1 l := by
  fun_induction append_blocks s ptr with
  | case1 s ptr hlen s' ih =>
    have hi : s.m_i = 0 := by
      refine h.resolve_left ?_
      rintro rfl
      simp at hlen
    obtain ⟨l, hsplit, happ⟩ := ih (.inr hi)
    refine ⟨ptr.take 64 ++ l, ?_, (appends_block s ptr hi hlen).trans happ⟩
    rw [List.append_assoc, ← hsplit, List.take_append_drop]
  | case2 s ptr hlen => exact ⟨[], rfl, Appends.refl s⟩

theorem append_data_spec (s : impl) (ptr : Bytes) : ∃ s', append_data s (some ptr) = .ok s' ∧ Appends s s' ptr := by
  obtain ⟨head, hhead, happ, hend⟩ := append_head_spec s ptr
  obtain ⟨blocks, hblocks, happ'⟩ := append_blocks_spec (append_head s ptr).1 (append_head s ptr).2 hend
  have hall := (happ.trans happ').trans (appends_bytes _ (append_blocks (append_head s ptr).1 (append_head s ptr).2).2)
  rw [List.append_assoc, ← hblocks, ← hhead] at hall
  exact ⟨_, rfl, hall⟩

theorem append_text_spec (s : impl) (text : Bytes) : ∃ s', append_text s text = .ok s' ∧ Appends s s' text := by
  unfold append_text
  split
  · rename_i hempty
    exact ⟨s, rfl, hempty ▸ Appends.refl s⟩
  · exact append_data_spec s text

/-! ## Any mixture of calls -/

/-- What can be appended, in the forms of the overloads -/
inductive piece
  | byte (x : UInt8)
  | char (c : Int8)
  | wchar (c : UInt32)
  | data (ptr : Bytes)
  | text (str : Bytes)
  | wtext (str : List UInt32)
  deriving Repr

variable (wcstombs : List UInt32 → Bytes)

def append (s : impl) : piece → Except exception impl
  | .byte x => .ok (append_byte s x)
  | .char c => .ok (append_char s c)
  | .wchar c => append_wchar wcstombs s c
  | .data ptr => append_data s (some ptr)
  | .text str => append_text s str
  | .wtext str => append_wtext wcstombs s str

/-- The bytes that a piece adds to the message -/
def piece.bytes : piece → Bytes
  | .byte x => [x]
  | .char c => [c.toUInt8]
  | .wchar c => wcstombs [c]
  | .data ptr => ptr
  | .text str => str
  | .wtext str => if str = [] then [] else wcstombs str

/-- The message that the pieces make -/
def message (pieces : List piece) : Bytes := pieces.flatMap (piece.bytes wcstombs)

theorem append_spec (s : impl) (p : piece) :
    ∃ s', append wcstombs s p = .ok s' ∧ Appends s s' (p.bytes wcstombs) := by
  cases p with
  | byte x => exact ⟨_, rfl, appends_byte s x⟩
  | char c => exact ⟨_, rfl, appends_byte s c.toUInt8⟩
  | wchar c => exact append_text_spec s (wcstombs [c])
  | data ptr => exact append_data_spec s ptr
  | text str => exact append_text_spec s str
  | wtext str =>
    simp only [append, append_wtext, piece.bytes]
    split
    · exact ⟨s, rfl, Appends.refl s⟩
    · exact append_data_spec s (wcstombs str)

theorem append_all_spec (s : impl) (pieces : List piece) :
    ∃ s', pieces.foldlM (append wcstombs) s = .ok s' ∧ Appends s s' (message wcstombs pieces) := by
  induction pieces generalizing s with
  | nil => exact ⟨s, rfl, Appends.refl s⟩
  | cons p pieces ih =>
    obtain ⟨s', hs', happ⟩ := append_spec wcstombs s p
    obtain ⟨s'', hs'', happ'⟩ := ih s'
    refine ⟨s'', ?_, happ.trans happ'⟩
    rw [List.foldlM_cons, hs']
    exact hs''

/-! ## The padding -/

theorem absorbs_pad_zeros (s : impl) : Absorbs s (pad_zeros s) (List.replicate ((120 - s.m_i) % 64) 0) := by
  fun_induction pad_zeros s with
  | case1 s hi ih =>
    have hlt := s.m_i_lt
    have hcount : (120 - s.m_i) % 64 = (120 - (add_byte_dont_count_bits s 0).m_i) % 64 + 1 := by
      rw [add_byte_m_i]
      omega
    rw [hcount, List.replicate_succ]
    exact (absorbs_byte s 0).trans ih
  | case2 s hi =>
    have hlt := s.m_i_lt
    rw [show (120 - s.m_i) % 64 = 0 by omega]
    exact Absorbs.refl s

theorem absorbs_length (s : impl) (js : List ℕ) :
    Absorbs s (js.foldl (fun s j =>
        add_byte_dont_count_bits s (UInt8.ofBitVec ((s.m_n_bits >>> (j <<< 3)).setWidth 8))) s)
      (js.map fun j => UInt8.ofBitVec ((s.m_n_bits >>> (j <<< 3)).setWidth 8)) := by
  induction js generalizing s with
  | nil => exact Absorbs.refl s
  | cons j js ih =>
    have hbyte := absorbs_byte s (UInt8.ofBitVec ((s.m_n_bits >>> (j <<< 3)).setWidth 8))
    have hrest := ih (add_byte_dont_count_bits s (UInt8.ofBitVec ((s.m_n_bits >>> (j <<< 3)).setWidth 8)))
    rw [hbyte.bits] at hrest
    exact hbyte.trans hrest

theorem length_byte (n j : ℕ) (hn : n < 2 ^ 64) :
    UInt8.ofBitVec ((BitVec.ofNat 64 n >>> (j <<< 3)).setWidth 8) = UInt8.ofNat (n / 256 ^ j) := by
  have hpow : 2 ^ (j <<< 3) = 256 ^ j := by
    rw [Nat.shiftLeft_eq, Nat.mul_comm, Nat.pow_mul]
  have hmod : n % 18446744073709551616 = n := Nat.mod_eq_of_lt hn
  apply UInt8.toNat_inj.mp
  simp [Nat.shiftRight_eq_div_pow, hpow, hmod]

theorem view_init : view impl.init = (initial, []) := rfl

theorem m_i_of_appends {s : impl} {m : Bytes} (hs : Appends impl.init s m) : s.m_i = m.length % 64 := by
  rw [← view_buffer_length, hs.view, absorbAll_buffer _ _ (by rw [view_init]; exact Nat.zero_lt_succ _), view_init]
  simp

/-- The eight bytes of the length, as `finalize` takes them -/
def length_bytes (n_bits : BitVec 64) : Bytes :=
  [7, 6, 5, 4, 3, 2, 1, 0].map fun j : ℕ => UInt8.ofBitVec ((n_bits >>> (j <<< 3)).setWidth 8)

@[simp] theorem length_bytes_length (n_bits : BitVec 64) : (length_bytes n_bits).length = 8 := rfl

theorem absorbs_finalize (s : impl) :
    Absorbs s (finalize s) ([0x80] ++ List.replicate ((119 - s.m_i) % 64) 0 ++ length_bytes s.m_n_bits) := by
  have hmark := (absorbs_byte s 0x80).trans (absorbs_pad_zeros (add_byte_dont_count_bits s 0x80))
  have hfinal := hmark.trans (absorbs_length (pad_zeros (add_byte_dont_count_bits s 0x80)) [7, 6, 5, 4, 3, 2, 1, 0])
  have hcount : (120 - (add_byte_dont_count_bits s 0x80).m_i) % 64 = (119 - s.m_i) % 64 := by
    have := s.m_i_lt
    rw [add_byte_m_i]
    omega
  rw [hmark.bits, hcount] at hfinal
  exact hfinal

theorem finalize_view (s : impl) (m : Bytes) (hs : Appends impl.init s m) (hm : m.length < 2 ^ 61) :
    view (finalize s) = (Fips180.sha1 m, []) := by
  have hbits : s.m_n_bits = BitVec.ofNat 64 (8 * m.length) := by
    rw [hs.bits]
    simp [impl.init]
  have hfinal := absorbs_finalize s
  have hcount : (119 - s.m_i) % 64 = (119 - m.length % 64) % 64 := by rw [m_i_of_appends hs]
  have hbytes : length_bytes s.m_n_bits = bigEndian 8 (8 * m.length) := by
    rw [hbits]
    exact List.map_congr_left fun j _ => length_byte (8 * m.length) j (by omega)
  rw [hbytes, hcount] at hfinal
  have hpad : m ++ ([0x80] ++ List.replicate ((119 - m.length % 64) % 64) 0 ++ bigEndian 8 (8 * m.length)) = pad m := by
    simp [pad]
  have hblocks := absorbAll_blocks (f := compress) ((pad m).length / 64) initial (pad m) (by decide : 0 < 64)
    (by rw [Nat.div_mul_cancel (Nat.dvd_of_mod_eq_zero (pad_length m))])
  calc view (finalize s)
      = absorbAll compress 64 (view s) ([0x80] ++ List.replicate ((119 - m.length % 64) % 64) 0 ++
          bigEndian 8 (8 * m.length)) := hfinal.view
    _ = absorbAll compress 64 (initial, []) (pad m) := by rw [hs.view, view_init, ← absorbAll_append, hpad]
    _ = (Fips180.sha1 m, []) := hblocks

/-! ## The digits -/

theorem words_toList (m_state : Vector (BitVec 32) 5) :
    m_state.toList = [m_state.get 0, m_state.get 1, m_state.get 2, m_state.get 3, m_state.get 4] := by
  apply List.ext_getElem (by simp)
  intro i h _
  have hi : i < 5 := by simpa using h
  match i, hi with
  | 0, _ | 1, _ | 2, _ | 3, _ | 4, _ => rfl

theorem alphabet_digit (d : ℕ) (h : d < 16) :
    (ascii "0123456789abcdef").getD d 0 = (Nat.digitChar d).toNat.toUInt8 := by
  have hall : ∀ d : Fin 16, (ascii "0123456789abcdef").getD d 0 = (Nat.digitChar d).toNat.toUInt8 := by decide
  exact hall ⟨d, h⟩

theorem hex_word (x : BitVec 32) :
    ([7, 6, 5, 4, 3, 2, 1, 0].map fun j : ℕ => (ascii "0123456789abcdef").getD ((x >>> (j <<< 2)) &&& 0x0F).toNat 0) =
      ascii (hexadecimal (bigEndian 4 x.toNat)) := by
  have hdigit (j : ℕ) : (ascii "0123456789abcdef").getD ((x >>> (j <<< 2)) &&& 0x0F).toNat 0 =
      (Nat.digitChar (x.toNat / 16 ^ j % 16)).toNat.toUInt8 := by
    have hpow : 2 ^ (j <<< 2) = 16 ^ j := by
      rw [Nat.shiftLeft_eq, Nat.mul_comm, Nat.pow_mul]
    have hnat : ((x >>> (j <<< 2)) &&& 0x0F).toNat = x.toNat / 16 ^ j % 16 := by
      have := Nat.and_two_pow_sub_one_eq_mod (x.toNat / 16 ^ j) 4
      simpa [Nat.shiftRight_eq_div_pow, hpow] using this
    rw [hnat, alphabet_digit _ (Nat.mod_lt _ (by decide))]
  have hsquare : 16 ^ 2 = 256 := rfl
  have hhigh (j : ℕ) : x.toNat / 16 ^ (2 * j + 1) % 16 = (UInt8.ofNat (x.toNat / 256 ^ j)).toNat / 16 := by
    rw [Nat.pow_succ, Nat.pow_mul, hsquare, ← Nat.div_div_eq_div_mul, UInt8.toNat_ofNat']
    omega
  have hlow (j : ℕ) : x.toNat / 16 ^ (2 * j) % 16 = (UInt8.ofNat (x.toNat / 256 ^ j)).toNat % 16 := by
    rw [Nat.pow_mul, hsquare, UInt8.toNat_ofNat']
    omega
  have hpairs (D : ℕ → UInt8) :
      [7, 6, 5, 4, 3, 2, 1, 0].map D = [3, 2, 1, 0].flatMap fun j => [D (2 * j + 1), D (2 * j)] := rfl
  have hbytes : bigEndian 4 x.toNat = [3, 2, 1, 0].map fun j => UInt8.ofNat (x.toNat / 256 ^ j) := rfl
  rw [List.map_congr_left fun j _ => hdigit j, hpairs, hbytes]
  simp only [hhigh, hlow, ascii, hexadecimal, String.toList_ofList, List.map_flatMap, List.map_cons, List.map_nil]
  rfl

theorem hex_eq (s : impl) :
    hex s false = ascii (hexadecimal (s.m_state.toList.flatMap fun H => bigEndian 4 H.toNat)) := by
  have hword : ∀ l : List (BitVec 32), (l.flatMap fun x => ascii (hexadecimal (bigEndian 4 x.toNat))) =
      ascii (hexadecimal (l.flatMap fun x => bigEndian 4 x.toNat)) := by
    intro l
    simp [ascii, hexadecimal, List.flatMap_assoc, List.map_flatMap]
  rw [← hword]
  simp only [← hex_word]
  rfl

/-- **The hash of a stream.** -/
theorem hex_finalize (pieces : List piece) (h : (message wcstombs pieces).length < 2 ^ 61) :
    ∃ s, pieces.foldlM (append wcstombs) impl.init = .ok s ∧
      hex (finalize s) false = ascii (hexadecimal (digest (message wcstombs pieces))) := by
  obtain ⟨s, hs, happ⟩ := append_all_spec wcstombs impl.init pieces
  refine ⟨s, hs, ?_⟩
  have hview := finalize_view s _ happ h
  have hstate : (finalize s).m_state = Fips180.sha1 (message wcstombs pieces) := (Prod.mk.inj hview).1
  rw [hex_eq, hstate, digest]

theorem hex_finalize_abc :
    ∃ s, [piece.byte 97, .text [98, 99]].foldlM (append fun _ => []) impl.init = .ok s ∧
      hex (finalize s) false = ascii (hexadecimal (digest [97, 98, 99])) :=
  hex_finalize (fun _ => []) [.byte 97, .text [98, 99]] (by decide)

end Libgs.sha1
