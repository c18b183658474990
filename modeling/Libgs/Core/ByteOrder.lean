import Libgs.Core.Base
import Libgs.Lib.Octets
import Mathlib.Data.List.GetD

/-!
# Byte order

`core/algorithm/byte_order.cpp` and `detail/byte_order.h`. A number is the bits of its object, whose bytes lie in memory
as the host has them.
-/

namespace Libgs.byte_order

open Lib Fips180

/-! ## Objects in memory -/

/-- The byte order of a host -/
inductive endian
  | little
  | big
  deriving DecidableEq

/-- The bytes of the object that holds the number, as they lie in memory -/
def object (host : endian) {w : ℕ} (t : BitVec (8 * w)) : Bytes :=
  match host with
  | .little => littleEndian w t.toNat
  | .big => bigEndian w t.toNat

/-- The number whose object has these bytes -/
def value (host : endian) (w : ℕ) (bytes : Bytes) : BitVec (8 * w) :=
  let digits := bytes.map UInt8.toNat
  match host with
  | .little => .ofNat _ (Nat.ofDigits 256 digits)
  | .big => .ofNat _ (Nat.ofDigits 256 digits.reverse)

/-! ## The functions -/

/-- The first byte of the object of `0x12345678` is `0x78`. -/
def is_little_endian (host : endian) : Bool := (object host (0x12345678 : BitVec (8 * 4))).head? = some 0x78

def is_big_endian (host : endian) : Bool := !is_little_endian host

/-- `array[i] ^= array[j]` -/
def xor_assign (array : Bytes) (i j : ℕ) : Bytes := array.modify i (· ^^^ array.getD j 0)

/-- A turn of the loop of `reverse`: two bytes change places. -/
def reverse_turn (len : ℕ) (array : Bytes) (i : ℕ) : Bytes :=
  let n := len - i - 1
  xor_assign (xor_assign (xor_assign array i n) n i) i n

/-- The first `len` bytes of the data in the opposite order -/
def reverse (data : Bytes) (len : ℕ) : Bytes := (List.range (len >>> 1)).foldl (reverse_turn len) data

/-- `reverse` of a number goes over the bytes of its object. -/
def reverse_number (host : endian) {w : ℕ} (t : BitVec (8 * w)) : BitVec (8 * w) :=
  value host w (reverse (object host t) w)

/-- A number of the host in the order of the network -/
def hton (host : endian) {w : ℕ} (t : BitVec (8 * w)) : BitVec (8 * w) :=
  if is_big_endian host then t else reverse_number host t

/-- A number in the order of the network as one of the host -/
def ntoh (host : endian) {w : ℕ} (t : BitVec (8 * w)) : BitVec (8 * w) :=
  if is_big_endian host then t else reverse_number host t

/-! ## The loop -/

@[simp] theorem xor_assign_length (array : Bytes) (i j : ℕ) : (xor_assign array i j).length = array.length := by
  simp [xor_assign]

theorem xor_assign_getD (array : Bytes) (i j k : ℕ) (hi : i < array.length) :
    (xor_assign array i j).getD k 0 = if k = i then array.getD i 0 ^^^ array.getD j 0 else array.getD k 0 := by
  unfold xor_assign
  rw [List.getD_eq_getElem?_getD, List.getElem?_modify]
  by_cases hk : k = i
  · subst hk
    simp [hi]
  · simp [hk, Ne.symm hk]

@[simp] theorem reverse_turn_length (len : ℕ) (array : Bytes) (i : ℕ) :
    (reverse_turn len array i).length = array.length := by
  simp [reverse_turn]

theorem reverse_turn_getD (len : ℕ) (array : Bytes) (i k : ℕ) (hi : 2 * i + 1 < len) (hlen : len ≤ array.length) :
    (reverse_turn len array i).getD k 0 =
      array.getD (if k = i ∨ k = len - i - 1 then len - k - 1 else k) 0 := by
  have hne : i ≠ len - i - 1 := by omega
  have hback : len - (len - i - 1) - 1 = i := by omega
  have hia : i < array.length := by omega
  have hna : len - i - 1 < array.length := by omega
  unfold reverse_turn
  simp only [xor_assign_getD, xor_assign_length, hia, hna, if_neg hne, if_neg hne.symm, if_true]
  by_cases hki : k = i
  · subst hki
    rw [if_pos rfl, if_pos (.inl rfl), UInt8.xor_comm (array.getD (len - k - 1) 0), ← UInt8.xor_assoc, UInt8.xor_self,
      UInt8.zero_xor]
  · rw [if_neg hki]
    by_cases hkn : k = len - i - 1
    · subst hkn
      rw [if_pos rfl, if_pos (.inr rfl), hback, UInt8.xor_comm, UInt8.xor_assoc, UInt8.xor_self, UInt8.xor_zero]
    · rw [if_neg hkn, if_neg hki, if_neg (not_or.mpr ⟨hki, hkn⟩)]

theorem reverse_turns (len n : ℕ) (data : Bytes) (hn : 2 * n ≤ len) (hlen : len ≤ data.length) :
    ((List.range n).foldl (reverse_turn len) data).length = data.length ∧
      ∀ k, ((List.range n).foldl (reverse_turn len) data).getD k 0 =
        data.getD (if k < len ∧ (k < n ∨ len - n ≤ k) then len - k - 1 else k) 0 := by
  induction n with
  | zero =>
    refine ⟨rfl, fun k => ?_⟩
    rw [if_neg (by omega)]
    rfl
  | succ n ih =>
    obtain ⟨hlength, hbytes⟩ := ih (by omega)
    rw [List.range_succ, List.foldl_append, List.foldl_cons, List.foldl_nil]
    refine ⟨by rw [reverse_turn_length, hlength], fun k => ?_⟩
    rw [reverse_turn_getD len _ n k (by omega) (by omega), hbytes]
    congr 1
    split_ifs <;> omega

theorem reverse_eq (data : Bytes) (len : ℕ) (hlen : len ≤ data.length) :
    reverse data len = (data.take len).reverse ++ data.drop len := by
  have hhalf : len >>> 1 = len / 2 := Nat.shiftRight_eq_div_pow len 1
  obtain ⟨hlength, hbytes⟩ := reverse_turns len (len >>> 1) data (by omega) hlen
  have hlengths : (reverse data len).length = ((data.take len).reverse ++ data.drop len).length := by
    simpa [hlen, reverse] using hlength
  refine List.ext_getElem hlengths fun k hk hk' => ?_
  have hbyte : (reverse data len)[k] = _ := (List.getD_eq_getElem (reverse data len) 0 hk).symm.trans (hbytes k)
  rw [hbyte]
  by_cases hlt : k < len
  · -- The byte in the middle of an odd length stays where it is.
    have hindex : (if k < len ∧ (k < len >>> 1 ∨ len - len >>> 1 ≤ k) then len - k - 1 else k) = len - 1 - k := by
      split_ifs <;> omega
    rw [hindex, List.getElem_append_left (by simp; omega), List.getElem_reverse, List.getElem_take,
      List.getD_eq_getElem _ _ (by omega)]
    simp [hlen]
  · rw [if_neg (by omega), List.getElem_append_right (by simp; omega), List.getElem_drop,
      List.getD_eq_getElem _ _ (by simpa [hlengths, hlen] using hk)]
    congr 1
    simp
    omega

theorem reverse_whole (data : Bytes) (len : ℕ) (hlen : data.length = len) : reverse data len = data.reverse := by
  rw [reverse_eq data len hlen.ge, List.take_of_length_le hlen.le, List.drop_of_length_le hlen.le, List.append_nil]

/-! ## Numbers -/

theorem object_length (host : endian) {w : ℕ} (t : BitVec (8 * w)) : (object host t).length = w := by
  cases host <;> simp [object]

theorem value_object (host : endian) {w : ℕ} (t : BitVec (8 * w)) : value host w (object host t) = t := by
  have ht : t.toNat < 256 ^ w := by
    rw [show 256 = 2 ^ 8 from rfl, ← pow_mul]
    exact t.isLt
  have hvalue := ofDigits_littleEndian w t.toNat ht
  cases host with
  | little => rw [object, value, hvalue, BitVec.ofNat_toNat, BitVec.setWidth_eq]
  | big =>
    rw [object, value, ← List.map_reverse, ← littleEndian_reverse, List.reverse_reverse, hvalue, BitVec.ofNat_toNat,
      BitVec.setWidth_eq]

theorem object_value_little (w : ℕ) (bytes : Bytes) (h : bytes.length = w) :
    object .little (value .little w bytes) = bytes := by
  rw [object, value, BitVec.toNat_ofNat, Nat.mod_eq_of_lt (ofDigits_lt bytes w h), ← h]
  exact littleEndian_ofDigits bytes

theorem is_big_endian_iff (host : endian) : is_big_endian host = true ↔ host = .big := by
  cases host <;> decide

theorem hton_little {w : ℕ} (t : BitVec (8 * w)) : object .little (hton .little t) = bigEndian w t.toNat := by
  have hlength := object_length .little t
  rw [hton, if_neg (by simp [is_big_endian_iff]), reverse_number, reverse_whole _ _ hlength,
    object_value_little _ _ (by simpa using hlength)]
  exact littleEndian_reverse w t.toNat

/-- **Network order.** On either host the bytes of what `hton` returns are those of the number from the highest to the
lowest, and `ntoh` returns the number again. -/
theorem hton_network (host : endian) {w : ℕ} (t : BitVec (8 * w)) :
    object host (hton host t) = bigEndian w t.toNat ∧ ntoh host (hton host t) = t := by
  cases host with
  | big => exact ⟨rfl, rfl⟩
  | little =>
    refine ⟨hton_little t, ?_⟩
    rw [ntoh, if_neg (by simp [is_big_endian_iff]), reverse_number, hton_little,
      reverse_whole _ _ (bigEndian_length w _), ← littleEndian_reverse, List.reverse_reverse]
    exact value_object .little t

end Libgs.byte_order
