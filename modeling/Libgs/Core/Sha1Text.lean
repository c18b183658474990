import Libgs.Core.Algorithm
import Libgs.Core.Sha1

/-!
# The digest as text
-/

namespace Libgs.sha1

open Lib Lib.Fips180

def base64_table : Bytes := ascii "ABCDEFGHIJKLMNOPQRSTUVWXYZabcdefghijklmnopqrstuvwxyz0123456789+/"

/-- The groups of 24 bits that `base64` takes out of the state -/
def triples (s : impl) : List (BitVec 32) :=
  let H := s.m_state.toList
  [ (H[0]! &&& 0xFFFFFF00) >>> (1 <<< 3),
    ((H[0]! &&& 0x000000FF) <<< (2 <<< 3)) ||| ((H[1]! &&& 0xFFFF0000) >>> (2 <<< 3)),
    ((H[1]! &&& 0x0000FFFF) <<< (1 <<< 3)) ||| ((H[2]! &&& 0xFF000000) >>> (3 <<< 3)),
    (H[2]! &&& 0x00FFFFFF) <<< (0 <<< 3),
    (H[3]! &&& 0xFFFFFF00) >>> (1 <<< 3),
    ((H[3]! &&& 0x000000FF) <<< (2 <<< 3)) ||| ((H[4]! &&& 0xFFFF0000) >>> (2 <<< 3)),
    (H[4]! &&& 0x0000FFFF) <<< (1 <<< 3) ]

/-- Seven groups of four symbols, and the last symbol written over. -/
def base64 (s : impl) : Bytes :=
  let symbols := (triples s).flatMap fun x : BitVec 32 =>
    [3 * 6, 2 * 6, 1 * 6, 0 * 6].map fun j : ℕ => base64_table.getD ((x >>> j) % 64).toNat 0
  symbols.set ((6 <<< 2) + 3) 61

/-- The digest as bytes, from the state -/
def digest_bytes (s : impl) : Bytes := s.m_state.toList.flatMap fun H => bigEndian 4 H.toNat

/-! ## The groups -/

theorem table_symbol (n : ℕ) (h : n < 64) : base64_table.getD n 0 = (Base64.symbol n).toNat.toUInt8 := by
  have hall : ∀ n : Fin 64, base64_table.getD n 0 = (Base64.symbol n).toNat.toUInt8 := by decide +kernel
  exact hall ⟨n, h⟩

theorem group_symbols (x : BitVec 32) :
    ([3 * 6, 2 * 6, 1 * 6, 0 * 6].map fun j : ℕ => base64_table.getD ((x >>> j) % 64).toNat 0) =
      (Base64.group 4 x.toNat).map fun c => c.toNat.toUInt8 := by
  have hsymbol (j : ℕ) : base64_table.getD ((x >>> (j * 6)) % 64).toNat 0 =
      (Base64.symbol (x.toNat / 64 ^ j % 64)).toNat.toUInt8 := by
    have hpow : 2 ^ (j * 6) = 64 ^ j := by
      rw [Nat.mul_comm, Nat.pow_mul]
    have hnat : ((x >>> (j * 6)) % 64).toNat = x.toNat / 64 ^ j % 64 := by
      simp [Nat.shiftRight_eq_div_pow, hpow]
    rw [hnat, table_symbol _ (Nat.mod_lt _ (by decide))]
  simp only [List.map_cons, List.map_nil, hsymbol, Base64.group]
  rfl

theorem high_toNat (x mask : BitVec 32) (m k : ℕ) (hmask : mask.toNat = (2 ^ k - 1) * 2 ^ m) (hk : k + m = 32) :
    ((x &&& mask) >>> m).toNat = x.toNat / 2 ^ m := by
  have hlt : x.toNat / 2 ^ m < 2 ^ k := by
    rw [Nat.div_lt_iff_lt_mul (Nat.two_pow_pos m), ← Nat.pow_add, hk]
    exact x.isLt
  rw [BitVec.toNat_ushiftRight, BitVec.toNat_and, Nat.shiftRight_eq_div_pow, Nat.and_div_two_pow, hmask,
    Nat.mul_div_cancel _ (Nat.two_pow_pos m), Nat.and_two_pow_sub_one_of_lt_two_pow hlt]

theorem low_toNat (x mask : BitVec 32) (m k : ℕ) (hmask : mask.toNat = 2 ^ m - 1) (hk : m + k ≤ 32) :
    ((x &&& mask) <<< k).toNat = x.toNat % 2 ^ m * 2 ^ k := by
  have hlt : x.toNat % 2 ^ m * 2 ^ k < 2 ^ 32 := by
    calc x.toNat % 2 ^ m * 2 ^ k < 2 ^ m * 2 ^ k :=
          Nat.mul_lt_mul_of_pos_right (Nat.mod_lt _ (Nat.two_pow_pos m)) (Nat.two_pow_pos k)
      _ = 2 ^ (m + k) := (Nat.pow_add 2 m k).symm
      _ ≤ 2 ^ 32 := Nat.pow_le_pow_right (by decide) hk
  rw [BitVec.toNat_shiftLeft, BitVec.toNat_and, hmask, Nat.and_two_pow_sub_one_eq_mod, Nat.shiftLeft_eq,
    Nat.mod_eq_of_lt hlt]

theorem join_toNat (x y low high : BitVec 32) (m k : ℕ) (hlow : low.toNat = 2 ^ m - 1)
    (hhigh : high.toNat = (2 ^ k - 1) * 2 ^ (32 - k)) (hm : m + k ≤ 32) :
    (((x &&& low) <<< k) ||| ((y &&& high) >>> (32 - k))).toNat =
      x.toNat % 2 ^ m * 2 ^ k + y.toNat / 2 ^ (32 - k) := by
  have hlt : y.toNat / 2 ^ (32 - k) < 2 ^ k := by
    rw [Nat.div_lt_iff_lt_mul (Nat.two_pow_pos _), ← Nat.pow_add, show k + (32 - k) = 32 by omega]
    exact y.isLt
  rw [BitVec.toNat_or, low_toNat x low m k hlow hm, high_toNat y high (32 - k) k hhigh (by omega), ← Nat.shiftLeft_eq,
    Nat.shiftLeft_add_eq_or_of_lt hlt]

theorem groups_words (a b c d e : BitVec 32) :
    Base64.groups ([a, b, c, d, e].flatMap fun H => bigEndian 4 H.toNat) =
      [a.toNat / 2 ^ 8, a.toNat % 2 ^ 8 * 2 ^ 16 + b.toNat / 2 ^ 16, b.toNat % 2 ^ 16 * 2 ^ 8 + c.toNat / 2 ^ 24,
          c.toNat % 2 ^ 24 * 2 ^ 0, d.toNat / 2 ^ 8, d.toNat % 2 ^ 8 * 2 ^ 16 + e.toNat / 2 ^ 16].flatMap
        (Base64.group 4) ++ Base64.group 3 (e.toNat % 2 ^ 16 * 2 ^ 8) := by
  have hbytes (n : ℕ) : bigEndian 4 n =
      [UInt8.ofNat (n / 256 ^ 3), UInt8.ofNat (n / 256 ^ 2), UInt8.ofNat (n / 256 ^ 1),
        UInt8.ofNat (n / 256 ^ 0)] := rfl
  have := a.isLt
  have := b.isLt
  have := c.isLt
  have := d.isLt
  have := e.isLt
  simp only [List.flatMap_cons, List.flatMap_nil, hbytes, List.cons_append, List.nil_append, List.append_nil,
    Base64.groups, UInt8.toNat_ofNat', List.append_assoc]
  refine congrArg₂ _ (congrArg _ ?_) (congrArg₂ _ (congrArg _ ?_) (congrArg₂ _ (congrArg _ ?_) (congrArg₂ _
    (congrArg _ ?_) (congrArg₂ _ (congrArg _ ?_) (congrArg₂ _ (congrArg _ ?_) (congrArg _ ?_)))))) <;> omega

theorem base64_eq (s : impl) : base64 s = ascii (Base64.encode (digest_bytes s)) := by
  have htriples : (triples s).map BitVec.toNat =
      [(s.m_state.get 0).toNat / 2 ^ 8,
        (s.m_state.get 0).toNat % 2 ^ 8 * 2 ^ 16 + (s.m_state.get 1).toNat / 2 ^ 16,
        (s.m_state.get 1).toNat % 2 ^ 16 * 2 ^ 8 + (s.m_state.get 2).toNat / 2 ^ 24,
        (s.m_state.get 2).toNat % 2 ^ 24 * 2 ^ 0, (s.m_state.get 3).toNat / 2 ^ 8,
        (s.m_state.get 3).toNat % 2 ^ 8 * 2 ^ 16 + (s.m_state.get 4).toNat / 2 ^ 16,
        (s.m_state.get 4).toNat % 2 ^ 16 * 2 ^ 8] := by
    unfold triples
    rw [words_toList]
    simp only [List.map_cons, List.map_nil, List.cons.injEq, and_true]
    refine ⟨high_toNat _ _ 8 24 rfl rfl, join_toNat _ _ _ _ 8 16 rfl rfl (by decide),
      join_toNat _ _ _ _ 16 8 rfl rfl (by decide), low_toNat _ _ 24 0 rfl (by decide), high_toNat _ _ 8 24 rfl rfl,
      join_toNat _ _ _ _ 8 16 rfl rfl (by decide), low_toNat _ _ 16 8 rfl (by decide)⟩
  have hpadded (n : ℕ) : ((Base64.group 4 n).map fun c => c.toNat.toUInt8).set 3 61 =
      (Base64.group 3 n).map fun c => c.toNat.toUInt8 := rfl
  have hsymbols (l : List (BitVec 32)) :
      (l.flatMap fun x : BitVec 32 =>
          [3 * 6, 2 * 6, 1 * 6, 0 * 6].map fun j : ℕ => base64_table.getD ((x >>> j) % 64).toNat 0) =
        ((l.map BitVec.toNat).flatMap fun n => (Base64.group 4 n).map fun c => c.toNat.toUInt8) := by
    simp only [group_symbols, List.flatMap_map]
  unfold base64 digest_bytes Base64.encode ascii
  rw [hsymbols, htriples, words_toList, groups_words, String.toList_ofList, List.map_append, ← hpadded,
    List.map_flatMap]
  rfl

/-! ## Both encodings -/

theorem digest_bytes_length (s : impl) : (digest_bytes s).length = 20 := by
  rw [digest_bytes, words_toList]
  rfl

theorem hex_upper (s : impl) : hex s true = str_to_upper (hex s false) := by
  have hdigit (x : BitVec 32) (j : ℕ) : (ascii "0123456789ABCDEF").getD ((x >>> j) &&& 0x0F).toNat 0 =
      toupper ((ascii "0123456789abcdef").getD ((x >>> j) &&& 0x0F).toNat 0) := by
    have hall : ∀ d : Fin 16, (ascii "0123456789ABCDEF").getD d 0 = toupper ((ascii "0123456789abcdef").getD d 0) := by
      decide
    have hlt : ((x >>> j) &&& 0x0F).toNat < 16 := by
      rw [BitVec.toNat_and]
      exact Nat.and_lt_two_pow (n := 4) _ (by decide)
    exact hall ⟨_, hlt⟩
  simp only [hex, str_to_upper, List.map_flatMap, List.map_map, Function.comp_def, if_true, if_false,
    Bool.false_eq_true, hdigit]

/-- **`base64` and `hex` encode the same twenty bytes.** -/
theorem hex_base64_agree (s : impl) :
    (digest_bytes s).length = 20 ∧ hex s false = ascii (hexadecimal (digest_bytes s)) ∧
      hex s true = str_to_upper (ascii (hexadecimal (digest_bytes s))) ∧
      base64 s = ascii (Base64.encode (digest_bytes s)) := by
  refine ⟨digest_bytes_length s, hex_eq s, ?_, base64_eq s⟩
  rw [hex_upper, hex_eq]
  rfl

end Libgs.sha1
