import Libgs.Core.Base
import Libgs.Lib.Octets
import Mathlib.Data.Fintype.Basic
import Mathlib.Tactic.FinCases

/-!
# The blocks of SHA-1

`sha1::impl::process_block` of `core/algorithm/sha1.cpp`.
-/

namespace Libgs.sha1

open Lib Lib.Fips180

/-! ## The unrolled rounds -/

/-- A word turned to the left by `n` bits -/
def rol32 (x : BitVec 32) (n : ℕ) : BitVec 32 := x <<< n ||| x >>> (32 - n)

/-- Four bytes as a word, the highest one first -/
def make_word (p : Bytes) : BitVec 32 :=
  let byte k := (p.getD k 0).toBitVec.setWidth 32
  byte 0 <<< 24 ||| byte 1 <<< 16 ||| byte 2 <<< 8 ||| byte 3 <<< 0

/-- The local variables of `process_block`; `r` has `a` to `e`. -/
structure locals where
  r : Vector (BitVec 32) 5
  w : Vector (BitVec 32) 16

/-- An index of the sixteen words, taken modulo 16 -/
def at15 (i : ℕ) : Fin 16 := ⟨i &&& 15, Nat.and_lt_two_pow i (by decide : 15 < 2 ^ 4)⟩

/-- The next word of the message schedule, in the place of the one that is not needed any more -/
def SHA1_LOAD (i : ℕ) (s : locals) : locals :=
  let x := s.w[at15 (i + 13)] ^^^ s.w[at15 (i + 8)] ^^^ s.w[at15 (i + 2)] ^^^ s.w[at15 i]
  { s with w := s.w.set (at15 i) (rol32 x 1) }

/-- What the round macros have in common. -/
def SHA1_ROUND (mix : BitVec 32 → BitVec 32 → BitVec 32 → BitVec 32) (c : BitVec 32) (v u x y z : Fin 5) (i : ℕ)
    (s : locals) : locals :=
  let sum := s.r[z] + (mix s.r[u] s.r[x] s.r[y] + s.w[at15 i] + c + rol32 s.r[v] 5)
  let r := s.r.set z sum
  { s with r := r.set u (rol32 r[u] 30) }

def c0 : BitVec 32 := 0x5A827999
def c1 : BitVec 32 := 0x6ED9EBA1
def c2 : BitVec 32 := 0x8F1BBCDC
def c3 : BitVec 32 := 0xCA62C1D6

def SHA1_ROUND_0 (v u x y z : Fin 5) (i : ℕ) (s : locals) : locals :=
  SHA1_ROUND (fun u x y => (u &&& (x ^^^ y)) ^^^ y) c0 v u x y z i s

def SHA1_ROUND_1 (v u x y z : Fin 5) (i : ℕ) (s : locals) : locals :=
  SHA1_ROUND (fun u x y => (u &&& (x ^^^ y)) ^^^ y) c0 v u x y z i (SHA1_LOAD i s)

def SHA1_ROUND_2 (v u x y z : Fin 5) (i : ℕ) (s : locals) : locals :=
  SHA1_ROUND (fun u x y => u ^^^ x ^^^ y) c1 v u x y z i (SHA1_LOAD i s)

def SHA1_ROUND_3 (v u x y z : Fin 5) (i : ℕ) (s : locals) : locals :=
  SHA1_ROUND (fun u x y => ((u ||| x) &&& y) ||| (u &&& x)) c2 v u x y z i (SHA1_LOAD i s)

def SHA1_ROUND_4 (v u x y z : Fin 5) (i : ℕ) (s : locals) : locals :=
  SHA1_ROUND (fun u x y => u ^^^ x ^^^ y) c3 v u x y z i (SHA1_LOAD i s)

/-- The eighty rounds as they are written out -/
def calls : List (locals → locals) :=
  let a : Fin 5 := 0; let b : Fin 5 := 1; let c : Fin 5 := 2; let d : Fin 5 := 3; let e : Fin 5 := 4
  [ SHA1_ROUND_0 a b c d e  0, SHA1_ROUND_0 e a b c d  1, SHA1_ROUND_0 d e a b c  2, SHA1_ROUND_0 c d e a b  3,
    SHA1_ROUND_0 b c d e a  4, SHA1_ROUND_0 a b c d e  5, SHA1_ROUND_0 e a b c d  6, SHA1_ROUND_0 d e a b c  7,
    SHA1_ROUND_0 c d e a b  8, SHA1_ROUND_0 b c d e a  9, SHA1_ROUND_0 a b c d e 10, SHA1_ROUND_0 e a b c d 11,
    SHA1_ROUND_0 d e a b c 12, SHA1_ROUND_0 c d e a b 13, SHA1_ROUND_0 b c d e a 14, SHA1_ROUND_0 a b c d e 15,
    SHA1_ROUND_1 e a b c d 16, SHA1_ROUND_1 d e a b c 17, SHA1_ROUND_1 c d e a b 18, SHA1_ROUND_1 b c d e a 19,
    SHA1_ROUND_2 a b c d e 20, SHA1_ROUND_2 e a b c d 21, SHA1_ROUND_2 d e a b c 22, SHA1_ROUND_2 c d e a b 23,
    SHA1_ROUND_2 b c d e a 24, SHA1_ROUND_2 a b c d e 25, SHA1_ROUND_2 e a b c d 26, SHA1_ROUND_2 d e a b c 27,
    SHA1_ROUND_2 c d e a b 28, SHA1_ROUND_2 b c d e a 29, SHA1_ROUND_2 a b c d e 30, SHA1_ROUND_2 e a b c d 31,
    SHA1_ROUND_2 d e a b c 32, SHA1_ROUND_2 c d e a b 33, SHA1_ROUND_2 b c d e a 34, SHA1_ROUND_2 a b c d e 35,
    SHA1_ROUND_2 e a b c d 36, SHA1_ROUND_2 d e a b c 37, SHA1_ROUND_2 c d e a b 38, SHA1_ROUND_2 b c d e a 39,
    SHA1_ROUND_3 a b c d e 40, SHA1_ROUND_3 e a b c d 41, SHA1_ROUND_3 d e a b c 42, SHA1_ROUND_3 c d e a b 43,
    SHA1_ROUND_3 b c d e a 44, SHA1_ROUND_3 a b c d e 45, SHA1_ROUND_3 e a b c d 46, SHA1_ROUND_3 d e a b c 47,
    SHA1_ROUND_3 c d e a b 48, SHA1_ROUND_3 b c d e a 49, SHA1_ROUND_3 a b c d e 50, SHA1_ROUND_3 e a b c d 51,
    SHA1_ROUND_3 d e a b c 52, SHA1_ROUND_3 c d e a b 53, SHA1_ROUND_3 b c d e a 54, SHA1_ROUND_3 a b c d e 55,
    SHA1_ROUND_3 e a b c d 56, SHA1_ROUND_3 d e a b c 57, SHA1_ROUND_3 c d e a b 58, SHA1_ROUND_3 b c d e a 59,
    SHA1_ROUND_4 a b c d e 60, SHA1_ROUND_4 e a b c d 61, SHA1_ROUND_4 d e a b c 62, SHA1_ROUND_4 c d e a b 63,
    SHA1_ROUND_4 b c d e a 64, SHA1_ROUND_4 a b c d e 65, SHA1_ROUND_4 e a b c d 66, SHA1_ROUND_4 d e a b c 67,
    SHA1_ROUND_4 c d e a b 68, SHA1_ROUND_4 b c d e a 69, SHA1_ROUND_4 a b c d e 70, SHA1_ROUND_4 e a b c d 71,
    SHA1_ROUND_4 d e a b c 72, SHA1_ROUND_4 c d e a b 73, SHA1_ROUND_4 b c d e a 74, SHA1_ROUND_4 a b c d e 75,
    SHA1_ROUND_4 e a b c d 76, SHA1_ROUND_4 d e a b c 77, SHA1_ROUND_4 c d e a b 78, SHA1_ROUND_4 b c d e a 79 ]

/-- The five variables and the sixteen words at the start of a block -/
def block_locals (m_state : Vector (BitVec 32) 5) (ptr : Bytes) : locals :=
  ⟨m_state, Vector.ofFn fun i : Fin 16 => make_word (ptr.drop (i.val <<< 2))⟩

def run_calls (s : locals) : locals := calls.foldl (fun s c => c s) s

/-- `process_block` on the words of the state -/
def block_state (m_state : Vector (BitVec 32) 5) (ptr : Bytes) : Vector (BitVec 32) 5 :=
  m_state.zipWith (· + ·) (run_calls (block_locals m_state ptr)).r

/-! ## Words and rounds -/

theorem rol32_eq (x : BitVec 32) (n : ℕ) (h : n < 32) : rol32 x n = x.rotateLeft n := by
  simp [rol32, BitVec.rotateLeft, BitVec.rotateLeftAux, Nat.mod_eq_of_lt h]

theorem choose_eq (x y z : BitVec 32) : (x &&& (y ^^^ z)) ^^^ z = Ch x y z := by
  ext i hi
  simp [Ch]
  cases x[i] <;> cases y[i] <;> cases z[i] <;> rfl

theorem majority_eq (x y z : BitVec 32) : ((x ||| y) &&& z) ||| (x &&& y) = Maj x y z := by
  ext i hi
  simp [Maj]
  cases x[i] <;> cases y[i] <;> cases z[i] <;> rfl

theorem make_word_eq (ptr : Bytes) (t : ℕ) : make_word (ptr.drop (t <<< 2)) = word ptr t := by
  have happend : ∀ p q r s : BitVec 8, p.setWidth 32 <<< 24 ||| q.setWidth 32 <<< 16 ||| r.setWidth 32 <<< 8 |||
      s.setWidth 32 <<< 0 = p ++ q ++ r ++ s := by
    intro p q r s
    apply BitVec.eq_of_getLsbD_eq
    intro i hi
    simp only [BitVec.getLsbD_append, BitVec.getLsbD_or, BitVec.getLsbD_shiftLeft, BitVec.getLsbD_setWidth]
    have hp (j) : 8 ≤ j → p.getLsbD j = false := BitVec.getLsbD_of_ge p j
    have hq (j) : 8 ≤ j → q.getLsbD j = false := BitVec.getLsbD_of_ge q j
    have hr (j) : 8 ≤ j → r.getLsbD j = false := BitVec.getLsbD_of_ge r j
    have hs (j) : 8 ≤ j → s.getLsbD j = false := BitVec.getLsbD_of_ge s j
    grind
  have hindex (k : ℕ) : (ptr.drop (t <<< 2)).getD k 0 = ptr.getD (4 * t + k) 0 := by
    rw [List.getD_eq_getElem?_getD, List.getD_eq_getElem?_getD, List.getElem?_drop, Nat.shiftLeft_eq]
    congr 2
    omega
  unfold make_word word
  simp only [hindex]
  exact happend _ _ _ _

/-- The call of round `i` with its operands in their turn. -/
def call (i : ℕ) : locals → locals :=
  let j := Fin.ofNat 5 i
  let round := if i < 16 then SHA1_ROUND_0 else if i < 20 then SHA1_ROUND_1 else if i < 40 then SHA1_ROUND_2
    else if i < 60 then SHA1_ROUND_3 else SHA1_ROUND_4
  round (0 - j) (1 - j) (2 - j) (3 - j) (4 - j) i

theorem calls_eq : calls = (List.range 80).map call := by rfl

/-! ## The simulation -/

/-- The variables before round `i`: the working variables of the hash function in the order of their turn, and the
last sixteen words of its schedule. -/
structure Follows (block : Bytes) (H : Hash) (i : ℕ) (s : locals) : Prop where
  vars : ∀ k : Fin 5, s.r[k - Fin.ofNat 5 i] = (rounds block H i)[k]
  words : ∀ t, t < 16 ∨ t < i → i ≤ t + 16 → s.w[at15 t] = W block t

theorem at15_val (i : ℕ) : (at15 i).val = i % 16 := Nat.and_two_pow_sub_one_eq_mod i 4

theorem at15_congr (w : Vector (BitVec 32) 16) {i j : ℕ} (h : i % 16 = j % 16) : w[at15 i] = w[at15 j] := by
  have hij : at15 i = at15 j := by
    apply Fin.ext
    rw [at15_val, at15_val, h]
  simp only [hij]

theorem load_words {block : Bytes} {i : ℕ} {s : locals} (hi : 16 ≤ i)
    (h : ∀ t, t < 16 ∨ t < i → i ≤ t + 16 → s.w[at15 t] = W block t) :
    ∀ t, t ≤ i → i < t + 16 → (SHA1_LOAD i s).w[at15 t] = W block t := by
  intro t hle hlt
  by_cases hti : t = i
  · have hread : ∀ a t, a % 16 = t % 16 → t < i → i ≤ t + 16 → s.w[at15 a] = W block t :=
      fun a t ha hlt hle => (at15_congr s.w ha).trans (h t (.inr hlt) hle)
    have h3 := hread (i + 13) (i - 3) (by omega) (by omega) (by omega)
    have h8 := hread (i + 8) (i - 8) (by omega) (by omega) (by omega)
    have h14 := hread (i + 2) (i - 14) (by omega) (by omega) (by omega)
    have h16 := hread i (i - 16) (by omega) (by omega) (by omega)
    rw [hti, W, if_neg (by omega), ← h3, ← h8, ← h14, ← h16, ← rol32_eq _ 1 (by decide)]
    simp [SHA1_LOAD]
  · have hne : (at15 i).val ≠ (at15 t).val := by
      rw [at15_val, at15_val]
      omega
    simp only [SHA1_LOAD, Fin.getElem_fin]
    rw [Vector.getElem_set_ne _ _ hne]
    exact h t (by omega) (by omega)

theorem getElem_set_fin {α : Type} {n : ℕ} (r : Vector α n) (a b : Fin n) (x : α) :
    (r.set a x)[b] = if b = a then x else r[b] := by
  simp [Vector.getElem_set, Fin.ext_iff, eq_comm]

theorem round_getElem (mix : Word → Word → Word → Word) (c : Word) (v u x y z : Fin 5) (i : ℕ) (s : locals)
    (h : u ≠ z) (k : Fin 5) :
    (SHA1_ROUND mix c v u x y z i s).r[k] =
      if k = u then rol32 s.r[u] 30
      else if k = z then s.r[z] + (mix s.r[u] s.r[x] s.r[y] + s.w[at15 i] + c + rol32 s.r[v] 5)
      else s.r[k] := by
  unfold SHA1_ROUND
  rw [getElem_set_fin, getElem_set_fin, getElem_set_fin, if_neg h]

theorem round_vars {block : Bytes} {H : Hash} {i : ℕ} {mix : Word → Word → Word → Word} {s : locals}
    (hvars : ∀ k : Fin 5, s.r[k - Fin.ofNat 5 i] = (rounds block H i)[k]) (hw : s.w[at15 i] = W block i)
    (hmix : ∀ x y z, mix x y z = f i x y z) (j : Fin 5) (hj : j = Fin.ofNat 5 i) (k : Fin 5) :
    (SHA1_ROUND mix (K i) (0 - j) (1 - j) (2 - j) (3 - j) (4 - j) i s).r[k - Fin.ofNat 5 (i + 1)] =
      (rounds block H (i + 1))[k] := by
  have hsucc : Fin.ofNat 5 (i + 1) = j + 1 := by
    apply Fin.ext
    simp [hj, Fin.val_add]
  have hsub : ∀ j a b : Fin 5, a - j = b - j ↔ a = b := by decide
  have hne : (1 : Fin 5) - j ≠ 4 - j := by
    rw [Ne, hsub]
    decide
  have hr (a : Fin 5) : s.r[a - j] = (rounds block H i)[a] := by
    simp only [hj]
    exact hvars a
  have hshift : ∀ j k : Fin 5, k - (j + 1) = k - 1 - j := by decide
  have hsum (a b c d e : Word) : a + (b + c + d + e) = e + b + a + d + c := by ac_rfl
  simp only [hsucc, hshift, round_getElem _ _ _ _ _ _ _ _ _ hne, hsub, hr, hw, hmix, rounds, Fips180.round]
  have hlast : (0 : Fin 5) - 1 = 4 := rfl
  match k with
  | 0 =>
    rw [hlast]
    simp [hsum, rol32_eq]
  | 1 => simp
  | 2 => simp [rol32_eq]
  | 3 => simp
  | 4 => simp

/-- The function of the round `i` -/
def mix (i : ℕ) (u x y : Word) : Word :=
  if i < 20 then (u &&& (x ^^^ y)) ^^^ y
  else if 40 ≤ i ∧ i < 60 then ((u ||| x) &&& y) ||| (u &&& x)
  else u ^^^ x ^^^ y

theorem mix_eq (i : ℕ) (x y z : Word) : mix i x y z = f i x y z := by
  unfold mix f
  by_cases h20 : i < 20
  · simp [h20, choose_eq]
  · by_cases h40 : i < 40
    · simp [h20, h40, show ¬ 40 ≤ i by omega, Parity]
    · by_cases h60 : i < 60
      · simp [h20, h40, h60, show 40 ≤ i by omega, majority_eq]
      · simp [h20, h40, h60, Parity]

theorem call_eq (i : ℕ) (s : locals) (j : Fin 5) (hj : j = Fin.ofNat 5 i) :
    call i s =
      SHA1_ROUND (mix i) (K i) (0 - j) (1 - j) (2 - j) (3 - j) (4 - j) i (if i < 16 then s else SHA1_LOAD i s) := by
  have hmix : mix i = fun u x y => mix i u x y := rfl
  rw [hj, hmix]
  unfold call mix K
  by_cases h16 : i < 16
  · simp only [h16, show i < 20 by omega, if_true]
    rfl
  · by_cases h20 : i < 20
    · simp only [h16, h20, if_true, if_false]
      rfl
    · by_cases h40 : i < 40
      · simp only [h16, h20, h40, show ¬ 40 ≤ i by omega, false_and, if_true, if_false]
        rfl
      · by_cases h60 : i < 60
        · simp only [h16, h20, h40, h60, show 40 ≤ i by omega, and_self, if_true, if_false]
          rfl
        · simp only [h16, h20, h40, h60, and_false, if_false]
          rfl

theorem Follows.call {block : Bytes} {H : Hash} {i : ℕ} {s : locals} (h : Follows block H i s) :
    Follows block H (i + 1) (call i s) := by
  rw [call_eq i s (Fin.ofNat 5 i) rfl]
  by_cases h16 : i < 16
  · rw [if_pos h16]
    exact ⟨round_vars h.vars (h.words i (.inl h16) (by omega)) (mix_eq i) _ rfl,
      fun t ht hle => h.words t (.inl (by omega)) (by omega)⟩
  · have hw := load_words (by omega) h.words
    have hvars : ∀ k : Fin 5, (SHA1_LOAD i s).r[k - Fin.ofNat 5 i] = (rounds block H i)[k] := h.vars
    rw [if_neg h16]
    exact ⟨round_vars hvars (hw i (Nat.le_refl i) (by omega)) (mix_eq i) _ rfl,
      fun t ht hle => hw t (by omega) (by omega)⟩

theorem follows_calls {block : Bytes} {H : Hash} {s : locals} (h : Follows block H 0 s) (n : ℕ) :
    Follows block H n (((List.range n).map sha1.call).foldl (fun s c => c s) s) := by
  induction n with
  | zero => exact h
  | succ n ih =>
    rw [List.range_succ, List.map_append, List.foldl_append]
    exact ih.call

theorem follows_start (H : Hash) (ptr : Bytes) : Follows ptr H 0 (block_locals H ptr) := by
  constructor
  · intro k
    have hk : ∀ k : Fin 5, k - Fin.ofNat 5 0 = k := by decide
    simp only [hk, rounds]
    rfl
  · intro t ht _
    have ht : t < 16 := by omega
    rw [W, if_pos ht]
    simp [block_locals, at15_val, Nat.mod_eq_of_lt ht, make_word_eq]

/-- **A block.** The unrolled rounds compress a block as the hash function does. -/
theorem block_state_eq (H : Hash) (ptr : Bytes) : block_state H ptr = compress H ptr := by
  have hend : Follows ptr H 80 (run_calls (block_locals H ptr)) := by
    unfold run_calls
    rw [calls_eq]
    exact follows_calls (follows_start H ptr) 80
  have hr : (run_calls (block_locals H ptr)).r = rounds ptr H 80 := by
    apply Vector.ext
    intro k hk
    have hturn : ∀ k : Fin 5, k - Fin.ofNat 5 80 = k := by decide
    have hvars := hend.vars ⟨k, hk⟩
    simp only [hturn] at hvars
    exact hvars
  unfold block_state compress
  rw [hr]

end Libgs.sha1
