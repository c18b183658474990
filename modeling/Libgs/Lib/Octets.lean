import Libgs.Lib.BlockStream
import Mathlib.Algebra.Group.Nat.Defs
import Mathlib.Data.Nat.Digits.Defs

/-!
# Bytes

The hash function SHA-1 of FIPS 180 for messages of whole bytes, the encoding Base64, and numbers of a given width as
bytes.
-/

namespace Lib.Fips180

abbrev Word := BitVec 32

/-- `H0` to `H4`, and the working variables `a` to `e` -/
abbrev Hash := Vector Word 5

/-- The initial hash value -/
def initial : Hash := ⟨#[0x67452301, 0xEFCDAB89, 0x98BADCFE, 0x10325476, 0xC3D2E1F0], rfl⟩

/-! ## The compression of a block -/

def Ch (x y z : Word) : Word := (x &&& y) ^^^ (~~~x &&& z)

def Parity (x y z : Word) : Word := x ^^^ y ^^^ z

def Maj (x y z : Word) : Word := (x &&& y) ^^^ (x &&& z) ^^^ (y &&& z)

/-- The function of round `t` -/
def f (t : ℕ) : Word → Word → Word → Word :=
  if t < 20 then Ch else if t < 40 then Parity else if t < 60 then Maj else Parity

/-- The constant of round `t` -/
def K (t : ℕ) : Word :=
  if t < 20 then 0x5A827999 else if t < 40 then 0x6ED9EBA1 else if t < 60 then 0x8F1BBCDC else 0xCA62C1D6

/-- Big-endian word `t` of a block -/
def word (block : List UInt8) (t : ℕ) : Word :=
  let byte k := (block.getD (4 * t + k) 0).toBitVec
  byte 0 ++ byte 1 ++ byte 2 ++ byte 3

/-- The message schedule -/
def W (block : List UInt8) (t : ℕ) : Word :=
  if t < 16 then word block t
  else (W block (t - 3) ^^^ W block (t - 8) ^^^ W block (t - 14) ^^^ W block (t - 16)).rotateLeft 1
termination_by t

/-- The working variables behind round `t` -/
def round (t : ℕ) (w : Word) (v : Hash) : Hash :=
  let T := v[0].rotateLeft 5 + f t v[1] v[2] v[3] + v[4] + K t + w
  ⟨#[T, v[0], v[1].rotateLeft 30, v[2], v[3]], rfl⟩

/-- The working variables behind the first rounds -/
def rounds (block : List UInt8) (H : Hash) : ℕ → Hash
  | 0 => H
  | t + 1 => round t (W block t) (rounds block H t)

/-- The hash value behind a block -/
def compress (H : Hash) (block : List UInt8) : Hash := H.zipWith (· + ·) (rounds block H 80)

/-! ## The hash of a message -/

/-- From the highest byte on -/
def bigEndian (bytes n : ℕ) : List UInt8 := (List.range bytes).reverse.map fun j => UInt8.ofNat (n / 256 ^ j)

/-- A one bit, as few zero bits as make the length 448 modulo 512, and the length in bits -/
def pad (message : List UInt8) : List UInt8 :=
  message ++ [0x80] ++ List.replicate ((119 - message.length % 64) % 64) 0 ++ bigEndian 8 (8 * message.length)

/-- The hash value of a message -/
def sha1 (message : List UInt8) : Hash :=
  foldBlocks compress 64 ((pad message).length / 64) initial (pad message)

/-- The 160 bits as bytes -/
def digest (message : List UInt8) : List UInt8 :=
  (sha1 message).toList.flatMap fun H => bigEndian 4 H.toNat

/-- Two lower-case hexadecimal digits a byte -/
def hexadecimal (bytes : List UInt8) : String :=
  .ofList (bytes.flatMap fun b => [Nat.digitChar (b.toNat / 16), Nat.digitChar (b.toNat % 16)])

@[simp] theorem bigEndian_length (bytes n : ℕ) : (bigEndian bytes n).length = bytes := by
  simp [bigEndian]

theorem pad_length (message : List UInt8) : (pad message).length % 64 = 0 := by
  simp only [pad, List.length_append, List.length_cons, List.length_nil, List.length_replicate, bigEndian_length]
  omega

end Lib.Fips180

namespace Lib.Base64

/-! ## Base64 -/

/-- The standard alphabet -/
def symbol (n : ℕ) : Char :=
  if n < 26 then Char.ofNat (65 + n)
  else if n < 52 then Char.ofNat (97 + (n - 26))
  else if n < 62 then Char.ofNat (48 + (n - 52))
  else if n = 62 then '+'
  else '/'

/-- The first `k` symbols of a group of 24 bits, and the padding -/
def group (k bits : ℕ) : List Char :=
  (([3, 2, 1, 0].take k).map fun j => symbol (bits / 64 ^ j % 64)) ++ List.replicate (4 - k) '='

/-- Three bytes are four symbols of six bits. A last group of one or two bytes is filled up with zero bits and then with
`=`. -/
def groups : List UInt8 → List Char
  | a :: b :: c :: bytes => group 4 (a.toNat * 65536 + b.toNat * 256 + c.toNat) ++ groups bytes
  | [a, b] => group 3 (a.toNat * 65536 + b.toNat * 256)
  | [a] => group 2 (a.toNat * 65536)
  | [] => []

/-- The encoding of a text of bytes -/
def encode (bytes : List UInt8) : String := .ofList (groups bytes)

end Lib.Base64

namespace Lib

open Fips180

/-! ## Numbers as bytes -/

/-- From the lowest byte on -/
def littleEndian (bytes n : ℕ) : List UInt8 := (List.range bytes).map fun j => UInt8.ofNat (n / 256 ^ j)

@[simp] theorem littleEndian_length (bytes n : ℕ) : (littleEndian bytes n).length = bytes := by
  simp [littleEndian]

theorem littleEndian_succ (w n : ℕ) : littleEndian (w + 1) n = UInt8.ofNat n :: littleEndian w (n / 256) := by
  unfold littleEndian
  rw [List.range_succ_eq_map, List.map_cons, List.map_map]
  simp [Nat.div_div_eq_div_mul, Nat.pow_succ', Function.comp_def]

theorem littleEndian_reverse (w n : ℕ) : (littleEndian w n).reverse = bigEndian w n := by
  rw [littleEndian, bigEndian, List.map_reverse]

theorem ofDigits_littleEndian (w n : ℕ) (h : n < 256 ^ w) :
    Nat.ofDigits 256 ((littleEndian w n).map UInt8.toNat) = n := by
  induction w generalizing n with
  | zero =>
    obtain rfl : n = 0 := by omega
    rfl
  | succ w ih =>
    have hrest : n / 256 < 256 ^ w := Nat.div_lt_of_lt_mul (by rwa [← Nat.pow_succ'])
    rw [littleEndian_succ, List.map_cons, Nat.ofDigits_cons, ih _ hrest, UInt8.toNat_ofNat']
    exact Nat.mod_add_div n 256

theorem littleEndian_ofDigits (bytes : List UInt8) :
    littleEndian bytes.length (Nat.ofDigits 256 (bytes.map UInt8.toNat)) = bytes := by
  induction bytes with
  | nil => rfl
  | cons b bytes ih =>
    have hb := b.toNat_lt
    rw [List.length_cons, littleEndian_succ, List.map_cons, Nat.ofDigits_cons]
    generalize Nat.ofDigits 256 (bytes.map UInt8.toNat) = n at ih ⊢
    have hrest : (b.toNat + 256 * n) / 256 = n := by omega
    have hfirst : UInt8.ofNat (b.toNat + 256 * n) = b := by
      apply UInt8.toNat_inj.mp
      rw [UInt8.toNat_ofNat']
      omega
    rw [hrest, ih, hfirst]

theorem ofDigits_lt (bytes : List UInt8) (w : ℕ) (h : bytes.length = w) :
    Nat.ofDigits 256 (bytes.map UInt8.toNat) < 2 ^ (8 * w) := by
  have hdigits : ∀ x ∈ bytes.map UInt8.toNat, x < 256 := by
    intro x hx
    obtain ⟨b, -, rfl⟩ := List.mem_map.mp hx
    exact b.toNat_lt
  have hlt := Nat.ofDigits_lt_base_pow_length (by omega) hdigits
  rwa [List.length_map, h, show 256 = 2 ^ 8 from rfl, ← pow_mul] at hlt

end Lib
