import Libgs.Core.Number

/-!
# UUIDs as text

`basic_uuid` of `core/algorithm/uuid.h`, over `sscanf` and `snprintf` as far as its formats need them.
-/

namespace Libgs

open Lib

/-- The character types of the library. A wide character that is not ASCII is none that a format asks for. -/
class char_type (char_t : Type) where
  widen : UInt8 → char_t
  narrow : char_t → UInt8
  narrow_widen : ∀ c < 128, narrow (widen c) = c

instance : char_type UInt8 where
  widen c := c
  narrow c := c
  narrow_widen _ _ := rfl

instance : char_type UInt32 where
  widen c := c.toUInt32
  narrow c := if c < 128 then c.toUInt8 else 255
  narrow_widen :=
    byte_forall (p := fun c => c < 128 → (if c.toUInt32 < 128 then c.toUInt32.toUInt8 else 255) = c) (by decide +kernel)

/-- The parts of an identifier, as they are written and read -/
structure uuid where
  d0 : UInt32
  d1 : UInt16
  d2 : UInt16
  d3 : Vector UInt8 8
  deriving DecidableEq, Repr

namespace uuid

/-! ## Formats -/

/-- A conversion of `sscanf` with the place where its value goes, or a character that has to stand there. -/
inductive directive
  | hexadecimal (width : ℕ) (store : ℕ → uuid → uuid)
  | character (c : UInt8)

/-- The `0x` that `%x` takes in front of a number -/
def skip_hex_mark : Bytes → Bytes
  | z :: x :: s => if z = 48 ∧ tolower x = 120 then s else z :: x :: s
  | s => s

/-- The conversion `%0*x`: what it reads from at most `width` characters, and what is left. -/
def scan_x (width : ℕ) (str : Bytes) : Option (ℕ × Bytes) :=
  let s := str.dropWhile isspace
  let (neg, item) := scan_sign (s.take width)
  let digits := (skip_hex_mark item).takeWhile (isDigit 16)
  let value := digitsVal 16 digits
  let left := (skip_hex_mark item).length - digits.length
  if digits = [] then none
  else some (if neg then size_sub 0 value else value, s.drop ((s.take width).length - left))

/-- What is converted before the first failure is stored. -/
def sscanf : List directive → Bytes → uuid → uuid
  | [], _, u => u
  | .hexadecimal width store :: format, s, u =>
    match scan_x width s with
    | none => u
    | some (value, rest) => sscanf format rest (store value u)
  | .character c :: format, s, u =>
    match s with
    | [] => u
    | x :: rest => if x = c then sscanf format rest u else u

def scan_d0 : directive := .hexadecimal 8 fun v u => { u with d0 := UInt32.ofNat v }

def scan_d1 : directive := .hexadecimal 4 fun v u => { u with d1 := UInt16.ofNat v }

def scan_d2 : directive := .hexadecimal 4 fun v u => { u with d2 := UInt16.ofNat v }

def scan_d3 (i : ℕ) (h : i < 8 := by decide) : directive :=
  .hexadecimal 2 fun v u => { u with d3 := u.d3.set i (UInt8.ofNat v) }

/-- The format without braces -/
def plain_format : List directive :=
  [scan_d0, .character 45, scan_d1, .character 45, scan_d2, .character 45, scan_d3 0, scan_d3 1, .character 45,
    scan_d3 2, scan_d3 3, scan_d3 4, scan_d3 5, scan_d3 6, scan_d3 7]

/-- The format with braces -/
def braced_format : List directive := .character 123 :: plain_format ++ [.character 125]

/-- A number in hexadecimal digits of the given width -/
def hex_text (width n : ℕ) : Bytes := (List.range width).reverse.map fun j => digit (n / 16 ^ j % 16)

/-- `to_string(false)` -/
def plain_text (u : uuid) : Bytes :=
  [hex_text 8 u.d0.toNat, ascii "-", hex_text 4 u.d1.toNat, ascii "-", hex_text 4 u.d2.toNat, ascii "-",
    hex_text 2 u.d3[0].toNat, hex_text 2 u.d3[1].toNat, ascii "-", hex_text 2 u.d3[2].toNat, hex_text 2 u.d3[3].toNat,
    hex_text 2 u.d3[4].toNat, hex_text 2 u.d3[5].toNat, hex_text 2 u.d3[6].toNat, hex_text 2 u.d3[7].toNat].flatten

/-- `to_string(true)` -/
def braced_text (u : uuid) : Bytes := ascii "\x7b" ++ (plain_text u ++ ascii "\x7d")

/-! ## The two functions -/

section

variable {char_t : Type} [char_type char_t]

/-- The buffer is given a size of 40. -/
def to_string (u : uuid) (parcel : Bool) : List char_t :=
  ((if parcel then braced_text u else plain_text u).take 39).map char_type.widen

/-- The text up to its first zero, in narrow characters -/
def c_str (s : List char_t) : Bytes := (s.map char_type.narrow).takeWhile (· ≠ 0)

/-- `operator=`. The value is what the object had, where nothing is stored. -/
def assign (u : uuid) (s : List char_t) : uuid :=
  if s.length = 38 then sscanf plain_format (c_str s) u
  else if s.length = 40 then sscanf braced_format (c_str s) u
  else u

end

/-! ## What the formats read -/

@[simp] theorem hex_text_length (width n : ℕ) : (hex_text width n).length = width := by simp [hex_text]

theorem hex_text_succ (width n : ℕ) : hex_text (width + 1) n = hex_text width (n / 16) ++ [digit (n % 16)] := by
  simp [hex_text, List.range_succ_eq_map, Nat.pow_succ', ← Nat.div_div_eq_div_mul]

theorem hex_text_all (width n : ℕ) : (hex_text width n).all (isDigit 16) = true := by
  induction width generalizing n with
  | zero => rfl
  | succ width ih =>
    have hlt : n % 16 < 16 := Nat.mod_lt n (by decide)
    rw [hex_text_succ, List.all_append, ih]
    simp [isDigit_digit 16 (n % 16) (by decide) hlt]

theorem digitsVal_hex_text (width n : ℕ) (h : n < 16 ^ width) : digitsVal 16 (hex_text width n) = n := by
  induction width generalizing n with
  | zero =>
    obtain rfl : n = 0 := by simpa using h
    rfl
  | succ width ih =>
    have hlt : n % 16 < 16 := Nat.mod_lt n (by decide)
    have hdiv : n / 16 < 16 ^ width := by
      rw [Nat.pow_succ] at h
      omega
    rw [hex_text_succ, digitsVal_append_one, ih _ hdiv, digitVal_digit _ (by omega), Option.getD_some]
    omega

/-- **A number of the width of its conversion is read again**, whatever stands behind it. -/
theorem scan_hex_text (width n : ℕ) (rest : Bytes) (hw : 0 < width) (h : n < 16 ^ width) :
    scan_x width (hex_text width n ++ rest) = some (n, rest) := by
  have hall := hex_text_all width n
  have hlen := hex_text_length width n
  have hval := digitsVal_hex_text width n h
  generalize hex_text width n = text at hall hlen hval
  have hne : text ≠ [] := by
    rintro rfl
    simp at hlen
    omega
  obtain ⟨c, t, rfl⟩ := List.exists_cons_of_ne_nil hne
  have hplain := hex_digit_plain c (by simp_all)
  have hspace : ((c :: t) ++ rest).dropWhile isspace = (c :: t) ++ rest := by simp [hplain.1]
  have htake : ((c :: t) ++ rest).take width = c :: t := by rw [← hlen, List.take_left]
  have hsign : scan_sign (c :: t) = (false, c :: t) := by simp [scan_sign, hplain.2.1, hplain.2.2.1]
  have hprefix : skip_hex_mark (c :: t) = c :: t := by
    unfold skip_hex_mark
    split
    · rename_i z x s heq
      have hx : x ∈ c :: t := by simp [heq]
      rw [if_neg]
      · exact heq.symm
      · rw [List.all_eq_true] at hall
        simp [(hex_digit_plain x (hall x hx)).2.2.2]
    · rfl
  have hdigits : (c :: t).takeWhile (isDigit 16) = c :: t := List.takeWhile_eq_self_iff.mpr (List.all_eq_true.mp hall)
  unfold scan_x
  simp only [hspace, htake, hsign, hprefix, hdigits, hval]
  simp

theorem sscanf_hexadecimal (width n : ℕ) (store : ℕ → uuid → uuid) (format : List directive) (rest : Bytes) (v : uuid)
    (hw : 0 < width) (h : n < 16 ^ width) :
    sscanf (.hexadecimal width store :: format) (hex_text width n ++ rest) v = sscanf format rest (store n v) := by
  rw [sscanf, scan_hex_text width n rest hw h]

theorem sscanf_character (c : UInt8) (format : List directive) (rest : Bytes) (v : uuid) :
    sscanf (.character c :: format) ([c] ++ rest) v = sscanf format rest v := by
  simp [sscanf]

/-- **What one format writes, the other one reads**, into any object. -/
theorem sscanf_plain_text (u v : uuid) (format : List directive) (rest : Bytes) :
    sscanf (plain_format ++ format) (plain_text u ++ rest) v = sscanf format rest u := by
  have hd0 (format rest v) : sscanf (scan_d0 :: format) (hex_text 8 u.d0.toNat ++ rest) v =
      sscanf format rest { v with d0 := u.d0 } := by
    rw [scan_d0, sscanf_hexadecimal _ _ _ _ _ _ (by decide) u.d0.toNat_lt, UInt32.ofNat_toNat]
  have hd1 (format rest v) : sscanf (scan_d1 :: format) (hex_text 4 u.d1.toNat ++ rest) v =
      sscanf format rest { v with d1 := u.d1 } := by
    rw [scan_d1, sscanf_hexadecimal _ _ _ _ _ _ (by decide) u.d1.toNat_lt, UInt16.ofNat_toNat]
  have hd2 (format rest v) : sscanf (scan_d2 :: format) (hex_text 4 u.d2.toNat ++ rest) v =
      sscanf format rest { v with d2 := u.d2 } := by
    rw [scan_d2, sscanf_hexadecimal _ _ _ _ _ _ (by decide) u.d2.toNat_lt, UInt16.ofNat_toNat]
  have hd3 (i : ℕ) (hi : i < 8) (format rest v) : sscanf (scan_d3 i hi :: format) (hex_text 2 u.d3[i].toNat ++ rest) v =
      sscanf format rest { v with d3 := v.d3.set i u.d3[i] } := by
    rw [scan_d3, sscanf_hexadecimal _ _ _ _ _ _ (by decide) u.d3[i].toNat_lt, UInt8.ofNat_toNat]
  have hdash (format rest v) : sscanf (.character 45 :: format) (ascii "-" ++ rest) v = sscanf format rest v :=
    sscanf_character 45 format rest v
  have hall : (((((((v.d3.set 0 u.d3[0]).set 1 u.d3[1]).set 2 u.d3[2]).set 3 u.d3[3]).set 4 u.d3[4]).set 5
      u.d3[5]).set 6 u.d3[6]).set 7 u.d3[7] = u.d3 := by
    ext i hi
    match i, hi with
    | 0, _ | 1, _ | 2, _ | 3, _ | 4, _ | 5, _ | 6, _ | 7, _ => simp
  unfold plain_format plain_text
  simp only [List.flatten_cons, List.flatten_nil, List.append_nil, List.append_assoc, List.cons_append, List.nil_append]
  rw [hd0, hdash, hd1, hdash, hd2, hdash, hd3, hd3, hdash, hd3, hd3, hd3, hd3, hd3, hd3, hall]

/-! ## The lengths -/

@[simp] theorem plain_text_length (u : uuid) : (plain_text u).length = 36 := by simp [plain_text, ascii]

theorem hex_text_ascii (width n : ℕ) (c : UInt8) (h : c ∈ hex_text width n) : c ≠ 0 ∧ c < 128 := by
  have hdigit : isDigit 16 c = true := List.all_eq_true.mp (hex_text_all width n) c h
  exact byte_forall (p := fun c => isDigit 16 c = true → c ≠ 0 ∧ c < 128) (by decide +kernel) c hdigit

theorem plain_text_ascii (u : uuid) (c : UInt8) (h : c ∈ plain_text u) : c ≠ 0 ∧ c < 128 := by
  unfold plain_text at h
  obtain ⟨part, hpart, hc⟩ := List.mem_flatten.mp h
  have hdash (hc : c ∈ ascii "-") : c ≠ 0 ∧ c < 128 := by
    obtain rfl : c = 45 := by simpa [ascii] using hc
    decide
  simp only [List.mem_cons, List.not_mem_nil, or_false] at hpart
  rcases hpart with rfl | rfl | rfl | rfl | rfl | rfl | rfl | rfl | rfl | rfl | rfl | rfl | rfl | rfl | rfl <;>
    first | exact hex_text_ascii _ _ c hc | exact hdash hc

@[simp] theorem braced_text_length (u : uuid) : (braced_text u).length = 38 := by simp [braced_text, ascii]

theorem braced_text_ascii (u : uuid) (c : UInt8) (h : c ∈ braced_text u) : c ≠ 0 ∧ c < 128 := by
  rcases List.mem_append.mp h with hopen | h
  · obtain rfl : c = 123 := by simpa [ascii] using hopen
    decide
  · rcases List.mem_append.mp h with htext | hclose
    · exact plain_text_ascii u c htext
    · obtain rfl : c = 125 := by simpa [ascii] using hclose
      decide

section

variable {char_t : Type} [char_type char_t]

theorem to_string_plain (u : uuid) : (to_string u false : List char_t) = (plain_text u).map char_type.widen := by
  have hlen := plain_text_length u
  rw [to_string, if_neg (by simp), List.take_of_length_le (by omega)]

theorem to_string_braced (u : uuid) : (to_string u true : List char_t) = (braced_text u).map char_type.widen := by
  have hlen := braced_text_length u
  rw [to_string, if_pos rfl, List.take_of_length_le (by omega)]

theorem c_str_append (text : Bytes) (more : List char_t) (h : ∀ c ∈ text, c ≠ 0 ∧ c < 128) :
    c_str (text.map char_type.widen ++ more) = text ++ c_str more := by
  induction text with
  | nil => rfl
  | cons c text ih =>
    obtain ⟨hzero, hascii⟩ := h c List.mem_cons_self
    have hrest := ih fun d hd => h d (List.mem_cons_of_mem _ hd)
    unfold c_str at hrest ⊢
    rw [List.map_cons, List.cons_append, List.map_cons, List.takeWhile_cons, char_type.narrow_widen c hascii,
      if_pos (by simpa using hzero), hrest]
    rfl

theorem scan_x_brace (width : ℕ) (s : Bytes) : scan_x width (123 :: s) = none := by
  have hspace : (123 :: s).dropWhile isspace = 123 :: s := by simp [isspace]
  have hdigits : (skip_hex_mark (scan_sign ((123 :: s).take width)).2).takeWhile (isDigit 16) = [] := by
    cases width with
    | zero => rfl
    | succ width =>
      have hsign : scan_sign (123 :: s.take width) = (false, 123 :: s.take width) := by simp [scan_sign]
      have hbrace : isDigit 16 123 = false := by decide
      rw [List.take_succ_cons, hsign]
      unfold skip_hex_mark
      split
      · rename_i z x t heq
        obtain ⟨rfl, -⟩ := List.cons.inj heq
        simp [hbrace]
      · simp [hbrace]
  unfold scan_x
  simp [hspace, hdigits]

/-- **Neither form is read.** The plain one has 36 characters. The one in braces has 38 and is taken for a plain one. -/
theorem assign_to_string (u v : uuid) (parcel : Bool) : assign v (to_string u parcel : List char_t) = v := by
  cases parcel with
  | false => rw [to_string_plain, assign, if_neg (by simp), if_neg (by simp)]
  | true =>
    have hbrace (s : Bytes) : sscanf plain_format (123 :: s) v = v := by
      rw [plain_format, scan_d0, sscanf, scan_x_brace]
    have htext := c_str_append (braced_text u) ([] : List char_t) (braced_text_ascii u)
    rw [List.append_nil] at htext
    rw [to_string_braced, assign, if_pos (by simp), htext]
    exact hbrace _

theorem assign_longer (u v : uuid) (parcel : Bool) (a b : char_t) : assign v (to_string u parcel ++ [a, b]) = u := by
  cases parcel with
  | false =>
    rw [to_string_plain, assign, if_pos (by simp), c_str_append _ _ (plain_text_ascii u),
      ← List.append_nil plain_format, sscanf_plain_text]
    rfl
  | true =>
    have hopen (format rest) : sscanf (.character 123 :: format) (ascii "\x7b" ++ rest) v = sscanf format rest v :=
      sscanf_character 123 format rest v
    have hclose (format rest) : sscanf (.character 125 :: format) (ascii "\x7d" ++ rest) u = sscanf format rest u :=
      sscanf_character 125 format rest u
    rw [to_string_braced, assign, if_neg (by simp), if_pos (by simp), c_str_append _ _ (braced_text_ascii u),
      braced_text, List.append_assoc, List.append_assoc, braced_format, List.cons_append, hopen, sscanf_plain_text,
      hclose]
    rfl

end

/-! ## The round trip -/

/-- **When a printed value is read again**: only into an object that has it already. -/
theorem parse_printed_iff (char_t : Type) [char_type char_t] (u v : uuid) (parcel : Bool) :
    assign v (to_string u parcel : List char_t) = u ↔ v = u := by
  rw [assign_to_string]

theorem one_not_read :
    assign ⟨0, 0, 0, Vector.replicate 8 0⟩ (to_string ⟨1, 0, 0, Vector.replicate 8 0⟩ false : Bytes) ≠
        ⟨1, 0, 0, Vector.replicate 8 0⟩ ∧
      assign ⟨0, 0, 0, Vector.replicate 8 0⟩ (to_string ⟨1, 0, 0, Vector.replicate 8 0⟩ true : Bytes) ≠
        ⟨1, 0, 0, Vector.replicate 8 0⟩ := by
  rw [assign_to_string, assign_to_string]
  decide

end uuid

end Libgs
