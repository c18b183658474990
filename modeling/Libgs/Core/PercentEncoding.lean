import Libgs.Core.Algorithm

/-!
# Percent encoding

`to_percent_encoding` of `core/algorithm/misc.cpp`, and that `from_percent_encoding` takes it back.
-/

namespace Libgs

open Lib

/-- The digit of a half byte -/
def to_hex_upper (value : UInt8) : UInt8 := (ascii "0123456789ABCDEF").getD (value &&& 0xF).toNat 0

/-- The characters that need no escape. -/
def isUnreserved (c : UInt8) : Bool :=
  (0x61 ≤ c ∧ c ≤ 0x7A) ∨ (0x41 ≤ c ∧ c ≤ 0x5A) ∨ (0x30 ≤ c ∧ c ≤ 0x39) ∨
    c = 0x2D ∨ c = 0x2E ∨ c = 0x5F ∨ c = 0x7E

/-- What one character becomes -/
def encode_byte (exclude include_ : Bytes) (percent c : UInt8) : Bytes :=
  if c ≠ percent ∧ (isUnreserved c ∨ c ∈ exclude) ∧ c ∉ include_ then [c]
  else [percent, to_hex_upper ((c &&& 0xF0) >>> 4), to_hex_upper (c &&& 0xF)]

/-- `to_percent_encoding`, without its buffer -/
def to_percent_encoding (str : Bytes) (exclude : Bytes := []) (include_ : Bytes := []) (percent : UInt8 := 0x25) :
    Bytes :=
  str.flatMap (encode_byte exclude include_ percent)

theorem from_percent_cons (c : UInt8) (str : Bytes) (h : c ≠ 0x25) :
    from_percent_encoding (c :: str) = c :: from_percent_encoding str := by
  match str with
  | [] => rfl
  | [_] => rfl
  | a :: b :: rest => rw [from_percent_encoding, if_neg h]

theorem from_percent_append (l str : Bytes) (h : 0x25 ∉ l) :
    from_percent_encoding (l ++ str) = l ++ from_percent_encoding str := by
  induction l with
  | nil => rfl
  | cons c l ih =>
    rw [List.mem_cons, not_or] at h
    rw [List.cons_append, from_percent_cons c _ (Ne.symm h.1), ih h.2, List.cons_append]

theorem from_percent_plain (l : Bytes) (h : 0x25 ∉ l) : from_percent_encoding l = l := by
  have := from_percent_append l [] h
  simpa [from_percent_encoding] using this

theorem hex_digits (c : UInt8) :
    hex_value (to_hex_upper ((c &&& 0xF0) >>> 4)) <<< 4 ||| hex_value (to_hex_upper (c &&& 0xF)) = c :=
  byte_forall (p := fun c =>
    hex_value (to_hex_upper ((c &&& 0xF0) >>> 4)) <<< 4 ||| hex_value (to_hex_upper (c &&& 0xF)) = c)
    (by decide +kernel) c

theorem from_encode_byte (exclude include_ : Bytes) (c : UInt8) (str : Bytes) :
    from_percent_encoding (encode_byte exclude include_ 0x25 c ++ str) = c :: from_percent_encoding str := by
  unfold encode_byte
  split
  · rename_i h
    exact from_percent_cons c str h.1
  · rw [List.cons_append, List.cons_append, List.singleton_append, from_percent_encoding, if_pos rfl, hex_digits]

/-- **Percent encoding is taken back**, whatever is excluded from it or included in it. -/
theorem from_to_percent_encoding (str exclude include_ : Bytes) :
    from_percent_encoding (to_percent_encoding str exclude include_) = str := by
  induction str with
  | nil => rfl
  | cons c str ih =>
    unfold to_percent_encoding at ih ⊢
    rw [List.flatMap_cons, from_encode_byte, ih]

theorem to_hex_upper_unreserved (c : UInt8) : isUnreserved (to_hex_upper c) = true :=
  byte_forall (p := fun c => isUnreserved (to_hex_upper c) = true) (by decide +kernel) c

theorem mem_to_percent_encoding (str : Bytes) (c : UInt8) (h : c ∈ to_percent_encoding str) :
    c = 0x25 ∨ isUnreserved c = true := by
  obtain ⟨d, -, hd⟩ := List.mem_flatMap.mp h
  unfold encode_byte at hd
  split at hd
  · rename_i hplain
    obtain rfl := List.mem_singleton.mp hd
    exact .inr (by simpa using hplain.2.1)
  · simp only [List.mem_cons, List.not_mem_nil, or_false] at hd
    rcases hd with rfl | rfl | rfl
    · exact .inl rfl
    · exact .inr (to_hex_upper_unreserved _)
    · exact .inr (to_hex_upper_unreserved _)

/-! ## Text that stays as it is -/

/-- No percent sign has two characters behind it. -/
def undecoded (str : Bytes) : Bool := 0x25 ∉ str.take (str.length - 2)

theorem undecoded_cons (c a b : UInt8) (rest : Bytes) :
    undecoded (c :: a :: b :: rest) = true ↔ c ≠ 0x25 ∧ undecoded (a :: b :: rest) = true := by
  have htake : (c :: a :: b :: rest).take ((c :: a :: b :: rest).length - 2) =
      c :: (a :: b :: rest).take ((a :: b :: rest).length - 2) := by simp
  unfold undecoded
  rw [htake, decide_eq_true_iff, decide_eq_true_iff, List.mem_cons, not_or]
  exact and_congr_left' ⟨Ne.symm, Ne.symm⟩

theorem from_percent_length (str : Bytes) : (from_percent_encoding str).length ≤ str.length := by
  fun_induction from_percent_encoding str with
  | case1 a b rest ih => simp only [List.length_cons]; omega
  | case2 c a b rest hc ih => simpa using ih
  | case3 str h => exact le_refl _

theorem from_percent_cases (str : Bytes) :
    (undecoded str = true → from_percent_encoding str = str) ∧
      (undecoded str = false → (from_percent_encoding str).length + 2 ≤ str.length) := by
  fun_induction from_percent_encoding str with
  | case1 a b rest ih =>
    have hle := from_percent_length rest
    refine ⟨fun h => absurd rfl ((undecoded_cons _ a b rest).mp h).1, fun _ => ?_⟩
    simp only [List.length_cons]
    omega
  | case2 c a b rest hc ih =>
    have hcons : undecoded (c :: a :: b :: rest) = undecoded (a :: b :: rest) := by
      rw [Bool.eq_iff_iff, undecoded_cons]
      exact and_iff_right hc
    rw [hcons]
    refine ⟨fun h => congrArg (c :: ·) (ih.1 h), fun h => ?_⟩
    have := ih.2 h
    rw [List.length_cons, List.length_cons]
    omega
  | case3 str h =>
    refine ⟨fun _ => rfl, fun hdecoded => ?_⟩
    have hshort : str.length - 2 = 0 := by
      match str with
      | [] => rfl
      | [_] => rfl
      | [_, _] => rfl
      | c :: a :: b :: rest => exact (h c a b rest rfl).elim
    simp [undecoded, hshort] at hdecoded

end Libgs
