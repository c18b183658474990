import Libgs.Core.Sha1

/-!
# Copies of a hash object

The assignment copies five bytes of the five words of the state. The words lie in memory with their
lowest byte first.
-/

namespace Libgs.sha1

open Lib Lib.Fips180

/-! ## The assignment -/

/-- A word in memory, on a little-endian host -/
def word_bytes (x : BitVec 32) : Bytes := [0, 1, 2, 3].map fun k : ℕ => UInt8.ofBitVec ((x >>> (8 * k)).setWidth 8)

/-- The state in memory -/
def state_bytes (m_state : Vector (BitVec 32) 5) : Bytes := m_state.toList.flatMap word_bytes

/-- The word number `i` that lies in the memory -/
def word_at (memory : Bytes) (i : ℕ) : BitVec 32 := make_word ((memory.drop (4 * i)).take 4).reverse

/-- The state that lies in the memory -/
def bytes_state (memory : Bytes) : Vector (BitVec 32) 5 :=
  #v[word_at memory 0, word_at memory 1, word_at memory 2, word_at memory 3, word_at memory 4]

/-- The first `size` bytes of `dst` become those of `src`. -/
def memcpy (dst src : Bytes) (size : ℕ) : Bytes := src.take size ++ dst.drop size

/-- `operator=`, which gives `memcpy` the number of words for the number of bytes -/
def assign (s other : impl) : impl :=
  { m_state := bytes_state (memcpy (state_bytes s.m_state) (state_bytes other.m_state) 5)
    m_buf := other.m_buf
    m_i := other.m_i
    m_n_bits := other.m_n_bits
    m_i_lt := other.m_i_lt }

/-- The copy constructor: an assignment to a new object -/
def copy (other : impl) : impl := assign impl.init other

/-! ## Words in memory -/

theorem make_word_append (p q r s : UInt8) :
    make_word [p, q, r, s] = p.toBitVec ++ q.toBitVec ++ r.toBitVec ++ s.toBitVec := make_word_eq [p, q, r, s] 0

theorem make_word_bytes (x : BitVec 32) : make_word (word_bytes x).reverse = x := by
  have hlist : (word_bytes x).reverse = [UInt8.ofBitVec ((x >>> 24).setWidth 8), UInt8.ofBitVec ((x >>> 16).setWidth 8),
      UInt8.ofBitVec ((x >>> 8).setWidth 8), UInt8.ofBitVec ((x >>> 0).setWidth 8)] := rfl
  rw [hlist, make_word_append]
  apply BitVec.eq_of_getLsbD_eq
  intro i hi
  simp only [BitVec.getLsbD_append, BitVec.getLsbD_setWidth, BitVec.getLsbD_ushiftRight]
  grind

theorem word_bytes_make (a b c d : UInt8) : word_bytes (make_word [d, c, b, a]) = [a, b, c, d] := by
  have hbyte (k : ℕ) (e : UInt8)
      (h : ∀ i < 8, (d.toBitVec ++ c.toBitVec ++ b.toBitVec ++ a.toBitVec).getLsbD (8 * k + i) = e.toBitVec.getLsbD i) :
      UInt8.ofBitVec ((make_word [d, c, b, a] >>> (8 * k)).setWidth 8) = e := by
    apply UInt8.toBitVec_inj.mp
    apply BitVec.eq_of_getLsbD_eq
    intro i hi
    rw [make_word_append, BitVec.getLsbD_setWidth, BitVec.getLsbD_ushiftRight, h i hi]
    simp [hi]
  simp only [word_bytes, List.map_cons, List.map_nil, List.cons.injEq, and_true]
  refine ⟨hbyte 0 a ?_, hbyte 1 b ?_, hbyte 2 c ?_, hbyte 3 d ?_⟩ <;> intro i hi <;>
    simp only [BitVec.getLsbD_append] <;> grind

theorem state_bytes_eq (m_state : Vector (BitVec 32) 5) :
    state_bytes m_state = word_bytes (m_state.get 0) ++ (word_bytes (m_state.get 1) ++ (word_bytes (m_state.get 2) ++
      (word_bytes (m_state.get 3) ++ word_bytes (m_state.get 4)))) := by
  rw [state_bytes, words_toList]
  simp

theorem bytes_state_bytes (m_state : Vector (BitVec 32) 5) : bytes_state (state_bytes m_state) = m_state := by
  have hwords : (bytes_state (state_bytes m_state)).toList =
      [m_state.get 0, m_state.get 1, m_state.get 2, m_state.get 3, m_state.get 4].map fun x =>
        make_word (word_bytes x).reverse := by
    rw [state_bytes_eq]
    rfl
  simp only [make_word_bytes, List.map_id'] at hwords
  rw [← words_toList] at hwords
  exact Vector.toList_inj.mp hwords

theorem state_bytes_length (m_state : Vector (BitVec 32) 5) : (state_bytes m_state).length = 20 := by
  rw [state_bytes_eq]
  rfl

theorem state_bytes_state (memory : Bytes) (h : memory.length = 20) : state_bytes (bytes_state memory) = memory := by
  match memory, h with
  | [a, b, c, d, e, f, g, h, i, j, k, l, m, n, o, p, q, r, s, t], _ =>
    have hwords : (bytes_state [a, b, c, d, e, f, g, h, i, j, k, l, m, n, o, p, q, r, s, t]).toList =
        [make_word [d, c, b, a], make_word [h, g, f, e], make_word [l, k, j, i], make_word [p, o, n, m],
          make_word [t, s, r, q]] := rfl
    simp [state_bytes, hwords, word_bytes_make]

theorem memcpy_eq_iff (dst src : Bytes) (size : ℕ) : memcpy dst src size = src ↔ dst.drop size = src.drop size := by
  conv_rhs => rw [← List.append_right_inj (src.take size), List.take_append_drop]
  exact Iff.rfl

/-! ## When the copy is a copy -/

/-- The bytes of the state that the assignment leaves as they are. -/
def SameRest (s other : impl) : Prop := (state_bytes s.m_state).drop 5 = (state_bytes other.m_state).drop 5

/-- **The copy is its source** if and only if the object had the rest of the state already. -/
theorem assign_eq_iff (s other : impl) : assign s other = other ↔ SameRest s other := by
  unfold SameRest
  rw [← memcpy_eq_iff]
  constructor
  · intro h
    have hstate : bytes_state (memcpy (state_bytes s.m_state) (state_bytes other.m_state) 5) = other.m_state :=
      congrArg impl.m_state h
    have hlen : (memcpy (state_bytes s.m_state) (state_bytes other.m_state) 5).length = 20 := by
      simp [memcpy, state_bytes_length]
    rw [← state_bytes_state _ hlen, hstate]
  · intro h
    rw [assign, h, bytes_state_bytes]

variable (wcstombs : List UInt32 → Bytes)

/-- Whatever is appended to both, they have the same digest in the end. -/
def SameDigests (s s' : impl) : Prop :=
  ∀ pieces : List piece, ∃ t t', pieces.foldlM (append wcstombs) s = .ok t ∧
    pieces.foldlM (append wcstombs) s' = .ok t' ∧ ∀ upper, hex (finalize t) upper = hex (finalize t') upper

theorem sameDigests_refl (s : impl) : SameDigests wcstombs s s := by
  intro pieces
  obtain ⟨t, ht, -⟩ := append_all_spec wcstombs s pieces
  exact ⟨t, t, ht, ht, fun _ => rfl⟩

/-- **When copying preserves the stream.** -/
theorem assign_preserves (s other : impl) :
    (assign s other = other ↔ SameRest s other) ∧
      (SameRest s other → SameDigests wcstombs (assign s other) other) := by
  refine ⟨assign_eq_iff s other, fun h => ?_⟩
  rw [(assign_eq_iff s other).mpr h]
  exact sameDigests_refl wcstombs other

theorem copy_before_block (pieces : List piece) (h : (message wcstombs pieces).length < 64) :
    ∃ s, pieces.foldlM (append wcstombs) impl.init = .ok s ∧ copy s = s := by
  obtain ⟨s, hs, happ⟩ := append_all_spec wcstombs impl.init pieces
  have hview := happ.view
  rw [view_init, absorbAll_short initial [] _ (by simpa using h)] at hview
  have hstate : s.m_state = impl.init.m_state := (Prod.mk.inj hview).1
  refine ⟨s, hs, (assign_eq_iff impl.init s).mpr ?_⟩
  rw [SameRest, hstate]

theorem copy_preserves_abc :
    ∃ s, [piece.text [97, 98, 99]].foldlM (append fun _ => []) impl.init = .ok s ∧
      SameDigests (fun _ => []) (copy s) s := by
  obtain ⟨s, hs, heq⟩ := copy_before_block (fun _ => []) [.text [97, 98, 99]] (by decide)
  exact ⟨s, hs, (assign_preserves (fun _ => []) impl.init s).2 ((assign_eq_iff _ _).mp heq)⟩

/-! ## Past the first block -/

theorem block_state_toList (m_state : Vector (BitVec 32) 5) (ptr : Bytes) :
    (block_state m_state ptr).toList = List.zipWith (· + ·) m_state.toList (run_calls
      ⟨m_state, ⟨((List.range 16).map fun i => make_word (ptr.drop (i <<< 2))).toArray, by simp⟩⟩).r.toList := by
  have hwords : (Vector.ofFn fun i : Fin 16 => make_word (ptr.drop (i.val <<< 2))) =
      ⟨((List.range 16).map fun i => make_word (ptr.drop (i <<< 2))).toArray, by simp⟩ := by
    ext i hi
    simp
  rw [block_state, block_locals, hwords, Vector.toList_zipWith]

theorem finalize_state (s : impl) (hi : s.m_i = 0) :
    (finalize s).m_state = block_state s.m_state ([0x80] ++ List.replicate 55 0 ++ length_bytes s.m_n_bits) := by
  have hview := (absorbs_finalize s).view
  have hstart : view s = (s.m_state, []) := by simp [view, hi]
  rw [hstart, hi, absorbAll_block _ _ (by decide) (by simp)] at hview
  rw [block_state_eq]
  exact (Prod.mk.inj hview).1

theorem block_a : block_state impl.init.m_state (List.replicate 64 97) =
    #v[0xDA4968EB, 0x2E377C1F, 0x884E8F52, 0x83524BEB, 0xE74EBDBD] := by
  apply Vector.toList_inj.mp
  rw [block_state_toList]
  decide +kernel

theorem digest_a (m_state : Vector (BitVec 32) 5) (digest : List (BitVec 32)) (s : impl) (hi : s.m_i = 0)
    (hbits : s.m_n_bits = 512) (hstate : s.m_state = m_state)
    (h : List.zipWith (· + ·) m_state.toList (run_calls ⟨m_state, ⟨((List.range 16).map fun i => make_word
      (([0x80] ++ List.replicate 55 0 ++ length_bytes 512).drop (i <<< 2))).toArray, by simp⟩⟩).r.toList = digest) :
    (finalize s).m_state.toList = digest := by
  rw [finalize_state s hi, hbits, hstate, block_state_toList, h]

/-- After 64 bytes the copy has the state of a new object in all but its first five bytes. -/
theorem copy_loses_block :
    ∃ s, [piece.text (List.replicate 64 97)].foldlM (append fun _ => []) impl.init = .ok s ∧
      ¬ SameDigests (fun _ => []) (copy s) s := by
  obtain ⟨s, hs, happ⟩ := append_all_spec (fun _ => []) impl.init [.text (List.replicate 64 97)]
  have hview := happ.view
  rw [view_init, absorbAll_block initial _ (by decide) (by decide), ← block_state_eq] at hview
  obtain ⟨hstate, hbuf⟩ := Prod.mk.inj hview
  have hi : s.m_i = 0 := by rw [← view_buffer_length, hview, List.length_nil]
  have hbits : s.m_n_bits = 512 := happ.bits
  refine ⟨s, hs, fun h => ?_⟩
  obtain ⟨t, t', ht, ht', hhex⟩ := h []
  obtain rfl : copy s = t := Except.ok.inj ht
  obtain rfl : s = t' := Except.ok.inj ht'
  have hsource : s.m_state = #v[0xDA4968EB, 0x2E377C1F, 0x884E8F52, 0x83524BEB, 0xE74EBDBD] := hstate.trans block_a
  have hcopy : (copy s).m_state = #v[0xDA4968EB, 0xEFCDAB1F, 0x98BADCFE, 0x10325476, 0xC3D2E1F0] := by
    have hmixed : bytes_state (memcpy (state_bytes impl.init.m_state)
        (state_bytes #v[0xDA4968EB, 0x2E377C1F, 0x884E8F52, 0x83524BEB, 0xE74EBDBD]) 5) =
        #v[0xDA4968EB, 0xEFCDAB1F, 0x98BADCFE, 0x10325476, 0xC3D2E1F0] := by decide +kernel
    rw [← hmixed, ← hsource]
    rfl
  have hdigest := digest_a _ [0x0098BA82, 0x4B5C1642, 0x7BD7A112, 0x2A5A442A, 0x25EC644D] s hi hbits hsource
    (by decide +kernel)
  have hdigest' := digest_a _ [0x06871D71, 0x2B85D641, 0x787DA92F, 0x1EFBD752, 0xBCA1C675] (copy s) hi hbits hcopy
    (by decide +kernel)
  have heq := hhex false
  unfold hex at heq
  rw [hdigest, hdigest'] at heq
  exact absurd heq (by decide)

end Libgs.sha1
