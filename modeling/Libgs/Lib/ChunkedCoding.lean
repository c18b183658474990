import Libgs.Lib.Digits
import Libgs.Lib.LineLoop

/-!
# The chunked transfer coding

A decoder for chunked messages in the manner of RFC 9112, 7.1.3: a size line with an optional
extension, the data and a line end, until a chunk of size 0; then the trailer up to an empty line.
-/

namespace Lib.Coding

/-- CRLF -/
def lineEnd : List UInt8 := [13, 10]

/-- The chunk-size of a line. Behind its digits there is nothing, or an extension with a semicolon,
which may have blanks before it. -/
def sizeOfLine (line : List UInt8) : Option ℕ :=
  let size := line.takeWhile (isDigit 16)
  let extension := line.dropWhile (isDigit 16)
  if size ≠ [] ∧ (extension = [] ∨ (extension.dropWhile fun c => c = 32 ∨ c = 9).head? = some 59) then
    some (digitsVal 16 size)
  else none

/-- What was decoded, and what stands behind it -/
structure Message where
  content : List UInt8
  trailer : List (List UInt8)
  rest : List UInt8
  deriving DecidableEq

/-- The trailer lines, each with a colon, up to a blank line -/
def readTrailer : ℕ → List UInt8 → Option (List (List UInt8) × List UInt8)
  | 0, _ => none
  | n + 1, s =>
    match cut lineEnd s with
    | none => none
    | some (line, rest) =>
      if line = [] then some ([], rest)
      else if 58 ∈ line then (readTrailer n rest).map fun t => (line :: t.1, t.2)
      else none

/-- Chunk after chunk, up to one of size zero and the trailer -/
def readChunks : ℕ → List UInt8 → Option Message
  | 0, _ => none
  | n + 1, s =>
    match cut lineEnd s with
    | none => none
    | some (line, rest) =>
      match sizeOfLine line with
      | none => none
      | some size =>
        if size = 0 then (readTrailer n rest).map fun t => ⟨[], t.1, t.2⟩
        else if lineEnd <+: rest.drop size then
          (readChunks n (rest.drop (size + 2))).map fun m => { m with content := rest.take size ++ m.content }
        else none

/-- Every line takes a byte, so that the bound is never reached. Chunk extensions and the names of trailers are not held
against their grammar. -/
def decode (s : List UInt8) : Option Message := readChunks (s.length + 1) s

/-! ## Writing -/

theorem isLine_of_not_mem (l : List UInt8) (h : 10 ∉ l) : IsLine lineEnd l := by
  intro hin
  have hmem : (10 : UInt8) ∈ l ++ lineEnd.dropLast := hin.subset (by decide)
  rcases List.mem_append.mp hmem with hmem | hmem
  · exact h hmem
  · revert hmem
    decide

theorem cut_line (l r : List UInt8) (h : IsLine lineEnd l) : cut lineEnd (l ++ (lineEnd ++ r)) = some (l, r) :=
  cut_append_pat lineEnd l r (by decide) h

/-- A chunk with this size line -/
def chunkText (line data : List UInt8) : List UInt8 := line ++ (lineEnd ++ (data ++ lineEnd))

/-- A size line with data of that size. -/
def IsChunk (c : List UInt8 × List UInt8) : Prop :=
  IsLine lineEnd c.1 ∧ sizeOfLine c.1 = some c.2.length ∧ c.2 ≠ []

def chunksText (chunks : List (List UInt8 × List UInt8)) : List UInt8 :=
  (chunks.map fun c => chunkText c.1 c.2).flatten

theorem chunksText_cons (c : List UInt8 × List UInt8) (chunks : List (List UInt8 × List UInt8)) :
    chunksText (c :: chunks) = chunkText c.1 c.2 ++ chunksText chunks := rfl

theorem chunksText_append (chunks more : List (List UInt8 × List UInt8)) :
    chunksText (chunks ++ more) = chunksText chunks ++ chunksText more := by
  simp [chunksText]

theorem readTrailer_unlines (ls : List (List UInt8)) (rest : List UInt8) (n : ℕ)
    (h : ∀ l ∈ ls, IsLine lineEnd l ∧ l ≠ [] ∧ 58 ∈ l) (hn : ls.length < n) :
    readTrailer n (unlines lineEnd ls ++ (lineEnd ++ rest)) = some (ls, rest) := by
  induction ls generalizing n with
  | nil =>
    cases n with
    | zero => simp at hn
    | succ n =>
      have hcut := cut_line [] rest (by decide)
      rw [List.nil_append] at hcut
      simp [readTrailer, hcut]
  | cons l ls ih =>
    cases n with
    | zero => simp at hn
    | succ n =>
      obtain ⟨hl, hne, hcolon⟩ := h l List.mem_cons_self
      have hcut := cut_line l (unlines lineEnd ls ++ (lineEnd ++ rest)) hl
      have hrest := ih n (fun k hk => h k (List.mem_cons_of_mem _ hk)) (by simpa using hn)
      rw [unlines_cons, List.append_assoc, List.append_assoc, readTrailer, hcut]
      simp [hne, hcolon, hrest]

theorem readChunks_chunk (line data rest : List UInt8) (n : ℕ) (hl : IsLine lineEnd line)
    (hsize : sizeOfLine line = some data.length) (hdata : data ≠ []) :
    readChunks (n + 1) (chunkText line data ++ rest) =
      (readChunks n rest).map fun m => { m with content := data ++ m.content } := by
  have hcut := cut_line line (data ++ (lineEnd ++ rest)) hl
  have htext : chunkText line data ++ rest = line ++ (lineEnd ++ (data ++ (lineEnd ++ rest))) := by simp [chunkText]
  have hdrop : (data ++ (lineEnd ++ rest)).drop (data.length + 2) = rest := by
    rw [List.drop_append, List.drop_eq_nil_of_le (by omega)]
    simp [lineEnd]
  rw [htext, readChunks, hcut]
  simp only [hsize, List.length_eq_zero_iff, hdata, if_false, List.drop_left, List.take_left, List.prefix_append,
    if_true, hdrop]

theorem readChunks_last (line : List UInt8) (ls : List (List UInt8)) (rest : List UInt8) (n : ℕ)
    (hl : IsLine lineEnd line) (hsize : sizeOfLine line = some 0) (h : ∀ l ∈ ls, IsLine lineEnd l ∧ l ≠ [] ∧ 58 ∈ l)
    (hn : ls.length < n) :
    readChunks (n + 1) (line ++ (lineEnd ++ (unlines lineEnd ls ++ (lineEnd ++ rest)))) = some ⟨[], ls, rest⟩ := by
  have hcut := cut_line line (unlines lineEnd ls ++ (lineEnd ++ rest)) hl
  unfold readChunks
  rw [hcut]
  simp only [hsize, if_true, readTrailer_unlines ls rest n h hn, Option.map_some]

theorem readChunks_message (chunks : List (List UInt8 × List UInt8)) (last : List UInt8) (ls : List (List UInt8))
    (rest : List UInt8) (n : ℕ)
    (hchunks : ∀ c ∈ chunks, IsChunk c) (hl : IsLine lineEnd last) (hsize : sizeOfLine last = some 0)
    (h : ∀ l ∈ ls, IsLine lineEnd l ∧ l ≠ [] ∧ 58 ∈ l) (hn : chunks.length + ls.length + 1 < n) :
    readChunks n (chunksText chunks ++
        (last ++ (lineEnd ++ (unlines lineEnd ls ++ (lineEnd ++ rest))))) =
      some ⟨(chunks.map (·.2)).flatten, ls, rest⟩ := by
  induction chunks generalizing n with
  | nil =>
    obtain ⟨n, rfl⟩ : ∃ k, n = k + 1 := ⟨n - 1, by omega⟩
    exact readChunks_last last ls rest n hl hsize h (by simpa using hn)
  | cons c chunks ih =>
    obtain ⟨n, rfl⟩ : ∃ k, n = k + 1 := ⟨n - 1, by omega⟩
    obtain ⟨hline, hlength, hdata⟩ := hchunks c List.mem_cons_self
    have hrest := ih n (fun d hd => hchunks d (List.mem_cons_of_mem _ hd)) (by simp at hn; omega)
    rw [chunksText_cons, List.append_assoc, readChunks_chunk _ _ _ _ hline hlength hdata, hrest]
    rfl

theorem unlines_length_le (ls : List (List UInt8)) : ls.length ≤ (unlines lineEnd ls).length := by
  induction ls with
  | nil => simp
  | cons l ls ih =>
    simp only [unlines_cons, List.length_append, List.length_cons, lineEnd, List.length_nil]
    unfold lineEnd at ih
    omega

theorem chunks_length_le (chunks : List (List UInt8 × List UInt8)) :
    chunks.length ≤ (chunksText chunks).length := by
  induction chunks with
  | nil => simp
  | cons c chunks ih =>
    simp only [chunksText_cons, List.length_append, List.length_cons, chunkText, lineEnd, List.length_nil]
    omega

/-- **A message is decoded.** Chunks, the last chunk and a trailer are read as what they stand for, and
nothing behind them is touched. -/
theorem decode_message (chunks : List (List UInt8 × List UInt8)) (last : List UInt8) (ls : List (List UInt8))
    (rest : List UInt8) (hchunks : ∀ c ∈ chunks, IsChunk c)
    (hl : IsLine lineEnd last) (hsize : sizeOfLine last = some 0)
    (h : ∀ l ∈ ls, IsLine lineEnd l ∧ l ≠ [] ∧ 58 ∈ l) :
    decode (chunksText chunks ++ (last ++ (lineEnd ++ (unlines lineEnd ls ++ (lineEnd ++ rest))))) =
      some ⟨(chunks.map (·.2)).flatten, ls, rest⟩ := by
  apply readChunks_message chunks last ls rest _ hchunks hl hsize h
  have hc := chunks_length_le chunks
  have hu := unlines_length_le ls
  simp only [List.length_append, lineEnd, List.length_cons, List.length_nil] at hc hu ⊢
  omega

/-! ## What is no message -/

theorem readChunks_unended (chunks : List (List UInt8 × List UInt8)) (n : ℕ)
    (hchunks : ∀ c ∈ chunks, IsChunk c) : readChunks n (chunksText chunks) = none := by
  induction chunks generalizing n with
  | nil => cases n <;> rfl
  | cons c chunks ih =>
    cases n with
    | zero => rfl
    | succ n =>
      obtain ⟨hline, hlength, hdata⟩ := hchunks c List.mem_cons_self
      rw [chunksText_cons, readChunks_chunk _ _ _ _ hline hlength hdata,
        ih n fun d hd => hchunks d (List.mem_cons_of_mem _ hd)]
      rfl

theorem readChunks_length (n : ℕ) (s : List UInt8) (m : Message) (h : readChunks n s = some m) :
    m.content.length < s.length := by
  induction n generalizing s m with
  | zero => cases h
  | succ n ih =>
    unfold readChunks at h
    split at h
    · cases h
    · rename_i line rest hcut
      have hlen : rest.length + 2 ≤ s.length := by
        rw [(cut_eq_some lineEnd s line rest (by decide) hcut).1]
        simp [lineEnd]
      split at h
      · cases h
      · split at h
        · obtain ⟨t, -, rfl⟩ := Option.map_eq_some_iff.mp h
          simp only [List.length_nil]
          omega
        · split at h
          · obtain ⟨m', hm', rfl⟩ := Option.map_eq_some_iff.mp h
            have := ih _ m' hm'
            simp only [List.length_drop, List.length_append, List.length_take] at this ⊢
            omega
          · cases h

theorem sizeOfLine_head (line : List UInt8) (size : ℕ) (h : sizeOfLine line = some size) :
    ∃ c t, line = c :: t ∧ isDigit 16 c = true := by
  cases line with
  | nil => simp [sizeOfLine] at h
  | cons c t =>
    refine ⟨c, t, rfl, ?_⟩
    by_contra hc
    simp [sizeOfLine, hc] at h

end Lib.Coding
