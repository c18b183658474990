import Libgs.Http.Fragments

/-!
# Chunked bodies

The size of a chunk is a local variable of `parse_chunked`, so a call that begins between a size line
and the end of its data has lost it; and data is read as a line. Without either, the chunks are
decoded as they were sent.
-/

namespace Libgs.Http

open Lib

variable {σ : Type} {hs : handlers σ}

/-- A chunk: the size as it is written, and the data. Neither is empty. -/
structure Chunk where
  size_text : Bytes
  data : Bytes
  size_ne : size_text ≠ []
  size_digits : size_text.all (isDigit 16) = true
  size_value : digitsVal 16 size_text = data.length
  data_ne : data ≠ []

/-- The two lines of a chunk -/
def Chunk.text (c : Chunk) : Bytes := unlines crlf [c.size_text, c.data]

def chunksText (cs : List Chunk) : Bytes := (cs.map Chunk.text).flatten

/-- The chunk of size zero, and the blank line behind it -/
def lastChunk : Bytes := unlines crlf [ascii "0", []]

/-- The chunks as they are sent, with the last chunk and without trailers. -/
def encodeChunks (cs : List Chunk) : Bytes := chunksText cs ++ lastChunk

/-- The body that the chunks make -/
def chunksData (cs : List Chunk) : Bytes := (cs.map Chunk.data).flatten

@[simp] theorem chunksText_cons (c : Chunk) (cs : List Chunk) : chunksText (c :: cs) = c.text ++ chunksText cs := rfl

@[simp] theorem chunksData_cons (c : Chunk) (cs : List Chunk) : chunksData (c :: cs) = c.data ++ chunksData cs := rfl

/-! ## Size lines -/

theorem size_digit_plain (c : UInt8) : isDigit 16 c = true → c ≠ 59 ∧ c ≠ 13 ∧ c ≠ 10 :=
  byte_forall (p := fun c => isDigit 16 c = true → c ≠ 59 ∧ c ≠ 13 ∧ c ≠ 10) (by decide +kernel) c

theorem no_infix_of_not_mem (a : UInt8) (pat s : Bytes) (ha : a ∈ pat) (hs : a ∉ s) : ¬ pat <:+: s :=
  fun h => hs (h.subset ha)

theorem Chunk.digit_mem (c : Chunk) (a : UInt8) (ha : a ∈ c.size_text) : isDigit 16 a = true :=
  List.all_eq_true.mp c.size_digits a ha

theorem Chunk.no_semicolon (c : Chunk) : cut (ascii ";") c.size_text = none := by
  rw [cut_eq_none]
  exact no_infix_of_not_mem 59 _ _ (by decide) fun h => (size_digit_plain 59 (c.digit_mem 59 h)).1 rfl

theorem Chunk.size_isLine (c : Chunk) : IsLine crlf c.size_text := by
  refine no_infix_of_not_mem 10 _ _ (by decide) fun h => ?_
  rcases List.mem_append.mp h with h | h
  · exact (size_digit_plain 10 (c.digit_mem 10 h)).2.2 rfl
  · simp [crlf] at h

theorem isLine_of_no_crlf (l : Bytes) (h : ¬ crlf <:+: l) : IsLine crlf l := by
  intro hc
  obtain ⟨a, b, hab⟩ := hc
  rcases List.eq_nil_or_concat b with rfl | ⟨b, z, rfl⟩
  · have := congrArg List.getLast? hab
    simp [crlf] at this
  · rw [List.concat_eq_append, ← List.append_assoc] at hab
    have := (List.append_inj' hab rfl).1
    exact h ⟨a, b, this⟩

theorem chunk_size_turn_spec (c : Chunk) (s : chunk_loop σ) (hlen : c.size_text.length ≤ 16) :
    chunk_size_turn c.size_text s =
      .again { s with _size := c.data.length, obj := { s.obj with m_state := .chunked_wait_content } } := by
  have hston := ston_hex c.size_text c.size_ne c.size_digits hlen
  have hpos : c.data.length ≠ 0 := fun h => c.data_ne (List.eq_nil_of_length_eq_zero h)
  unfold chunk_size_turn
  simp only [c.no_semicolon, Option.map_none, Option.getD_none, hston, gt_iff_lt, Nat.not_lt.mpr hlen, if_false,
    c.size_value, hpos]

/-- The loop behind a whole chunk -/
def chunk_loop.took (s : chunk_loop σ) (c : Chunk) : chunk_loop σ :=
  { s with
    _size := c.data.length
    obj := { s.obj with m_partial_body := s.obj.m_partial_body ++ c.data, m_state := .chunked_wait_size } }

theorem turns_chunk (c : Chunk) (s : chunk_loop σ) (hst : s.obj.m_state = .chunked_wait_size)
    (hlen : c.size_text.length ≤ 16) : turns (chunk_turn hs) [c.size_text, c.data] s = some (s.took c) := by
  simp only [turns, chunk_turn, hst, chunk_size_turn_spec c s hlen, chunk_content_turn, lt_irrefl, if_false]
  rfl

variable (hs) in
theorem turns_last (s : chunk_loop σ) (hst : s.obj.m_state = .chunked_wait_size) :
    turns (chunk_turn hs) [ascii "0"] s =
      some { s with _size := 0, obj := { s.obj with m_state := .chunked_wait_headers } } := by
  have hcut : cut (ascii ";") (ascii "0") = none := by decide
  have hston : ston (ascii "0") 16 = .ok 0 := by rfl
  have hlen : ¬ (ascii "0").length > 16 := by decide
  simp only [turns, chunk_turn, hst, chunk_size_turn, hcut, Option.map_none, Option.getD_none, hston, hlen, if_false,
    if_true]

/-! ## The loop from call to call -/

/-- What `parse_chunked` returns when the loop ends so -/
def chunk_end : Turn (chunk_loop σ) (Call (impl σ) Bool) → Call (impl σ) Bool
  | .leave c => c
  | .again s => chunk_pending s

theorem parse_chunked_eq (p : impl σ) :
    parse_chunked hs p = chunk_end (Lib.lines chunkBuffer crlf (chunk_turn hs) ⟨p, 0, none⟩) := rfl

def chunk_loop.withSrc (s : chunk_loop σ) (b : Bytes) : chunk_loop σ := { s with obj := s.obj.withSrc b }

theorem chunkBuffer_set (s : chunk_loop σ) (b : Bytes) : chunkBuffer.set s b = s.withSrc b := rfl

def chunk_loop.withSize (s : chunk_loop σ) (n : ℕ) : chunk_loop σ := { s with _size := n }

theorem chunk_turn_size (l : Bytes) (s : chunk_loop σ) (n : ℕ) (hst : s.obj.m_state ≠ .chunked_wait_content) :
    (∃ c, chunk_turn hs l s = .leave c ∧ chunk_turn hs l (s.withSize n) = .leave c) ∨
      ∃ t m, chunk_turn hs l s = .again t ∧ chunk_turn hs l (s.withSize n) = .again (t.withSize m) ∧
        (t._size = m ∨ t.obj.m_state ≠ .chunked_wait_content) := by
  unfold chunk_turn
  rw [show (s.withSize n).obj.m_state = s.obj.m_state from rfl]
  split
  · unfold chunk_size_turn
    dsimp only
    split
    · exact .inl ⟨_, rfl, rfl⟩
    · split
      · exact .inl ⟨_, rfl, rfl⟩
      · exact .inr ⟨_, _, rfl, rfl, .inl rfl⟩
  · exact absurd (by assumption) hst
  · cases ht : chunk_headers_turn hs (l ++ crlf) s with
    | leave c =>
      refine .inl ⟨c, rfl, ?_⟩
      rw [← ht]
      unfold chunk_headers_turn at ht ⊢
      rw [show (s.withSize n).obj = s.obj from rfl, show (s.withSize n).error = s.error from rfl]
      split
      · rfl
      · split
        · rfl
        · split
          · rfl
          · simp_all
    | again t =>
      obtain ⟨hl, c, hi, hv, rfl⟩ := chunk_headers_turn_again _ s t ht
      refine .inr ⟨_, n, rfl, ?_, .inr ?_⟩
      · unfold chunk_headers_turn
        rw [show (s.withSize n).obj = s.obj from rfl, show (s.withSize n).error = s.error from rfl, if_neg hl, hi]
        simp only [hv]
        rfl
      · exact (insert_line_same _ s.obj s.error c hi).state ▸ hst
  · exact .inr ⟨s, n, rfl, rfl, .inr hst⟩

theorem size_unused (s : chunk_loop σ) (n : ℕ) (hst : s.obj.m_state ≠ .chunked_wait_content) :
    chunk_end (Lib.lines chunkBuffer crlf (chunk_turn hs) (s.withSize n)) =
      chunk_end (Lib.lines chunkBuffer crlf (chunk_turn hs) s) := by
  refine lines_rule (B := chunkBuffer) chunk_turn_framed crlf_ne_nil
    (fun s t => s.obj.m_state ≠ .chunked_wait_content →
      ∀ n, chunk_end (Lib.lines chunkBuffer crlf (chunk_turn hs) (s.withSize n)) = chunk_end t) ?_ ?_ ?_ s hst n
  · intro s hpend _ n
    rw [lines_none (s.withSize n) ((cut_eq_none _ _).mpr hpend)]
    rfl
  · intro s l r c hc hb hst n
    rw [chunkBuffer_set] at hb
    rcases chunk_turn_size l (s.withSrc r) n hst with ⟨c', h1, h2⟩ | ⟨t, m, h1, -, -⟩
    · rw [lines_leave (s.withSize n) l r c' crlf_ne_nil hc h2]
      exact congrArg chunk_end (h1.symm.trans hb)
    · cases h1.symm.trans hb
  · intro s t l r hc hb ih hst n
    rw [chunkBuffer_set] at hb
    rcases chunk_turn_size l (s.withSrc r) n hst with ⟨c', h1, -⟩ | ⟨t', m, h1, h2, hm⟩
    · cases h1.symm.trans hb
    · obtain rfl : t' = t := by simpa using h1.symm.trans hb
      rw [lines_again chunk_turn_framed (s.withSize n) (t'.withSize m) l r crlf_ne_nil hc h2]
      rcases hm with hm | hm
      · rw [← hm]
        rfl
      · exact ih hm m

/-! ## Where the chunks may be cut -/

/-- `b` breaks off behind a size line and before the end of the data and its line end. -/
def InChunk (cs : List Chunk) (b : Bytes) : Prop :=
  ∃ done c more t, cs = done ++ c :: more ∧ b = chunksText done ++ (c.size_text ++ (crlf ++ t)) ∧ t <+: c.data ++ [13]

/-- The loop at a place where the chunks may be cut. -/
structure Resumable (s : chunk_loop σ) : Prop where
  clean : s.error = none
  short : s.obj.m_src_buf.length < 1024
  chunked : s.obj.m_state = .chunked_wait_size ∨ s.obj.m_state = .chunked_wait_headers

theorem lines_chunk (c : Chunk) (s : chunk_loop σ) (b : Bytes) (hst : s.obj.m_state = .chunked_wait_size)
    (hlen : c.size_text.length ≤ 16) (hdata : ¬ crlf <:+: c.data) :
    Lib.lines chunkBuffer crlf (chunk_turn hs) (s.withSrc (c.text ++ b)) =
      Lib.lines chunkBuffer crlf (chunk_turn hs) ((s.took c).withSrc b) := by
  refine lines_unlines (B := chunkBuffer) chunk_turn_framed crlf_ne_nil [c.size_text, c.data] s (s.took c) b ?_
    (turns_chunk c s hst hlen)
  intro l hl
  rcases List.mem_cons.mp hl with rfl | hl
  · exact c.size_isLine
  · rw [List.mem_singleton.mp hl]
    exact isLine_of_no_crlf _ hdata

variable (hs) in
theorem lines_pending (s : chunk_loop σ) (l t : Bytes) (hl : IsLine crlf l) (ht : t <+: l ++ [13]) :
    Lib.lines chunkBuffer crlf (chunk_turn hs) (s.withSrc t) = .again (s.withSrc t) := by
  refine lines_none _ ((cut_eq_none _ _).mpr fun hc => hl ?_)
  exact List.IsInfix.trans hc ht.isInfix

theorem lines_last_part (s : chunk_loop σ) (b : Bytes) (hst : s.obj.m_state = .chunked_wait_size)
    (herr : s.error = none) (hb : b <+: lastChunk) (hlt : b.length < lastChunk.length) :
    ∃ t, Lib.lines chunkBuffer crlf (chunk_turn hs) (s.withSrc b) = .again t ∧ Resumable t := by
  obtain ⟨done, l, more, t, u, hsplit, rfl, ht, hturns, hlines⟩ :=
    lines_prefix (B := chunkBuffer) chunk_turn_framed crlf_ne_nil [ascii "0"] [] b s _ (by decide)
      (turns_last _ s hst) hb hlt
  have htlen := ht.length_le
  cases done with
  | nil =>
    obtain rfl : s = u := by simpa [turns] using hturns
    obtain rfl : l = ascii "0" := by simpa using (congrArg List.head? hsplit).symm
    refine ⟨_, hlines, herr, ?_, .inl hst⟩
    simp only [chunkBuffer, crlf, ascii] at htlen ⊢
    simp at htlen
    omega
  | cons k done =>
    -- Two lines, so only the first of them can be done.
    obtain ⟨rfl, rfl, rfl⟩ : done = [] ∧ k = ascii "0" ∧ l = [] := by
      simp only [List.cons_append, List.cons.injEq, List.nil_append] at hsplit
      obtain ⟨rfl, htail⟩ := hsplit
      cases done with
      | nil => exact ⟨rfl, rfl, by simpa using (congrArg List.head? htail).symm⟩
      | cons m done => simp at htail
    rw [turns_last _ s hst, Option.some.injEq] at hturns
    refine ⟨_, hlines, ?_, ?_, .inr ?_⟩
    · rw [← hturns]
      exact herr
    · simp only [chunkBuffer, crlf] at htlen ⊢
      simp at htlen
      omega
    · rw [← hturns]
      rfl

theorem lines_chunks_part (cs : List Chunk) (s : chunk_loop σ) (b : Bytes) (hst : s.obj.m_state = .chunked_wait_size)
    (herr : s.error = none) (hlen : ∀ c ∈ cs, c.size_text.length ≤ 16) (hdata : ∀ c ∈ cs, ¬ crlf <:+: c.data)
    (hb : b <+: encodeChunks cs) (hlt : b.length < (encodeChunks cs).length) (hcut : ¬ InChunk cs b) :
    ∃ t, Lib.lines chunkBuffer crlf (chunk_turn hs) (s.withSrc b) = .again t ∧ Resumable t := by
  induction cs generalizing s b with
  | nil =>
    exact lines_last_part s b hst herr (by simpa [encodeChunks, chunksText] using hb)
      (by simpa [encodeChunks, chunksText] using hlt)
  | cons c cs ih =>
    have htext : encodeChunks (c :: cs) = c.size_text ++ (crlf ++ (c.data ++ (crlf ++ encodeChunks cs))) := by
      simp [encodeChunks, Chunk.text]
    by_cases hsize : b.length < (c.size_text ++ crlf).length
    · -- In the size line.
      have hpre : b <+: c.size_text ++ crlf := by
        rw [htext, ← List.append_assoc] at hb
        exact prefix_left b _ _ hb (by omega)
      have ht := prefix_of_lt crlf c.size_text b crlf_ne_nil hpre hsize
      refine ⟨_, lines_pending _ s c.size_text b c.size_isLine ht, herr, ?_, .inl hst⟩
      have := ht.length_le
      have := hlen c List.mem_cons_self
      simp only [crlf, List.length_append, List.dropLast, List.length_cons, List.length_nil] at *
      show b.length < 1024
      omega
    · obtain ⟨t, rfl⟩ : c.size_text ++ crlf <+: b := by
        rw [htext, ← List.append_assoc] at hb
        exact List.prefix_of_prefix_length_le (List.prefix_append _ _) hb (by omega)
      have hrest : t <+: (c.data ++ crlf) ++ encodeChunks cs := by
        rw [htext, ← List.append_assoc] at hb
        simpa using (List.prefix_append_right_inj _).mp hb
      by_cases hchunk : t.length < (c.data ++ crlf).length
      · -- In the data: that is where the chunks may not be cut.
        have ht := prefix_of_lt crlf c.data t crlf_ne_nil (prefix_left t _ _ hrest (by omega)) hchunk
        exact absurd ⟨[], c, cs, t, rfl, by simp [chunksText], ht⟩ hcut
      · obtain ⟨d, rfl⟩ : c.data ++ crlf <+: t :=
          List.prefix_of_prefix_length_le (List.prefix_append _ _) hrest (by omega)
        have hd : d <+: encodeChunks cs := (List.prefix_append_right_inj _).mp hrest
        have hform : (c.size_text ++ crlf) ++ ((c.data ++ crlf) ++ d) = c.text ++ d := by simp [Chunk.text]
        rw [hform] at hlt hcut ⊢
        rw [lines_chunk c s d hst (hlen c List.mem_cons_self) (hdata c List.mem_cons_self)]
        refine ih (s.took c) d rfl herr (fun k hk => hlen k (List.mem_cons_of_mem _ hk))
          (fun k hk => hdata k (List.mem_cons_of_mem _ hk)) hd ?_ ?_
        · simp only [encodeChunks, chunksText_cons, List.length_append] at hlt ⊢
          omega
        · rintro ⟨done, k, more, u, rfl, rfl, hu⟩
          exact hcut ⟨c :: done, k, more, u, rfl, by simp, hu⟩

variable (hs) in
theorem lines_chunks (cs : List Chunk) (s : chunk_loop σ) (hst : s.obj.m_state = .chunked_wait_size)
    (herr : s.error = none) (hlen : ∀ c ∈ cs, c.size_text.length ≤ 16) (hdata : ∀ c ∈ cs, ¬ crlf <:+: c.data) :
    ∃ p, Lib.lines chunkBuffer crlf (chunk_turn hs) (s.withSrc (encodeChunks cs)) = .leave (.ok p none true) ∧
      p.m_state = .finished ∧ p.m_partial_body = s.obj.m_partial_body ++ chunksData cs := by
  induction cs generalizing s with
  | nil =>
    have hlines : Lib.lines chunkBuffer crlf (chunk_turn hs) (s.withSrc lastChunk) =
        .leave (.ok { s.obj with m_state := .finished, m_src_buf := [] } s.error true) :=
      lines_unlines_leave (B := chunkBuffer) chunk_turn_framed crlf_ne_nil [ascii "0"] s _ [] [] _ (by decide)
        (by decide) (turns_last hs s hst) rfl
    exact ⟨_, herr ▸ hlines, rfl, by simp [chunksData]⟩
  | cons c cs ih =>
    obtain ⟨p, hp, hfin, hbody⟩ := ih (s.took c) rfl herr (fun k hk => hlen k (List.mem_cons_of_mem _ hk))
      (fun k hk => hdata k (List.mem_cons_of_mem _ hk))
    refine ⟨p, ?_, hfin, ?_⟩
    · rw [show encodeChunks (c :: cs) = c.text ++ encodeChunks cs by simp [encodeChunks],
        lines_chunk c s _ hst (hlen c List.mem_cons_self) (hdata c List.mem_cons_self), hp]
    · rw [hbody]
      simp [chunk_loop.took]

/-! ## A chunked request in fragments -/

/-- The loop at the start of a body -/
def chunk_start (q : impl σ) : chunk_loop σ := ⟨{ q with m_state := .chunked_wait_size }, 0, none⟩

/-- A head that the parser `p` accepts and that selects chunked reading. -/
structure ChunkedHead (hs : handlers σ) (p : impl σ) (h : Head) : Prop where
  accepted : (append hs p h.text).Clean true
  chunked : (append hs p h.text).obj.m_state = .chunked_wait_size

theorem chunked_cases (p : impl σ) (h : Head) (hp : Fresh p) (hr : ChunkedHead hs p h) :
    ∃ q, h.read hs p = some q ∧ q.m_partial_body = [] ∧ SelectsChunked q := by
  have hacc := hr.accepted
  have hchunked := hr.chunked
  rw [← List.append_nil h.text] at hacc hchunked
  obtain ⟨q, hread, hclean⟩ := read_of_append h p [] true hp hacc
  have hq : q.m_partial_body = [] := (h.read_spec p q (.inl hp.waiting) hread).2.1.trans hp.body
  rw [append_text h p q [] hp hread] at hchunked
  refine ⟨q, hread, hq, ?_⟩
  rcases body_cases q [] hclean with ⟨text, n, hfind, hston⟩ | hnone | hsel
  · rw [set_read_body_length q [] text n hq hfind hston] at hchunked
    simp only [Call.ok, received] at hchunked
    split at hchunked <;> cases hchunked
  · rw [set_read_body_none q [] hnone] at hchunked
    cases hchunked
  · exact hsel

/-- A break in a head line that leaves 1024 bytes or more of it waiting. -/
def LongLine (h : Head) (y : Bytes) : Prop :=
  ∃ done l more t, h.lines = done ++ l :: more ∧ y = unlines crlf done ++ t ∧ t <+: l ++ [13] ∧ 1024 ≤ t.length

/-- What chunked decoding needs to be right: data without line ends, sizes of at most 16 digits, and
fragments that end neither within a chunk's data nor far into a head line. -/
structure Undisturbed (h : Head) (cs : List Chunk) (xs : List Bytes) : Prop where
  data : ∀ c ∈ cs, ¬ crlf <:+: c.data
  size : ∀ c ∈ cs, c.size_text.length ≤ 16
  chunk_breaks : ∀ ys zs b, xs = ys ++ zs → zs ≠ [] → ys.flatten = h.text ++ b → ¬ InChunk cs b
  head_breaks : ∀ ys zs, xs = ys ++ zs → zs ≠ [] → ¬ LongLine h ys.flatten

/-- No append reports an error, and at the end the parser has finished with the data of the chunks. -/
structure Decoded (hs : handlers σ) (p : impl σ) (cs : List Chunk) (xs : List Bytes) : Prop where
  clean : ∀ ys x zs, xs = ys ++ x :: zs → ∃ v, (append hs (fed hs p ys) x).Clean v
  finished : is_finished (fed hs p xs) = true
  body : (fed hs p xs).m_partial_body = chunksData cs

section

variable {h : Head} {p q : impl σ} {cs : List Chunk} {zs : List Bytes}

theorem append_resumed (s t : chunk_loop σ) (x : Bytes) (hx : x ≠ [])
    (ht : Lib.lines chunkBuffer crlf (chunk_turn hs) s = .again t) (hr : Resumable t) :
    append hs t.obj x = chunk_end (Lib.lines chunkBuffer crlf (chunk_turn hs) (s.withSrc (s.obj.m_src_buf ++ x))) := by
  have hfeed := lines_feed (B := chunkBuffer) chunk_turn_framed crlf_ne_nil s t x ht
  have hst : t.obj.m_state ≠ .chunked_wait_content := by rcases hr.chunked with h | h <;> simp [h]
  have hcall : append hs t.obj x = parse_chunked hs (t.obj.withSrc (t.obj.m_src_buf ++ x)) := by
    rcases hr.chunked with h | h <;> exact append_behind t.obj x hx (by simp [InHead, h]) (by simp [h]) (by simp [h])
  have hstart : (⟨t.obj.withSrc (t.obj.m_src_buf ++ x), 0, none⟩ : chunk_loop σ) =
      (t.withSrc (t.obj.m_src_buf ++ x)).withSize 0 := by
    rw [← hr.clean]
    rfl
  rw [hcall, parse_chunked_eq, hstart, size_unused (t.withSrc (t.obj.m_src_buf ++ x)) 0 hst]
  exact (congrArg chunk_end hfeed).symm

/-- The loop of `parse_chunked` on the first bytes `b` behind the head can be resumed. -/
def ResumableAt (hs : handlers σ) (q : impl σ) (b : Bytes) : Prop :=
  ∃ t, Lib.lines chunkBuffer crlf (chunk_turn hs) ((chunk_start q).withSrc b) = .again t ∧ Resumable t

theorem append_fed_loop (xs : List Bytes) (x b : Bytes) (hp : Fresh p) (hread : h.read hs p = some q)
    (hsel : SelectsChunked q) (hne : ∀ x ∈ xs, x ≠ []) (hx : x ≠ []) (hb : xs.flatten ++ x = h.text ++ b)
    (hres : ∀ ys zs c, xs = ys ++ zs → ys.flatten = h.text ++ c → ResumableAt hs q c) :
    ∃ f, append hs (fed hs p xs) x =
      let c := chunk_end (Lib.lines chunkBuffer crlf (chunk_turn hs) ((chunk_start q).withSrc b))
      ⟨c.obj, c.error, c.value.map f⟩ := by
  induction xs using List.reverseRecOn generalizing x b with
  | nil =>
    refine ⟨fun _ => true, ?_⟩
    rw [append_fed_head h p q [] x b hp hread hne hx (by simp [Head.text, crlf]) hb, set_read_body_chunked q b hsel]
    rfl
  | append_singleton xs y ih =>
    by_cases hlt : (xs ++ [y]).flatten.length < h.text.length
    · refine ⟨fun _ => true, ?_⟩
      rw [append_fed_head h p q (xs ++ [y]) x b hp hread hne hx hlt hb, set_read_body_chunked q b hsel]
      rfl
    · -- The pieces before `x` hold the whole head and the bytes `c` of the chunks.
      obtain ⟨c, hc, hbc⟩ := h.text_behind hb (not_lt.mp hlt)
      obtain ⟨f, hprev⟩ := ih y c (fun z hz => hne z (by simp [hz])) (hne y (by simp)) (by rw [hc]; simp)
        (fun ys zs d hsplit => hres ys (zs ++ [y]) d (by simp [hsplit]))
      obtain ⟨t, ht, hr⟩ := hres (xs ++ [y]) [] c (by simp) hc.symm
      have hfed : fed hs p (xs ++ [y]) = t.obj := by
        rw [fed_append_one, hprev, ht]
        rfl
      refine ⟨id, ?_⟩
      rw [hfed, append_resumed _ t x hx ht hr, hbc]
      show _ = Call.mk _ _ (Except.map id _)
      rw [show ∀ e : Except exception Bool, e.map id = e by intro e; cases e <;> rfl]
      rfl

variable (hs) in
theorem resumable_of_undisturbed (ys : List Bytes) (b : Bytes) (hu : Undisturbed h cs (ys ++ zs)) (hzs : zs ≠ [])
    (hform : ys.flatten = h.text ++ b) (hle : b <+: encodeChunks cs) (hlt : b.length < (encodeChunks cs).length) :
    ResumableAt hs q b :=
  lines_chunks_part cs (chunk_start q) b rfl rfl hu.size hu.data hle hlt (hu.chunk_breaks ys zs b rfl hzs hform)

theorem append_fed_waiting (xs : List Bytes) (x : Bytes) (hp : Fresh p) (hread : h.read hs p = some q)
    (hne : ∀ x ∈ xs, x ≠ []) (hx : x ≠ []) (hy : xs.flatten ++ x <+: h.text)
    (hlt : (xs.flatten ++ x).length < h.text.length) (hlong : ¬ LongLine h (xs.flatten ++ x)) :
    (append hs (fed hs p xs) x).Clean false := by
  have hlt' : xs.flatten.length < h.text.length := by rw [List.length_append] at hlt; omega
  have hy' : xs.flatten <+: h.text := (List.prefix_append _ _).trans hy
  obtain ⟨done, l, more, t, s, hsplit, hform, ht, -, -, hlines⟩ :=
    lines_part h p q (xs.flatten ++ x) (.inl hp.waiting) hread hy hlt
  have hshort : t.length < 1024 := by
    by_contra hge
    rcases List.eq_nil_or_concat more with rfl | ⟨more, z, rfl⟩
    · obtain ⟨-, hl⟩ := List.append_inj' hsplit rfl
      have htlen := ht.length_le
      simp only [List.cons.injEq, and_true] at hl
      simp only [← hl, List.nil_append, List.length_singleton] at htlen
      omega
    · rw [List.concat_eq_append, ← List.cons_append, ← List.append_assoc] at hsplit
      exact hlong ⟨done, l, more, t, (List.append_inj' hsplit rfl).1, hform, ht, by omega⟩
  rw [append_fed_part h p q xs x (.inl hp.waiting) hp.src hread hne hx hy' hlt', parse_header_again _ _ hlines]
  exact ⟨by rw [header_pending]; simp [Call.ok, hshort], rfl⟩

end

/-- **Chunked decoding in fragments.** -/
theorem decoded_of_undisturbed (hs : handlers σ) (p : impl σ) (h : Head) (cs : List Chunk) (xs : List Bytes)
    (hp : Fresh p) (hr : ChunkedHead hs p h) (hne : ∀ x ∈ xs, x ≠ []) (hxs : xs.flatten = h.text ++ encodeChunks cs)
    (hu : Undisturbed h cs xs) : Decoded hs p cs xs := by
  obtain ⟨q, hread, hq, hsel⟩ := chunked_cases p h hp hr
  have part : ∀ ys x zs b, xs = ys ++ x :: zs → ys.flatten = h.text ++ b →
      b <+: encodeChunks cs ∧ b.length < (encodeChunks cs).length := by
    intro ys x zs b hsplit hb
    have hall : h.text ++ (b ++ (x ++ zs.flatten)) = h.text ++ encodeChunks cs := by
      rw [← hxs, hsplit, List.flatten_append, hb]
      simp
    have hrest := List.append_cancel_left hall
    have hpos := List.length_pos_iff.mpr (hne x (by simp [hsplit]))
    refine ⟨⟨_, hrest⟩, ?_⟩
    rw [← hrest]
    simp only [List.length_append]
    omega
  have behind : ∀ ys x zs b, xs = ys ++ x :: zs → ys.flatten ++ x = h.text ++ b → ∃ f,
      append hs (fed hs p ys) x =
        let c := chunk_end (Lib.lines chunkBuffer crlf (chunk_turn hs) ((chunk_start q).withSrc b))
        ⟨c.obj, c.error, c.value.map f⟩ := by
    intro ys x zs b hsplit hb
    refine append_fed_loop ys x b hp hread hsel (fun y hy => hne y (by simp [hsplit, hy])) (hne x (by simp [hsplit])) hb
      fun us vs c hys hform => ?_
    have hcut : ∃ y ws, vs ++ x :: zs = y :: ws := List.exists_cons_of_ne_nil (by simp)
    obtain ⟨y, ws, hcut⟩ := hcut
    have hxs' : xs = us ++ y :: ws := by rw [hsplit, hys, List.append_assoc, hcut]
    obtain ⟨hle, hlt⟩ := part us y ws c hxs' hform
    exact resumable_of_undisturbed _ us c (hxs' ▸ hu) (by simp) hform hle hlt
  have last : ∃ ys x, xs = ys ++ [x] := by
    rcases List.eq_nil_or_concat xs with rfl | ⟨ys, x, rfl⟩
    · simp [Head.text, crlf] at hxs
    · exact ⟨ys, x, List.concat_eq_append⟩
  obtain ⟨ps, hwhole, hfin, hbody⟩ := lines_chunks hs cs (chunk_start q) rfl rfl hu.size hu.data
  have hend : (fed hs p xs) = ps := by
    obtain ⟨ys, x, rfl⟩ := last
    obtain ⟨f, hcall⟩ := behind ys x [] (encodeChunks cs) rfl (by simpa using hxs)
    rw [fed_append_one, hcall, hwhole]
    rfl
  refine ⟨?_, by rw [hend]; simp [is_finished, hfin], by rw [hend, hbody]; simp [chunk_start, hq]⟩
  intro ys x zs hsplit
  have hpre : ys.flatten ++ x <+: h.text ++ encodeChunks cs := ⟨zs.flatten, by simp [← hxs, hsplit]⟩
  by_cases hge : h.text.length ≤ (ys.flatten ++ x).length
  · obtain ⟨b, hb⟩ := List.prefix_of_prefix_length_le (List.prefix_append _ _) hpre hge
    obtain ⟨f, hcall⟩ := behind ys x zs b hsplit hb.symm
    have hsplit' : xs = (ys ++ [x]) ++ zs := by simp [hsplit]
    have hform : (ys ++ [x]).flatten = h.text ++ b := by simpa using hb.symm
    cases zs with
    | nil =>
      obtain rfl : b = encodeChunks cs := by
        rw [hsplit', List.append_nil, hform] at hxs
        exact List.append_cancel_left hxs
      refine ⟨f true, ?_⟩
      rw [hcall, hwhole]
      exact ⟨rfl, rfl⟩
    | cons z zs =>
      obtain ⟨hle, hlt⟩ := part (ys ++ [x]) z zs b hsplit' hform
      obtain ⟨t, ht, hres⟩ := resumable_of_undisturbed hs (q := q) (ys ++ [x]) b (hsplit' ▸ hu) (by simp)
        hform hle hlt
      refine ⟨f false, ?_⟩
      rw [hcall, ht]
      exact ⟨by simp [chunk_end, chunk_pending, Call.ok, Nat.not_le.mpr hres.short, hres.clean], rfl⟩
  · refine ⟨false, append_fed_waiting ys x hp hread (fun y hy => hne y (by simp [hsplit, hy]))
      (hne x (by simp [hsplit])) (List.prefix_of_prefix_length_le hpre (List.prefix_append _ _) (by omega))
      (by omega) ?_⟩
    have hzs : zs ≠ [] := by
      rintro rfl
      have := congrArg List.length hxs
      simp only [hsplit, List.flatten_append, List.flatten_cons, List.flatten_nil, List.append_nil,
        List.length_append] at this hge
      omega
    simpa using hu.head_breaks (ys ++ [x]) zs (by simp [hsplit]) hzs

end Libgs.Http
