import Libgs.Http.Chunked

/-!
# What goes wrong with a chunk

For a message of one chunk, the conditions under which it is decoded are all needed.
-/

namespace Libgs.Http

open Lib

variable {σ : Type} {hs : handlers σ}

/-- The parser is in a chunked body. -/
def InChunks (p : impl σ) : Prop :=
  p.m_state = .chunked_wait_size ∨ p.m_state = .chunked_wait_content ∨ p.m_state = .chunked_wait_headers

/-! ## One turn -/

/-- A turn adds its line to the body or leaves the body alone. -/
def TurnSpec (l : Bytes) (s : chunk_loop σ) : Turn (chunk_loop σ) (Call (impl σ) Bool) → Prop
  | .again t => InChunks t.obj ∧
      (t.obj.m_partial_body = s.obj.m_partial_body ∨ t.obj.m_partial_body = s.obj.m_partial_body ++ l)
  | .leave c => c.obj.m_partial_body = s.obj.m_partial_body ∧ (InChunks c.obj ∨ c.obj.m_state = .finished) ∧
      ∀ v, c.Clean v → c.obj.m_state = .finished

variable (hs) in
theorem chunk_turn_spec (l : Bytes) (s : chunk_loop σ) (hin : InChunks s.obj) : TurnSpec l s (chunk_turn hs l s) := by
  cases ht : chunk_turn hs l s with
  | again t =>
    cases chunk_turn_again l s t ht with
    | @size n _ =>
      refine ⟨?_, .inl rfl⟩
      by_cases hn : n = 0
      · exact .inr (.inr (if_pos hn))
      · exact .inr (.inl (if_neg hn))
    | content hst =>
      obtain ⟨st, hstate, hobj⟩ := chunk_content_turn_obj l s
      refine ⟨?_, .inr (congrArg impl.m_partial_body hobj)⟩
      unfold InChunks
      rw [hobj]
      rcases hstate with rfl | rfl
      · exact .inr (.inl hst)
      · exact .inl rfl
    | @trailer c hst hline =>
      have hsame := insert_line_same _ s.obj s.error c hline
      exact ⟨.inr (.inr (hsame.state.trans hst)), .inl hsame.body⟩
    | idle _ _ _ => exact ⟨hin, .inl rfl⟩
  | leave c =>
    cases chunk_turn_leave l s c ht with
    | refused => exact ⟨rfl, .inl hin, fun v hv => absurd hv.1 (make_error_code_ne_none _)⟩
    | finished => exact ⟨rfl, .inr rfl, fun _ _ => rfl⟩
    | @thrown d e hst hline _ =>
      have hsame := insert_line_same _ s.obj s.error d hline
      refine ⟨hsame.body, .inl (.inr (.inr (hsame.state.trans hst))), fun v hv => ?_⟩
      cases hv.2

/-! ## A call -/

/-- What a call of `parse_chunked` adds to the body is made of lines, and of no more than there are. -/
structure CallSpec (p : impl σ) (c : Call (impl σ) Bool) : Prop where
  state : InChunks c.obj ∨ c.obj.m_state = .finished
  grows : p.m_partial_body.length ≤ c.obj.m_partial_body.length
  bounded : ∀ v, c.Clean v → ∀ future ls, p.m_src_buf ++ future = unlines crlf ls → (∀ l ∈ ls, IsLine crlf l) →
    (c.obj.m_state = .finished ∧ c.obj.m_partial_body.length ≤ p.m_partial_body.length + ls.flatten.length) ∨
      InChunks c.obj ∧ ∃ ms, c.obj.m_src_buf ++ future = unlines crlf ms ∧ (∀ l ∈ ms, IsLine crlf l) ∧
        c.obj.m_partial_body.length + ms.flatten.length ≤ p.m_partial_body.length + ls.flatten.length

theorem lines_cons_of_cut (src l r future : Bytes) (ls : List Bytes) (hc : cut crlf src = some (l, r))
    (hls : src ++ future = unlines crlf ls) (hline : ∀ l ∈ ls, IsLine crlf l) :
    ∃ ms, ls = l :: ms ∧ r ++ future = unlines crlf ms := by
  have hcut := cut_append crlf src future l r crlf_ne_nil hc
  cases ls with
  | nil => rw [hls] at hcut; simp [cut, find, crlf] at hcut
  | cons k ms =>
    rw [hls, unlines_cons, cut_append_pat crlf k _ crlf_ne_nil (hline k List.mem_cons_self)] at hcut
    simp only [Option.some.injEq, Prod.mk.injEq] at hcut
    exact ⟨ms, by rw [hcut.1], hcut.2.symm⟩

variable (hs) in
theorem lines_spec (s : chunk_loop σ) (hin : InChunks s.obj) :
    CallSpec s.obj (chunk_end (Lib.lines chunkBuffer crlf (chunk_turn hs) s)) := by
  refine lines_rule (B := chunkBuffer) chunk_turn_framed crlf_ne_nil
    (fun s t => InChunks s.obj → CallSpec s.obj (chunk_end t)) ?_ ?_ ?_ s hin
  · intro s _ hin
    exact ⟨.inl hin, le_refl _, fun v _ future ls hls hline => .inr ⟨hin, ls, hls, hline, le_refl _⟩⟩
  · intro s l r c _ hb hin
    have hspec := chunk_turn_spec hs l (s.withSrc r) hin
    rw [chunkBuffer_set] at hb
    rw [hb] at hspec
    obtain ⟨hbody, hstate, hclean⟩ := hspec
    have hlen : c.obj.m_partial_body.length = s.obj.m_partial_body.length := congrArg List.length hbody
    refine ⟨hstate, hlen.ge, fun v hv future ls _ _ => .inl ⟨hclean v hv, ?_⟩⟩
    show c.obj.m_partial_body.length ≤ _
    omega
  · intro s t l r hc hb ih hin
    have hspec := chunk_turn_spec hs l (s.withSrc r) hin
    rw [chunkBuffer_set] at hb
    rw [hb] at hspec
    obtain ⟨hint, hbody⟩ := hspec
    obtain ⟨hstate, hgrows, hbounded⟩ := ih hint
    have hlen : s.obj.m_partial_body.length ≤ t.obj.m_partial_body.length ∧
        t.obj.m_partial_body.length ≤ s.obj.m_partial_body.length + l.length := by
      rcases hbody with h | h <;> rw [h] <;> simp [chunk_loop.withSrc]
    refine ⟨hstate, hlen.1.trans hgrows, fun v hv future ls hls hline => ?_⟩
    obtain ⟨ms, rfl, hms⟩ := lines_cons_of_cut s.obj.m_src_buf l r future ls hc hls hline
    have hsrc : t.obj.m_src_buf = r := chunk_turn_framed.keeps _ _ _ hb
    rw [List.flatten_cons, List.length_append]
    rcases hbounded v hv future ms (by rw [hsrc, hms]) (fun k hk => hline k (List.mem_cons_of_mem _ hk)) with
      ⟨hfin, hle⟩ | ⟨hin', ns, hns, hnline, hle⟩
    · exact .inl ⟨hfin, by omega⟩
    · exact .inr ⟨hin', ns, hns, hnline, by omega⟩

theorem append_inChunks (p : impl σ) (x : Bytes) (hx : x ≠ []) (hin : InChunks p) :
    append hs p x = chunk_end (Lib.lines chunkBuffer crlf (chunk_turn hs) ⟨p.withSrc (p.m_src_buf ++ x), 0, none⟩) := by
  rw [← parse_chunked_eq]
  rcases hin with h | h | h <;> exact append_behind p x hx (by simp [InHead, h]) (by simp [h]) (by simp [h])

theorem append_finished (p : impl σ) (x : Bytes) (hp : p.m_state = .finished) :
    (append hs p x).obj = p ∧ (append hs p x).error ≠ none := by
  by_cases hx : x = [] <;> simp [append, hx, hp, Call.ok, make_error_code]

/-! ## Runs of appends -/

/-- No append of the run sets an error or throws. -/
def AllClean (hs : handlers σ) (p : impl σ) (xs : List Bytes) : Prop :=
  ∀ ys x zs, xs = ys ++ x :: zs → ∃ v, (append hs (fed hs p ys) x).Clean v

theorem fed_cons (p : impl σ) (x : Bytes) (xs : List Bytes) : fed hs p (x :: xs) = fed hs (append hs p x).obj xs := rfl

theorem fed_append (p : impl σ) (xs ys : List Bytes) : fed hs p (xs ++ ys) = fed hs (fed hs p xs) ys := by
  simp [fed]

theorem AllClean.tail {p : impl σ} {x : Bytes} {xs : List Bytes} (h : AllClean hs p (x :: xs)) :
    AllClean hs (append hs p x).obj xs := by
  intro ys z zs hsplit
  exact h (x :: ys) z zs (by rw [hsplit, List.cons_append])

theorem AllClean.drop {p : impl σ} {xs ys : List Bytes} (h : AllClean hs p (xs ++ ys)) :
    AllClean hs (fed hs p xs) ys := by
  intro us z zs hsplit
  have := h (xs ++ us) z zs (by rw [hsplit, List.append_assoc])
  rwa [fed_append] at this

theorem fed_bounded (p : impl σ) (xs ls : List Bytes) (m : ℕ) (hin : InChunks p) (hne : ∀ x ∈ xs, x ≠ [])
    (hls : p.m_src_buf ++ xs.flatten = unlines crlf ls) (hline : ∀ l ∈ ls, IsLine crlf l)
    (hm : p.m_partial_body.length + ls.flatten.length ≤ m) (hclean : AllClean hs p xs)
    (hfin : (fed hs p xs).m_state = .finished) : (fed hs p xs).m_partial_body.length ≤ m := by
  induction xs generalizing p ls with
  | nil =>
    exfalso
    rw [show fed hs p [] = p from rfl] at hfin
    rcases hin with h | h | h <;> rw [h] at hfin <;> cases hfin
  | cons x xs ih =>
    have hx := hne x List.mem_cons_self
    have hspec := lines_spec hs ⟨p.withSrc (p.m_src_buf ++ x), 0, none⟩ hin
    rw [← append_inChunks p x hx hin] at hspec
    obtain ⟨v, hv⟩ := hclean [] x xs rfl
    rw [show fed hs p [] = p from rfl] at hv
    rw [fed_cons] at hfin ⊢
    rcases hspec.bounded v hv xs.flatten ls (by simpa using hls) hline with ⟨hf, hle⟩ | ⟨hin', ms, hms, hmline, hle⟩
    · cases xs with
      | nil => exact hle.trans hm
      | cons y ys =>
        -- A finished parser refuses more.
        obtain ⟨w, hw⟩ := hclean.tail [] y ys rfl
        exact absurd hw.1 (append_finished _ y hf).2
    · exact ih (append hs p x).obj ms hin' (fun z hz => hne z (List.mem_cons_of_mem _ hz)) hms hmline
        (hle.trans hm) hclean.tail hfin

/-! ## Breaks and lines -/

theorem exists_crossing (xs : List Bytes) (k : ℕ) (hk : 0 < k) (hle : k ≤ xs.flatten.length) :
    ∃ ys x zs, xs = ys ++ x :: zs ∧ ys.flatten.length < k ∧ k ≤ (ys.flatten ++ x).length := by
  induction xs generalizing k with
  | nil => simp at hle; omega
  | cons x xs ih =>
    by_cases hx : k ≤ x.length
    · exact ⟨[], x, xs, rfl, hk, hx⟩
    · rw [List.flatten_cons, List.length_append] at hle
      obtain ⟨ys, y, zs, rfl, hlt, hge⟩ := ih (k - x.length) (by omega) (by omega)
      refine ⟨x :: ys, y, zs, rfl, ?_, ?_⟩ <;>
        simp only [List.flatten_cons, List.append_assoc, List.length_append] at hlt hge ⊢ <;> omega

theorem exists_unlines (d : Bytes) :
    ∃ ls, ls ≠ [] ∧ unlines crlf ls = d ++ crlf ∧ ∀ l ∈ ls, IsLine crlf l := by
  induction hn : d.length using Nat.strong_induction_on generalizing d with
  | _ n ih =>
    cases hc : cut crlf (d ++ crlf) with
    | none => exact absurd (List.suffix_append d crlf).isInfix ((cut_eq_none _ _).mp hc)
    | some lr =>
      obtain ⟨l, r⟩ := lr
      obtain ⟨heq, hl⟩ := cut_eq_some crlf _ l r crlf_ne_nil hc
      have hlen := congrArg List.length heq
      simp only [List.length_append] at hlen
      by_cases hr : r = []
      · refine ⟨[l], by simp, ?_, fun k hk => List.mem_singleton.mp hk ▸ hl⟩
        rw [heq, hr]
        simp
      · have hr2 : crlf.length ≤ r.length := by
          by_contra hlt
          obtain ⟨a, rfl⟩ : ∃ a, r = [a] := by
            rw [← List.length_eq_one_iff]
            have := List.length_pos_iff.mpr hr
            simp only [crlf, List.length_cons, List.length_nil] at hlt
            omega
          have hlast : (d ++ [13]) ++ [10] = (l ++ [13, 10]) ++ [a] := by simpa [crlf] using heq
          have hmid := (List.append_inj' hlast rfl).1
          have hmid' : d ++ [13] = (l ++ [13]) ++ [10] := by simpa using hmid
          have := (List.append_inj' hmid' rfl).2
          simp at this
        obtain ⟨r', rfl⟩ : crlf <:+ r :=
          List.suffix_of_suffix_length_le (List.suffix_append d crlf) ⟨l ++ crlf, by rw [heq]; simp⟩ hr2
        have hd : d = l ++ (crlf ++ r') := by
          have : d ++ crlf = (l ++ (crlf ++ r')) ++ crlf := by rw [heq]; simp
          exact (List.append_inj' this rfl).1
        simp only [List.length_append] at hlen
        have hcl : crlf.length = 2 := rfl
        obtain ⟨ls, hne, hls, hline⟩ := ih r'.length (by omega) r' rfl
        refine ⟨l :: ls, by simp, by simp [hls, hd], fun k hk => ?_⟩
        rcases List.mem_cons.mp hk with rfl | hk
        · exact hl
        · exact hline k hk

theorem unlines_length (ls : List Bytes) : (unlines crlf ls).length = ls.flatten.length + 2 * ls.length := by
  induction ls with
  | nil => rfl
  | cons l ls ih =>
    have : crlf.length = 2 := rfl
    rw [unlines_cons, List.flatten_cons, List.length_cons]
    simp only [List.length_append, ih]
    omega

/-- The chunk without its size line, and the last chunk -/
def restText (c : Chunk) : Bytes := c.data ++ (crlf ++ lastChunk)

theorem encode_one (c : Chunk) : encodeChunks [c] = c.size_text ++ (crlf ++ restText c) := by
  simp [encodeChunks, chunksText, Chunk.text, restText]

theorem exists_short_lines (c : Chunk) (hc : crlf <:+: c.data) :
    ∃ ls, restText c = unlines crlf ls ∧ (∀ l ∈ ls, IsLine crlf l) ∧ ls.flatten.length ≤ c.data.length - 1 := by
  have hsome : ∃ l r, cut crlf c.data = some (l, r) := by
    cases h : cut crlf c.data with
    | none => exact absurd hc ((cut_eq_none _ _).mp h)
    | some lr => exact ⟨lr.1, lr.2, rfl⟩
  obtain ⟨l, r, hcut⟩ := hsome
  obtain ⟨hdata, hl⟩ := cut_eq_some crlf _ l r crlf_ne_nil hcut
  obtain ⟨ls, hne, hls, hline⟩ := exists_unlines r
  refine ⟨l :: (ls ++ [ascii "0", []]), ?_, ?_, ?_⟩
  · rw [unlines_cons, unlines_append, hls, restText, hdata, lastChunk]
    simp
  · intro k hk
    rcases List.mem_cons.mp hk with rfl | hk
    · exact hl
    · rcases List.mem_append.mp hk with hk | hk
      · exact hline k hk
      · exact (by decide : ∀ k ∈ [ascii "0", []], IsLine crlf k) k hk
  · have hsum := unlines_length ls
    have hpos := List.length_pos_iff.mpr hne
    rw [hls] at hsum
    have hcl : crlf.length = 2 := rfl
    rw [hdata]
    have hlast : (List.flatten [ascii "0", []]).length = 1 := rfl
    rw [List.flatten_cons, List.flatten_append, List.length_append, List.length_append, hlast]
    simp only [List.length_append, hcl] at hsum ⊢
    omega

/-! ## The size line -/

/-- The loop behind the size line of the chunk -/
def content_start (q : impl σ) (c : Chunk) : chunk_loop σ :=
  ⟨{ q with m_state := .chunked_wait_content }, c.data.length, none⟩

theorem lines_size (q : impl σ) (c : Chunk) (b : Bytes) (hlen : c.size_text.length ≤ 16) :
    Lib.lines chunkBuffer crlf (chunk_turn hs) ((chunk_start q).withSrc (c.size_text ++ (crlf ++ b))) =
      Lib.lines chunkBuffer crlf (chunk_turn hs) ((content_start q c).withSrc b) := by
  apply lines_line (B := chunkBuffer) chunk_turn_framed crlf_ne_nil (chunk_start q) _ c.size_text b c.size_isLine
  exact chunk_size_turn_spec c (chunk_start q) hlen

theorem lines_long_size (q : impl σ) (c : Chunk) (b : Bytes) (hlen : 16 < c.size_text.length) :
    Lib.lines chunkBuffer crlf (chunk_turn hs) ((chunk_start q).withSrc (c.size_text ++ (crlf ++ b))) =
      .leave (.ok ((chunk_start q).withSrc b).obj (make_error_code .SFE) false) := by
  refine lines_leave (B := chunkBuffer) _ c.size_text b _ crlf_ne_nil
    (cut_append_pat crlf c.size_text b crlf_ne_nil c.size_isLine) ?_
  show chunk_size_turn c.size_text ((chunk_start q).withSrc b) = _
  simp [chunk_size_turn, c.no_semicolon, hlen]

section

variable {h : Head} {p q : impl σ} {c : Chunk} {xs : List Bytes}

theorem resumable_size (us vs : List Bytes) (b : Bytes) (hp : Fresh p) (hread : h.read hs p = some q)
    (hsel : SelectsChunked q) (hne : ∀ x ∈ us ++ vs, x ≠ []) (hclean : AllClean hs p (us ++ vs))
    (hform : us.flatten = h.text ++ b) (hb : b <+: c.size_text ++ [13]) : ResumableAt hs q b := by
  induction hn : us.length using Nat.strong_induction_on generalizing us vs b with
  | _ n ih =>
    rcases List.eq_nil_or_concat us with rfl | ⟨us, x, rfl⟩
    · simp [Head.text, crlf] at hform
    · rw [List.concat_eq_append] at *
      have hform' : us.flatten ++ x = h.text ++ b := by simpa using hform
      have hlines := lines_pending hs (chunk_start q) c.size_text b c.size_isLine hb
      have hearlier : ∀ ys zs d, us = ys ++ zs → ys.flatten = h.text ++ d → ResumableAt hs q d := by
        rintro ys zs d rfl hd
        have hdb : d <+: b := by
          rw [List.flatten_append, hd, List.append_assoc, List.append_assoc] at hform'
          exact ⟨_, List.append_cancel_left hform'⟩
        refine ih ys.length ?_ ys (zs ++ [x] ++ vs) d (by simpa using hne) (by simpa using hclean) hd (hdb.trans hb) rfl
        rw [← hn]
        simp
      obtain ⟨f, hcall⟩ := append_fed_loop us x b hp hread hsel (fun y hy => hne y (by simp [hy])) (hne x (by simp))
        hform' hearlier
      obtain ⟨v, hv⟩ := hclean us x vs (by simp)
      refine ⟨_, hlines, rfl, ?_, .inl rfl⟩
      by_contra hlong
      have herr := hv.1
      rw [hcall, hlines] at herr
      simp only [chunk_end, chunk_pending, Call.ok, ge_iff_le, not_lt.mp hlong, if_true] at herr
      exact make_error_code_ne_none _ herr

theorem crossing_size (us vs : List Bytes) (b : Bytes) (hp : Fresh p) (hread : h.read hs p = some q)
    (hsel : SelectsChunked q) (hne : ∀ x ∈ us ++ vs, x ≠ []) (hclean : AllClean hs p (us ++ vs))
    (hform : us.flatten = h.text ++ (c.size_text ++ (crlf ++ b))) :
    ∃ ys x zs d f, us = ys ++ x :: zs ∧ d ++ zs.flatten = b ∧ append hs (fed hs p ys) x =
      let r := chunk_end (Lib.lines chunkBuffer crlf (chunk_turn hs)
        ((chunk_start q).withSrc (c.size_text ++ (crlf ++ d))))
      ⟨r.obj, r.error, r.value.map f⟩ := by
  have hcl : crlf.length = 2 := rfl
  obtain ⟨ys, x, zs, rfl, hlt, hge⟩ := exists_crossing us (h.text.length + c.size_text.length + 2) (by omega)
    (by rw [hform]; simp only [List.length_append, hcl]; omega)
  have hpre : ys.flatten ++ x <+: h.text ++ (c.size_text ++ (crlf ++ b)) := ⟨zs.flatten, by rw [← hform]; simp⟩
  obtain ⟨d, hd⟩ : h.text ++ (c.size_text ++ crlf) <+: ys.flatten ++ x := by
    refine List.prefix_of_prefix_length_le ⟨b, by simp⟩ hpre ?_
    simp only [List.length_append, hcl] at hge ⊢
    omega
  have hd' : ys.flatten ++ x = h.text ++ (c.size_text ++ (crlf ++ d)) := by rw [← hd]; simp
  have hrest : d ++ zs.flatten = b := by
    have : h.text ++ (c.size_text ++ (crlf ++ (d ++ zs.flatten))) = h.text ++ (c.size_text ++ (crlf ++ b)) := by
      rw [← hform, List.flatten_append, List.flatten_cons, ← List.append_assoc ys.flatten, hd']
      simp
    exact List.append_cancel_left (List.append_cancel_left (List.append_cancel_left this))
  have hearlier : ∀ us' ws e, ys = us' ++ ws → us'.flatten = h.text ++ e → ResumableAt hs q e := by
    rintro us' ws e rfl he
    refine resumable_size us' (ws ++ x :: zs ++ vs) e (c := c) hp hread hsel (by simpa using hne)
      (by simpa using hclean) he ?_
    have hele : e <+: c.size_text ++ (crlf ++ d) := by
      rw [List.flatten_append, he, List.append_assoc, List.append_assoc] at hd'
      exact ⟨_, List.append_cancel_left hd'⟩
    rw [← List.append_assoc] at hele
    refine prefix_of_lt crlf c.size_text e crlf_ne_nil (prefix_left e _ _ hele ?_) ?_ <;>
      simp only [List.flatten_append, he, List.length_append, hcl] at hlt ⊢ <;> omega
  obtain ⟨f, hcall⟩ := append_fed_loop ys x _ hp hread hsel (fun y hy => hne y (by simp [hy])) (hne x (by simp)) hd'
    hearlier
  exact ⟨ys, x, zs, d, f, rfl, hrest, hcall⟩

theorem size_of_clean (hp : Fresh p) (hread : h.read hs p = some q) (hsel : SelectsChunked q)
    (hne : ∀ x ∈ xs, x ≠ []) (hxs : xs.flatten = h.text ++ encodeChunks [c]) (hclean : AllClean hs p xs) :
    c.size_text.length ≤ 16 := by
  by_contra hlong
  rw [encode_one] at hxs
  obtain ⟨ys, x, zs, d, f, rfl, -, hcall⟩ := crossing_size xs [] (restText c) hp hread hsel (by simpa using hne)
    (by simpa using hclean) hxs
  obtain ⟨v, hv⟩ := hclean ys x zs rfl
  have herr := hv.1
  rw [hcall, lines_long_size q c d (by omega)] at herr
  exact make_error_code_ne_none _ herr

theorem data_of_decoded (hp : Fresh p) (hread : h.read hs p = some q) (hsel : SelectsChunked q)
    (hq : q.m_partial_body = []) (hne : ∀ x ∈ xs, x ≠ []) (hxs : xs.flatten = h.text ++ encodeChunks [c])
    (hsize : c.size_text.length ≤ 16) (hd : Decoded hs p [c] xs) : ¬ crlf <:+: c.data := by
  intro hcr
  have hclean : AllClean hs p xs := hd.clean
  have hfin : (fed hs p xs).m_state = .finished := by simpa [is_finished] using hd.finished
  rw [encode_one] at hxs
  obtain ⟨ys, x, zs, d, f, rfl, hrest, hcall⟩ := crossing_size xs [] (restText c) hp hread hsel (by simpa using hne)
    (by simpa using hclean) hxs
  rw [lines_size q c d hsize] at hcall
  obtain ⟨ls, hls, hline, hsum⟩ := exists_short_lines c hcr
  have hspec := lines_spec hs ((content_start q c).withSrc d) (.inr (.inl rfl))
  have hpos := List.length_pos_iff.mpr c.data_ne
  -- What the crossing append leaves is bounded by the lines behind the size line.
  obtain ⟨v, hv⟩ := hclean ys x zs rfl
  rw [hcall] at hv
  obtain ⟨w, hw⟩ := Call.clean_of_map _ f v hv
  have hobj : (append hs (fed hs p ys) x).obj =
      (chunk_end (Lib.lines chunkBuffer crlf (chunk_turn hs) ((content_start q c).withSrc d))).obj := by rw [hcall]
  have hend : fed hs p (ys ++ x :: zs) = fed hs (append hs (fed hs p ys) x).obj zs := by
    rw [fed_append, fed_cons]
  have hshort : (fed hs p (ys ++ x :: zs)).m_partial_body.length ≤ c.data.length - 1 := by
    have hzero : ((content_start q c).withSrc d).obj.m_partial_body.length = 0 := by
      simp [content_start, chunk_loop.withSrc, hq]
    have hclean' : AllClean hs (append hs (fed hs p ys) x).obj zs := by
      have := hclean.drop
      exact this.tail
    rw [hend] at hfin ⊢
    rcases hspec.bounded w hw zs.flatten ls (by rw [← hls, ← hrest]; rfl) hline with
      ⟨hf, hle⟩ | ⟨hin, ms, hms, hmline, hle⟩
    · rw [← hobj] at hf hle
      cases zs with
      | nil => exact hle.trans (by omega)
      | cons z zs =>
        obtain ⟨u, hu⟩ := hclean' [] z zs rfl
        exact absurd hu.1 (append_finished _ z hf).2
    · rw [← hobj] at hin hms hle
      exact fed_bounded _ zs ms _ hin (fun z hz => hne z (by simp [hz])) hms hmline (by omega) hclean' hfin
  rw [hd.body] at hshort
  simp [chunksData] at hshort
  omega

/-! ## The lost size -/

/-- A call begins in the data of the chunk, and then the last chunk is taken for data as well. -/
inductive Lost (c : Chunk) (p : impl σ) (rest : Bytes) : Prop
  | in_data (state : p.m_state = .chunked_wait_content) (body : p.m_partial_body = [])
      (src : p.m_src_buf <+: c.data ++ [13]) (more : p.m_src_buf ++ rest = restText c)
  | in_last (state : p.m_state = .chunked_wait_content) (body : p.m_partial_body.length = c.data.length)
      (src : p.m_src_buf <+: ascii "0" ++ [13]) (more : p.m_src_buf ++ rest = lastChunk)
  | too_long (state : InChunks p ∨ p.m_state = .finished) (body : c.data.length < p.m_partial_body.length)

theorem lost_last (s : chunk_loop σ) (u rest : Bytes) (hst : s.obj.m_state = .chunked_wait_content)
    (hbody : s.obj.m_partial_body.length = c.data.length) (hu : u ++ rest = lastChunk) :
    Lost c (chunk_end (Lib.lines chunkBuffer crlf (chunk_turn hs) (s.withSrc u))).obj rest := by
  have hlast : lastChunk = ascii "0" ++ (crlf ++ crlf) := rfl
  have hcl : crlf.length = 2 := rfl
  have hpre : u <+: (ascii "0" ++ crlf) ++ crlf := by rw [List.append_assoc, ← hlast]; exact ⟨rest, hu⟩
  by_cases hlt : u.length < (ascii "0" ++ crlf).length
  · have ht := prefix_of_lt crlf (ascii "0") u crlf_ne_nil (prefix_left u _ _ hpre (by omega)) hlt
    rw [lines_pending _ s (ascii "0") u (by decide) ht]
    exact .in_last hst hbody ht hu
  · obtain ⟨u', rfl⟩ : ascii "0" ++ crlf <+: u :=
      List.prefix_of_prefix_length_le (List.prefix_append _ _) hpre (by omega)
    have hturn : chunk_turn hs (ascii "0") s = .again (chunk_content_turn (ascii "0") s) := by
      simp [chunk_turn, hst]
    rw [List.append_assoc, show s.withSrc (ascii "0" ++ (crlf ++ u')) = chunkBuffer.set s _ from rfl,
      lines_line chunk_turn_framed crlf_ne_nil s _ (ascii "0") u' (by decide) hturn, chunkBuffer_set]
    have hin : InChunks (chunk_content_turn (ascii "0") s).obj ∧
        (chunk_content_turn (ascii "0") s).obj.m_partial_body.length = c.data.length + 1 := by
      unfold chunk_content_turn
      dsimp only
      split
      · exact ⟨.inr (.inl hst), by rw [List.length_append, hbody]; rfl⟩
      · exact ⟨.inl rfl, by show (s.obj.m_partial_body ++ ascii "0").length = _; rw [List.length_append, hbody]; rfl⟩
    have hspec := lines_spec hs ((chunk_content_turn (ascii "0") s).withSrc u') hin.1
    refine .too_long hspec.state (lt_of_lt_of_le ?_ hspec.grows)
    show c.data.length < (chunk_content_turn (ascii "0") s).obj.m_partial_body.length
    omega

theorem lost_append (x rest : Bytes) (hx : x ≠ []) (hline : ¬ crlf <:+: c.data) (hl : Lost c p (x ++ rest)) :
    Lost c (append hs p x).obj rest := by
  have hpos := List.length_pos_iff.mpr c.data_ne
  cases hl with
  | in_data hst hbody hsrc hmore =>
    rw [append_inChunks p x hx (.inr (.inl hst))]
    have hmore' : (p.m_src_buf ++ x) ++ rest = (c.data ++ crlf) ++ lastChunk := by
      rw [List.append_assoc, hmore, restText, List.append_assoc]
    have hpre : p.m_src_buf ++ x <+: (c.data ++ crlf) ++ lastChunk := ⟨rest, hmore'⟩
    have hdata := isLine_of_no_crlf _ hline
    by_cases hlt : (p.m_src_buf ++ x).length < (c.data ++ crlf).length
    · have ht := prefix_of_lt crlf c.data _ crlf_ne_nil (prefix_left _ _ _ hpre (by omega)) hlt
      have hpend := lines_pending hs ⟨p, 0, none⟩ c.data _ hdata ht
      rw [show (⟨p.withSrc (p.m_src_buf ++ x), 0, none⟩ : chunk_loop σ) =
        chunk_loop.withSrc ⟨p, 0, none⟩ (p.m_src_buf ++ x) from rfl, hpend]
      refine .in_data hst hbody ht ?_
      unfold restText
      rw [← List.append_assoc, ← hmore']
      rfl
    · obtain ⟨u, hu⟩ : c.data ++ crlf <+: p.m_src_buf ++ x :=
        List.prefix_of_prefix_length_le (List.prefix_append _ _) hpre (by omega)
      rw [← hu, List.append_assoc] at hmore'
      -- The line of the data is longer than the size that the call starts with, which is 0.
      have hturn : chunk_turn hs c.data ⟨p, 0, none⟩ =
          .again ⟨{ p with m_partial_body := c.data }, c.data.length, none⟩ := by
        simp [chunk_turn, hst, chunk_content_turn, hpos, hbody]
      rw [show (⟨p.withSrc (p.m_src_buf ++ x), 0, none⟩ : chunk_loop σ) =
          chunkBuffer.set ⟨p, 0, none⟩ (p.m_src_buf ++ x) from rfl, ← hu, List.append_assoc,
        lines_line chunk_turn_framed crlf_ne_nil _ _ c.data u hdata hturn]
      exact lost_last _ u rest hst rfl (List.append_cancel_left hmore')
  | in_last hst hbody hsrc hmore =>
    rw [append_inChunks p x hx (.inr (.inl hst))]
    exact lost_last ⟨p, 0, none⟩ (p.m_src_buf ++ x) rest hst hbody (by rw [List.append_assoc, hmore])
  | too_long hst hbody =>
    rcases hst with hin | hfin
    · have hspec := lines_spec hs ⟨p.withSrc (p.m_src_buf ++ x), 0, none⟩ hin
      rw [← append_inChunks p x hx hin] at hspec
      exact .too_long hspec.state (lt_of_lt_of_le hbody hspec.grows)
    · rw [(append_finished p x hfin).1]
      exact .too_long (.inr hfin) hbody

variable (hs) in
theorem lost_fed (xs : List Bytes) (rest : Bytes) (hne : ∀ x ∈ xs, x ≠ []) (hline : ¬ crlf <:+: c.data)
    (hl : Lost c p (xs.flatten ++ rest)) : Lost c (fed hs p xs) rest := by
  induction xs generalizing p with
  | nil => exact hl
  | cons x xs ih =>
    rw [fed_cons]
    refine ih (fun z hz => hne z (List.mem_cons_of_mem _ hz)) ?_
    exact lost_append x _ (hne x List.mem_cons_self) hline (by simpa using hl)

theorem breaks_of_decoded (hp : Fresh p) (hread : h.read hs p = some q) (hsel : SelectsChunked q)
    (hq : q.m_partial_body = []) (hne : ∀ x ∈ xs, x ≠ []) (hxs : xs.flatten = h.text ++ encodeChunks [c])
    (hsize : c.size_text.length ≤ 16) (hline : ¬ crlf <:+: c.data) (hd : Decoded hs p [c] xs) (us vs : List Bytes)
    (b : Bytes) (hsplit : xs = us ++ vs) (hform : us.flatten = h.text ++ b) : ¬ InChunk [c] b := by
  rintro ⟨done, k, more, t, hone, rfl, ht⟩
  obtain ⟨rfl, rfl⟩ : done = [] ∧ k = c := by
    cases done with
    | nil => exact ⟨rfl, by simpa using (congrArg List.head? hone).symm⟩
    | cons d done => simp at hone
  subst hsplit
  have hform' : us.flatten = h.text ++ (k.size_text ++ (crlf ++ t)) := by simpa [chunksText] using hform
  obtain ⟨ys, x, zs, d, f, rfl, hrest, hcall⟩ := crossing_size us vs t hp hread hsel hne hd.clean hform'
  have hmore : t ++ vs.flatten = restText k := by
    rw [encode_one, List.flatten_append, hform', List.append_assoc, List.append_assoc, List.append_assoc] at hxs
    exact List.append_cancel_left (List.append_cancel_left (List.append_cancel_left hxs))
  have hdt : d <+: k.data ++ [13] := List.IsPrefix.trans ⟨zs.flatten, hrest⟩ ht
  -- The call ends in the data.
  have hstart : Lost k (append hs (fed hs p ys) x).obj ((zs ++ vs).flatten ++ []) := by
    rw [hcall, lines_size q k d hsize, lines_pending _ (content_start q k) k.data d (isLine_of_no_crlf _ hline) hdt]
    refine .in_data rfl hq hdt ?_
    show d ++ ((zs ++ vs).flatten ++ []) = _
    rw [← hmore, ← hrest]
    simp
  have hend := lost_fed hs (zs ++ vs) [] (fun z hz => hne z (by simp at hz ⊢; tauto)) hline hstart
  have hfed : fed hs p ((ys ++ x :: zs) ++ vs) = fed hs (append hs (fed hs p ys) x).obj (zs ++ vs) := by
    rw [List.append_assoc, fed_append, List.cons_append, fed_cons]
  rw [← hfed] at hend
  have hfin : (fed hs p ((ys ++ x :: zs) ++ vs)).m_state = .finished := by simpa [is_finished] using hd.finished
  cases hend with
  | in_data hst => rw [hst] at hfin; cases hfin
  | in_last hst => rw [hst] at hfin; cases hfin
  | too_long _ hbody =>
    rw [hd.body] at hbody
    simp [chunksData] at hbody

theorem head_breaks_of_clean (hp : Fresh p) (hread : h.read hs p = some q) (hne : ∀ x ∈ xs, x ≠ [])
    (hclean : AllClean hs p xs) (us vs : List Bytes) (hsplit : xs = us ++ vs) : ¬ LongLine h us.flatten := by
  rintro ⟨done, l, more, t, hlines, hform, ht, hlong⟩
  have hline : IsLine crlf l := h.isLine l (by simp [hlines])
  obtain ⟨s, hs'⟩ : ∃ s, turns (header_turn hs) done p = some s := by
    unfold Head.read at hread
    rw [hlines, turns_append] at hread
    cases hdone : turns (header_turn hs) done p with
    | none => simp [hdone] at hread
    | some s => exact ⟨s, rfl⟩
  have hin := (turns_header_spec done p s (.inl hp.waiting) hs').1
  have hloop : Lib.lines srcBuffer crlf (header_turn hs) (p.withSrc us.flatten) = .again (s.withSrc t) := by
    rw [hform]
    refine (lines_unlines (B := srcBuffer) header_turn_framed crlf_ne_nil done p s t
      (fun k hk => h.isLine k (by simp [hlines, hk])) hs').trans ?_
    exact lines_none _ ((cut_eq_none _ _).mpr fun hc => hline (List.IsInfix.trans hc ht.isInfix))
  rcases List.eq_nil_or_concat us with rfl | ⟨us, x, rfl⟩
  · have := congrArg List.length hform
    simp at this
    omega
  · rw [List.concat_eq_append] at *
    subst hsplit
    have hlt : (us.flatten ++ x).length < h.text.length := by
      have htlen := ht.length_le
      have : (us ++ [x]).flatten = us.flatten ++ x := by simp
      rw [← this, hform, Head.text, hlines]
      simp only [unlines_append, unlines_cons, List.length_append, crlf, List.length_cons, List.length_nil] at htlen ⊢
      omega
    have hpre : us.flatten <+: h.text := by
      have : us.flatten ++ x = unlines crlf done ++ t := by rw [← hform]; simp
      refine List.IsPrefix.trans ⟨x, this⟩ ?_
      unfold Head.text
      rw [hlines]
      simp only [unlines_append, unlines_cons, List.append_assoc]
      refine (List.prefix_append_right_inj _).mpr (ht.trans ⟨[10] ++ (unlines crlf more ++ unlines crlf [[]]), ?_⟩)
      simp [crlf]
    have hcall := append_fed_part h p q us x (.inl hp.waiting) hp.src hread (fun y hy => hne y (by simp [hy]))
      (hne x (by simp)) hpre (by rw [List.length_append] at hlt; omega)
    have hflat : us.flatten ++ x = (us ++ [x]).flatten := by simp
    rw [hflat, parse_header_again _ _ hloop] at hcall
    obtain ⟨v, hv⟩ := hclean us x vs (by simp)
    have herr := hv.1
    rw [hcall, header_pending, if_neg (by simpa using hlong)] at herr
    rcases hin with hw | hr
    · simp [hw, Call.ok, make_error_code] at herr
    · simp [hr, Call.ok, make_error_code] at herr

/-- **Exactly then.** A message of one chunk is decoded only in fragments that do not disturb it. -/
theorem undisturbed_of_decoded (hp : Fresh p) (hr : ChunkedHead hs p h) (hne : ∀ x ∈ xs, x ≠ [])
    (hxs : xs.flatten = h.text ++ encodeChunks [c]) (hd : Decoded hs p [c] xs) : Undisturbed h [c] xs := by
  obtain ⟨q, hread, hq, hsel⟩ := chunked_cases p h hp hr
  have hsize := size_of_clean hp hread hsel hne hxs hd.clean
  have hline := data_of_decoded hp hread hsel hq hne hxs hsize hd
  refine ⟨?_, ?_, ?_, ?_⟩
  · intro k hk
    rwa [List.mem_singleton.mp hk]
  · intro k hk
    rwa [List.mem_singleton.mp hk]
  · intro us vs b hsplit _ hform
    exact breaks_of_decoded hp hread hsel hq hne hxs hsize hline hd us vs b hsplit hform
  · intro us vs hsplit _
    exact head_breaks_of_clean hp hread hne hd.clean us vs hsplit

end

end Libgs.Http
