import Libgs.Http.Head

/-!
# Bodies with a Content-Length

`parse_length` moves what the source buffer holds of the body into the partial body.
-/

namespace Libgs.Http

open Lib

variable {σ : Type} {hs : handlers σ}

/-- The partial body holds no more than the length that was announced. -/
structure InLength (p : impl σ) : Prop where
  size : p.m_content_length < size_max
  held : p.m_partial_body.length ≤ p.m_content_length

theorem parse_length_spec (p : impl σ) (h : InLength p) :
    parse_length p = { p with
      m_partial_body := p.m_partial_body ++ p.m_src_buf.take (p.m_content_length - p.m_partial_body.length)
      m_src_buf := []
      m_state := if p.m_partial_body.length + p.m_src_buf.length < p.m_content_length then .reading_length
                 else .finished } := by
  have hsub := size_sub_of_le p.m_content_length p.m_partial_body.length h.size h.held
  have hheld := h.held
  unfold parse_length
  by_cases hgt : p.m_partial_body.length + p.m_src_buf.length > p.m_content_length
  · have hlen : (p.m_partial_body ++ p.m_src_buf.take (p.m_content_length - p.m_partial_body.length)).length =
        p.m_content_length := by
      rw [List.length_append, List.length_take]
      omega
    simp only [hgt, if_true, hsub, hlen, gt_iff_lt, lt_irrefl, if_false]
    rw [if_neg (by omega)]
  · have htake : p.m_src_buf.take (p.m_content_length - p.m_partial_body.length) = p.m_src_buf :=
      List.take_of_length_le (by omega)
    simp only [hgt, if_false, htake, List.take_length, List.length_append, gt_iff_lt]

/-- The parser behind a head with a length of `n`, when `b` has come behind it -/
def received (q : impl σ) (n : ℕ) (b : Bytes) : impl σ :=
  { q with
    m_content_length := n
    m_partial_body := b.take n
    m_src_buf := []
    m_state := if b.length < n then .reading_length else .finished }

theorem parse_length_first (q : impl σ) (n : ℕ) (b : Bytes) (hn : n < size_max) (hq : q.m_partial_body = []) :
    parse_length { q.withSrc b with m_content_length := n } = received q n b := by
  rw [parse_length_spec _ ⟨hn, by simp [impl.withSrc, hq]⟩]
  simp [received, impl.withSrc, hq]

theorem append_received (q : impl σ) (n : ℕ) (b x : Bytes) (hn : n < size_max) (hx : x ≠ []) (hb : b.length < n) :
    append hs (received q n b) x = .ok (received q n (b ++ x)) none true := by
  have hst : (received q n b).m_state = .reading_length := by simp [received, hb]
  have hbody : b.take n = b := List.take_of_length_le (by omega)
  have hin : InLength ((received q n b).withSrc x) := ⟨hn, by simp [received, impl.withSrc]⟩
  have hparse : parse_length ((received q n b).withSrc x) = received q n (b ++ x) := by
    rw [parse_length_spec _ hin]
    have hcut : (b ++ x).take n = b ++ x.take (n - b.length) := by
      rw [List.take_append, hbody]
    simp [received, impl.withSrc, hbody, hcut]
  rw [append_inLength _ x hx hst]
  exact congrArg (fun p => Call.ok p none true) hparse

/-! ## The blank line of a head -/

theorem set_read_body_length (q : impl σ) (b text : Bytes) (n : ℕ) (hq : q.m_partial_body = [])
    (hfind : q.m_headers.find header.content_length = some text) (hston : ston text 10 = .ok n) :
    set_read_body_state hs (q.withSrc b) = .ok (received q n b) none true := by
  rw [← parse_length_first q n b (ston_lt text 10 n hston) hq]
  unfold set_read_body_state
  simp only [impl.withSrc, hfind, hston]

/-- A head without Content-Length that does not select chunked reading has no body. -/
def NoBody (q : impl σ) : Prop :=
  q.m_headers.find header.content_length = none ∧
    ¬ (q.m_version = version.v11 ∧ q.m_headers.find header.transfer_encoding = some string_pool.chunked)

theorem set_read_body_none (q : impl σ) (b : Bytes) (hq : NoBody q) :
    set_read_body_state hs (q.withSrc b) = .ok { q.withSrc b with m_state := .finished } none true := by
  obtain ⟨hfind, hte⟩ := hq
  unfold set_read_body_state
  simp only [impl.withSrc, hfind]
  by_cases hv : q.m_version = version.v11
  · simp only [hv, if_true]
    cases ht : q.m_headers.find header.transfer_encoding with
    | none => rfl
    | some text =>
      have : text ≠ string_pool.chunked := fun h => hte ⟨hv, by rw [ht, h]⟩
      simp only [this, ne_eq, not_false_eq_true, if_true]
  · simp only [hv, if_false]

/-- A head that selects chunked reading. -/
structure SelectsChunked (q : impl σ) : Prop where
  length : q.m_headers.find header.content_length = none
  version : q.m_version = version.v11
  encoding : q.m_headers.find header.transfer_encoding = some string_pool.chunked

theorem set_read_body_chunked (q : impl σ) (b : Bytes) (hq : SelectsChunked q) :
    set_read_body_state hs (q.withSrc b) =
      let c := parse_chunked hs { q.withSrc b with m_state := .chunked_wait_size }
      ⟨c.obj, c.error, c.value.map fun _ => true⟩ := by
  simp [set_read_body_state, impl.withSrc, hq.length, hq.version, hq.encoding]

/-! ## Feeding across the blank line -/

theorem append_fed_head (h : Head) (p q : impl σ) (xs : List Bytes) (x b : Bytes) (hp : Fresh p)
    (hread : h.read hs p = some q) (hne : ∀ x ∈ xs, x ≠ []) (hx : x ≠ [])
    (hlt : xs.flatten.length < h.text.length) (hb : xs.flatten ++ x = h.text ++ b) :
    append hs (fed hs p xs) x = set_read_body_state hs (q.withSrc b) := by
  have hy : xs.flatten <+: h.text :=
    List.prefix_of_prefix_length_le ⟨x, hb⟩ (List.prefix_append _ _) (by omega)
  rw [append_fed_part h p q xs x (.inl hp.waiting) hp.src hread hne hx hy hlt, hb,
    parse_header_head h p q b (.inl hp.waiting) hread]

theorem append_text (h : Head) (p q : impl σ) (b : Bytes) (hp : Fresh p) (hread : h.read hs p = some q) :
    append hs p (h.text ++ b) = set_read_body_state hs (q.withSrc b) := by
  have hpos : 0 < h.text.length := by simp [Head.text, crlf]
  have hne : h.text ++ b ≠ [] := by
    intro hnil
    have := congrArg List.length hnil
    simp only [List.length_append, List.length_nil] at this
    omega
  exact append_fed_head h p q [] (h.text ++ b) b hp hread (by simp) hne (by simpa using hpos) (by simp)

theorem read_of_append (h : Head) (p : impl σ) (b : Bytes) (v : Bool) (hp : Fresh p)
    (hacc : (append hs p (h.text ++ b)).Clean v) :
    ∃ q, h.read hs p = some q ∧ (set_read_body_state hs (q.withSrc b)).Clean v := by
  have hne : h.text ++ b ≠ [] := by simp [Head.text, crlf]
  have hcall : append hs p (h.text ++ b) = parse_header hs (p.withSrc (h.text ++ b)) := by
    rw [append_inHead p _ hne (.inl hp.waiting), hp.src, List.nil_append]
  obtain ⟨q, hq⟩ := read_of_accepted h p b v hp.waiting (by rwa [hcall] at hacc)
  exact ⟨q, hq, by rwa [append_text h p q b hp hq] at hacc⟩

/-! ## What `append` tells about the head -/

theorem fields_of_true (p : impl σ) (hp : p.m_state = .reading_headers)
    (hc : (header_end (Lib.lines srcBuffer crlf (header_turn hs) p)).Clean true) :
    ∃ fields r, p.m_src_buf = unlines crlf fields ++ (crlf ++ r) ∧ ∀ l ∈ fields, IsLine crlf l ∧ l ≠ [] := by
  revert hp hc
  refine lines_rule (B := srcBuffer) header_turn_framed crlf_ne_nil (fun p t => p.m_state = .reading_headers →
    (header_end t).Clean true →
      ∃ fields r, p.m_src_buf = unlines crlf fields ++ (crlf ++ r) ∧ ∀ l ∈ fields, IsLine crlf l ∧ l ≠ []) ?_ ?_ ?_ p
  · rintro p - - ⟨-, hv⟩
    simp [header_end, header_pending, Call.ok] at hv
  · intro p l r c hcut hb hp hc
    have hturn : field_turn hs l (p.withSrc r) = .leave c := by
      rwa [srcBuffer_set, header_turn, withSrc_state, hp] at hb
    obtain ⟨hsrc, -⟩ := cut_eq_some crlf _ l r crlf_ne_nil hcut
    rw [srcBuffer_get] at hsrc
    by_cases hl : l = []
    · subst hl
      exact ⟨[], r, by simpa using hsrc, by simp⟩
    · exact absurd hc (field_turn_leave l _ c true hl hturn)
  · intro p q l r hcut hb ih hp hc
    have hturn : field_turn hs l (p.withSrc r) = .again q := by
      rwa [srcBuffer_set, header_turn, withSrc_state, hp] at hb
    obtain ⟨hsrc, hline⟩ := cut_eq_some crlf _ l r crlf_ne_nil hcut
    obtain ⟨hst, -, hq⟩ := header_turn_again_spec l (p.withSrc r) q (.inr hp) hb
    obtain ⟨fields, r', hfields, hall⟩ := ih hst hc
    refine ⟨l :: fields, r', ?_, ?_⟩
    · rw [hq, withSrc_src] at hfields
      rw [srcBuffer_get] at hsrc
      rw [hsrc, hfields]
      simp
    · exact List.forall_mem_cons.mpr ⟨⟨hline, (field_turn_again l _ q hturn).1⟩, hall⟩

/-- **What the result of `append` means.** An append to a fresh parser that reports no error returns
true exactly when its bytes hold a whole head. -/
theorem append_true_iff (p : impl σ) (x : Bytes) (v : Bool) (hp : Fresh p) (hx : x ≠ [])
    (hc : (append hs p x).Clean v) : v = true ↔ ∃ (h : Head) (r : Bytes), x = h.text ++ r := by
  constructor
  · rintro rfl
    rw [append_inHead p x hx (.inl hp.waiting), hp.src, List.nil_append, parse_header_eq] at hc
    cases hcut : cut crlf x with
    | none =>
      rw [lines_none (p.withSrc x) hcut] at hc
      simp [header_end, header_pending, Call.ok, Call.Clean] at hc
    | some lr =>
      obtain ⟨l, r⟩ := lr
      obtain ⟨rfl, hline⟩ := cut_eq_some crlf x l r crlf_ne_nil hcut
      have hturn : header_turn hs l (srcBuffer.set (p.withSrc (l ++ (crlf ++ r))) r) =
          begin_turn hs l (p.withSrc r) := by
        rw [srcBuffer_set, header_turn, withSrc_state, withSrc_state, hp.waiting]
        rfl
      cases hb : begin_turn hs l (p.withSrc r) with
      | leave c =>
        rw [lines_leave (p.withSrc (l ++ (crlf ++ r))) l r c crlf_ne_nil hcut (hturn.trans hb)] at hc
        exact absurd hc (begin_turn_leave_unclean l _ c true hb)
      | again q =>
        obtain ⟨_, _, -, -, hq⟩ := begin_turn_again l _ q hb
        rw [lines_again header_turn_framed (p.withSrc (l ++ (crlf ++ r))) q l r crlf_ne_nil hcut (hturn.trans hb)] at hc
        obtain ⟨fields, r', hfields, hall⟩ := fields_of_true q (by rw [hq]) hc
        refine ⟨⟨l, fields, hline, hall⟩, r', ?_⟩
        have hr : r = unlines crlf fields ++ (crlf ++ r') := by rw [← hfields, hq]; rfl
        rw [hr]
        simp [Head.text, Head.lines]
  · rintro ⟨h, r, rfl⟩
    obtain ⟨q, -, hclean⟩ := read_of_append h p r v hp hc
    exact set_read_body_value _ v hclean.2

end Libgs.Http
