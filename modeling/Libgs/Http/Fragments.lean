import Libgs.Http.Length

/-!
# A request in fragments

However a request without chunked body is cut into pieces, the parser ends where one append of the
whole request would have left it.
-/

namespace Libgs.Http

open Lib

variable {σ : Type} {hs : handlers σ}

theorem body_cases (q : impl σ) (b : Bytes) (h : (set_read_body_state hs (q.withSrc b)).Clean true) :
    (∃ text n, q.m_headers.find header.content_length = some text ∧ ston text 10 = .ok n) ∨
      NoBody q ∨ SelectsChunked q := by
  cases hfind : q.m_headers.find header.content_length with
  | some text =>
    cases hston : ston text 10 with
    | ok n => exact .inl ⟨text, n, rfl, hston⟩
    | error e =>
      have hv := h.2
      simp [set_read_body_state, impl.withSrc, hfind, hston, Call.fail] at hv
  | none =>
    by_cases hte : q.m_version = version.v11 ∧ q.m_headers.find header.transfer_encoding = some string_pool.chunked
    · exact .inr (.inr ⟨hfind, hte.1, hte.2⟩)
    · exact .inr (.inl ⟨hfind, hte⟩)

/-- A head that the parser `p` accepts, without chunked reading, and all of the body that it announces. -/
structure WholeRequest (hs : handlers σ) (p : impl σ) (h : Head) (body : Bytes) : Prop where
  accepted : (append hs p h.text).Clean true
  plain : (append hs p h.text).obj.m_state ≠ .chunked_wait_size
  exact_body : body.length =
    match (append hs p h.text).obj.m_headers.find header.content_length with
    | some _ => (append hs p h.text).obj.m_content_length
    | none => 0

/-- A whole request with short lines. -/
structure PlainRequest (hs : handlers σ) (p : impl σ) (h : Head) (body : Bytes) : Prop extends
    WholeRequest hs p h body where
  short : ∀ l ∈ h.lines, l.length ≤ 1022

theorem whole_cases (p : impl σ) (h : Head) (body : Bytes) (hp : Fresh p) (hr : WholeRequest hs p h body) :
    ∃ q, h.read hs p = some q ∧ q.m_partial_body = [] ∧
      ((∃ text n, q.m_headers.find header.content_length = some text ∧ ston text 10 = .ok n ∧ body.length = n) ∨
        (NoBody q ∧ body = [])) := by
  have hacc := hr.accepted
  have hplain := hr.plain
  have hexact := hr.exact_body
  rw [← List.append_nil h.text] at hacc hplain hexact
  obtain ⟨q, hread, hclean⟩ := read_of_append h p [] true hp hacc
  have hq : q.m_partial_body = [] := (h.read_spec p q (.inl hp.waiting) hread).2.1.trans hp.body
  rw [append_text h p q [] hp hread] at hplain hexact
  refine ⟨q, hread, hq, ?_⟩
  rcases body_cases q [] hclean with ⟨text, n, hfind, hston⟩ | hnone | hchunked
  · rw [set_read_body_length q [] text n hq hfind hston] at hexact
    simp only [Call.ok, received, hfind] at hexact
    exact .inl ⟨text, n, hfind, hston, hexact⟩
  · rw [set_read_body_none q [] hnone] at hexact
    simp only [Call.ok, impl.withSrc, hnone.1] at hexact
    exact .inr ⟨hnone, List.eq_nil_of_length_eq_zero hexact⟩
  · exfalso
    rw [set_read_body_chunked q [] hchunked] at hplain
    exact hplain rfl

theorem append_fed_short (h : Head) (p q : impl σ) (xs : List Bytes) (x : Bytes) (hp : Fresh p)
    (hread : h.read hs p = some q) (hshort : ∀ l ∈ h.lines, l.length ≤ 1022) (hne : ∀ x ∈ xs, x ≠ []) (hx : x ≠ [])
    (hy : xs.flatten ++ x <+: h.text) (hlt : (xs.flatten ++ x).length < h.text.length) :
    ∃ s, append hs (fed hs p xs) x = .ok s none false := by
  have hlt' : xs.flatten.length < h.text.length := by rw [List.length_append] at hlt; omega
  have hy' : xs.flatten <+: h.text := (List.prefix_append _ _).trans hy
  obtain ⟨done, l, more, t, s, hsplit, -, ht, -, -, hlines⟩ :=
    lines_part h p q (xs.flatten ++ x) (.inl hp.waiting) hread hy hlt
  have hl : l.length ≤ 1022 := by
    have hmem : l ∈ h.lines ++ [[]] := by simp [hsplit]
    rcases List.mem_append.mp hmem with hmem | hmem
    · exact hshort l hmem
    · simp [List.mem_singleton.mp hmem]
  have htlen := ht.length_le
  rw [append_fed_part h p q xs x (.inl hp.waiting) hp.src hread hne hx hy' hlt', parse_header_again _ _ hlines]
  refine ⟨s.withSrc t, ?_⟩
  unfold header_pending
  rw [if_pos]
  simp only [List.length_append, List.length_singleton, withSrc_src] at htlen ⊢
  omega

theorem append_fed_behind (h : Head) (p q : impl σ) (xs : List Bytes) (x b body : Bytes) (hp : Fresh p)
    (hread : h.read hs p = some q) (hq : q.m_partial_body = [])
    (hbody : (∃ text n, q.m_headers.find header.content_length = some text ∧ ston text 10 = .ok n ∧
      body.length = n) ∨ (NoBody q ∧ body = []))
    (hne : ∀ x ∈ xs, x ≠ []) (hx : x ≠ []) (hb : xs.flatten ++ x = h.text ++ b) (hle : b <+: body) :
    append hs (fed hs p xs) x = set_read_body_state hs (q.withSrc b) := by
  induction xs using List.reverseRecOn generalizing x b with
  | nil =>
    refine append_fed_head h p q [] x b hp hread hne hx ?_ hb
    simp [Head.text, crlf]
  | append_singleton xs y ih =>
    by_cases hlt : (xs ++ [y]).flatten.length < h.text.length
    · exact append_fed_head h p q (xs ++ [y]) x b hp hread hne hx hlt hb
    · -- The pieces before `x` hold the whole head and the bytes `c` behind it.
      obtain ⟨c, hc, hbc⟩ := h.text_behind hb (not_lt.mp hlt)
      have hprev := ih y c (fun z hz => hne z (by simp [hz])) (hne y (by simp)) (by rw [hc]; simp)
        ((hbc ▸ List.prefix_append c x).trans hle)
      rw [fed_append_one, hprev, hbc]
      rcases hbody with ⟨text, n, hfind, hston, hlen⟩ | ⟨-, hnil⟩
      · have hpos := List.length_pos_iff.mpr hx
        have hcn : c.length < n := by
          have := hle.length_le
          rw [hbc, List.length_append] at this
          omega
        rw [set_read_body_length q c text n hq hfind hston, set_read_body_length q (c ++ x) text n hq hfind hston]
        exact append_received q n c x (ston_lt text 10 n hston) hx hcn
      · rw [hnil, List.prefix_nil, hbc] at hle
        exact absurd (List.append_eq_nil_iff.mp hle).2 hx

theorem append_fed_clean (h : Head) (p : impl σ) (body : Bytes) (xs ys zs : List Bytes) (x : Bytes) (hp : Fresh p)
    (hr : PlainRequest hs p h body) (hne : ∀ x ∈ xs, x ≠ []) (hxs : xs.flatten = h.text ++ body)
    (hsplit : xs = ys ++ x :: zs) :
    (append hs (fed hs p ys) x).Clean (decide (h.text.length ≤ (ys.flatten ++ x).length)) := by
  obtain ⟨q, hread, hq, hbody⟩ := whole_cases p h body hp hr.toWholeRequest
  have hflat : ys.flatten ++ x <+: h.text ++ body := ⟨zs.flatten, by simp [← hxs, hsplit]⟩
  have hneys : ∀ y ∈ ys, y ≠ [] := fun y hy => hne y (by simp [hsplit, hy])
  have hx : x ≠ [] := hne x (by simp [hsplit])
  by_cases hge : h.text.length ≤ (ys.flatten ++ x).length
  · obtain ⟨b, hb⟩ := List.prefix_of_prefix_length_le (List.prefix_append _ _) hflat hge
    have hle : b <+: body := by
      rw [← hb] at hflat
      exact (List.prefix_append_right_inj _).mp hflat
    rw [append_fed_behind h p q ys x b body hp hread hq hbody hneys hx hb.symm hle, decide_eq_true hge]
    rcases hbody with ⟨text, n, hfind, hston, -⟩ | ⟨hnone, -⟩
    · rw [set_read_body_length q b text n hq hfind hston]
      exact ⟨rfl, rfl⟩
    · rw [set_read_body_none q b hnone]
      exact ⟨rfl, rfl⟩
  · have hpre : ys.flatten ++ x <+: h.text :=
      List.prefix_of_prefix_length_le hflat (List.prefix_append _ _) (by omega)
    obtain ⟨s, hs'⟩ := append_fed_short h p q ys x hp hread hr.short hneys hx hpre (by omega)
    rw [hs', decide_eq_false hge]
    exact ⟨rfl, rfl⟩

/-- **Fragmentation independence.** The pieces leave the parser where the whole request leaves it. -/
theorem fed_eq_append (h : Head) (p : impl σ) (body : Bytes) (xs : List Bytes) (hp : Fresh p)
    (hr : PlainRequest hs p h body) (hne : ∀ x ∈ xs, x ≠ []) (hxs : xs.flatten = h.text ++ body) :
    fed hs p xs = (append hs p (h.text ++ body)).obj := by
  obtain ⟨q, hread, hq, hbody⟩ := whole_cases p h body hp hr.toWholeRequest
  rcases List.eq_nil_or_concat xs with rfl | ⟨ys, x, rfl⟩
  · simp [Head.text, crlf] at hxs
  · rw [List.concat_eq_append] at hne hxs ⊢
    rw [fed_append_one, append_fed_behind h p q ys x body body hp hread hq hbody
      (fun y hy => hne y (by simp [hy])) (hne x (by simp)) (by simpa using hxs) (List.prefix_refl _),
      append_text h p q body hp hread]

theorem received_finished (q : impl σ) (n : ℕ) (b : Bytes) (h : n ≤ b.length) :
    (received q n b).m_state = .finished := by
  simp [received, h]

theorem fed_finished (h : Head) (p : impl σ) (body d : Bytes) (ys : List Bytes) (x : Bytes) (hp : Fresh p)
    (hr : WholeRequest hs p h body) (hne : ∀ y ∈ ys, y ≠ []) (hx : x ≠ [])
    (hsplit : ys.flatten ++ x = h.text ++ body ++ d) (hlt : ys.flatten.length < (h.text ++ body).length) :
    (fed hs p (ys ++ [x])).m_state = .finished := by
  obtain ⟨q, hread, hq, hbody⟩ := whole_cases p h body hp hr
  rw [fed_append_one]
  by_cases hhead : ys.flatten.length < h.text.length
  · rw [append_fed_head h p q ys x (body ++ d) hp hread hne hx hhead (by rw [hsplit, List.append_assoc])]
    rcases hbody with ⟨text, n, hfind, hston, hlen⟩ | ⟨hnone, -⟩
    · rw [set_read_body_length q (body ++ d) text n hq hfind hston]
      exact received_finished q n (body ++ d) (by rw [List.length_append]; omega)
    · rw [set_read_body_none q (body ++ d) hnone]
      rfl
  · -- The head has arrived before, with the first bytes `c` of the body.
    obtain ⟨c, hc⟩ : h.text <+: ys.flatten :=
      List.prefix_of_prefix_length_le (List.prefix_append _ _) ⟨x, by rw [hsplit, List.append_assoc]⟩ (by omega)
    have hcx : c ++ x = body ++ d := by
      rw [← hc, List.append_assoc, List.append_assoc] at hsplit
      exact List.append_cancel_left hsplit
    have hclt : c.length < body.length := by
      rw [← hc, List.length_append, List.length_append] at hlt
      omega
    have hcle : c <+: body := List.prefix_of_prefix_length_le ⟨x, hcx⟩ (List.prefix_append _ _) (by omega)
    rcases List.eq_nil_or_concat' ys with rfl | ⟨zs, y, rfl⟩
    · simp [Head.text, crlf] at hhead
    · rcases hbody with ⟨text, n, hfind, hston, hlen⟩ | ⟨-, hnil⟩
      · have hprev := append_fed_behind h p q zs y c body hp hread hq (.inl ⟨text, n, hfind, hston, hlen⟩)
          (fun z hz => hne z (by simp [hz])) (hne y (by simp)) (by rw [hc]; simp) hcle
        rw [fed_append_one, hprev, set_read_body_length q c text n hq hfind hston]
        have hrest : append hs (received q n c) x = .ok (received q n (c ++ x)) none true :=
          append_received q n c x (ston_lt text 10 n hston) hx (by omega)
        have hlong : n ≤ (c ++ x).length := by
          rw [hcx, List.length_append]
          omega
        simp only [Call.ok] at hrest ⊢
        rw [hrest]
        exact received_finished q n (c ++ x) hlong
      · rw [hnil] at hclt
        simp at hclt

end Libgs.Http
