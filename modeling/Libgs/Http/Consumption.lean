import Libgs.Http.Fragments
import Libgs.Lib.Run

/-!
# Taking a Content-Length body while it arrives

`parse_length` measures its progress by the bytes that are still held. Bytes that are taken while
the body is incomplete are therefore waited for a second time.
-/

namespace Libgs.Http

open Lib

variable {σ : Type} {hs : handlers σ}

/-- An append, or one of the two calls that take bytes of the body -/
inductive body_op
  | append (x : Bytes)
  | take_partial_body (size : ℕ)
  | take_body

/-- A parser with the bytes that its user has taken and the body bytes that were delivered to it. -/
structure Consumer (σ : Type) where
  obj : impl σ
  taken : Bytes
  delivered : Bytes

/-- The call, with what was delivered and what was taken so far -/
def consume (hs : handlers σ) (c : Consumer σ) : body_op → Consumer σ
  | .append x => { c with obj := (append hs c.obj x).obj, delivered := c.delivered ++ x }
  | .take_partial_body size =>
    let (res, p) := take_partial_body c.obj size
    { c with obj := p, taken := c.taken ++ res }
  | .take_body =>
    let (res, p) := take_body c.obj
    { c with obj := p, taken := c.taken ++ res }

/-- What was taken and what is held make up the body so far, and the parser has finished exactly
when all of it was delivered. -/
def Accounted (n : ℕ) (c : Consumer σ) : Prop :=
  c.taken ++ c.obj.m_partial_body = c.delivered.take n ∧ (is_finished c.obj = true ↔ n ≤ c.delivered.length)

/-- The step takes bytes out of the parser. -/
def Removes (c : Consumer σ) : body_op → Prop
  | .append _ => False
  | .take_partial_body size => 0 < size ∧ c.obj.m_partial_body ≠ []
  | .take_body => c.obj.m_partial_body ≠ []

/-! ## One step -/

/-- The parser while the body of `n` bytes is incomplete, with `b` held. -/
structure Filling (n : ℕ) (p : impl σ) (b : Bytes) : Prop where
  length : p.m_content_length = n
  size : n < size_max
  src : p.m_src_buf = []
  body : p.m_partial_body = b
  state : p.m_state = .reading_length
  more : b.length < n

/-- The body is `b`, and nothing more is expected. -/
structure Filled (p : impl σ) (b : Bytes) : Prop where
  state : p.m_state = .finished
  body : p.m_partial_body = b

variable (hs) in
theorem append_filling (n : ℕ) (p : impl σ) (b x : Bytes) (h : Filling n p b) :
    (b.length + x.length < n → Filling n (append hs p x).obj (b ++ x)) ∧
      (n ≤ b.length + x.length → Filled (append hs p x).obj ((b ++ x).take n)) := by
  have hmore := h.more
  by_cases hx : x = []
  · have hcall : (append hs p x).obj = p := by simp [append, hx, Call.ok]
    rw [hcall, hx]
    exact ⟨fun _ => by simpa using h, fun hge => by simp at hge; omega⟩
  · have hin : InLength (p.withSrc x) := ⟨by rw [show (p.withSrc x).m_content_length = n from h.length]; exact h.size,
      by rw [withSrc_body, h.body, show (p.withSrc x).m_content_length = n from h.length]; omega⟩
    have hcall : (append hs p x).obj = parse_length (p.withSrc x) := by
      rw [append_inLength p x hx h.state, h.src]
      rfl
    have hcut : (b ++ x).take n = b ++ x.take (n - b.length) := by
      rw [List.take_append, List.take_of_length_le (by omega)]
    rw [hcall, parse_length_spec _ hin]
    simp only [impl.withSrc, h.length, h.body]
    refine ⟨fun hlt => ⟨rfl, h.size, rfl, ?_, by simp [hlt], by simpa using hlt⟩, fun hge => ⟨?_, hcut.symm⟩⟩
    · rw [List.take_of_length_le (by omega)]
    · simp [Nat.not_lt.mpr hge]

theorem append_filled (p : impl σ) (b x : Bytes) (h : Filled p b) : Filled (append hs p x).obj b := by
  by_cases hx : x = [] <;> simpa [append, hx, h.state, Call.ok] using h

variable (hs) in
theorem consume_take (c : Consumer σ) (op : body_op) (hop : ∀ x, op ≠ .append x) :
    ∃ k, consume hs c op =
        { c with obj := { c.obj with m_partial_body := c.obj.m_partial_body.drop k },
                 taken := c.taken ++ c.obj.m_partial_body.take k } ∧
      (¬ Removes c op → c.obj.m_partial_body.take k = []) ∧ (Removes c op → c.obj.m_partial_body.take k ≠ []) := by
  cases op with
  | append x => exact absurd rfl (hop x)
  | take_partial_body size =>
    refine ⟨min size c.obj.m_partial_body.length, rfl, fun hr => ?_, fun hr => ?_⟩
    · simp only [Removes, not_and_or, not_lt, not_not] at hr
      rcases hr with hr | hr <;> simp [Nat.le_zero.mp, hr]
    · simp only [ne_eq, List.take_eq_nil_iff, not_or]
      have := List.length_pos_iff.mpr hr.2
      exact ⟨by have := hr.1; omega, hr.2⟩
  | take_body =>
    refine ⟨c.obj.m_partial_body.length, by simp [consume, take_body], fun hr => ?_, fun hr => ?_⟩
    · simpa [Removes] using hr
    · simpa [Removes] using hr

theorem delivered_le (c : Consumer σ) (op : body_op) : c.delivered.length ≤ (consume hs c op).delivered.length := by
  cases op <;> simp [consume]

theorem delivered_le_run (c : Consumer σ) (ops : List body_op) :
    c.delivered.length ≤ (run (consume hs) c ops).delivered.length := by
  induction ops generalizing c with
  | nil => exact le_refl _
  | cons op ops ih => exact (delivered_le c op).trans (ih (consume hs c op))

theorem filling_drop (n : ℕ) (p : impl σ) (b : Bytes) (k : ℕ) (h : Filling n p b) :
    Filling n { p with m_partial_body := p.m_partial_body.drop k } (b.drop k) where
  length := h.length
  size := h.size
  src := h.src
  body := by rw [← h.body]
  state := h.state
  more := lt_of_le_of_lt (by simp) h.more

theorem received_filling (q : impl σ) (n : ℕ) (b : Bytes) (hn : n < size_max) (hlt : b.length < n) :
    Filling n (received q n b) b where
  length := rfl
  size := hn
  src := rfl
  body := List.take_of_length_le hlt.le
  state := by simp [received, hlt]
  more := hlt

theorem received_filled (q : impl σ) (n : ℕ) (b : Bytes) (hge : n ≤ b.length) : Filled (received q n b) (b.take n) where
  state := by simp [received, Nat.not_lt.mpr hge]
  body := rfl

/-! ## Runs -/

/-- The body is incomplete, and nothing of it is lost. -/
def Short (n : ℕ) (c : Consumer σ) : Prop :=
  ∃ b, Filling n c.obj b ∧ c.taken ++ b = c.delivered ∧ c.delivered.length < n

theorem short_accounted (n : ℕ) (c : Consumer σ) (h : Short n c) : Accounted n c := by
  obtain ⟨b, hf, hsum, hlt⟩ := h
  refine ⟨by rw [hf.body, hsum, List.take_of_length_le (by omega)], ?_⟩
  unfold is_finished
  rw [hf.state]
  simpa using hlt

theorem short_step (n : ℕ) (c : Consumer σ) (op : body_op) (h : Short n c)
    (hlt : (consume hs c op).delivered.length < n) : Short n (consume hs c op) := by
  obtain ⟨b, hf, hsum, -⟩ := h
  by_cases hop : ∃ x, op = .append x
  · obtain ⟨x, rfl⟩ := hop
    have hlen : c.taken.length + b.length + x.length < n := by
      unfold consume at hlt
      rw [← hsum] at hlt
      simpa [Nat.add_assoc] using hlt
    exact ⟨b ++ x, (append_filling _ n c.obj b x hf).1 (by omega), by simp [consume, ← hsum], hlt⟩
  · obtain ⟨k, hk, -, -⟩ := consume_take hs c op (by simpa using hop)
    refine ⟨b.drop k, ?_, ?_, hlt⟩
    · rw [hk]
      exact filling_drop n c.obj b k hf
    · rw [hk]
      simp [hf.body, hsum]

/-- Nothing has been taken while the body was incomplete. -/
def Whole (n : ℕ) (c : Consumer σ) : Prop :=
  (c.taken = [] ∧ Filling n c.obj c.delivered ∧ c.delivered.length < n) ∨
    (n ≤ c.delivered.length ∧ ∃ b, Filled c.obj b ∧ c.taken ++ b = c.delivered.take n)

theorem whole_accounted (n : ℕ) (c : Consumer σ) (h : Whole n c) : Accounted n c := by
  rcases h with ⟨htaken, hf, hlt⟩ | ⟨hge, b, hf, hsum⟩
  · exact short_accounted n c ⟨c.delivered, hf, by simp [htaken], hlt⟩
  · exact ⟨by rw [hf.body, hsum], by simp [is_finished, hf.state, hge]⟩

theorem whole_step (n : ℕ) (c : Consumer σ) (op : body_op) (h : Whole n c)
    (hop : Removes c op → n ≤ c.delivered.length) : Whole n (consume hs c op) := by
  by_cases happ : ∃ x, op = .append x
  · obtain ⟨x, rfl⟩ := happ
    rcases h with ⟨htaken, hf, hlt⟩ | ⟨hge, b, hf, hsum⟩
    · obtain ⟨hless, hmore⟩ := append_filling hs n c.obj c.delivered x hf
      by_cases hx : c.delivered.length + x.length < n
      · exact .inl ⟨htaken, hless hx, by simpa [consume] using hx⟩
      · exact .inr ⟨by simpa [consume] using hx, _, hmore (by omega), by simp [consume, htaken]⟩
    · refine .inr ⟨hge.trans (delivered_le c _), b, append_filled c.obj b x hf, ?_⟩
      unfold consume
      rw [List.take_append_of_le_length hge]
      exact hsum
  · obtain ⟨k, hk, hkeep, -⟩ := consume_take hs c op (by simpa using happ)
    rcases h with ⟨htaken, hf, hlt⟩ | ⟨hge, b, hf, hsum⟩
    · have hnone := hkeep fun hr => absurd (hop hr) (by omega)
      have hdrop : c.obj.m_partial_body.drop k = c.obj.m_partial_body := by
        conv => rhs; rw [← List.take_append_drop k c.obj.m_partial_body, hnone, List.nil_append]
      rw [hk, hnone, hdrop]
      exact .inl ⟨by simp [htaken], hf, hlt⟩
    · rw [hk]
      exact .inr ⟨hge, b.drop k, ⟨hf.state, by rw [← hf.body]⟩, by simp [hf.body, hsum]⟩

theorem lost (n : ℕ) (c : Consumer σ) (ops : List body_op) (h : Short n c) (htaken : c.taken ≠ [])
    (hacc : Throughout (consume hs) (Accounted n) c ops) : (run (consume hs) c ops).delivered.length < n := by
  induction ops generalizing c with
  | nil =>
    obtain ⟨b, -, -, hlt⟩ := h
    exact hlt
  | cons op ops ih =>
    by_cases hlt : (consume hs c op).delivered.length < n
    · refine ih (consume hs c op) (short_step n c op h hlt) ?_ hacc.tail
      cases op <;> simp [consume, htaken]
    · exfalso
      obtain ⟨b, hf, hsum, hshort⟩ := h
      have hop : ∃ x, op = .append x := by
        by_contra hno
        obtain ⟨k, hk, -, -⟩ := consume_take hs c op (by simpa using hno)
        rw [hk] at hlt
        exact hlt hshort
      obtain ⟨x, rfl⟩ := hop
      obtain ⟨heq, hfin⟩ := hacc.tail.start
      obtain ⟨hless, hmore⟩ := append_filling hs n c.obj b x hf
      by_cases hx : b.length + x.length < n
      · -- The parser still waits for as many bytes as were taken.
        have hdone := hfin.mpr (not_lt.mp hlt)
        rw [is_finished, show (consume hs c (.append x)).obj = (append hs c.obj x).obj from rfl,
          (hless hx).state] at hdone
        simp at hdone
      · -- The parser has taken more bytes for the body than there are in it.
        have hlen := congrArg List.length heq
        have hpos := List.length_pos_iff.mpr htaken
        rw [show (consume hs c (.append x)).obj = (append hs c.obj x).obj from rfl, (hmore (by omega)).body] at hlen
        simp only [consume, List.length_append, List.length_take, ← hsum] at hlen
        omega

/-- **When the body is accounted for.** It is in every state of a run, exactly when no take removes
bytes before the whole body was delivered, or when that never happens. -/
theorem accounted_iff (q : impl σ) (n : ℕ) (b : Bytes) (ops : List body_op) (hn : n < size_max) :
    let start : Consumer σ := ⟨received q n b, [], b⟩
    Throughout (consume hs) (Accounted n) start ops ↔
      (run (consume hs) start ops).delivered.length < n ∨
        Guarded (consume hs) (fun c op => Removes c op → n ≤ c.delivered.length) start ops := by
  intro start
  have hwhole : Whole n start := by
    by_cases hlt : b.length < n
    · exact .inl ⟨rfl, received_filling q n b hn hlt, hlt⟩
    · exact .inr ⟨not_lt.mp hlt, b.take n, received_filled q n b (not_lt.mp hlt), rfl⟩
  have hshort : b.length < n → Short n start := by
    intro hlt
    rcases hwhole with ⟨-, hf, hlt⟩ | ⟨hge, -⟩
    · exact ⟨b, hf, rfl, hlt⟩
    · exact absurd hge (by simpa [start] using hlt)
  constructor
  · intro hacc
    by_contra hno
    simp only [not_or, Guarded, not_forall, not_le] at hno
    obtain ⟨hfull, done, op, more, hsplit, hrem, hlt⟩ := hno
    have hpart : Throughout (consume hs) (fun c => c.delivered.length < n → Short n c) start done := by
      refine throughout_of_inv (G := fun _ _ => True) (fun c op h _ hc => ?_) start done hshort fun _ _ _ _ => trivial
      exact short_step n c op (h (lt_of_le_of_lt (delivered_le c op) hc)) hc
    have hc := hpart.last hlt
    set c := run (consume hs) start done with hcdef
    obtain ⟨k, hk, -, htake⟩ := consume_take hs c op (by rintro x rfl; exact hrem)
    have hnext : Short n (consume hs c op) := short_step n c op hc (by rw [hk]; exact hlt)
    have hend := lost n (consume hs c op) more hnext (by rw [hk]; simp [htake hrem]) fun d m hdm => by
      have := hacc (done ++ op :: d) m (by simp [hsplit, hdm])
      rwa [run_append] at this
    rw [hsplit, run_append] at hfull
    exact hfull hend
  · rintro (hlt | hguard)
    · have hall : Throughout (consume hs) (Short n) start ops := by
        intro done more hsplit
        have hle : ∀ d m, ops = d ++ m → (run (consume hs) start d).delivered.length < n := by
          intro d m hdm
          rw [hdm, run_append] at hlt
          exact lt_of_le_of_lt (delivered_le_run _ m) hlt
        refine throughout_of_inv (G := fun c op => (consume hs c op).delivered.length < n)
          (fun c op h hc => short_step n c op h hc) start ops (hshort (hle [] ops rfl)) ?_ done more hsplit
        intro d op m hdm
        have := hle (d ++ [op]) m (by simp [hdm])
        rwa [run_append] at this
      exact hall.mono (short_accounted n)
    · exact (throughout_of_inv (whole_step n) start ops hwhole hguard).mono (whole_accounted n)

/-- A head that the parser `p` accepts and that announces a body of `n` bytes. -/
structure LengthHead (hs : handlers σ) (p : impl σ) (h : Head) (n : ℕ) : Prop where
  accepted : (append hs p h.text).Clean true
  announced : ∃ text, (append hs p h.text).obj.m_headers.find header.content_length = some text ∧
    ston text 10 = .ok n

theorem append_fed_length (p : impl σ) (h : Head) (n : ℕ) (xs : List Bytes) (x b : Bytes) (hp : Fresh p)
    (hr : LengthHead hs p h n) (hne : ∀ x ∈ xs, x ≠ []) (hx : x ≠ []) (hlt : xs.flatten.length < h.text.length)
    (hb : xs.flatten ++ x = h.text ++ b) :
    n < size_max ∧ ∃ q, append hs (fed hs p xs) x = .ok (received q n b) none true := by
  have hacc := hr.accepted
  obtain ⟨text, hfind, hston⟩ := hr.announced
  rw [← List.append_nil h.text] at hacc hfind
  obtain ⟨q, hread, hclean⟩ := read_of_append h p [] true hp hacc
  have hq : q.m_partial_body = [] := (h.read_spec p q (.inl hp.waiting) hread).2.1.trans hp.body
  rw [append_text h p q [] hp hread] at hfind
  have hfind' : q.m_headers.find header.content_length = some text := by
    rcases body_cases q [] hclean with ⟨text', n', h', hston'⟩ | hnone | hsel
    · rw [set_read_body_length q [] text' n' hq h' hston'] at hfind
      exact hfind
    · rw [set_read_body_none q [] hnone] at hfind
      exact hfind
    · rw [set_read_body_chunked q [] hsel] at hfind
      exact hfind
  refine ⟨ston_lt text 10 n hston, q, ?_⟩
  rw [append_fed_head h p q xs x b hp hread hne hx hlt hb, set_read_body_length q b text n hq hfind' hston]

end Libgs.Http
