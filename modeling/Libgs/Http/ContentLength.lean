import Libgs.Http.HelperBase

/-!
# A body of declared length

The operations of `basic_helper_base<char>` in any order, between a header that declares a length and the next `reset`.
-/

namespace Libgs.Http.helper_base

open Lib

def clear_headers (h : helper_base) : helper_base :=
  { h with m_headers := OrderedMap.empty.assign header.content_type string_pool.text_plain }

def clear_chunk_attributes (h : helper_base) : helper_base := { h with m_chunk_attributes := .empty }

def reset (h : helper_base) : helper_base := { h.clear_headers.clear_chunk_attributes with m_state := .header }

/-- The calls of a helper in any order, also those that make no sense -/
inductive helper_op
  | header_data (body_size : ℕ)
  | body_data (buffer : Bytes)
  | set_header (key value : Bytes)
  | clear_headers
  | set_chunk_attribute (attributes : List Bytes)
  | clear_chunk_attributes
  | chunk_end_data (headers : headers_t)
  | reset

/-- The helper afterwards and the string that is returned, if any. When `header_data` throws, the helper is as it
was. -/
def helper_step (version_v : version_t) (h : helper_base) : helper_op → helper_base × Bytes
  | .header_data body_size =>
    match header_data version_v h body_size with
    | .error _ => (h, [])
    | .ok (data, h) => (h, data)
  | .body_data buffer => ((h.body_data buffer).2, (h.body_data buffer).1)
  | .set_header key value => (h.set_header key value, [])
  | .clear_headers => (h.clear_headers, [])
  | .set_chunk_attribute attributes => (h.set_chunk_attribute attributes, [])
  | .clear_chunk_attributes => (h.clear_chunk_attributes, [])
  | .chunk_end_data headers => ((h.chunk_end_data headers).2, (h.chunk_end_data headers).1)
  | .reset => (h.reset, [])

namespace helper_op

/-- The buffer given to `body_data` -/
def given : helper_op → Bytes
  | .body_data buffer => buffer
  | _ => []

def is_body : helper_op → Bool
  | .body_data _ => true
  | _ => false

end helper_op

def given (ops : List helper_op) : Bytes := (ops.map helper_op.given).flatten

/-- The strings that `body_data` returns in the run. -/
def body_answers (version_v : version_t) : helper_base → List helper_op → List Bytes
  | _, [] => []
  | h, op :: ops =>
    let rest := body_answers version_v (helper_step version_v h op).1 ops
    if op.is_body then (helper_step version_v h op).2 :: rest else rest

/-- Some call of `body_data` has brought what is given to `n` bytes or more. -/
def Reached (n : ℕ) (ops : List helper_op) : Prop :=
  ∃ done buffer more, ops = done ++ .body_data buffer :: more ∧ n ≤ (given done).length + buffer.length

/-! ## One operation -/

section

variable (version_v : version_t) {h : helper_base}

theorem step_finish (op : helper_op) (hstate : h.m_state = .finish) (hop : op ≠ .reset) :
    (helper_step version_v h op).1.m_state = .finish ∧ (helper_step version_v h op).2 = [] := by
  cases op with
  | header_data body_size => simp [helper_step, header_data, hstate]
  | body_data buffer => simp [helper_step, body_data, hstate]
  | set_header key value => exact ⟨hstate, rfl⟩
  | clear_headers => exact ⟨hstate, rfl⟩
  | set_chunk_attribute attributes => exact ⟨hstate, rfl⟩
  | clear_chunk_attributes => exact ⟨hstate, rfl⟩
  | chunk_end_data headers => simp [helper_step, chunk_end_data, hstate]
  | reset => exact absurd rfl hop

theorem step_other (op : helper_op) (hstate : h.m_state = .content_length) (hop : op ≠ .reset)
    (hbody : op.is_body = false) :
    (helper_step version_v h op).1.m_state = .content_length ∧
      (helper_step version_v h op).1.m_content_length = h.m_content_length ∧ (helper_step version_v h op).2 = [] := by
  cases op with
  | header_data body_size => simp [helper_step, header_data, hstate]
  | body_data buffer => cases hbody
  | set_header key value => exact ⟨hstate, rfl, rfl⟩
  | clear_headers => exact ⟨hstate, rfl, rfl⟩
  | set_chunk_attribute attributes => exact ⟨hstate, rfl, rfl⟩
  | clear_chunk_attributes => exact ⟨hstate, rfl, rfl⟩
  | chunk_end_data headers => simp [helper_step, chunk_end_data, hstate]
  | reset => exact absurd rfl hop

theorem step_body_below (buffer : Bytes) (hstate : h.m_state = .content_length)
    (hlt : buffer.length < h.m_content_length) :
    (helper_step version_v h (.body_data buffer)).1.m_state = .content_length ∧
      (helper_step version_v h (.body_data buffer)).1.m_content_length = h.m_content_length - buffer.length ∧
      (helper_step version_v h (.body_data buffer)).2 = buffer := by
  simp [helper_step, body_data, hstate, hlt]

theorem step_body_reached (buffer : Bytes) (hstate : h.m_state = .content_length)
    (hle : h.m_content_length ≤ buffer.length) :
    (helper_step version_v h (.body_data buffer)).1.m_state = .finish ∧
      (helper_step version_v h (.body_data buffer)).2 = buffer.take h.m_content_length := by
  simp [helper_step, body_data, hstate, Nat.not_lt.mpr hle]

end

/-! ## The run -/

theorem given_cons (op : helper_op) (ops : List helper_op) : given (op :: ops) = op.given ++ given ops := rfl

theorem given_of_not_body (op : helper_op) (h : op.is_body = false) : op.given = [] := by
  cases op with
  | body_data buffer => cases h
  | _ => rfl

theorem reached_nil (n : ℕ) : ¬ Reached n [] := by
  rintro ⟨done, buffer, more, hsplit, -⟩
  simp at hsplit

theorem reached_cons (n : ℕ) (op : helper_op) (ops : List helper_op) :
    Reached n (op :: ops) ↔ (op.is_body = true ∧ n ≤ op.given.length) ∨ Reached (n - op.given.length) ops := by
  constructor
  · rintro ⟨done, buffer, more, hsplit, hn⟩
    cases done with
    | nil =>
      simp only [List.nil_append, List.cons.injEq] at hsplit
      obtain ⟨rfl, rfl⟩ := hsplit
      refine .inl ⟨rfl, ?_⟩
      simpa [given, helper_op.given] using hn
    | cons op' done =>
      simp only [List.cons_append, List.cons.injEq] at hsplit
      obtain ⟨rfl, rfl⟩ := hsplit
      rw [given_cons, List.length_append] at hn
      exact .inr ⟨done, buffer, more, rfl, by omega⟩
  · rintro (⟨hbody, hn⟩ | ⟨done, buffer, more, rfl, hn⟩)
    · cases op with
      | body_data buffer => exact ⟨[], buffer, ops, rfl, by simpa [given, helper_op.given] using hn⟩
      | _ => cases hbody
    · refine ⟨op :: done, buffer, more, rfl, ?_⟩
      rw [given_cons, List.length_append]
      omega

/-- The helper behind the calls -/
def helper_run (version_v : version_t) (h : helper_base) (ops : List helper_op) : helper_base :=
  run (fun h op => (helper_step version_v h op).1) h ops

theorem body_answers_body (version_v : version_t) (h : helper_base) (op : helper_op) (ops : List helper_op)
    (hop : op.is_body = true) :
    body_answers version_v h (op :: ops) =
      (helper_step version_v h op).2 :: body_answers version_v (helper_step version_v h op).1 ops := by
  rw [body_answers]
  exact if_pos hop

theorem body_answers_other (version_v : version_t) (h : helper_base) (op : helper_op) (ops : List helper_op)
    (hop : op.is_body = false) :
    body_answers version_v h (op :: ops) = body_answers version_v (helper_step version_v h op).1 ops := by
  rw [body_answers]
  exact if_neg (by simp [hop])

theorem run_finish (version_v : version_t) (h : helper_base) (ops : List helper_op) (hstate : h.m_state = .finish)
    (hops : ∀ op ∈ ops, op ≠ .reset) :
    (helper_run version_v h ops).m_state = .finish ∧ (body_answers version_v h ops).flatten = [] := by
  induction ops generalizing h with
  | nil => exact ⟨hstate, rfl⟩
  | cons op ops ih =>
    obtain ⟨hop, hops⟩ := List.forall_mem_cons.mp hops
    obtain ⟨hnext, hout⟩ := step_finish version_v op hstate hop
    obtain ⟨hend, hrest⟩ := ih _ hnext hops
    refine ⟨hend, ?_⟩
    cases hbody : op.is_body with
    | true => rw [body_answers_body version_v h op ops hbody, List.flatten_cons, hout, hrest, List.append_nil]
    | false => rw [body_answers_other version_v h op ops hbody, hrest]

/-- **The count and what is given.** Induction over the calls; the count is what is still to come. -/
theorem run_counted (version_v : version_t) (h : helper_base) (ops : List helper_op)
    (hstate : h.m_state = .content_length) (hops : ∀ op ∈ ops, op ≠ .reset) :
    (body_answers version_v h ops).flatten = (given ops).take h.m_content_length ∧
      ((helper_run version_v h ops).m_state = .finish ↔ Reached h.m_content_length ops) ∧
      ((helper_run version_v h ops).m_state = .finish ∨ (helper_run version_v h ops).m_state = .content_length) := by
  induction ops generalizing h with
  | nil =>
    refine ⟨by simp [body_answers, given], ?_, .inr hstate⟩
    refine iff_of_false ?_ (reached_nil _)
    rw [helper_run, run_nil, hstate]
    decide
  | cons op ops ih =>
    obtain ⟨hop, hmore⟩ := List.forall_mem_cons.mp hops
    rw [reached_cons, given_cons]
    cases hbody : op.is_body with
    | false =>
      obtain ⟨hnext, hcount, -⟩ := step_other version_v op hstate hop hbody
      have hgiven := given_of_not_body op hbody
      obtain ⟨hout, hfinish, hend⟩ := ih _ hnext hmore
      rw [hcount] at hout hfinish
      refine ⟨?_, ?_, hend⟩
      · rw [body_answers_other version_v h op ops hbody, hgiven, List.nil_append, hout]
      · rw [hgiven]
        simpa [helper_run] using hfinish
    | true =>
      cases op with
      | body_data buffer =>
        by_cases hlt : buffer.length < h.m_content_length
        · obtain ⟨hnext, hcount, hbuffer⟩ := step_body_below version_v buffer hstate hlt
          obtain ⟨hout, hfinish, hend⟩ := ih _ hnext hmore
          rw [hcount] at hout hfinish
          refine ⟨?_, ?_, hend⟩
          · rw [body_answers_body version_v h _ ops hbody, List.flatten_cons, hbuffer, hout, helper_op.given,
              List.take_append, List.take_of_length_le (Nat.le_of_lt hlt)]
          · have hnot : ¬ h.m_content_length ≤ buffer.length := Nat.not_le.mpr hlt
            simpa [helper_op.given, hnot, helper_run] using hfinish
        · have hle := Nat.not_lt.mp hlt
          obtain ⟨hnext, hbuffer⟩ := step_body_reached version_v buffer hstate hle
          obtain ⟨hend, hrest⟩ := run_finish version_v _ ops hnext hmore
          refine ⟨?_, iff_of_true hend (.inl ⟨rfl, hle⟩), .inl hend⟩
          rw [body_answers_body version_v h _ ops hbody, List.flatten_cons, hbuffer, hrest, List.append_nil,
            helper_op.given, List.take_append_of_le_length hle]
      | _ => cases hbody

theorem header_data_declares (version_v : version_t) (h₀ h : helper_base) (body_size : ℕ) (data : Bytes)
    (hsize : body_size < size_max) (hstart : h₀.m_state = .header)
    (hdata : header_data version_v h₀ body_size = .ok (data, h)) (hselected : h.m_state = .content_length) :
    data = field_lines h.m_headers ∧
      ∃ text, h.m_headers.find header.content_length = some text ∧ ston text 10 = .ok h.m_content_length := by
  obtain ⟨hfields, hselects⟩ := header_data_selects version_v h₀ h body_size data hstart hdata
  refine ⟨hfields, ?_⟩
  cases hselects with
  | given text length hfind hlength => exact ⟨text, hfind, hlength⟩
  | chunked text hnone htext hlower => cases hselected
  | declared hnone hnot =>
    exact ⟨digits 10 body_size, OrderedMap.find_assign_self _ _ _ _ rfl, ston_digits body_size hsize⟩

/-- A run without `reset` behind a header that declares the length `n`. -/
structure Conserved (version_v : version_t) (h : helper_base) (n : ℕ) (ops : List helper_op) : Prop where
  body : (body_answers version_v h ops).flatten = (given ops).take n
  finish : (helper_run version_v h ops).m_state = .finish ↔ Reached n ops
  silent : ∀ op, op ≠ .reset → (helper_run version_v h ops).m_state = .finish →
    (helper_step version_v (helper_run version_v h ops) op).2 = []
  header_once : ∀ body_size, (helper_step version_v (helper_run version_v h ops) (.header_data body_size)).2 = []

/-- **The encoder of a declared length.** From any helper whose `header_data` declares a length, in every run up to the
next `reset`. -/
theorem content_length_conserved (version_v : version_t) (h₀ h : helper_base) (body_size : ℕ) (data : Bytes)
    (ops : List helper_op) (hsize : body_size < size_max) (hstart : h₀.m_state = .header)
    (hdata : header_data version_v h₀ body_size = .ok (data, h)) (hselected : h.m_state = .content_length)
    (hops : ∀ op ∈ ops, op ≠ .reset) :
    (data = field_lines h.m_headers ∧
      ∃ text, h.m_headers.find header.content_length = some text ∧ ston text 10 = .ok h.m_content_length) ∧
        Conserved version_v h h.m_content_length ops := by
  refine ⟨header_data_declares version_v h₀ h body_size data hsize hstart hdata hselected, ?_⟩
  obtain ⟨hbody, hfinish, hend⟩ := run_counted version_v h ops hselected hops
  refine ⟨hbody, hfinish, fun op hop hstate => (step_finish version_v op hstate hop).2, fun body_size => ?_⟩
  rcases hend with hend | hend
  · exact (step_finish version_v _ hend (by simp)).2
  · exact (step_other version_v _ hend (by simp) rfl).2.2

/-- Two bytes declared, five given. -/
def overlongOps : List helper_op := [.body_data (ascii "a"), .header_data 9, .body_data (ascii "bcde")]

theorem content_length_conserved_two :
    let h := init.declare_length 2
    (field_lines h.m_headers = field_lines h.m_headers ∧
      ∃ text, h.m_headers.find header.content_length = some text ∧ ston text 10 = .ok 2) ∧
        Conserved version.v11 h 2 overlongOps :=
  content_length_conserved version.v11 init (init.declare_length 2) 2 _ overlongOps (by decide) rfl rfl rfl
    (by simp [overlongOps])

end Libgs.Http.helper_base
