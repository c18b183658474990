import Libgs.Server.Framing

/-!
# The lines of a header block

What `header_data` of `http/server/detail/response_helper.h` returns, as lines. Nothing on the way of a name or a value
into the block looks for a line end in it.
-/

namespace Libgs.Server

open Lib Libgs.Http

/-! ## Line ends in a text -/

/-- There is a line end in the text. -/
def Broken (text : Bytes) : Prop := crlf <:+: text

instance (text : Bytes) : Decidable (Broken text) := inferInstanceAs (Decidable (crlf <:+: text))

theorem isLine_iff_broken (l : Bytes) : IsLine crlf l ↔ ¬ Broken l := by
  have hnew : ¬ crlf <:+ l ++ [13] := by
    rintro ⟨s, hs⟩
    have := congrArg List.getLast? hs
    simp [crlf] at this
  unfold IsLine Broken
  rw [show crlf.dropLast = [13] from rfl, List.infix_concat_iff, or_iff_right hnew]

theorem broken_append (a b : Bytes) (c : UInt8) (hc : c ∉ crlf) : Broken (a ++ c :: b) ↔ Broken a ∨ Broken b :=
  infix_append_cons crlf a b c (by decide) hc

theorem not_broken_nil : ¬ Broken [] := by decide

theorem not_broken_of_no_lf {text : Bytes} (h : 10 ∉ text) : ¬ Broken text := fun hb => h (hb.subset (by decide))

theorem key_not_broken {key k : Bytes} (hk : 10 ∉ str_to_lower k) (h : key_rank key = key_rank k) : ¬ Broken key := by
  refine not_broken_of_no_lf fun hmem => hk ?_
  rw [← (key_rank_eq_iff key k).mp h]
  exact List.mem_map.mpr ⟨10, hmem, by decide⟩

/-! ## Names and values -/

def PairBroken (e : Bytes × Bytes) : Prop := Broken e.1 ∨ Broken e.2

def CookieBroken (e : Bytes × cookie) : Prop :=
  PairBroken (e.1, e.2.value) ∨ ∃ attr ∈ e.2.attributes.entries, PairBroken attr

theorem field_line_broken (e : Bytes × Bytes) : Broken (helper_base.field_line e) ↔ PairBroken e := by
  have hline : helper_base.field_line e = e.1 ++ 58 :: ([] ++ 32 :: e.2) := rfl
  rw [hline, broken_append _ _ _ (by decide), broken_append _ _ _ (by decide), or_iff_right not_broken_nil]
  rfl

theorem pair_text_broken (e : Bytes × Bytes) (rest : Bytes) :
    Broken (pair_text e ++ rest) ↔ PairBroken e ∨ Broken rest := by
  have hpair : pair_text e ++ rest = e.1 ++ 61 :: (e.2 ++ 59 :: rest) := by simp [pair_text, ascii]
  rw [hpair, broken_append _ _ _ (by decide), broken_append _ _ _ (by decide), ← or_assoc]
  rfl

theorem pairs_text_broken (es : List (Bytes × Bytes)) :
    Broken (es.map pair_text).flatten ↔ ∃ e ∈ es, PairBroken e := by
  induction es with
  | nil => simp [not_broken_nil]
  | cons e es ih =>
    rw [List.map_cons, List.flatten_cons, pair_text_broken, ih]
    simp

def cookie_text (e : Bytes × cookie) : Bytes :=
  (ascii "set-cookie: " ++ (pair_text (e.1, e.2.value) ++ (e.2.attributes.entries.map pair_text).flatten)).dropLast

theorem pairs_text_last (es : List (Bytes × Bytes)) (e : Bytes × Bytes) :
    ∃ t, pair_text e ++ (es.map pair_text).flatten = t ++ [59] := by
  induction es generalizing e with
  | nil => exact ⟨e.1 ++ (ascii "=" ++ e.2), by simp [pair_text, ascii]⟩
  | cons e' es ih =>
    obtain ⟨t, ht⟩ := ih e'
    exact ⟨pair_text e ++ t, by rw [List.map_cons, List.flatten_cons, ht, List.append_assoc]⟩

theorem cookie_text_broken (e : Bytes × cookie) : Broken (cookie_text e) ↔ CookieBroken e := by
  obtain ⟨t, ht⟩ := pairs_text_last e.2.attributes.entries (e.1, e.2.value)
  have htext : cookie_text e = ascii "set-cookie:" ++ 32 :: t := by
    have hword : ascii "set-cookie: " = ascii "set-cookie:" ++ [32] := by decide
    unfold cookie_text
    rw [ht, ← List.append_assoc, List.dropLast_concat, hword, List.append_assoc, List.singleton_append]
  have hlast := broken_append t [] 59 (by decide)
  rw [or_iff_left not_broken_nil, ← ht, pair_text_broken, pairs_text_broken] at hlast
  rw [htext, broken_append _ _ _ (by decide), or_iff_right (by decide), ← hlast]
  rfl

/-! ## The status line -/

theorem status_line_text (r : response_helper) (line : Bytes) (h : r.status_line = .ok line) :
    ∃ status, line = status ++ crlf ∧ ¬ Broken status ∧ status ≠ [] := by
  unfold response_helper.status_line at h
  cases hversion : version_string r.m_version with
  | error e => simp [hversion] at h
  | ok vs =>
    cases hdescription : status_description r.m_status with
    | error e => simp [hversion, hdescription] at h
    | ok description =>
      simp only [hversion, hdescription, Except.ok.injEq] at h
      have hvs : 10 ∉ vs := by
        unfold version_string at hversion
        split at hversion
        · rename_i e he
          cases hversion
          have hall : ∀ e ∈ version_table, 10 ∉ e.2 := by decide
          exact hall e (List.mem_of_find?_eq_some he)
        · cases hversion
      have hdesc : 10 ∉ description := by
        unfold status_description at hdescription
        split at hdescription
        · rename_i e he
          cases hdescription
          have hall : ∀ e ∈ status_table, 10 ∉ e.2 := by decide +kernel
          exact hall e (List.mem_of_find?_eq_some he)
        · cases hdescription
      refine ⟨_, h.symm, not_broken_of_no_lf ?_, by simp [ascii]⟩
      have hdigits := helper_base.digits_no_lf 10 r.m_status (by omega) (by omega)
      simp only [List.mem_append, not_or]
      exact ⟨⟨⟨⟨⟨by decide, hvs⟩, by decide⟩, hdigits⟩, by decide⟩, hdesc⟩

/-! ## The headers of a block -/

/-- The header is written as the user has set it. Cookies are not written from the headers, and the encoding that a
chunked request asks for takes the place of the user's. -/
def Kept (r : response_helper) (key : Bytes) : Prop :=
  str_to_lower key ≠ string_pool.set_cookie ∧
    ¬ (r.request_chunked = true ∧ str_to_lower key = str_to_lower header.transfer_encoding)

theorem assign_broken_iff (headers : headers_t) (k v : Bytes) (hk : 10 ∉ str_to_lower k) (hv : ¬ Broken v) :
    (∃ e ∈ (headers.assign k v).entries, PairBroken e) ↔
      ∃ e ∈ headers.entries, key_rank e.1 ≠ key_rank k ∧ PairBroken e := by
  constructor
  · rintro ⟨e, he, hbroken⟩
    have hne : key_rank e.1 ≠ key_rank k := by
      intro hrank
      have hvalue := OrderedMap.mem_assign_eq headers k v e hrank he
      exact hbroken.elim (key_not_broken hk hrank) (hvalue ▸ hv)
    exact ⟨e, (OrderedMap.mem_assign_iff_ne headers k v e hne).mp he, hne, hbroken⟩
  · rintro ⟨e, he, hne, hbroken⟩
    exact ⟨e, (OrderedMap.mem_assign_iff_ne headers k v e hne).mpr he, hbroken⟩

theorem mem_erase (headers : headers_t) (k : Bytes) (e : Bytes × Bytes) :
    e ∈ (headers.erase k).entries ↔ e ∈ headers.entries ∧ key_rank e.1 ≠ key_rank k := by
  simp [OrderedMap.erase]

theorem header_helper_broken_iff (r : response_helper) :
    (∃ e ∈ r.header_helper.m_headers.entries, PairBroken e) ↔
      ∃ e ∈ r.m_helper.m_headers.entries, Kept r e.1 ∧ PairBroken e := by
  have hkey : ∀ key k, key_rank key ≠ key_rank k ↔ str_to_lower key ≠ str_to_lower k :=
    fun key k => not_congr (key_rank_eq_iff key k)
  have hcookie : str_to_lower string_pool.set_cookie = string_pool.set_cookie := by decide
  unfold response_helper.header_helper Kept
  cases hrequest : r.request_chunked with
  | true =>
    simp only [if_true, helper_base.set_header]
    rw [assign_broken_iff _ _ _ (by decide) (by decide)]
    simp only [mem_erase, hkey, hcookie, str_to_lower_idem, true_and, and_assoc, ne_eq]
  | false =>
    simp only [Bool.false_eq_true, if_false, false_and, not_false_eq_true, and_true, mem_erase, hkey, hcookie,
      and_assoc]

theorem base_broken_iff (h h' : helper_base) (size : ℕ) (data : Bytes) (hstate : h.m_state = .header)
    (hdata : h.header_data version.v11 size = .ok (data, h')) :
    (∃ e ∈ h'.m_headers.entries, PairBroken e) ↔ ∃ e ∈ h.m_headers.entries, PairBroken e := by
  obtain ⟨-, hsame | ⟨hnone, hassign⟩⟩ := helper_base.header_data_fields _ h h' size data hstate hdata
  · rw [hsame]
  · rw [hassign, assign_broken_iff _ _ _ (by decide)
      (not_broken_of_no_lf (helper_base.digits_no_lf 10 size (by omega) (by omega)))]
    constructor
    · rintro ⟨e, he, -, hbroken⟩
      exact ⟨e, he, hbroken⟩
    · rintro ⟨e, he, hbroken⟩
      refine ⟨e, he, fun hrank => ?_, hbroken⟩
      have hfind := OrderedMap.find_of_mem h.m_headers e he
      rw [OrderedMap.find_of_rank_eq _ _ _ hrank, hnone] at hfind
      cases hfind

/-! ## One line for each -/

/-- The block is a status line, a line for each header and each cookie, and an empty line at the end. No other line is
empty. -/
def OneLineEach (r r' : response_helper) (block : Bytes) : Prop :=
  ∃ status, r.status_line = .ok (status ++ crlf) ∧
    let ls := status ::
      (r'.m_helper.m_headers.entries.map helper_base.field_line ++ r.m_cookies.entries.map cookie_text)
    Lines crlf block (ls ++ [[]]) ∧ ∀ l ∈ ls, l ≠ []

structure Harmless (r : response_helper) : Prop where
  headers : ∀ e ∈ r.m_helper.m_headers.entries, Kept r e.1 → ¬ PairBroken e
  cookies : ∀ e ∈ r.m_cookies.entries, ¬ CookieBroken e

theorem one_line_each_iff (r r' : response_helper) (size : ℕ) (block : Bytes) (hstate : r.m_helper.m_state = .header)
    (h : r.header_data size = .ok (block, r')) : OneLineEach r r' block ↔ Harmless r := by
  obtain ⟨line, hline, -, hdata, hblock⟩ := header_data_block r r' size block hstate h
  obtain ⟨status, rfl, hstatus, hne⟩ := status_line_text r line hline
  have hheaders : (∃ e ∈ r'.m_helper.m_headers.entries, PairBroken e) ↔
      ∃ e ∈ r.m_helper.m_headers.entries, Kept r e.1 ∧ PairBroken e :=
    (base_broken_iff _ _ size _ ((header_helper_state r).1.trans hstate) hdata).trans (header_helper_broken_iff r)
  constructor
  · rintro ⟨status', -, hlines, -⟩
    refine ⟨fun e he hkept hbroken => ?_, fun e he hbroken => ?_⟩
    · obtain ⟨e', he', hbroken'⟩ := hheaders.mpr ⟨e, he, hkept, hbroken⟩
      have hl := hlines.isLine (helper_base.field_line e') (by simp [List.mem_map_of_mem he'])
      exact (isLine_iff_broken _).mp hl ((field_line_broken e').mpr hbroken')
    · have hl := hlines.isLine (cookie_text e) (by simp [List.mem_map_of_mem he])
      exact (isLine_iff_broken _).mp hl ((cookie_text_broken e).mpr hbroken)
  · rintro ⟨hfields, hcookies⟩
    refine ⟨status, hline, ⟨?_, ?_⟩, ?_⟩
    · rw [hblock]
      have hcookie : cookie_line = fun e => cookie_text e ++ crlf := rfl
      simp [helper_base.field_lines, hcookie, unlines, List.append_assoc, Function.comp_def]
    · intro l hl
      rw [isLine_iff_broken]
      simp only [List.mem_append, List.mem_cons, List.mem_map, List.not_mem_nil, or_false] at hl
      rcases hl with (rfl | ⟨e, he, rfl⟩ | ⟨e, he, rfl⟩) | rfl
      · exact hstatus
      · rw [field_line_broken]
        intro hbroken
        obtain ⟨e', he', hkept, hbroken'⟩ := hheaders.mp ⟨e, he, hbroken⟩
        exact hfields e' he' hkept hbroken'
      · rw [cookie_text_broken]
        exact hcookies e he
      · exact not_broken_nil
    · intro l hl
      simp only [List.mem_append, List.mem_cons, List.mem_map] at hl
      rcases hl with rfl | ⟨e, he, rfl⟩ | ⟨e, he, rfl⟩
      · exact hne
      · simp [helper_base.field_line, ascii]
      · obtain ⟨t, ht⟩ := pairs_text_last e.2.attributes.entries (e.1, e.2.value)
        unfold cookie_text
        rw [ht, ← List.append_assoc, List.dropLast_concat]
        simp [ascii]

/-- **No response splitting.** Behind any settings, the block has one line for each of its parts if and only if there is
no line end in what was set. -/
theorem no_splitting_iff (version_v : version_t) (request_headers : headers_t) (settings : List setting) (size : ℕ)
    (block : Bytes) (r' : response_helper)
    (h : (settled version_v request_headers settings).header_data size = .ok (block, r')) :
    OneLineEach (settled version_v request_headers settings) r' block ↔
      Harmless (settled version_v request_headers settings) :=
  one_line_each_iff _ r' size block (settled_state version_v request_headers settings) h

def redirectSettings (url : Bytes) : List setting := [.set_redirect url .found]

theorem no_splitting_plain : ∃ block r',
    OneLineEach (settled version.v11 .empty (redirectSettings (ascii "/b"))) r' block := by
  refine ⟨_, _, (no_splitting_iff version.v11 .empty (redirectSettings (ascii "/b")) 0 _ _ rfl).mpr ⟨?_, nofun⟩⟩
  intro e he _
  have hall : ∀ e ∈ (settled version.v11 .empty (redirectSettings (ascii "/b"))).m_helper.m_headers.entries,
      ¬ (Broken e.1 ∨ Broken e.2) := by decide
  exact hall e he

/-- A redirect to a target that has a line end in it: there is a line more. -/
theorem redirect_splits : ¬ ∀ version_v request_headers settings size block r',
    (settled version_v request_headers settings).header_data size = .ok (block, r') →
      OneLineEach (settled version_v request_headers settings) r' block := by
  intro h
  have hlines := h version.v11 .empty (redirectSettings (ascii "/b\r\nX: y")) 0 _ _ rfl
  obtain ⟨status, -, hlines, -⟩ := hlines
  have hl := hlines.isLine (ascii "location: /b\r\nX: y") (by
    simp only [List.mem_append, List.mem_cons, List.mem_map]
    exact .inl (.inr (.inl ⟨(ascii "location", ascii "/b\r\nX: y"), by decide, by decide⟩)))
  revert hl
  decide

end Libgs.Server
