import Libgs.Lib.Select
import Libgs.Server.RequestParser

/-!
# Which handler runs, and with which path arguments

The loop of `call_on_request` in `http/server/detail/server.h` asks the request to match every rule,
and every match leaves its path arguments in the request.
-/

namespace Libgs.Server

open Lib Libgs.Http

abbrev request_handler_map (H : Type) := OrderedMap (fun rule : Bytes => rule.map UInt8.toNat) H

def int32_max : ℤ := 2147483647

variable {H : Type}

/-- The loop of `call_on_request`. The variable `path_length` stays 0 in it. -/
def find_handler : List (Bytes × H) → Option H → ℤ → RequestParser → Except exception (Option H × RequestParser)
  | [], handler, _, p => .ok (handler, p)
  | (rule, _handler) :: rest, handler, weight, p =>
    let _path_length := p.m_parser_base.captured.m_path.length
    match path_match p rule with
    | .error e => .error e
    | .ok (_weight, p) =>
      if _weight = 0 then .ok (some _handler, p)
      else if 0 < _weight ∧ (_weight < weight ∨ _weight = weight ∧ 0 < _path_length) then
        find_handler rest (some _handler) _weight p
      else find_handler rest handler weight p

/-! ## Rules and their braces -/

def rule_segments (rule : Bytes) : List Bytes :=
  if rule = string_pool.root then [rule] else from_string rule string_pool.root

def path_segments (path : Bytes) : List Bytes :=
  if from_string path string_pool.root = [] then [string_pool.root] else from_string path string_pool.root

def brace_name (format : Bytes) : Bytes := (format.drop 1).take (format.length - 2)

def inBraces (format : Bytes) : Bool := [open_brace] <+: format ∧ [close_brace] <:+ format

def plainName (format : Bytes) : Bool := !(brace_name format).any fun c => c = open_brace ∨ c = close_brace

/-- The names that `path_match` collects. A segment with braces inside does not stop it. -/
def argument_names (rule : Bytes) : List Bytes :=
  ((((rule_segments rule).reverse.takeWhile inBraces).filter plainName).map brace_name).reverse

/-- The names of the segments `{name}` that a rule ends with. -/
def brace_names (rule : Bytes) : List Bytes :=
  (((rule_segments rule).reverse.takeWhile fun format => inBraces format && plainName format).map brace_name).reverse

/-- Names and as many segments from the end of the path. -/
def bind_last (names : List Bytes) (path : Bytes) : path_args_t :=
  names.zip ((path_segments path).drop ((path_segments path).length - names.length))

def bindings (rule path : Bytes) : path_args_t := bind_last (brace_names rule) path

theorem bind_last_names (names : List Bytes) (path : Bytes) (h : names.length ≤ (path_segments path).length) :
    (bind_last names path).map (·.1) = names := by
  unfold bind_last
  rw [List.map_fst_zip]
  rw [List.length_drop]
  omega

theorem brace_names_length (rule : Bytes) : (brace_names rule).length ≤ (rule_segments rule).length := by
  unfold brace_names
  rw [List.length_reverse, List.length_map]
  calc _ ≤ (rule_segments rule).reverse.length := (List.takeWhile_prefix _).length_le
    _ = (rule_segments rule).length := List.length_reverse

theorem argument_names_length (rule : Bytes) : (argument_names rule).length ≤ (rule_segments rule).length := by
  unfold argument_names
  rw [List.length_reverse, List.length_map]
  calc _ ≤ ((rule_segments rule).reverse.takeWhile inBraces).length := List.length_filter_le _ _
    _ ≤ (rule_segments rule).reverse.length := (List.takeWhile_prefix _).length_le
    _ = (rule_segments rule).length := List.length_reverse

/-! ## `path_match` -/

theorem match_braces_spec (formats : List Bytes) (vector : path_args_t) (index : ℕ) :
    match_braces formats vector index =
      (vector ++ (((formats.takeWhile inBraces).filter plainName).map brace_name).map fun name => (name, []),
        index - ((formats.takeWhile inBraces).filter plainName).length) := by
  induction formats generalizing vector index with
  | nil => simp [match_braces]
  | cons format rest ih =>
    unfold match_braces
    by_cases hb : inBraces format = true
    · have hb' : ¬ (¬ [open_brace] <+: format ∨ ¬ [close_brace] <:+ format) := by
        simpa [inBraces] using hb
      rw [if_neg hb', List.takeWhile_cons_of_pos hb]
      by_cases h2 : format.length = 2
      · have hname : brace_name format = [] := by simp [brace_name, h2]
        have hplain : plainName format = true := by simp [plainName, hname]
        rw [if_pos h2, ih, List.filter_cons_of_pos hplain]
        simp [hname, Nat.sub_sub, Nat.add_comm]
      · rw [if_neg h2]
        by_cases hplain : plainName format = true
        · have hany : (brace_name format).any (fun c => c = open_brace ∨ c = close_brace) = false := by
            simpa [plainName] using hplain
          unfold brace_name at hany
          simp only [hany, Bool.false_eq_true, if_false]
          rw [ih, List.filter_cons_of_pos hplain]
          simp [brace_name, Nat.sub_sub, Nat.add_comm]
        · have hany : (brace_name format).any (fun c => c = open_brace ∨ c = close_brace) = true := by
            rwa [plainName, Bool.not_eq_true', Bool.not_eq_false] at hplain
          unfold brace_name at hany
          simp only [hany, if_true]
          rw [ih, List.filter_cons_of_neg hplain]
    · have hb' : ¬ [open_brace] <+: format ∨ ¬ [close_brace] <:+ format := by
        by_contra hno
        exact hb (by simpa [inBraces, not_or] using hno)
      rw [if_pos hb', List.takeWhile_cons_of_neg hb]
      simp

theorem fill_values (names segments : List Bytes) :
    ((names.map fun name => (name, ([] : Bytes))).zip segments).map (fun e => (e.1.1, e.2)) = names.zip segments := by
  rw [List.zip_map_left, List.map_map]
  exact List.map_id _

def rule_weight (p : RequestParser) (rule : Bytes) : ℤ :=
  match path_match p rule with
  | .error _ => -1
  | .ok (weight, _) => weight

theorem path_match_spec (p q : RequestParser) (rule : Bytes) (w : ℤ) (h : path_match p rule = .ok (w, q)) :
    (w < 0 → q = p) ∧
      (0 ≤ w → (rule_segments rule).length ≤ (path_segments p.m_parser_base.captured.m_path).length ∧
        q = { p with m_path_args := bind_last (argument_names rule) p.m_parser_base.captured.m_path }) := by
  unfold path_match at h
  dsimp only at h
  rw [← rule_segments, ← path_segments, match_braces_spec] at h
  dsimp only at h
  split at h
  · simp only [Except.ok.injEq, Prod.mk.injEq] at h
    obtain ⟨rfl, rfl⟩ := h
    simp
  · rename_i hlength
    split at h
    · cases h
    · split at h
      · cases h
      · split at h
        · simp only [Except.ok.injEq, Prod.mk.injEq] at h
          obtain ⟨rfl, rfl⟩ := h
          simp
        · rename_i hw
          simp only [Except.ok.injEq, Prod.mk.injEq] at h
          obtain ⟨rfl, rfl⟩ := h
          refine ⟨fun hneg => absurd hneg hw, fun _ => ⟨not_lt.mp hlength, ?_⟩⟩
          rw [List.nil_append, ← List.map_reverse, ← argument_names, fill_values, List.length_map, bind_last]

theorem rule_weight_path {p q : RequestParser} (h : q.m_parser_base.captured.m_path = p.m_parser_base.captured.m_path)
    (rule : Bytes) : rule_weight q rule = rule_weight p rule := by
  unfold rule_weight path_match
  dsimp only
  rw [h, ← rule_segments, ← path_segments]
  obtain ⟨vector, index⟩ := match_braces (rule_segments rule).reverse [] (rule_segments rule).length
  dsimp only
  by_cases hlength : (path_segments p.m_parser_base.captured.m_path).length < (rule_segments rule).length
  · simp only [if_pos hlength]
  · simp only [if_neg hlength]
    cases join_range (rule_segments rule) 0 index string_pool.root with
    | error e => rfl
    | ok rule_before =>
      dsimp only
      generalize (if vector.reverse = [] then _ else _ : Except exception Bytes) = path_before
      cases path_before with
      | error e => rfl
      | ok path_before => by_cases hw : wildcard_match rule_before path_before < 0 <;> simp [hw]

theorem rule_weight_args (p : RequestParser) (args : path_args_t) (rule : Bytes) :
    rule_weight { p with m_path_args := args } rule = rule_weight p rule :=
  rule_weight_path (p := p) (q := { p with m_path_args := args }) rfl rule

/-! ## The loop -/

def visited (p : RequestParser) : List (Bytes × H) → List (Bytes × H)
  | [] => []
  | e :: es => if rule_weight p e.1 = 0 then [e] else e :: visited p es

def matching (p : RequestParser) (es : List (Bytes × H)) : List (Bytes × H) :=
  (visited p es).filter fun e => 0 ≤ rule_weight p e.1

/-- The entry has the least weight of those that match; of several it is the last, or the first if
the path is empty. -/
def BestEntry (p : RequestParser) (es : List (Bytes × H)) (e : Bytes × H) : Prop :=
  Best (p.m_parser_base.captured.m_path ≠ []) (fun e => rule_weight p e.1) int32_max (matching p es) e

def last_args (p : RequestParser) (es : List (Bytes × H)) : path_args_t :=
  match (matching p es).getLast? with
  | none => p.m_path_args
  | some e => bind_last (argument_names e.1) p.m_parser_base.captured.m_path

theorem visited_args (p : RequestParser) (args : path_args_t) (es : List (Bytes × H)) :
    visited { p with m_path_args := args } es = visited p es := by
  induction es with
  | nil => rfl
  | cons e es ih =>
    unfold visited
    rw [rule_weight_args, ih]

theorem matching_args (p : RequestParser) (args : path_args_t) (es : List (Bytes × H)) :
    matching { p with m_path_args := args } es = matching p es := by
  unfold matching
  rw [visited_args]
  simp only [rule_weight_args]

theorem matching_cons (p : RequestParser) (e : Bytes × H) (es : List (Bytes × H)) :
    (rule_weight p e.1 = 0 → matching p (e :: es) = [e]) ∧
      (0 < rule_weight p e.1 → matching p (e :: es) = e :: matching p es) ∧
      (rule_weight p e.1 < 0 → matching p (e :: es) = matching p es) := by
  unfold matching
  rw [visited]
  refine ⟨fun hw => ?_, fun hw => ?_, fun hw => ?_⟩
  · simp [hw]
  · rw [if_neg (by omega), List.filter_cons_of_pos (by simpa using hw.le)]
  · rw [if_neg (by omega), List.filter_cons_of_neg (by simpa using hw)]

theorem last_args_cons (p : RequestParser) (e : Bytes × H) (es : List (Bytes × H))
    (h : matching p (e :: es) = e :: matching p es) :
    last_args p (e :: es) =
      last_args { p with m_path_args := bind_last (argument_names e.1) p.m_parser_base.captured.m_path } es := by
  have hrest := matching_args p (bind_last (argument_names e.1) p.m_parser_base.captured.m_path) es
  unfold last_args
  rw [hrest, h, List.getLast?_cons]
  cases (matching p es).getLast? <;> rfl

theorem find_handler_spec (es : List (Bytes × H)) (kept : Option (Bytes × H)) (handler : Option H) (weight : ℤ)
    (p q : RequestParser) (hweight : 0 < weight)
    (h : find_handler es (kept.map (·.2)) weight p = .ok (handler, q)) :
    q = { p with m_path_args := last_args p es } ∧
      handler = (pick (p.m_parser_base.captured.m_path ≠ []) (fun e => rule_weight p e.1) kept weight
        (matching p es)).map (·.2) := by
  induction es generalizing kept weight p with
  | nil =>
    simp only [find_handler, Except.ok.injEq, Prod.mk.injEq] at h
    obtain ⟨rfl, rfl⟩ := h
    exact ⟨rfl, rfl⟩
  | cons e es ih =>
    obtain ⟨hzero, hpos, hneg⟩ := matching_cons p e es
    unfold find_handler at h
    dsimp only at h
    split at h
    · cases h
    · rename_i w p' hmatch
      obtain ⟨hfails, hmatches⟩ := path_match_spec p p' e.1 w hmatch
      have hw : rule_weight p e.1 = w := by rw [rule_weight, hmatch]
      rw [hw] at hzero hpos hneg
      have hties : 0 < p.m_parser_base.captured.m_path.length ↔ p.m_parser_base.captured.m_path ≠ [] :=
        List.length_pos_iff
      split at h
      · rename_i h0
        simp only [Except.ok.injEq, Prod.mk.injEq] at h
        obtain ⟨rfl, rfl⟩ := h
        obtain ⟨-, hq⟩ := hmatches h0.ge
        rw [hzero h0]
        refine ⟨by rw [hq, last_args, hzero h0]; rfl, ?_⟩
        unfold pick
        rw [if_pos (.inl (by rw [hw, h0]; exact hweight)), pick]
        rfl
      · rename_i h0
        split at h
        · rename_i hbetter
          obtain ⟨hw0, hbetter⟩ := hbetter
          obtain ⟨-, rfl⟩ := hmatches hw0.le
          obtain ⟨hq, hh⟩ := ih (some e) w _ hw0 h
          rw [matching_args] at hh
          simp only [rule_weight_args] at hh
          refine ⟨by rw [hq, last_args_cons p e es (hpos hw0)], ?_⟩
          rw [hpos hw0, pick, hw, if_pos, hh]
          simpa [Replaces, hties] using hbetter
        · rename_i hbetter
          by_cases hw0 : 0 < w
          · obtain ⟨-, rfl⟩ := hmatches hw0.le
            obtain ⟨hq, hh⟩ := ih kept weight _ hweight h
            rw [matching_args] at hh
            simp only [rule_weight_args] at hh
            refine ⟨by rw [hq, last_args_cons p e es (hpos hw0)], ?_⟩
            rw [hpos hw0, pick, hw, if_neg, hh]
            simpa [Replaces, hties, hw0] using hbetter
          · obtain rfl := hfails (by omega)
            obtain ⟨hq, hh⟩ := ih kept weight p' hweight h
            refine ⟨by rw [hq, last_args, last_args, hneg (by omega)], ?_⟩
            rw [hneg (by omega), hh]

theorem matching_length (p : RequestParser) (es : List (Bytes × H)) (e : Bytes × H) (he : e ∈ matching p es) :
    (rule_segments e.1).length ≤ (path_segments p.m_parser_base.captured.m_path).length := by
  have hw : 0 ≤ rule_weight p e.1 := by simpa using (List.mem_filter.mp he).2
  unfold rule_weight at hw
  split at hw
  · omega
  · rename_i w q hmatch
    exact ((path_match_spec p q e.1 w hmatch).2 hw).1

/-- **Path arguments of the handler that was found.** It is the handler of the best entry, and the
request has the bindings of that entry's rule exactly when the last entry that matched has the same
names. -/
theorem path_args_iff (map : request_handler_map H) (h : H) (p q : RequestParser)
    (hfind : find_handler map.entries none int32_max p = .ok (some h, q)) :
    ∃ rule, BestEntry p map.entries (rule, h) ∧
      (q.m_path_args = bindings rule p.m_parser_base.captured.m_path ↔
        ∀ last, (matching p map.entries).getLast? = some last → argument_names last.1 = brace_names rule) := by
  obtain ⟨hq, hh⟩ := find_handler_spec map.entries none (some h) int32_max p q (by decide) hfind
  rcases pick_spec (p.m_parser_base.captured.m_path ≠ []) (fun e => rule_weight p e.1) none int32_max
    (matching p map.entries) with ⟨⟨rule, h'⟩, hpick, hbest⟩ | ⟨hpick, -⟩
  · rw [hpick, Option.map_some, Option.some.injEq] at hh
    obtain rfl : h = h' := hh
    refine ⟨rule, hbest, ?_⟩
    obtain ⟨before, after, hsplit, -, -⟩ := hbest.split
    have hmem : (rule, h) ∈ matching p map.entries := by simp [hsplit]
    obtain ⟨last, hlast⟩ : ∃ last, (matching p map.entries).getLast? = some last := by
      cases hlast : (matching p map.entries).getLast? with
      | none => simp [List.getLast?_eq_none_iff.mp hlast] at hmem
      | some last => exact ⟨last, rfl⟩
    have hargs : q.m_path_args = bind_last (argument_names last.1) p.m_parser_base.captured.m_path := by
      rw [hq]
      simp only [last_args, hlast]
    have hlength := (argument_names_length last.1).trans
      (matching_length p map.entries last (List.mem_of_getLast? hlast))
    have hlength' := (brace_names_length rule).trans (matching_length p map.entries (rule, h) hmem)
    rw [hargs, bindings, hlast]
    constructor
    · intro heq _ hl
      cases hl
      have hnames := congrArg (List.map (·.1)) heq
      rwa [bind_last_names _ _ hlength, bind_last_names _ _ hlength'] at hnames
    · intro hnames
      rw [hnames last rfl]
  · rw [hpick] at hh
    cases hh

def getAB : RequestParser := (append (.init 0) (ascii "GET /a/b HTTP/1.1\r\n\r\n")).obj

/-- `/?/{x}` for the handler 1 and `/a/*` for the handler 2. -/
def twoRules : request_handler_map ℕ where
  entries := [(ascii "/?/{x}", 1), (ascii "/a/*", 2)]
  sorted := by decide

theorem path_args_iff_two :
    ∃ rule, BestEntry getAB twoRules.entries (rule, 1) ∧
      (({ getAB with m_path_args := [] } : RequestParser).m_path_args =
          bindings rule getAB.m_parser_base.captured.m_path ↔
        ∀ last, (matching getAB twoRules.entries).getLast? = some last → argument_names last.1 = brace_names rule) :=
  path_args_iff twoRules 1 getAB { getAB with m_path_args := [] } (by rfl)

theorem path_args_of_another :
    ∃ q, find_handler twoRules.entries none int32_max getAB = .ok (some 1, q) ∧
      twoRules.entries.map (·.2) = [1, 2] ∧ (ascii "/?/{x}", 1) ∈ twoRules.entries ∧
      q.m_path_args = [] ∧
      bindings (ascii "/?/{x}") getAB.m_parser_base.captured.m_path = [(ascii "x", ascii "b")] :=
  ⟨{ getAB with m_path_args := [] }, by rfl, by rfl, by decide, by rfl, by rfl⟩

end Libgs.Server
