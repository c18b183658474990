import Libgs.Server.Routing

/-!
# Which rule wins

The loop of `call_on_request` in `http/server/detail/server.h`, for any weights that the rules may get from
`path_match`.
-/

namespace Libgs.Server

open Lib Libgs.Http

variable {H : Type}

/-- The loop, where `path_match` tells the weight of a rule. The variable `path_length` stays 0 in it. -/
def choose_handler (path_match : Bytes → ℤ) (_path_length : ℕ) : List (Bytes × H) → Option H → ℤ → Option H
  | [], handler, _ => handler
  | (rule, _handler) :: rest, handler, weight =>
    let _weight := path_match rule
    if _weight = 0 then some _handler
    else if 0 < _weight ∧ (_weight < weight ∨ _weight = weight ∧ 0 < _path_length) then
      choose_handler path_match _path_length rest (some _handler) _weight
    else choose_handler path_match _path_length rest handler weight

theorem find_handler_choose (es : List (Bytes × H)) (handler r : Option H) (weight : ℤ) (p q : RequestParser)
    (h : find_handler es handler weight p = .ok (r, q)) :
    r = choose_handler (rule_weight p) p.m_parser_base.captured.m_path.length es handler weight := by
  induction es generalizing handler weight p with
  | nil =>
    simp only [find_handler, Except.ok.injEq, Prod.mk.injEq] at h
    exact h.1.symm
  | cons e es ih =>
    unfold find_handler at h
    dsimp only at h
    split at h
    · cases h
    · rename_i w p' hmatch
      have hw : rule_weight p e.1 = w := by rw [rule_weight, hmatch]
      have hargs : ∃ args, p' = { p with m_path_args := args } := by
        obtain ⟨hfails, hmatches⟩ := path_match_spec p p' e.1 w hmatch
        by_cases hneg : w < 0
        · exact ⟨p.m_path_args, hfails hneg⟩
        · exact ⟨_, (hmatches (not_lt.mp hneg)).2⟩
      obtain ⟨args, rfl⟩ := hargs
      have hsame : rule_weight { p with m_path_args := args } = rule_weight p := funext (rule_weight_args p args)
      unfold choose_handler
      dsimp only
      rw [hw]
      split at h
      · rename_i h0
        simp only [Except.ok.injEq, Prod.mk.injEq] at h
        rw [if_pos h0, h.1]
      · rename_i h0
        rw [if_neg h0]
        split at h
        · rename_i hbetter
          rw [if_pos hbetter, ih _ _ _ h, hsame]
        · rename_i hbetter
          rw [if_neg hbetter, ih _ _ _ h, hsame]

/-! ## The winner -/

/-- The handler belongs to a rule of the least weight among those that match. Of several such rules it is the last, or
the first if they have no weight at all. -/
def Wins (path_match : Bytes → ℤ) (es : List (Bytes × H)) (h : H) : Prop :=
  ∃ before rule after, es = before ++ (rule, h) :: after ∧ 0 ≤ path_match rule ∧
    (∀ e ∈ es, 0 ≤ path_match e.1 → path_match rule ≤ path_match e.1) ∧
    (path_match rule ≠ 0 → ∀ e ∈ after, path_match e.1 ≠ path_match rule) ∧
    (path_match rule = 0 → ∀ e ∈ before, path_match e.1 ≠ 0)

/-- The winner among the rules that do not weigh more than `weight` -/
def WinsWithin (path_match : Bytes → ℤ) (weight : ℤ) (es : List (Bytes × H)) (r : Option H) : Prop :=
  ∃ before rule h after, es = before ++ (rule, h) :: after ∧ r = some h ∧ 0 ≤ path_match rule ∧
    path_match rule ≤ weight ∧
    (∀ e ∈ es, 0 ≤ path_match e.1 → path_match rule ≤ path_match e.1) ∧
    (path_match rule ≠ 0 → ∀ e ∈ after, path_match e.1 ≠ path_match rule) ∧
    (path_match rule = 0 → ∀ e ∈ before, path_match e.1 ≠ 0)

/-- No rule matches that does not weigh more than `weight`. -/
def NoneWithin (path_match : Bytes → ℤ) (weight : ℤ) (es : List (Bytes × H)) : Prop :=
  ∀ e ∈ es, 0 ≤ path_match e.1 → weight < path_match e.1

variable {path_match : Bytes → ℤ} {weight limit : ℤ} {e : Bytes × H} {es : List (Bytes × H)} {r : Option H}

theorem WinsWithin.cons (h : WinsWithin path_match weight es r) (hweight : weight ≤ limit)
    (he : 0 ≤ path_match e.1 → weight ≤ path_match e.1 ∧ path_match e.1 ≠ 0) :
    WinsWithin path_match limit (e :: es) r := by
  obtain ⟨before, rule, handler, after, rfl, hr, hpos, hle, hleast, hlast, hfirst⟩ := h
  refine ⟨e :: before, rule, handler, after, rfl, hr, hpos, hle.trans hweight, ?_, hlast, fun hzero => ?_⟩
  · exact List.forall_mem_cons.mpr ⟨fun h0 => hle.trans (he h0).1, hleast⟩
  · refine List.forall_mem_cons.mpr ⟨fun h0 => ?_, hfirst hzero⟩
    exact (he h0.ge).2 h0

theorem winsWithin_head (hpos : 0 < path_match e.1) (hle : path_match e.1 ≤ limit)
    (hnone : NoneWithin path_match (path_match e.1) es) : WinsWithin path_match limit (e :: es) (some e.2) := by
  refine ⟨[], e.1, e.2, es, rfl, rfl, hpos.le, hle, ?_, fun _ d hd heq => ?_, fun _ d hd => by cases hd⟩
  · exact List.forall_mem_cons.mpr ⟨fun _ => le_refl _, fun d hd h0 => (hnone d hd h0).le⟩
  · exact absurd (hnone d hd (by omega)) (by omega)

theorem winsWithin_zero (hzero : path_match e.1 = 0) (hlimit : 0 ≤ limit) :
    WinsWithin path_match limit (e :: es) (some e.2) := by
  refine ⟨[], e.1, e.2, es, rfl, rfl, hzero.ge, hzero.trans_le hlimit, ?_, fun hne => absurd hzero hne, ?_⟩
  · exact fun d _ h0 => hzero.trans_le h0
  · exact fun _ d hd => by cases hd

theorem choose_handler_spec (n : ℕ) (hn : 0 < n) (kept : Option H) (hweight : 0 < weight) :
    WinsWithin path_match weight es (choose_handler path_match n es kept weight) ∨
      NoneWithin path_match weight es ∧ choose_handler path_match n es kept weight = kept := by
  induction es generalizing kept weight with
  | nil => exact .inr ⟨fun e he => (by cases he), rfl⟩
  | cons e es ih =>
    unfold choose_handler
    dsimp only
    by_cases hzero : path_match e.1 = 0
    · rw [if_pos hzero]
      exact .inl (winsWithin_zero hzero hweight.le)
    · rw [if_neg hzero]
      by_cases hbetter : 0 < path_match e.1 ∧ (path_match e.1 < weight ∨ path_match e.1 = weight ∧ 0 < n)
      · rw [if_pos hbetter]
        have hle : path_match e.1 ≤ weight := by
          rcases hbetter.2 with hlt | ⟨heq, -⟩
          · exact hlt.le
          · exact heq.le
        left
        rcases ih (some e.2) hbetter.1 with hwins | ⟨hnone, hkept⟩
        · exact hwins.cons hle fun _ => ⟨le_refl _, hzero⟩
        · rw [hkept]
          exact winsWithin_head hbetter.1 hle hnone
      · rw [if_neg hbetter]
        have hmore : 0 ≤ path_match e.1 → weight < path_match e.1 := by
          intro h0
          by_contra hle
          exact hbetter ⟨by omega, by omega⟩
        rcases ih kept hweight with hwins | ⟨hnone, hkept⟩
        · exact .inl (hwins.cons (le_refl _) fun h0 => ⟨(hmore h0).le, hzero⟩)
        · exact .inr ⟨List.forall_mem_cons.mpr ⟨hmore, hnone⟩, hkept⟩

/-- **The choice of the handler.** For weights as `path_match` may give them, from -1 to the greatest value of an
`int32_t`, and a path that is not empty: there is no handler if and only if no rule matches, and a handler that is
chosen wins. -/
theorem chosen_handler_wins (path_match : Bytes → ℤ) (path : Bytes) (map : request_handler_map H)
    (hweight : ∀ rule, -1 ≤ path_match rule ∧ path_match rule ≤ int32_max) (hpath : path ≠ []) :
    (choose_handler path_match path.length map.entries none int32_max = none ↔
      ∀ e ∈ map.entries, path_match e.1 = -1) ∧
    ∀ h, choose_handler path_match path.length map.entries none int32_max = some h → Wins path_match map.entries h := by
  have hn : 0 < path.length := List.length_pos_iff.mpr hpath
  have hspec : WinsWithin path_match int32_max map.entries
      (choose_handler path_match path.length map.entries none int32_max) ∨ NoneWithin path_match int32_max map.entries ∧
        choose_handler path_match path.length map.entries none int32_max = none :=
    choose_handler_spec path.length hn none (by decide)
  rcases hspec with hwins | ⟨hnone, hkept⟩
  · obtain ⟨before, rule, handler, after, hsplit, hr, hpos, -, hwins⟩ := hwins
    rw [hr]
    constructor
    · refine iff_of_false (by simp) fun hall => ?_
      have hrule := hall (rule, handler) (by simp [hsplit])
      dsimp only at hrule
      omega
    · rintro h ⟨⟩
      exact ⟨before, rule, after, hsplit, hpos, hwins⟩
  · rw [hkept]
    constructor
    · refine iff_of_true rfl fun e he => ?_
      by_contra hne
      have := hweight e.1
      have := hnone e he (by omega)
      omega
    · intro h hh
      cases hh

theorem chosen_handler_wins_ties :
    let path_match := fun rule => if rule = ascii "/c" then 3 else 2
    let map : request_handler_map ℕ := ⟨[(ascii "/a", 1), (ascii "/b", 2), (ascii "/c", 3)], by decide⟩
    (choose_handler path_match (ascii "/x").length map.entries none int32_max = none ↔
      ∀ e ∈ map.entries, path_match e.1 = -1) ∧
    ∀ h, choose_handler path_match (ascii "/x").length map.entries none int32_max = some h →
      Wins path_match map.entries h :=
  chosen_handler_wins _ _ _ (fun rule => by split <;> decide) (by decide)

end Libgs.Server
