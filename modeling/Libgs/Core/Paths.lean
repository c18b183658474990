import Libgs.Core.Base
import Libgs.Core.Replace

/-!
# Absolute paths
-/

namespace Libgs.app

open Lib

/-- The path begins with a slash, or it is the home directory or something in it. -/
def is_absolute_path (str : Bytes) : Bool :=
  if ascii "/" <+: str then true
  else if ascii "~" <+: str then str.length = 1 ∨ str[1]? = some 47
  else false

/-- The path behind the directory it is relative to. Without `HOME` there is none for a path that begins with `~`. -/
def based (dir_path : Bytes) (HOME : Option Bytes) (str : Bytes) : Option Bytes :=
  if ¬ is_absolute_path str then
    some (dir_path ++ str)
  else if ascii "~" <+: str then
    HOME.map fun home => (if ascii "/" <:+ home then home.dropLast else home) ++ str.drop 1
  else
    some str

/-- The two replacements, each with its fuel -/
def shorten (fuel : ℕ) (result : Bytes) : Option Bytes :=
  (str_replace fuel result ⟨ascii "/./", ascii "/", false⟩).bind fun (result, _) =>
    (str_replace fuel result ⟨ascii "//", ascii "/", false⟩).map fun (result, _) => result

/-- The base in front of the path, and then the replacements -/
def absolute_path (fuel : ℕ) (dir_path : Bytes) (HOME : Option Bytes) (path : Bytes) : Option Bytes :=
  (based dir_path HOME path).bind (shorten fuel)

/-! ## The two passes -/

theorem edge_dot : AtTheEdge (⟨ascii "/./", ascii "/", false⟩ : str_replace_condition UInt8) := by
  refine ⟨by decide, fun x y h => ?_⟩
  match x, h with
  | [], _ => exact .inl rfl
  | [_], h => simp [ascii] at h
  | [_, _], h => exact .inr (by simp [ascii] at h; exact h.2.2)
  | _ :: _ :: _ :: _, h => simp [ascii] at h

theorem edge_slash : AtTheEdge (⟨ascii "//", ascii "/", false⟩ : str_replace_condition UInt8) := by
  refine ⟨by decide, fun x y h => ?_⟩
  match x, h with
  | [], _ => exact .inl rfl
  | [_], h => exact .inr (by simp [ascii] at h; exact h.2)
  | _ :: _ :: _, h => simp [ascii] at h

theorem no_dot_of_slashes (l r : Bytes) (h : ¬ ascii "/./" <:+: l ++ (ascii "//" ++ r)) :
    ¬ ascii "/./" <:+: l ++ (ascii "/" ++ r) := by
  induction l with
  | nil => exact fun hnew => h (hnew.trans (List.suffix_cons 47 (47 :: r)).isInfix)
  | cons x l ih =>
    rw [List.cons_append, List.infix_cons_iff, not_or] at h ⊢
    refine ⟨?_, ih h.2⟩
    intro hnew
    apply h.1
    match l, hnew with
    | [], hnew => simp [ascii] at hnew
    | [_], hnew => simpa [ascii] using hnew
    | _ :: _ :: _, hnew => simpa [ascii] using hnew

theorem head_of_slash (l r find : Bytes) (h : ascii "/" <+: l ++ (find ++ r)) :
    ascii "/" <+: l ++ (ascii "/" ++ r) := by
  cases l with
  | nil => exact List.prefix_append _ _
  | cons x l => simpa [ascii] using h

/-- The path begins with a slash, and nothing in it can be shortened. -/
structure Normalised (path : Bytes) : Prop where
  absolute : ascii "/" <+: path
  no_slashes : ¬ ascii "//" <:+: path
  no_dot : ¬ ascii "/./" <:+: path

theorem shorten_eq_some (fuel : ℕ) (str result : Bytes) :
    shorten fuel str = some result ↔
      ∃ between n m, str_replace fuel str ⟨ascii "/./", ascii "/", false⟩ = some (between, n) ∧
        str_replace fuel between ⟨ascii "//", ascii "/", false⟩ = some (result, m) := by
  simp [shorten, Option.bind_eq_some_iff, Option.map_eq_some_iff]

/-- **What begins with a slash is brought into that form.** The second pass undoes nothing of the first. -/
theorem shorten_normalises (str : Bytes) (h : ascii "/" <+: str) :
    ∃ fuel result, shorten fuel str = some result ∧ Normalised result := by
  obtain ⟨n, between, c, hfirst, hdot⟩ := clean_of_edge (by decide) (by decide) rfl edge_dot str
  obtain ⟨m, result, d, hsecond, hslashes⟩ := clean_of_edge (by decide) (by decide) rfl edge_slash between
  have hfirst' := str_replace_more str hfirst (Nat.le_max_left n m)
  have hsecond' := str_replace_more between hsecond (Nat.le_max_right n m)
  refine ⟨max n m, result, (shorten_eq_some _ _ _).mpr ⟨between, c, d, hfirst', hsecond'⟩, ?_, hslashes, ?_⟩
  · have hbetween := str_replace_keeps (by decide) (by decide) (fun l r => head_of_slash l r _) n str between c hfirst h
    exact str_replace_keeps (by decide) (by decide) (fun l r => head_of_slash l r _) m between result d hsecond hbetween
  · exact str_replace_keeps (by decide) (by decide) (I := fun s => ¬ ascii "/./" <:+: s) no_dot_of_slashes m between
      result d hsecond hdot

theorem shorten_stays (str : Bytes) (hdot : ¬ ascii "/./" <:+: str) (hslashes : ¬ ascii "//" <:+: str) (n : ℕ) :
    shorten (n + 1) str = some str :=
  (shorten_eq_some _ _ _).mpr ⟨str, 0, 0, str_replace_not_infix (by decide) str hdot n,
    str_replace_not_infix (by decide) str hslashes n⟩

theorem shorten_unique {str a b : Bytes} {n m : ℕ} (ha : shorten n str = some a) (hb : shorten m str = some b) :
    a = b := by
  obtain ⟨s, c, d, hfirst, hsecond⟩ := (shorten_eq_some _ _ _).mp ha
  obtain ⟨t, c', d', hfirst', hsecond'⟩ := (shorten_eq_some _ _ _).mp hb
  obtain ⟨rfl, -⟩ := Prod.mk.inj (str_replace_unique str hfirst hfirst')
  exact (Prod.mk.inj (str_replace_unique s hsecond hsecond')).1

/-! ## The base -/

theorem is_absolute_of_slash (path : Bytes) (h : ascii "/" <+: path) : is_absolute_path path = true := by
  simp [is_absolute_path, h]

theorem based_of_slash (dir_path : Bytes) (HOME : Option Bytes) (path : Bytes) (h : ascii "/" <+: path) :
    based dir_path HOME path = some path := by
  have htilde : ¬ ascii "~" <+: path := by
    intro ht
    obtain ⟨t, rfl⟩ := h
    simp [ascii] at ht
  simp [based, is_absolute_of_slash path h, htilde]

theorem home_begins (home : Bytes) (hhome : ascii "/" <+: home) (hroot : home ≠ ascii "/") :
    ascii "/" <+: if ascii "/" <:+ home then home.dropLast else home := by
  split
  · match home, hhome, hroot with
    | [c], hhome, hroot => exact absurd (by simpa [ascii, eq_comm] using hhome) hroot
    | c :: d :: home, hhome, _ => simpa [ascii] using hhome
  · exact hhome

theorem is_absolute_of_tilde (path : Bytes) (htilde : ascii "~" <+: path) (habs : is_absolute_path path = true) :
    path = ascii "~" ∨ ascii "/" <+: path.drop 1 := by
  obtain ⟨rest, rfl⟩ := htilde
  cases rest with
  | nil => exact .inl rfl
  | cons c rest =>
    right
    simpa [is_absolute_path, ascii, eq_comm] using habs

theorem based_eq_some (dir_path home path : Bytes) (hdir : ascii "/" <+: dir_path) (hhome : ascii "/" <+: home) :
    ∃ base, based dir_path (some home) path = some base ∧
      if path = ascii "~" ∧ home = ascii "/" then base = [] else ascii "/" <+: base := by
  by_cases habs : is_absolute_path path
  · by_cases htilde : ascii "~" <+: path
    · refine ⟨_, by rw [based, if_neg (not_not.mpr habs), if_pos htilde, Option.map_some], ?_⟩
      by_cases hroot : home = ascii "/"
      · rcases is_absolute_of_tilde path htilde habs with rfl | hslash
        · simp [hroot, ascii]
        · rw [if_neg]
          · rw [hroot]
            exact hslash
          · rintro ⟨rfl, -⟩
            exact absurd hslash (by decide)
      · rw [if_neg fun h => hroot h.2]
        exact (home_begins home hhome hroot).trans (List.prefix_append _ _)
    · have hslash : ascii "/" <+: path := by
        unfold is_absolute_path at habs
        rw [if_neg htilde] at habs
        by_contra hno
        simp [hno] at habs
      refine ⟨path, based_of_slash dir_path _ path hslash, ?_⟩
      rw [if_neg]
      · exact hslash
      · rintro ⟨rfl, -⟩
        exact htilde (List.prefix_refl _)
  · refine ⟨dir_path ++ path, by rw [based, if_pos habs], ?_⟩
    rw [if_neg]
    · exact hdir.trans (List.prefix_append _ _)
    · rintro ⟨rfl, -⟩
      exact habs (by decide)

/-! ## The whole -/

/-- `absolute_path` gives a normalised path, which it gives again for that path. -/
def YieldsNormalised (dir_path home path : Bytes) : Prop :=
  ∃ fuel result, absolute_path fuel dir_path (some home) path = some result ∧ Normalised result ∧
    ∃ again, absolute_path again dir_path (some home) result = some result

theorem absolute_of_normalised (dir_path : Bytes) (HOME : Option Bytes) (path : Bytes) (h : Normalised path) (n : ℕ) :
    absolute_path (n + 1) dir_path HOME path = some path := by
  rw [absolute_path, based_of_slash dir_path HOME path h.absolute]
  exact shorten_stays path h.no_dot h.no_slashes n

/-- **When the result is a normalised absolute path**: always, but for `~` where the home directory is the root. There
it is empty. -/
theorem yields_normalised_iff (dir_path home path : Bytes) (hdir : ascii "/" <+: dir_path)
    (hhome : ascii "/" <+: home) :
    YieldsNormalised dir_path home path ↔ ¬ (path = ascii "~" ∧ home = ascii "/") := by
  obtain ⟨base, hbase, hbegin⟩ := based_eq_some dir_path home path hdir hhome
  constructor
  · rintro ⟨n, result, hresult, hnormal, -⟩ hroot
    rw [if_pos hroot] at hbegin
    rw [absolute_path, hbase, hbegin] at hresult
    have hempty := shorten_stays [] (by decide) (by decide) 0
    obtain rfl := shorten_unique hresult hempty
    exact absurd hnormal.absolute (by decide)
  · intro hroot
    rw [if_neg hroot] at hbegin
    obtain ⟨n, result, hresult, hnormal⟩ := shorten_normalises base hbegin
    refine ⟨n, result, ?_, hnormal, 1, absolute_of_normalised dir_path (some home) result hnormal 0⟩
    rw [absolute_path, hbase]
    exact hresult

theorem yields_normalised_home :
    YieldsNormalised (ascii "/opt/app/") (ascii "/home/user/") (ascii "~/.//a/././b") :=
  (yields_normalised_iff _ _ _ (by decide) (by decide)).mpr (by decide)

/-- `~` where the home directory is the root gives the empty path. -/
theorem not_normalised_root : ¬ YieldsNormalised (ascii "/opt/app/") (ascii "/") (ascii "~") := by
  rintro ⟨n, result, hresult, hnormal, -⟩
  have hempty : shorten 1 [] = some [] := by decide
  obtain rfl := shorten_unique hresult hempty
  exact absurd hnormal.absolute (by decide)

end Libgs.app
