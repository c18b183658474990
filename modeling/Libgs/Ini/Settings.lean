import Libgs.Core.Value
import Libgs.Ini.MapOfMaps
import Libgs.Ini.RoundTrip

/-!
# Settings

`write`, `read` and `read_or` of `core/detail/ini.h` for the integral types, by way of a file.
-/

namespace Libgs.basic_ini

open Lib arithmetic

/-- What `write` is given -/
structure setting where
  group : Bytes
  key : Bytes
  type : integral
  value : type.value

/-- The setting goes into the store. -/
def write_setting (p : impl) (s : setting) : impl := write p s.group s.key (arithmetic.set s.value)

/-- The value under the key, read as an integer of the type -/
def read_as (T : integral) (p : impl) (group key : Bytes) : Except exception ℤ :=
  match read p group key with
  | .error e => .error e
  | .ok v => arithmetic.get T v 10

/-- An exception out of it ends the program. The default is read from its text as well. -/
def read_or_as (T : integral) (p : impl) (group key : Bytes) (def_value : T.value) : Except exception ℤ :=
  arithmetic.get T (read_or p group key (arithmetic.set def_value)) 10

/-! ## What can be saved -/

/-- Every text of a store that comes back -/
def Saved (p : impl) : Prop := Named p.m_groups ∧ Plain p.m_groups

/-- A place that can be saved, for an integer that has a number or a truth value -/
structure Savable (s : setting) : Prop where
  group : s.group ≠ [] ∧ plain_name s.group = true
  key : s.key ≠ [] ∧ plain_key s.key = true
  formats : s.type.Formats
  no_char : s.type ≠ .char

theorem plain_of_chars (text : Bytes) (h : ∀ c ∈ text, c ≠ 0x0A ∧ c ≠ 0x23 ∧ c ≠ 0x3B ∧ c ≠ 0x25) :
    plain text = true := by
  have hno : ∀ b : UInt8, b = 0x0A ∨ b = 0x23 ∨ b = 0x3B ∨ b = 0x25 → b ∉ text := by
    rintro b hb hmem
    obtain ⟨hbreak, hsharp, hsemicolon, hpercent⟩ := h b hmem
    rcases hb with hb | hb | hb | hb
    · exact hbreak hb
    · exact hsharp hb
    · exact hsemicolon hb
    · exact hpercent hb
  unfold plain
  refine decide_eq_true ⟨hno _ (.inl rfl), hno _ (.inr (.inl rfl)), hno _ (.inr (.inr (.inl rfl))), ?_⟩
  unfold undecoded
  exact decide_eq_true fun hmem => hno _ (.inr (.inr (.inr rfl))) (List.mem_of_mem_take hmem)

theorem decimal_text_chars (x : ℤ) : ∀ c ∈ decimal_text x, c = 45 ∨ isDigit 10 c = true := by
  intro c hc
  rcases List.mem_append.mp hc with hc | hc
  · split at hc
    · exact .inl (List.mem_singleton.mp hc)
    · cases hc
  · exact .inr (List.all_eq_true.mp (decimal_digits x.natAbs).2.1 c hc)

theorem decimal_text_plain (x : ℤ) : decimal_text x ≠ [] ∧ plain_value (decimal_text x) = true := by
  have hplain : ∀ c ∈ decimal_text x, (c ≠ 0x0A ∧ c ≠ 0x23 ∧ c ≠ 0x3B ∧ c ≠ 0x25) ∧ c ≠ 0x2B := by
    intro c hc
    rcases decimal_text_chars x c hc with rfl | hdigit
    · decide
    · exact byte_forall (p := fun c => isDigit 10 c = true →
        (c ≠ 0x0A ∧ c ≠ 0x23 ∧ c ≠ 0x3B ∧ c ≠ 0x25) ∧ c ≠ 0x2B) (by decide +kernel) c hdigit
  refine ⟨fun hnil => (decimal_digits x.natAbs).1 (List.append_eq_nil_iff.mp hnil).2, ?_⟩
  unfold plain_value
  refine decide_eq_true ⟨plain_of_chars _ fun c hc => (hplain c hc).1, fun hplus => ?_⟩
  exact (hplain _ (List.mem_of_head? hplus.2)).2 rfl

theorem Savable.text {s : setting} (h : Savable s) :
    arithmetic.set s.value ≠ [] ∧ plain_value (arithmetic.set s.value) = true := by
  obtain ⟨group, key, T, value⟩ := s
  have hformats := h.formats
  have hchar := h.no_char
  cases T with
  | bool =>
    have htext : arithmetic.set value = if value.val = 0 then ascii "false" else ascii "true" := rfl
    dsimp only
    rw [htext]
    split <;> decide +kernel
  | char => exact absurd rfl hchar
  | wchar_t => exact absurd rfl hformats.1
  | char8_t => exact absurd rfl hformats.2.1
  | char16_t => exact absurd rfl hformats.2.2.1
  | char32_t => exact absurd rfl hformats.2.2.2
  | _ => exact decimal_text_plain value.val

theorem write_setting_saved (p : impl) (s : setting) (h : Savable s) (hp : Saved p) : Saved (write_setting p s) := by
  obtain ⟨hne, hplain⟩ := h.text
  constructor
  · refine OrderedMap.forall_alter _ _ _ hp.1 ⟨h.group.1, ?_⟩ fun b _ hb => ⟨hb.1, ?_⟩
    · exact OrderedMap.forall_alter _ _ _ nofun ⟨h.key.1, hne⟩ fun k _ hk => ⟨hk.1, hne⟩
    · exact OrderedMap.forall_alter _ _ _ hb.2 ⟨h.key.1, hne⟩ fun k _ hk => ⟨hk.1, hne⟩
  · refine OrderedMap.forall_alter _ _ _ hp.2 ⟨h.group.2, ?_⟩ fun b _ hb => ⟨hb.1, ?_⟩
    · exact OrderedMap.forall_alter _ _ _ nofun ⟨h.key.2, hplain⟩ fun k _ hk => ⟨hk.1, hplain⟩
    · exact OrderedMap.forall_alter _ _ _ hb.2 ⟨h.key.2, hplain⟩ fun k _ hk => ⟨hk.1, hplain⟩

/-! ## Runs of writes -/

theorem run_saved (p : impl) (ss : List setting) (h : ∀ s ∈ ss, Savable s) (hp : Saved p) :
    Saved (run write_setting p ss) := by
  have hall : Guarded write_setting (fun _ s => Savable s) p ss := fun done s more hsplit => h s (by simp [hsplit])
  exact (throughout_of_inv (fun p s hp hs => write_setting_saved p s hs hp) p ss hp hall).last

theorem entry_write (p : impl) (s : setting) (group key : Bytes) :
    (abs (write_setting p s)).entry group key =
      if group = s.group ∧ key = s.key then some (arithmetic.set s.value) else (abs p).entry group key := by
  have hstate : abs (write_setting p s) = (abs p).after (.write s.group s.key (arithmetic.set s.value)) :=
    step_state p (.write s.group s.key (arithmetic.set s.value))
  rw [hstate, entry_after]
  unfold effect keys_effect
  by_cases hgroup : group = s.group <;> by_cases hkey : key = s.key <;> simp [hgroup, hkey]

theorem entry_run_writes (p : impl) (ss : List setting) (group key : Bytes)
    (h : ∀ s ∈ ss, ¬ (s.group = group ∧ s.key = key)) :
    (abs (run write_setting p ss)).entry group key = (abs p).entry group key := by
  induction ss generalizing p with
  | nil => rfl
  | cons s ss ih =>
    obtain ⟨hs, hss⟩ := List.forall_mem_cons.mp h
    rw [run_cons, ih _ hss, entry_write, if_neg fun hboth => hs ⟨hboth.1.symm, hboth.2.symm⟩]

theorem read_or_entry (p : impl) (group key def_value : Bytes) :
    read_or p group key def_value = ((abs p).entry group key).getD def_value := by
  unfold read_or map_of_maps.entry abs
  cases p.m_groups.find group with
  | none => rfl
  | some keys =>
    show basic_ini_keys.read_or keys key def_value = (keys.find key).getD def_value
    unfold basic_ini_keys.read_or
    cases keys.find key <;> rfl

theorem read_entry (p : impl) (group key v : Bytes) (h : (abs p).entry group key = some v) :
    read p group key = .ok v := by
  unfold map_of_maps.entry abs at h
  unfold read
  cases hgroup : p.m_groups.find group with
  | none => simp [hgroup] at h
  | some keys =>
    have hkey : keys.find key = some v := by simpa [hgroup, abs_keys] using h
    simp only [basic_ini_keys.read, hkey]

theorem entry_last_write (p : impl) (front back : List setting) (s : setting)
    (h : ∀ u ∈ back, ¬ (u.group = s.group ∧ u.key = s.key)) :
    (abs (run write_setting p (front ++ s :: back))).entry s.group s.key = some (arithmetic.set s.value) := by
  rw [run_append, run_cons, entry_run_writes _ back s.group s.key h, entry_write, if_pos ⟨rfl, rfl⟩]

/-! ## By way of a file -/

/-- **Settings survive.** Integers of any types are written to a store that comes back. It is saved and loaded into a
fresh one, without an error, and that is the store that was saved. There, the last integer that was written to a place
is read as another type as a cast would make it exactly if it is read back; a place that was not written has what it
had; and one that is not there gives the default, but for the types `char` and `signed char`. -/
theorem settings_survive (p : impl) (ss : List setting) (hp : Saved p) (hss : ∀ s ∈ ss, Savable s) :
    let r := reload (run write_setting p ss).m_groups
    r = ⟨run write_setting p ss, .ok none⟩ ∧
      (∀ front s back T, ss = front ++ s :: back → (∀ u ∈ back, ¬ (u.group = s.group ∧ u.key = s.key)) →
        (read_as T r.obj s.group s.key = .ok (T.cast s.value) ↔ ReadsBack s.type T s.value) ∧
          ∀ d, read_or_as T r.obj s.group s.key d = .ok (T.cast s.value) ↔ ReadsBack s.type T s.value) ∧
      ∀ group key, (∀ s ∈ ss, ¬ (s.group = group ∧ s.key = key)) →
        (∀ d, read_or r.obj group key d = read_or p group key d) ∧
          ((abs p).entry group key = none → ∀ T (d : T.value), T.Formats →
            (read_or_as T r.obj group key d = .ok d.val ↔ T ≠ .char ∧ T ≠ .signed_char)) := by
  obtain ⟨hnamed, hplain⟩ := run_saved p ss hss hp
  have hreload : reload (run write_setting p ss).m_groups = ⟨run write_setting p ss, .ok none⟩ :=
    reload_of_plain _ hnamed hplain
  dsimp only
  rw [hreload]
  refine ⟨rfl, fun front s back T hsplit hlast => ?_, fun group key hnone => ?_⟩
  · have hentry := entry_last_write p front back s hlast
    rw [← hsplit] at hentry
    have hback := get_set_iff s.type T (hss s (by simp [hsplit])).formats s.value
    constructor
    · unfold read_as
      rw [read_entry _ _ _ _ hentry]
      exact hback
    · intro d
      unfold read_or_as
      rw [read_or_entry, hentry]
      exact hback
  · have hentry := entry_run_writes p ss group key hnone
    refine ⟨fun d => by rw [read_or_entry, read_or_entry, hentry], fun hmissing T d hT => ?_⟩
    have hself := get_set_iff T T hT d
    rw [integral.cast_value, reads_back_self T hT d] at hself
    unfold read_or_as
    rw [read_or_entry, hentry, hmissing]
    exact hself

def netSettings : List setting :=
  [⟨ascii "net", ascii "port", .unsigned_short, ⟨8080, by decide⟩⟩, ⟨ascii "net", ascii "shift", .int, ⟨-5, by decide⟩⟩,
    ⟨ascii "net", ascii "port", .unsigned_short, ⟨9090, by decide⟩⟩, ⟨ascii "log", ascii "on", .bool, ⟨1, by decide⟩⟩]

theorem net_savable : ∀ s ∈ netSettings, Savable s := by
  intro s hs
  simp only [netSettings, List.mem_cons, List.not_mem_nil, or_false] at hs
  rcases hs with rfl | rfl | rfl | rfl <;>
    exact ⟨⟨by decide, by decide +kernel⟩, ⟨by decide, by decide +kernel⟩, by decide, by decide⟩

theorem settings_survive_net :
    let r := reload (run write_setting ⟨net⟩ netSettings).m_groups
    r = ⟨run write_setting ⟨net⟩ netSettings, .ok none⟩ ∧
      (∀ front s back T, netSettings = front ++ s :: back → (∀ u ∈ back, ¬ (u.group = s.group ∧ u.key = s.key)) →
        (read_as T r.obj s.group s.key = .ok (T.cast s.value) ↔ ReadsBack s.type T s.value) ∧
          ∀ d, read_or_as T r.obj s.group s.key d = .ok (T.cast s.value) ↔ ReadsBack s.type T s.value) ∧
      ∀ group key, (∀ s ∈ netSettings, ¬ (s.group = group ∧ s.key = key)) →
        (∀ d, read_or r.obj group key d = read_or ⟨net⟩ group key d) ∧
          ((abs ⟨net⟩).entry group key = none → ∀ T (d : T.value), T.Formats →
            (read_or_as T r.obj group key d = .ok d.val ↔ T ≠ .char ∧ T ≠ .signed_char)) :=
  settings_survive ⟨net⟩ netSettings ⟨by decide +kernel, by decide +kernel⟩ net_savable

end Libgs.basic_ini
