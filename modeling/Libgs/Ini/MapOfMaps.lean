import Libgs.Ini.Store
import Libgs.Lib.Run
import Mathlib.Logic.Function.Basic

/-!
# The INI store as a map of maps

The calls that read and write a `basic_ini<char>` and its `basic_ini_keys<char>`, of `core/detail/ini.h`, for values
that are read as they are. They behave as on a map from groups to maps from keys to values, but for the ones that go
through `group`.
-/

namespace Libgs

open Lib

/-- How a call ends. `K` is what stands for the keys of a group. `terminated` is an exception out of a function that
is `noexcept`, and `undefined` is what C++ gives no meaning. -/
inductive answer (K : Type)
  | done
  | value (v : Bytes)
  | keys (m : K)
  | found (m : Option K)
  | found_key (v : Option Bytes)
  | threw (e : exception)
  | terminated
  | undefined

def answer.map {K L : Type} (f : K → L) : answer K → answer L
  | .done => .done
  | .value v => .value v
  | .keys m => .keys (f m)
  | .found m => .found (m.map f)
  | .found_key v => .found_key v
  | .threw e => .threw e
  | .terminated => .terminated
  | .undefined => .undefined

def answer.of_value {K : Type} : Except exception Bytes → answer K
  | .ok v => .value v
  | .error e => .threw e

/-! ## The keys of a group -/

namespace basic_ini_keys

open basic_ini

def not_exists (key : Bytes) : exception :=
  .runtime_error (ascii "libgs::basic_ini_keys: read: The key '" ++ (key ++ ascii "' is not exists."))

def read_or (m_keys : ini_keys_t) (key def_value : Bytes) : Bytes :=
  match m_keys.find key with
  | none => def_value
  | some v => v

def read (m_keys : ini_keys_t) (key : Bytes) : Except exception Bytes :=
  match m_keys.find key with
  | none => .error (not_exists key)
  | some v => .ok v

/-- `m_keys[key] = value` -/
def write (m_keys : ini_keys_t) (key value : Bytes) : ini_keys_t := m_keys.assign key value

/-- `m_keys[key]`, which puts in the key that is missing. -/
def index (m_keys : ini_keys_t) (key : Bytes) : ini_keys_t × Bytes :=
  (m_keys.emplace key [], (m_keys.find key).getD [])

/-- `assign` is an assignment to what `operator[]` gives. -/
inductive call
  | read (key : Bytes)
  | read_or (key def_value : Bytes)
  | write (key value : Bytes)
  | index (key : Bytes)
  | assign (key value : Bytes)
  | find (key : Bytes)
  | clear
  deriving DecidableEq

def step (m_keys : ini_keys_t) : call → ini_keys_t × answer ini_keys_t
  | .read key => (m_keys, .of_value (read m_keys key))
  | .read_or key def_value => (m_keys, .value (read_or m_keys key def_value))
  | .write key value => (write m_keys key value, .done)
  | .index key => ((index m_keys key).1, .value (index m_keys key).2)
  | .assign key value => ((index m_keys key).1.assign key value, .done)
  | .find key => (m_keys, .found_key (m_keys.find key))
  | .clear => (.empty, .done)

end basic_ini_keys

/-! ## The groups -/

namespace basic_ini

def path_invalid (func path : Bytes) : exception :=
  .runtime_error (ascii "libgs::basic_ini: " ++ (func ++ (ascii ": The path '" ++ (path ++ ascii "' is invalid."))))

def read_group_not_exists (group : Bytes) : exception :=
  .runtime_error (ascii "libgs::basic_ini: read: The group '" ++ (group ++ ascii "' is not exists."))

def group_not_exists (group : Bytes) : exception :=
  .runtime_error (ascii "basic_ini: group: The group '" ++ (group ++ ascii "' is not exists."))

/-- A path has two parts, the group and the key. -/
def from_path (path func : Bytes) : Except exception (Bytes × Bytes) :=
  match from_string path (ascii "/") with
  | [group, key] => .ok (group, key)
  | _ => .error (path_invalid func path)

def read (p : impl) (group key : Bytes) : Except exception Bytes :=
  match p.m_groups.find group with
  | none => .error (read_group_not_exists group)
  | some keys => basic_ini_keys.read keys key

def read_or (p : impl) (group key def_value : Bytes) : Bytes :=
  match p.m_groups.find group with
  | none => def_value
  | some keys => basic_ini_keys.read_or keys key def_value

/-- A call on `m_groups[group]`, which puts in the group that is missing. -/
def in_group (p : impl) (group : Bytes) (c : basic_ini_keys.call) : impl × answer ini_keys_t :=
  (⟨p.m_groups.alter group fun keys => (basic_ini_keys.step (keys.getD .empty) c).1⟩,
    (basic_ini_keys.step ((p.m_groups.find group).getD .empty) c).2)

def write (p : impl) (group key value : Bytes) : impl := (in_group p group (.write key value)).1

/-- The condition is the wrong way round: a group that is there throws, and the end is dereferenced for one that is
not. -/
def group (p : impl) (name : Bytes) : answer ini_keys_t :=
  match p.m_groups.find name with
  | some _ => .threw (group_not_exists name)
  | none => .undefined

/-- The `operator[]` of a `const` store, on what `group` gives -/
def const_index (p : impl) (group_ key : Bytes) : answer ini_keys_t :=
  match group p group_ with
  | .keys keys => .of_value (basic_ini_keys.read keys key)
  | a => a

/-- `index` is an `operator[]`, and `const_index` that of a `const` store. `in_group` is a call on what `operator[]`
gives for a group. -/
inductive call
  | read (group key : Bytes)
  | read_path (path : Bytes)
  | read_or (group key def_value : Bytes)
  | read_or_path (path def_value : Bytes)
  | write (group key value : Bytes)
  | write_path (path value : Bytes)
  | group (name : Bytes)
  | const_index_group (name : Bytes)
  | const_index (group key : Bytes)
  | index_group (name : Bytes)
  | index (group key : Bytes)
  | in_group (name : Bytes) (c : basic_ini_keys.call)
  | find (name : Bytes)
  | clear
  deriving DecidableEq

def step (p : impl) : call → impl × answer ini_keys_t
  | .read group key => (p, .of_value (read p group key))
  | .read_path path =>
    match from_path path (ascii "read") with
    | .error e => (p, .threw e)
    | .ok (group, key) => (p, .of_value (read p group key))
  | .read_or group key def_value => (p, .value (read_or p group key def_value))
  | .read_or_path path def_value =>
    match from_path path (ascii "read_or") with
    | .error e => (p, .threw e)
    | .ok (group, key) => (p, .value (read_or p group key def_value))
  | .write group key value => (write p group key value, .done)
  | .write_path path value =>
    match from_path path (ascii "write") with
    | .error _ => (p, .terminated)
    | .ok (group, key) => (write p group key value, .done)
  | .group name => (p, group p name)
  | .const_index_group name => (p, group p name)
  | .const_index group key => (p, const_index p group key)
  | .index_group name => (p.create name, .keys ((p.m_groups.find name).getD .empty))
  | .index group key => in_group p group (.index key)
  | .in_group name c => in_group p name c
  | .find name => (p, .found (p.m_groups.find name))
  | .clear => (⟨.empty⟩, .done)

/-! ## The map of maps -/

/-- The values of a group, by their keys -/
abbrev key_map := Bytes → Option Bytes

/-- The groups, by their names -/
abbrev map_of_maps := Bytes → Option key_map

namespace map_of_maps

def no_keys : key_map := fun _ => none

/-- The values behind a call on the group -/
def keys_after (m : key_map) : basic_ini_keys.call → key_map
  | .write key value | .assign key value => Function.update m key (some value)
  | .index key => Function.update m key (some ((m key).getD []))
  | .clear => no_keys
  | .read _ | .read_or _ _ | .find _ => m

/-- The answer of a call on the group -/
def keys_answer (m : key_map) : basic_ini_keys.call → answer key_map
  | .read key => .of_value ((m key).elim (.error (basic_ini_keys.not_exists key)) .ok)
  | .read_or key def_value => .value ((m key).getD def_value)
  | .index key => .value ((m key).getD [])
  | .find key => .found_key (m key)
  | .write _ _ | .assign _ _ | .clear => .done

/-- The keys of a group; those of a missing group are none. -/
def keys_of (m : map_of_maps) (group : Bytes) : key_map := (m group).getD no_keys

/-- A call on a group, which is made where it is not there -/
def update_group (m : map_of_maps) (group : Bytes) (c : basic_ini_keys.call) : map_of_maps :=
  Function.update m group (some (keys_after (m.keys_of group) c))

/-- The groups behind a call -/
def after (m : map_of_maps) : call → map_of_maps
  | .write group key value => m.update_group group (.write key value)
  | .write_path path value =>
    match from_path path (ascii "write") with
    | .error _ => m
    | .ok (group, key) => m.update_group group (.write key value)
  | .index_group name => Function.update m name (some (m.keys_of name))
  | .index group key => m.update_group group (.index key)
  | .in_group name c => m.update_group name c
  | .clear => fun _ => none
  | _ => m

def read (m : map_of_maps) (group key : Bytes) : answer key_map :=
  match m group with
  | none => .threw (read_group_not_exists group)
  | some keys => keys_answer keys (.read key)

def read_or (m : map_of_maps) (group key def_value : Bytes) : answer key_map :=
  .value (((m group).bind fun keys => keys key).getD def_value)

/-- The group that is there, with an exception for one that is not. -/
def group (m : map_of_maps) (name : Bytes) : answer key_map := (m name).elim (.threw (group_not_exists name)) .keys

def const_index (m : map_of_maps) (group_ key : Bytes) : answer key_map :=
  match m group_ with
  | none => .threw (group_not_exists group_)
  | some keys => keys_answer keys (.read key)

/-- The answer of a call -/
def answer_of (m : map_of_maps) : call → answer key_map
  | .read group key => m.read group key
  | .read_path path =>
    match from_path path (ascii "read") with
    | .error e => .threw e
    | .ok (group, key) => m.read group key
  | .read_or group key def_value => m.read_or group key def_value
  | .read_or_path path def_value =>
    match from_path path (ascii "read_or") with
    | .error e => .threw e
    | .ok (group, key) => m.read_or group key def_value
  | .write _ _ _ => .done
  | .write_path path _ =>
    match from_path path (ascii "write") with
    | .error _ => .terminated
    | .ok _ => .done
  | .group name | .const_index_group name => m.group name
  | .const_index group key => m.const_index group key
  | .index_group name => .keys (m.keys_of name)
  | .index group key => keys_answer (m.keys_of group) (.index key)
  | .in_group name c => keys_answer (m.keys_of name) c
  | .find name => .found (m name)
  | .clear => .done

/-! ## The entry of a key -/

def entry (m : map_of_maps) (group key : Bytes) : Option Bytes := (m group).bind fun keys => keys key

theorem entry_eq (m : map_of_maps) (group key : Bytes) : m.entry group key = m.keys_of group key := by
  unfold entry keys_of
  cases m group <;> rfl

end map_of_maps

/-- What a call on the keys leaves of the value of a key. -/
def keys_effect (key : Bytes) (value : Option Bytes) : basic_ini_keys.call → Option Bytes
  | .write k v | .assign k v => if key = k then some v else value
  | .index k => if key = k then some (value.getD []) else value
  | .clear => none
  | .read _ | .read_or _ _ | .find _ => value

/-- What a call leaves of the entry of a key. Only a call that names the entry, or clears what it is in, changes it. -/
def effect (group key : Bytes) (value : Option Bytes) : call → Option Bytes
  | .write g k v => if group = g then keys_effect key value (.write k v) else value
  | .write_path path v =>
    match from_path path (ascii "write") with
    | .error _ => value
    | .ok (g, k) => if group = g then keys_effect key value (.write k v) else value
  | .index g k => if group = g then keys_effect key value (.index k) else value
  | .in_group g c => if group = g then keys_effect key value c else value
  | .clear => none
  | _ => value

theorem keys_after_effect (m : key_map) (key : Bytes) (c : basic_ini_keys.call) :
    map_of_maps.keys_after m c key = keys_effect key (m key) c := by
  cases c with
  | write k v => exact Function.update_apply m k (some v) key
  | assign k v => exact Function.update_apply m k (some v) key
  | index k =>
    rw [map_of_maps.keys_after, Function.update_apply, keys_effect]
    split
    · rename_i h
      rw [h]
    · rfl
  | clear => rfl
  | read k => rfl
  | read_or k d => rfl
  | find k => rfl

theorem entry_update_group (m : map_of_maps) (g group key : Bytes) (c : basic_ini_keys.call) :
    (m.update_group g c).entry group key =
      if group = g then keys_effect key (m.entry group key) c else m.entry group key := by
  unfold map_of_maps.update_group
  split
  · rename_i h
    rw [h, map_of_maps.entry, Function.update_self, map_of_maps.entry_eq]
    exact keys_after_effect _ key c
  · rename_i h
    rw [map_of_maps.entry, Function.update_of_ne h, map_of_maps.entry]

/-- **One call, one entry.** -/
theorem entry_after (m : map_of_maps) (group key : Bytes) (c : call) :
    (m.after c).entry group key = effect group key (m.entry group key) c := by
  cases c with
  | write g k v => exact entry_update_group m g group key _
  | write_path path v =>
    simp only [map_of_maps.after, effect]
    cases from_path path (ascii "write") with
    | error e => rfl
    | ok gk => exact entry_update_group m gk.1 group key _
  | index g k => exact entry_update_group m g group key _
  | in_group g c => exact entry_update_group m g group key c
  | index_group g =>
    simp only [map_of_maps.after, effect, map_of_maps.entry, Function.update_apply]
    split
    · rename_i h
      rw [h]
      exact (map_of_maps.entry_eq m g key).symm
    · rfl
  | clear => rfl
  | read _ _ => rfl
  | read_path _ => rfl
  | read_or _ _ _ => rfl
  | read_or_path _ _ => rfl
  | group _ => rfl
  | const_index_group _ => rfl
  | const_index _ _ => rfl
  | find _ => rfl

/-! ## The refinement -/

/-- What a group stands for -/
def abs_keys (keys : ini_keys_t) : key_map := keys.find

/-- What the store stands for -/
def abs (p : impl) : map_of_maps := fun group => (p.m_groups.find group).map abs_keys

/-- The call asks for a group that should be there. -/
def call.looks_up_group : call → Bool
  | .group _ | .const_index_group _ | .const_index _ _ => true
  | _ => false

theorem abs_keys_getD (keys : Option ini_keys_t) :
    abs_keys (keys.getD .empty) = (keys.map abs_keys).getD map_of_maps.no_keys := by
  cases keys <;> rfl

theorem read_keys (keys : ini_keys_t) (key : Bytes) :
    (answer.of_value (basic_ini_keys.read keys key) : answer key_map) =
      map_of_maps.keys_answer (abs_keys keys) (.read key) := by
  simp only [basic_ini_keys.read, map_of_maps.keys_answer, abs_keys]
  cases keys.find key <;> rfl

theorem map_of_value {K L : Type} (f : K → L) (v : Except exception Bytes) :
    (answer.of_value v).map f = answer.of_value v := by
  cases v <;> rfl

theorem keys_step_refines (keys : ini_keys_t) (c : basic_ini_keys.call) :
    abs_keys (basic_ini_keys.step keys c).1 = map_of_maps.keys_after (abs_keys keys) c ∧
      (basic_ini_keys.step keys c).2.map abs_keys = map_of_maps.keys_answer (abs_keys keys) c := by
  cases c with
  | read key => exact ⟨rfl, by rw [← read_keys, basic_ini_keys.step, map_of_value]⟩
  | read_or key d =>
    refine ⟨rfl, ?_⟩
    simp only [basic_ini_keys.step, basic_ini_keys.read_or, map_of_maps.keys_answer, abs_keys]
    cases keys.find key <;> rfl
  | write key v => exact ⟨OrderedMap.find_alter string_rank_injective _ _ _, rfl⟩
  | index key => exact ⟨OrderedMap.find_alter string_rank_injective _ _ _, rfl⟩
  | assign key v =>
    refine ⟨?_, rfl⟩
    simp only [basic_ini_keys.step, basic_ini_keys.index, map_of_maps.keys_after, abs_keys]
    rw [OrderedMap.assign, OrderedMap.find_alter string_rank_injective, OrderedMap.emplace,
      OrderedMap.find_alter string_rank_injective, Function.update_idem]
  | find key => exact ⟨rfl, rfl⟩
  | clear => exact ⟨rfl, rfl⟩

theorem abs_alter (p : impl) (group : Bytes) (f : Option ini_keys_t → ini_keys_t) :
    abs ⟨p.m_groups.alter group f⟩ = Function.update (abs p) group (some (abs_keys (f (p.m_groups.find group)))) := by
  funext g
  unfold abs
  rw [OrderedMap.find_alter string_rank_injective, Function.update_apply, Function.update_apply]
  split <;> rfl

theorem in_group_refines (p : impl) (group : Bytes) (c : basic_ini_keys.call) :
    abs (in_group p group c).1 = (abs p).update_group group c ∧
      (in_group p group c).2.map abs_keys = map_of_maps.keys_answer ((abs p).keys_of group) c := by
  obtain ⟨hstate, hanswer⟩ := keys_step_refines ((p.m_groups.find group).getD .empty) c
  rw [abs_keys_getD] at hstate hanswer
  exact ⟨by rw [in_group, abs_alter, hstate]; rfl, hanswer⟩

theorem create_refines (p : impl) (group : Bytes) :
    abs (p.create group) = Function.update (abs p) group (some ((abs p).keys_of group)) := by
  rw [impl.create, OrderedMap.emplace, abs_alter, abs_keys_getD]
  rfl

theorem read_refines (p : impl) (group key : Bytes) :
    (answer.of_value (read p group key) : answer key_map) = (abs p).read group key := by
  unfold read map_of_maps.read abs
  cases p.m_groups.find group with
  | none => rfl
  | some keys => exact read_keys keys key

theorem read_or_refines (p : impl) (group key def_value : Bytes) :
    answer.value (read_or p group key def_value) = (abs p).read_or group key def_value := by
  unfold read_or map_of_maps.read_or abs basic_ini_keys.read_or
  cases p.m_groups.find group with
  | none => rfl
  | some keys =>
    dsimp only [Option.map_some, Option.bind_some, abs_keys]
    cases keys.find key <;> rfl

theorem step_state (p : impl) (c : call) : abs (step p c).1 = (abs p).after c := by
  cases c with
  | write g k v => exact (in_group_refines p g _).1
  | write_path path v =>
    simp only [step, map_of_maps.after]
    cases from_path path (ascii "write") with
    | error e => rfl
    | ok gk => exact (in_group_refines p gk.1 _).1
  | index_group g => exact create_refines p g
  | index g k => exact (in_group_refines p g _).1
  | in_group g c => exact (in_group_refines p g c).1
  | read_path path =>
    simp only [step, map_of_maps.after]
    cases from_path path (ascii "read") <;> rfl
  | read_or_path path d =>
    simp only [step, map_of_maps.after]
    cases from_path path (ascii "read_or") <;> rfl
  | clear => rfl
  | read _ _ => rfl
  | read_or _ _ _ => rfl
  | group _ => rfl
  | const_index_group _ => rfl
  | const_index _ _ => rfl
  | find _ => rfl

theorem group_never (p : impl) (name : Bytes) : (group p name).map abs_keys ≠ (abs p).group name := by
  unfold group map_of_maps.group abs
  cases p.m_groups.find name with
  | none => exact fun h => by cases h
  | some keys => exact fun h => by cases h

theorem not_exists_ne (group key : Bytes) : basic_ini_keys.not_exists key ≠ group_not_exists group := by
  intro h
  simp only [basic_ini_keys.not_exists, group_not_exists, exception.runtime_error.injEq] at h
  have := congrArg List.head? h
  simp [ascii] at this

theorem const_index_never (p : impl) (group key : Bytes) :
    (const_index p group key).map abs_keys ≠ (abs p).const_index group key := by
  unfold const_index basic_ini.group map_of_maps.const_index abs
  cases p.m_groups.find group with
  | none => exact fun h => by cases h
  | some keys =>
    dsimp only [Option.map_some]
    rw [← read_keys, basic_ini_keys.read]
    cases keys.find key with
    | some v => exact fun h => by cases h
    | none =>
      intro h
      have heq : group_not_exists group = basic_ini_keys.not_exists key := answer.threw.inj h
      exact not_exists_ne group key heq.symm

/-- **One call.** The store answers as the map of maps does if and only if the call is none that looks up a group. -/
theorem step_answer_iff (p : impl) (c : call) :
    (step p c).2.map abs_keys = (abs p).answer_of c ↔ c.looks_up_group = false := by
  cases c with
  | group name => exact iff_of_false (group_never p name) (by simp [call.looks_up_group])
  | const_index_group name => exact iff_of_false (group_never p name) (by simp [call.looks_up_group])
  | const_index g k => exact iff_of_false (const_index_never p g k) (by simp [call.looks_up_group])
  | write g k v => exact iff_of_true rfl rfl
  | write_path path v =>
    refine iff_of_true ?_ rfl
    simp only [step, map_of_maps.answer_of]
    cases from_path path (ascii "write") <;> rfl
  | read g k => exact iff_of_true (by rw [step, map_of_value]; exact read_refines p g k) rfl
  | read_path path =>
    refine iff_of_true ?_ rfl
    simp only [step, map_of_maps.answer_of]
    cases from_path path (ascii "read") with
    | error e => rfl
    | ok gk =>
      rw [map_of_value]
      exact read_refines p gk.1 gk.2
  | read_or g k d => exact iff_of_true (read_or_refines p g k d) rfl
  | read_or_path path d =>
    refine iff_of_true ?_ rfl
    simp only [step, map_of_maps.answer_of]
    cases from_path path (ascii "read_or") with
    | error e => rfl
    | ok gk => exact read_or_refines p gk.1 gk.2 d
  | index_group g => exact iff_of_true (congrArg answer.keys (abs_keys_getD _)) rfl
  | index g k => exact iff_of_true (in_group_refines p g _).2 rfl
  | in_group g c => exact iff_of_true (in_group_refines p g c).2 rfl
  | find g => exact iff_of_true rfl rfl
  | clear => exact iff_of_true rfl rfl

/-! ## Runs of calls -/

/-- One step of the map of maps -/
def map_step (m : map_of_maps) (c : call) : map_of_maps × answer key_map := (m.after c, m.answer_of c)

/-- The run is one of the map of maps: it is answered the same, it ends in the same entries, and every entry holds
what the calls that name it have left there. -/
structure RefinesMap (p : impl) (cs : List call) : Prop where
  answers : (answers step p cs).map (answer.map abs_keys) = Lib.answers map_step (abs p) cs
  state : abs (run (fun p c => (step p c).1) p cs) = run map_of_maps.after (abs p) cs
  entries : ∀ group key, (abs (run (fun p c => (step p c).1) p cs)).entry group key =
    cs.foldl (effect group key) ((abs p).entry group key)

theorem entry_run (m : map_of_maps) (group key : Bytes) (cs : List call) :
    (run map_of_maps.after m cs).entry group key = cs.foldl (effect group key) (m.entry group key) := by
  induction cs generalizing m with
  | nil => rfl
  | cons c cs ih => rw [run_cons, ih, entry_after, List.foldl_cons]

theorem answers_agree_iff (p : impl) (cs : List call) :
    (answers step p cs).map (answer.map abs_keys) = Lib.answers map_step (abs p) cs ↔
      ∀ c ∈ cs, c.looks_up_group = false :=
  answers_refine_iff abs (answer.map abs_keys) (fun c => c.looks_up_group = false) step_state step_answer_iff p cs

/-- **The store refines a map of maps** in every run that does not look up a group, and in no other. -/
theorem refines_map_iff (p : impl) (cs : List call) :
    RefinesMap p cs ↔ ∀ c ∈ cs, c.looks_up_group = false := by
  have hstate : abs (run (fun p c => (step p c).1) p cs) = run map_of_maps.after (abs p) cs :=
    run_refines abs step_state p cs
  constructor
  · intro h
    exact (answers_agree_iff p cs).mp h.answers
  · intro h
    refine ⟨(answers_agree_iff p cs).mpr h, hstate, fun group key => ?_⟩
    rw [hstate]
    exact entry_run (abs p) group key cs

/-- A group that was written, then asked for. -/
def askedGroup : List call := [.write (ascii "a") (ascii "k") (ascii "v"), .group (ascii "a")]

theorem group_throws_present :
    ¬ (∀ (p : impl) (cs : List call), RefinesMap p cs) ∧
      ((step (step {} (.write (ascii "a") (ascii "k") (ascii "v"))).1 (.group (ascii "a"))).2 : answer ini_keys_t) =
        .threw (.runtime_error (ascii "basic_ini: group: The group 'a' is not exists.")) := by
  refine ⟨fun hall => ?_, by rfl⟩
  have := (answers_agree_iff {} askedGroup).mp (hall {} askedGroup).answers (.group (ascii "a")) (by decide)
  cases this

end basic_ini

end Libgs
