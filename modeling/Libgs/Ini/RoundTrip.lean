import Libgs.Ini.Escapes

/-!
# Writing an INI file and loading it again

A store that needs no escape comes back, group by group and key by key.
-/

namespace Libgs.basic_ini

open Lib ini_keyword_char

/-! ## The written lines -/

theorem comment_of_plain (text : Bytes) (h : plain text = true) : sharp ∉ text ∧ semicolon ∉ text := by
  simp only [plain, decide_eq_true_eq] at h
  exact ⟨h.2.1, h.2.2.1⟩

theorem decoded_of_plain (text : Bytes) (h : plain text = true) : from_percent_encoding text = text := by
  simp only [plain, decide_eq_true_eq] at h
  exact (from_percent_cases text).1 h.2.2.2

theorem trimmed_of_name (name : Bytes) (h : plain_name name = true) : str_trimmed name = name := by
  simp only [plain_name, decide_eq_true_eq] at h
  exact str_trimmed_of_unpadded name h.2

theorem load_blank (p : impl) (curr_group : Bytes) (n : ℕ) : load_line p curr_group [] n = (p, .ok curr_group) := rfl

theorem stripped_self (line : Bytes) (hcomment : sharp ∉ line ∧ semicolon ∉ line) (h : unpadded line = true) :
    stripped line = line := by
  rw [stripped_of_plain line hcomment.1 hcomment.2, str_trimmed_of_unpadded line h]

theorem load_group_line (p : impl) (curr_group name : Bytes) (n : ℕ) (hne : name ≠ []) (h : plain_name name = true) :
    load_line p curr_group (group_line name) n = (p.create name, .ok name) := by
  have hcomment := comment_of_plain name (plain_of_name name h)
  have hstrip : stripped (group_line name) = group_line name := by
    apply stripped_self
    · simp [group_line, hcomment, show sharp ≠ left_bracket by decide, show sharp ≠ right_bracket by decide,
        show semicolon ≠ left_bracket by decide, show semicolon ≠ right_bracket by decide]
    · simp [unpadded, group_line, List.getLast?_cons, show isBlank left_bracket = false by decide,
        show isBlank right_bracket = false by decide]
  have hpos := List.length_pos_iff.mpr hne
  have hinner : ((group_line name).drop 1).take ((group_line name).length - 2) = name := by simp [group_line]
  have hlen : ¬ (group_line name).length < 3 := by simp [group_line]; omega
  have hlast : (group_line name).getLast? = some right_bracket := by simp [group_line, List.getLast?_cons]
  have hhead : (group_line name).head? = some left_bracket := rfl
  unfold load_line
  rw [load_text_eq, hstrip, if_neg (by simp [group_line])]
  dsimp only
  rw [if_pos hhead]
  unfold parsing_group
  dsimp only
  rw [if_neg (by simp [hlen, hlast]), hinner, trimmed_of_name name h, decoded_of_plain name (plain_of_name name h),
    if_neg hne]

/-! ## Numbers -/

theorem rlnum_rest_chars (dot : Bool) (str : Bytes) (h : rlnum_rest dot str = true) :
    ∀ c ∈ str, isdigit c = true ∨ c = 0x2E := by
  induction str generalizing dot with
  | nil => simp
  | cons d rest ih =>
    unfold rlnum_rest at h
    intro c hc
    split_ifs at h with hd hdot
    · rcases List.mem_cons.mp hc with rfl | hc
      · exact .inl hd
      · exact ih dot h c hc
    · rcases List.mem_cons.mp hc with rfl | hc
      · exact .inr hdot.1
      · exact ih true h c hc

def isnumeric (c : UInt8) : Bool := isdigit c ∨ c = 0x2E ∨ c = 0x2D ∨ c = 0x2B

theorem rlnum_digits_chars (str : Bytes) (h : rlnum_digits str = true) : ∀ c ∈ str, isnumeric c = true := by
  cases str with
  | nil => cases h
  | cons d rest =>
    simp only [rlnum_digits, decide_eq_true_eq] at h
    intro c hc
    rcases List.mem_cons.mp hc with rfl | hc
    · simp [isnumeric, h.1]
    · rcases rlnum_rest_chars false rest h.2 c hc with hc | hc <;> simp [isnumeric, hc]

theorem rlnum_chars (str : Bytes) (h : is_rlnum str = true) : ∀ c ∈ str, isnumeric c = true := by
  cases str with
  | nil => cases h
  | cons s rest =>
    rw [is_rlnum] at h
    split_ifs at h with hsign
    · intro c hc
      rcases List.mem_cons.mp hc with rfl | hc
      · rcases hsign with hc | hc <;> simp [isnumeric, hc]
      · exact rlnum_digits_chars rest h c hc
    · exact rlnum_digits_chars (s :: rest) h

theorem numeric_char (c : UInt8) :
    isnumeric c = true → isBlank c = false ∧ c ≠ assigning ∧ c ≠ single_quotes ∧ c ≠ double_quotes :=
  byte_forall (p := fun c => isnumeric c = true →
    isBlank c = false ∧ c ≠ assigning ∧ c ≠ single_quotes ∧ c ≠ double_quotes) (by decide +kernel) c

theorem parsing_number (value : Bytes) (n : ℕ) (h : ∀ c ∈ value, isnumeric c = true) :
    parsing_value (skip_assigning (str_trimmed value)) n = .ok value := by
  have hhead : ∀ q, isnumeric q = false → value.head? ≠ some q := by
    intro q hq hsome
    rw [h q (List.mem_of_head? hsome)] at hq
    cases hq
  have htrim : str_trimmed value = value :=
    str_trimmed_of_unpadded value (unpadded_of_not_blank value fun c hc => (numeric_char c (h c hc)).1)
  rw [htrim, skip_assigning_self value (hhead _ (by decide))]
  unfold parsing_value
  simp [hhead assigning (by decide), hhead single_quotes (by decide), hhead double_quotes (by decide)]

theorem value_text_of_plain (key value : Bytes) (h : plain_value value = true) :
    value_text key value = if is_rlnum value then value else quoted value := by
  simp only [plain_value, decide_eq_true_eq] at h
  unfold value_text sync_value
  split_ifs with hnumber hplus
  · exact absurd ⟨hnumber, hplus.2.2⟩ h.2
  · rfl
  · rfl

theorem parsing_value_text (key value : Bytes) (n : ℕ) (h : plain_value value = true) :
    parsing_value (skip_assigning (str_trimmed (value_text key value))) n = .ok value := by
  rw [value_text_of_plain key value h]
  split_ifs with hnumber
  · exact parsing_number value n (rlnum_chars value hnumber)
  · exact parsing_quoted value n

theorem value_text_last (key value : Bytes) (hne : value ≠ []) (h : plain_value value = true) :
    ∃ c, (value_text key value).getLast? = some c ∧ isBlank c = false := by
  rw [value_text_of_plain key value h]
  split_ifs with hnumber
  · refine ⟨value.getLast hne, List.getLast?_eq_some_getLast hne, ?_⟩
    exact (numeric_char _ (rlnum_chars value hnumber _ (List.getLast_mem hne))).1
  · exact ⟨double_quotes, by simp [quoted, List.getLast?_cons], by decide⟩

theorem value_text_comment (key value : Bytes) (h : plain_value value = true) :
    sharp ∉ value_text key value ∧ semicolon ∉ value_text key value := by
  have hcomment := comment_of_plain value (plain_of_value value h)
  rw [value_text_of_plain key value h]
  split_ifs
  · exact hcomment
  · simp [quoted, hcomment, show sharp ≠ double_quotes by decide, show semicolon ≠ double_quotes by decide]

theorem stripped_key_line (key value : Bytes) (hkey : key ≠ []) (hvalue : value ≠ []) (hk : plain_key key = true)
    (hv : plain_value value = true) :
    stripped (key_line key (value_text key value)) = key_line key (value_text key value) := by
  have hkcomment := comment_of_plain key (plain_of_key key hk)
  have hvcomment := value_text_comment key value hv
  obtain ⟨c, hlast, hblank⟩ := value_text_last key value hvalue hv
  obtain ⟨d, rest, rfl⟩ := List.exists_cons_of_ne_nil hkey
  apply stripped_self
  · exact ⟨not_mem_key_line sharp _ _ hkcomment.1 hvcomment.1 (by decide),
      not_mem_key_line semicolon _ _ hkcomment.2 hvcomment.2 (by decide)⟩
  · simp only [plain_key, plain_name, unpadded, decide_eq_true_eq] at hk
    simpa [unpadded, key_line, List.getLast?_append, List.getLast?_cons, hlast, hblank] using hk.1.2.1

theorem load_key_line (p : impl) (curr_group key value : Bytes) (n : ℕ) (hgroup : curr_group ≠ []) (hkey : key ≠ [])
    (hvalue : value ≠ []) (hk : plain_key key = true) (hv : plain_value value = true) :
    load_line p curr_group (key_line key (value_text key value)) n =
      (p.store curr_group key value, .ok curr_group) := by
  have hstrip := stripped_key_line key value hkey hvalue hk hv
  have hdecoded := decoded_of_plain key (plain_of_key key hk)
  have htext := parsing_value_text key value n hv
  simp only [plain_key, decide_eq_true_eq] at hk
  obtain ⟨hname, hassign, hbracket⟩ := hk
  have hhead : (key_line key (value_text key value)).head? ≠ some left_bracket := by
    obtain ⟨d, rest, rfl⟩ := List.exists_cons_of_ne_nil hkey
    exact hbracket
  have hpos := List.length_pos_iff.mpr hkey
  have hlen : ¬ (key_line key (value_text key value)).length < 2 := by
    obtain ⟨c, hlast, -⟩ := value_text_last key value hvalue hv
    have := List.length_pos_iff.mpr (List.ne_nil_of_mem (List.mem_of_getLast? hlast))
    rw [key_line_length]
    omega
  have hfind : find [assigning] (key_line key (value_text key value)) = some key.length :=
    find_append_pat [assigning] key _ (by simp) ((isLine_singleton _ _).mpr hassign)
  have htake : (key_line key (value_text key value)).take key.length = key := List.take_left' rfl
  have hdrop : (key_line key (value_text key value)).drop (key.length + 1) = value_text key value := by simp [key_line]
  have hparse : parsing_key_value p curr_group (key_line key (value_text key value)) n =
      (p.store curr_group key value, .ok ()) := by
    unfold parsing_key_value
    rw [if_neg hgroup, if_neg hlen, hfind]
    dsimp only
    rw [if_neg (by omega), htake, trimmed_of_name key hname, hdecoded, if_neg hkey, hdrop, htext]
    dsimp only
    rw [decoded_of_plain value (plain_of_value value hv)]
  unfold load_line
  rw [load_text_eq, hstrip, if_neg (by simp [key_line])]
  dsimp only
  rw [if_neg hhead, hparse]
  rfl

/-! ## The run over a store -/

/-- The lines that `sync` writes for a group. -/
def group_lines (name : Bytes) (keys : ini_keys_t) : List Bytes :=
  group_line name :: (keys.entries.map (fun e => key_line e.1 (value_text e.1 e.2)) ++ [[]])

/-- The lines of a whole file -/
def file_lines (m : group_map_t) : List Bytes := m.entries.flatMap fun e => group_lines e.1 e.2

theorem sync_unlines (m : group_map_t) (hnamed : Named m) :
    (sync ⟨m⟩ never).file = unlines [line_break] (file_lines m) := by
  have hkeys : ∀ ks : List (Bytes × Bytes), (∀ k ∈ ks, k.1 ≠ [] ∧ k.2 ≠ []) →
      ks.flatMap (fun e => sync_key e.1 e.2) =
        unlines [line_break] (ks.map fun e => key_line e.1 (value_text e.1 e.2)) := by
    intro ks hks
    induction ks with
    | nil => rfl
    | cons k ks ih =>
      obtain ⟨hkey, hvalue⟩ := hks k List.mem_cons_self
      rw [List.flatMap_cons, sync_key_eq k.1 k.2 hkey hvalue, ih fun a ha => hks a (List.mem_cons_of_mem _ ha),
        List.map_cons, unlines_cons, List.append_assoc]
  have hgroups : ∀ es : List (Bytes × ini_keys_t), (∀ e ∈ es, ∀ k ∈ e.2.entries, k.1 ≠ [] ∧ k.2 ≠ []) →
      es.flatMap (fun e => sync_group e.1 e.2) = unlines [line_break] (es.flatMap fun e => group_lines e.1 e.2) := by
    intro es hes
    induction es with
    | nil => rfl
    | cons e es ih =>
      rw [List.flatMap_cons, List.flatMap_cons, unlines_append, ih fun a ha => hes a (List.mem_cons_of_mem _ ha),
        sync_group_eq, hkeys _ (hes e List.mem_cons_self), group_lines, unlines_cons, unlines_append]
      simp
  rw [sync_file, hgroups m.entries fun e he => (hnamed e he).2, file_lines]

theorem file_lines_isLine (m : group_map_t) (hplain : Plain m) : ∀ l ∈ file_lines m, IsLine [line_break] l := by
  intro l hl
  rw [isLine_singleton]
  obtain ⟨e, he, hl⟩ := List.mem_flatMap.mp hl
  obtain ⟨hname, hkeys⟩ := hplain e he
  rw [group_lines, List.mem_cons, List.mem_append, List.mem_singleton] at hl
  rcases hl with rfl | hl | rfl
  · exact break_group_line e.1 (break_of_plain e.1 (plain_of_name e.1 hname))
  · obtain ⟨k, hk, rfl⟩ := List.mem_map.mp hl
    obtain ⟨hkey, hvalue⟩ := hkeys k hk
    exact break_key_line k.1 k.2 (break_of_plain k.1 (plain_of_key k.1 hkey))
      (break_of_plain k.2 (plain_of_value k.2 hvalue))
  · exact List.not_mem_nil

/-- The order of the map -/
abbrev Below (a b : Bytes) : Prop := string_rank a < string_rank b

theorem turns_keys (name : Bytes) (hne : name ≠ []) (es : List (Bytes × ini_keys_t)) (hes : ∀ a ∈ es, Below a.1 name)
    (ks : List (Bytes × Bytes)) (hnamed : ∀ k ∈ ks, k.1 ≠ [] ∧ k.2 ≠ [])
    (hplain : ∀ k ∈ ks, plain_key k.1 = true ∧ plain_value k.2 = true) (keys : ini_keys_t)
    (hsorted : (keys.entries ++ ks).Pairwise fun a b => Below a.1 b.1) (s : load_loop)
    (hs : s.obj.m_groups.entries = es ++ [(name, keys)]) (hgroup : s.curr_group = name) :
    ∃ s' keys', turns (load_turn never) (ks.map fun e => key_line e.1 (value_text e.1 e.2)) s = some s' ∧
      s'.obj.m_groups.entries = es ++ [(name, keys')] ∧ keys'.entries = keys.entries ++ ks ∧ s'.curr_group = name := by
  induction ks generalizing keys s with
  | nil => exact ⟨s, keys, rfl, hs, by simp, hgroup⟩
  | cons k ks ih =>
    obtain ⟨hkey, hvalue⟩ := hnamed k List.mem_cons_self
    obtain ⟨hk, hv⟩ := hplain k List.mem_cons_self
    have hline := load_key_line s.obj name k.1 k.2 s.line hne hkey hvalue hk hv
    rw [← hgroup] at hline
    have hturn := load_turn_of_ok never (key_line k.1 (value_text k.1 k.2)) s _ _ rfl hline
    have hbelow : ∀ a ∈ keys.entries, Below a.1 k.1 := fun a ha =>
      (List.pairwise_append.mp hsorted).2.2 a ha k List.mem_cons_self
    have hassigned : (keys.assign k.1 k.2).entries = keys.entries ++ [k] := alterEntry_above k.1 _ keys.entries hbelow
    have hstored : (s.obj.store s.curr_group k.1 k.2).m_groups.entries = es ++ [(name, keys.assign k.1 k.2)] := by
      show alterEntry string_rank s.curr_group _ s.obj.m_groups.entries = _
      rw [hgroup, hs]
      exact alterEntry_last name keys _ es hes
    rw [List.map_cons, turns_again _ _ _ _ _ hturn]
    obtain ⟨s', keys', hturns, hentries, hkeys, hgroup'⟩ := ih (fun a ha => hnamed a (List.mem_cons_of_mem _ ha))
      (fun a ha => hplain a (List.mem_cons_of_mem _ ha)) (keys.assign k.1 k.2)
      (by rw [hassigned]; simpa using hsorted)
      { s with obj := s.obj.store s.curr_group k.1 k.2, line := s.line + 1 } hstored hgroup
    exact ⟨s', keys', hturns, hentries, by rw [hkeys, hassigned]; simp, hgroup'⟩

theorem turns_groups (gs : List (Bytes × ini_keys_t))
    (hnamed : ∀ e ∈ gs, e.1 ≠ [] ∧ ∀ k ∈ e.2.entries, k.1 ≠ [] ∧ k.2 ≠ [])
    (hplain : ∀ e ∈ gs, plain_name e.1 = true ∧ ∀ k ∈ e.2.entries, plain_key k.1 = true ∧ plain_value k.2 = true)
    (s : load_loop) (hsorted : (s.obj.m_groups.entries ++ gs).Pairwise fun a b => Below a.1 b.1) :
    ∃ s', turns (load_turn never) (gs.flatMap fun e => group_lines e.1 e.2) s = some s' ∧
      s'.obj.m_groups.entries = s.obj.m_groups.entries ++ gs := by
  induction gs generalizing s with
  | nil => exact ⟨s, rfl, by simp⟩
  | cons e gs ih =>
    obtain ⟨name, keys⟩ := e
    obtain ⟨hne, hknamed⟩ := hnamed (name, keys) List.mem_cons_self
    obtain ⟨hname, hkplain⟩ := hplain (name, keys) List.mem_cons_self
    have hturn := load_turn_of_ok never (group_line name) s _ _ rfl
      (load_group_line s.obj s.curr_group name s.line hne hname)
    have hbelow : ∀ a ∈ s.obj.m_groups.entries, Below a.1 name := fun a ha =>
      (List.pairwise_append.mp hsorted).2.2 a ha (name, keys) List.mem_cons_self
    have hcreated : (s.obj.create name).m_groups.entries = s.obj.m_groups.entries ++ [(name, .empty)] :=
      alterEntry_above name _ s.obj.m_groups.entries hbelow
    obtain ⟨t, keys', hturns, hentries, hkeys, hgroup⟩ := turns_keys name hne s.obj.m_groups.entries hbelow keys.entries
      hknamed hkplain .empty (by simpa [OrderedMap.empty] using keys.sorted)
      { s with obj := s.obj.create name, curr_group := name, line := s.line + 1 } hcreated rfl
    have hsame : keys' = keys := OrderedMap.ext_entries (by simpa [OrderedMap.empty] using hkeys)
    have hblank := load_turn_of_ok never [] t _ _ rfl (load_blank t.obj t.curr_group t.line)
    obtain ⟨s', hrest, hend⟩ := ih (fun a ha => hnamed a (List.mem_cons_of_mem _ ha))
      (fun a ha => hplain a (List.mem_cons_of_mem _ ha)) { t with line := t.line + 1 }
      (by show (t.obj.m_groups.entries ++ gs).Pairwise _
          rw [hentries, hsame]
          simpa using hsorted)
    refine ⟨s', ?_, ?_⟩
    · rw [List.flatMap_cons, group_lines, List.cons_append, turns_again _ _ _ _ _ hturn, List.append_assoc,
        turns_append, hturns, Option.bind_some, List.singleton_append, turns_again _ _ _ _ _ hblank]
      exact hrest
    · rw [hend]
      show t.obj.m_groups.entries ++ gs = _
      rw [hentries, hsame]
      simp

/-- **What needs no escape comes back**, and loading it ends without an error. -/
theorem reload_of_plain (m : group_map_t) (hnamed : Named m) (hplain : Plain m) : reload m = ⟨⟨m⟩, .ok none⟩ := by
  obtain ⟨s', hturns, hentries⟩ := turns_groups m.entries hnamed hplain ⟨{}, [], 1, []⟩
    (by simpa [OrderedMap.empty] using m.sorted)
  have hlines := lines_unlines (load_turn_framed never) (by simp) (file_lines m) ⟨{}, [], 1, []⟩ s' []
    (file_lines_isLine m hplain) hturns
  have hstart : loadBuffer.set ⟨{}, [], 1, []⟩ (unlines [line_break] (file_lines m) ++ []) =
      ⟨{}, [], 1, (sync ⟨m⟩ never).file⟩ := by
    rw [List.append_nil, sync_unlines m hnamed]
    rfl
  rw [hstart, lines_none (loadBuffer.set s' []) rfl] at hlines
  unfold reload load
  dsimp only
  rw [hlines]
  show load_tail never (loadBuffer.set s' []) = _
  rw [load_tail_done never _ rfl]
  have hobj : s'.obj = ⟨m⟩ := by
    have hm : s'.obj.m_groups = m := OrderedMap.ext_entries (by simpa [OrderedMap.empty] using hentries)
    cases hobj : s'.obj with
    | mk m_groups => rw [← hm, hobj]
  rw [show (loadBuffer.set s' []).obj = ⟨m⟩ from hobj]
  rfl

/-- **INI files.** A store comes back from its file exactly if it needs no escape. -/
theorem round_trip_iff (m : group_map_t) (hnamed : Named m) : (reload m).obj.m_groups = m ↔ Plain m :=
  ⟨plain_of_reload m hnamed, fun hplain => by rw [reload_of_plain m hnamed hplain]⟩

def net : group_map_t :=
  (((({} : impl).store (ascii "net") (ascii "host") (ascii " the \"host\" = 100% ")).store (ascii "net") (ascii "port")
    (ascii "-80.5")).store (ascii "a b]") (ascii "k 'x'") [0x80, 0x27]).m_groups

theorem round_trip_net : (reload net).obj.m_groups = net :=
  (round_trip_iff net (by decide +kernel)).mpr (by decide +kernel)

def note : group_map_t := (({} : impl).store (ascii "a") (ascii "k") (ascii "1#2")).m_groups

/-- A value with a number sign is written as it is, and read as a comment. -/
theorem comment_lost : ¬ ∀ m, Named m → (reload m).obj.m_groups = m := by
  intro h
  exact absurd (h note (by decide +kernel)) (by decide +kernel)

end Libgs.basic_ini
