import Libgs.Core.Base
import Libgs.Lib.OrderedMap
import Mathlib.Data.List.Lex

/-!
# The type of a file by its first bytes

`mime_from_magic` of `core/algorithm/detail/mime_type.h` and `mime_search` of `core/algorithm/mime_type.cpp`.
-/

namespace Libgs.mime

open Lib

/-- `std::map<std::string, std::string>`, from signatures to types -/
abbrev mime_head_map := OrderedMap (fun key : Bytes => key.map UInt8.toNat) Bytes

/-! ## The stream -/

/-- A file that is read, and the state of its stream -/
structure ifstream where
  content : Bytes
  pos : ℕ := 0
  is_open : Bool := true
  eofbit : Bool := false
  failbit : Bool := false
  gcount : ℕ := 0

/-- The bytes that are read. A read that the end of the file cuts short sets both bits, and nothing is read any more. -/
def ifstream.read (stream : ifstream) (n : ℕ) : Bytes × ifstream :=
  if stream.eofbit ∨ stream.failbit then ([], { stream with failbit := true, gcount := 0 })
  else
    let data := (stream.content.drop stream.pos).take n
    let short : Bool := data.length < n
    (data, { stream with pos := stream.pos + data.length, eofbit := short, failbit := short, gcount := data.length })

/-- `seekg(pos, std::ios_base::beg)` clears `eofbit`, but goes nowhere after a failure. -/
def ifstream.seekg (stream : ifstream) (pos : ℕ) : ifstream :=
  if stream.failbit then { stream with eofbit := false } else { stream with eofbit := false, pos := pos }

/-! ## The detection -/

/-- A control character that is no blank -/
def is_control (c : UInt8) : Bool := c.toInt8 < 32 ∧ c ≠ 9 ∧ c ≠ 10 ∧ c ≠ 13

/-- Whether the file has a mark of its byte order, or no control character in its first bytes -/
def is_text_file (stream : ifstream) : Bool × ifstream :=
  let (data, stream) := stream.read 0x4000
  if [0xFE, 0xFF] <+: data ∨ [0xFF, 0xFE] <+: data then (true, stream)
  else (¬ (data.take 128).any is_control, stream)

def unknown : Bytes := ascii "unknown"

def text_plain : Bytes := ascii "text/plain"

/-- The rest of a key against the rest of the buffer, from the second byte on -/
def compare_rest (value : Bytes) : Bytes → Bytes → Bytes
  | [], _ => value
  | _ :: _, [] => unknown
  | k :: key, b :: buf =>
    if k.toInt8 > b.toInt8 then unknown else if k = b then compare_rest value key buf else unknown

/-- The first key with the first byte of the buffer decides. -/
def search_entries (buf : Bytes) : List (Bytes × Bytes) → Bytes
  | [] => unknown
  | (key, value) :: entries =>
    if key.getD 0 0 ≠ buf.getD 0 0 then search_entries buf entries else compare_rest value key.tail buf.tail

def mime_search (mimes : mime_head_map) (buf : Bytes) : Bytes :=
  if buf.length = 0 then text_plain else search_entries buf mimes.entries

/-- The search at the start of the file, and the one at offset 4 where that gives the empty text -/
def mime_from_magic (signatures_map signatures_map_offset4 : mime_head_map) (stream : ifstream) : Bytes :=
  if ¬ stream.is_open then unknown
  else
    let (buf, stream) := stream.read 0xFF
    let size := stream.gcount
    if size < 0xFF ∧ (is_text_file (stream.seekg 0)).1 then text_plain
    else
      let mime_type := mime_search signatures_map buf
      if mime_type = [] ∧ size > 4 then mime_search signatures_map_offset4 (buf.drop 4) else mime_type

/-! ## What a search finds -/

/-- The value of the first signature that begins as the buffer does, if the whole of it stands there. -/
def first_alike (entries : List (Bytes × Bytes)) (buf : Bytes) : Option Bytes :=
  match entries.find? fun e => e.1.getD 0 0 = buf.getD 0 0 with
  | none => none
  | some (key, value) => if key <+: buf then some value else none

theorem compare_rest_eq (value key buf : Bytes) :
    compare_rest value key buf = if key <+: buf then value else unknown := by
  induction key generalizing buf with
  | nil => simp [compare_rest]
  | cons k key ih =>
    cases buf with
    | nil => simp [compare_rest]
    | cons b buf =>
      rw [compare_rest, ih]
      by_cases hkb : k = b
      · subst hkb
        simp
      · simp [hkb]

theorem search_entries_eq (buf : Bytes) (hbuf : buf ≠ []) (entries : List (Bytes × Bytes))
    (hkeys : ∀ e ∈ entries, e.1 ≠ []) : search_entries buf entries = (first_alike entries buf).getD unknown := by
  induction entries with
  | nil => rfl
  | cons e entries ih =>
    obtain ⟨key, value⟩ := e
    have hrest := ih fun e he => hkeys e (List.mem_cons_of_mem _ he)
    obtain ⟨k, key, rfl⟩ := List.exists_cons_of_ne_nil (hkeys (key, value) List.mem_cons_self)
    obtain ⟨b, buf, rfl⟩ := List.exists_cons_of_ne_nil hbuf
    by_cases hkb : k = b
    · subst hkb
      by_cases hpre : key <+: buf <;> simp [search_entries, first_alike, compare_rest_eq, hpre]
    · rw [search_entries, if_pos (by simpa using hkb), hrest, first_alike, first_alike]
      simp [hkb]

theorem mime_search_eq (mimes : mime_head_map) (buf : Bytes) (hbuf : buf ≠ []) (hkeys : ∀ e ∈ mimes.entries, e.1 ≠ []) :
    mime_search mimes buf = (first_alike mimes.entries buf).getD unknown := by
  rw [mime_search, if_neg (by simpa using hbuf), search_entries_eq buf hbuf mimes.entries hkeys]

theorem first_alike_mem (entries : List (Bytes × Bytes)) (buf value : Bytes)
    (h : first_alike entries buf = some value) : ∃ e ∈ entries, e.1 <+: buf ∧ e.2 = value := by
  unfold first_alike at h
  split at h
  · cases h
  · rename_i key v hfind
    split at h
    · rename_i hpre
      obtain rfl := Option.some.inj h
      exact ⟨(key, v), List.mem_of_find?_eq_some hfind, hpre, rfl⟩
    · cases h

/-! ## What the detection gives -/

/-- A file that has just been opened -/
def opened (content : Bytes) : ifstream := { content := content }

/-- **A file of fewer than 255 bytes is text**: the read that fails keeps the stream from going back, so that there is
nothing to look at. -/
theorem magic_short (signatures_map signatures_map_offset4 : mime_head_map) (content : Bytes)
    (h : content.length < 255) :
    mime_from_magic signatures_map signatures_map_offset4 (opened content) = text_plain := by
  simp [mime_from_magic, opened, ifstream.read, ifstream.seekg, is_text_file, h, List.take_of_length_le h.le]

theorem magic_long (signatures_map signatures_map_offset4 : mime_head_map) (content : Bytes)
    (h : 255 ≤ content.length) :
    mime_from_magic signatures_map signatures_map_offset4 (opened content) =
      if mime_search signatures_map (content.take 255) = [] then
        mime_search signatures_map_offset4 ((content.take 255).drop 4)
      else mime_search signatures_map (content.take 255) := by
  simp [mime_from_magic, opened, ifstream.read, Nat.min_eq_left h]

/-! ## Complete detection -/

/-- A signature with this type is a prefix of the buffer. -/
def Matches (mimes : mime_head_map) (buf value : Bytes) : Prop := ∃ e ∈ mimes.entries, e.1 <+: buf ∧ e.2 = value

/-- No signature is a prefix of the buffer. -/
def Unsigned (mimes : mime_head_map) (buf : Bytes) : Prop := ∀ e ∈ mimes.entries, ¬ e.1 <+: buf

/-- The text is the type of a signature in the header, where those of offset 0 come before those of offset 4. -/
def Answers (signatures_map signatures_map_offset4 : mime_head_map) (header text : Bytes) : Prop :=
  Matches signatures_map header text ∨
    (Unsigned signatures_map header ∧ Matches signatures_map_offset4 (header.drop 4) text)

/-- The header has no signature at either offset. -/
def Nothing (signatures_map signatures_map_offset4 : mime_head_map) (header : Bytes) : Prop :=
  Unsigned signatures_map header ∧ Unsigned signatures_map_offset4 (header.drop 4)

/-- The type of a signature that stands there, or `unknown` where none does -/
def Detects (signatures_map signatures_map_offset4 : mime_head_map) (header result : Bytes) : Prop :=
  Answers signatures_map signatures_map_offset4 header result ∨
    (Nothing signatures_map signatures_map_offset4 header ∧ result = unknown)

instance (mimes : mime_head_map) (buf value : Bytes) : Decidable (Matches mimes buf value) :=
  inferInstanceAs (Decidable (∃ e ∈ mimes.entries, _))

instance (mimes : mime_head_map) (buf : Bytes) : Decidable (Unsigned mimes buf) :=
  inferInstanceAs (Decidable (∀ e ∈ mimes.entries, _))

instance (signatures_map signatures_map_offset4 : mime_head_map) (header result : Bytes) :
    Decidable (Detects signatures_map signatures_map_offset4 header result) :=
  inferInstanceAs (Decidable ((_ ∨ (_ ∧ _)) ∨ ((_ ∧ _) ∧ _)))

/-- The first signature with the first byte of the header stands there, with a type that is not empty. Otherwise the
text that is given in its place has to be an answer. -/
def DetectsWhen (signatures_map signatures_map_offset4 : mime_head_map) (header : Bytes) : Prop :=
  if header.length < 255 then
    Answers signatures_map signatures_map_offset4 header text_plain
  else
    match first_alike signatures_map.entries header with
    | some value =>
      value ≠ [] ∨ Answers signatures_map signatures_map_offset4 header
        ((first_alike signatures_map_offset4.entries (header.drop 4)).getD unknown)
    | none =>
      Nothing signatures_map signatures_map_offset4 header ∨
        Answers signatures_map signatures_map_offset4 header unknown

/-- **When the detection is complete.** -/
theorem detects_iff (signatures_map signatures_map_offset4 : mime_head_map) (content : Bytes)
    (hkeys : ∀ e ∈ signatures_map.entries, e.1 ≠ []) (hkeys4 : ∀ e ∈ signatures_map_offset4.entries, e.1 ≠ []) :
    Detects signatures_map signatures_map_offset4 (content.take 255)
        (mime_from_magic signatures_map signatures_map_offset4 (opened content)) ↔
      DetectsWhen signatures_map signatures_map_offset4 (content.take 255) := by
  rcases Nat.lt_or_ge content.length 255 with hshort | hlong
  · have hplain : text_plain ≠ unknown := by decide
    rw [magic_short _ _ _ hshort, DetectsWhen, if_pos (by rw [List.length_take]; omega), Detects]
    simp [hplain]
  · have hlen : (content.take 255).length = 255 := by rw [List.length_take]; omega
    rw [magic_long _ _ _ hlong, DetectsWhen, if_neg (by omega : ¬ (content.take 255).length < 255)]
    generalize content.take 255 = header at hlen
    have hne : header ≠ [] := by
      rintro rfl
      simp at hlen
    have hne4 : header.drop 4 ≠ [] := by
      intro hnil
      have := congrArg List.length hnil
      simp [hlen] at this
    have hunknown : unknown ≠ [] := by decide
    rw [mime_search_eq _ _ hne hkeys, mime_search_eq _ _ hne4 hkeys4]
    cases hfirst : first_alike signatures_map.entries header with
    | none => simp [Detects, hunknown, or_comm]
    | some value =>
      have hmatch : Matches signatures_map header value := first_alike_mem _ _ _ hfirst
      have hsigned : ¬ Nothing signatures_map signatures_map_offset4 header := by
        rintro ⟨hno, -⟩
        obtain ⟨e, he, hpre, -⟩ := hmatch
        exact hno e he hpre
      by_cases hvalue : value = []
      · simp [Detects, hsigned, hvalue]
      · simp [Detects, Answers, hvalue, hmatch]

/-- Two signatures with the same first byte, the first of which stands in the file, and one at offset 4 -/
theorem detects_tiff :
    Detects ⟨[([73, 73], ascii "image/tiff"), ([73, 74], ascii "image/x")], by decide⟩
      ⟨[([106, 80], ascii "image/jp2")], by decide⟩
      ((73 :: 73 :: 0 :: 0 :: 106 :: 80 :: List.replicate 300 0).take 255)
      (mime_from_magic ⟨[([73, 73], ascii "image/tiff"), ([73, 74], ascii "image/x")], by decide⟩
        ⟨[([106, 80], ascii "image/jp2")], by decide⟩
        (opened (73 :: 73 :: 0 :: 0 :: 106 :: 80 :: List.replicate 300 0))) := by
  refine (detects_iff _ _ _ (by decide) (by decide)).mpr ?_
  have hfirst : first_alike [([73, 73], ascii "image/tiff"), ([73, 74], ascii "image/x")]
      ((73 :: 73 :: 0 :: 0 :: 106 :: 80 :: List.replicate 300 0).take 255) = some (ascii "image/tiff") := by
    decide +kernel
  rw [DetectsWhen, if_neg (by decide +kernel), hfirst]
  exact .inl (by decide)

/-- A picture of four bytes; a second signature with the same first byte; a signature at offset 4. None is found. -/
theorem detection_incomplete :
    ((is_text_file (opened [255, 216, 255, 224])).1 = false ∧
      ¬ Detects ⟨[([255, 216], ascii "image/jpeg")], by decide⟩ ⟨[], by decide⟩ [255, 216, 255, 224]
        (mime_from_magic ⟨[([255, 216], ascii "image/jpeg")], by decide⟩ ⟨[], by decide⟩
          (opened [255, 216, 255, 224]))) ∧
    ((is_text_file (opened (73 :: 74 :: List.replicate 300 0))).1 = false ∧
      ¬ Detects ⟨[([73, 73], ascii "image/tiff"), ([73, 74], ascii "image/x")], by decide⟩ ⟨[], by decide⟩
        ((73 :: 74 :: List.replicate 300 0).take 255)
        (mime_from_magic ⟨[([73, 73], ascii "image/tiff"), ([73, 74], ascii "image/x")], by decide⟩ ⟨[], by decide⟩
          (opened (73 :: 74 :: List.replicate 300 0)))) ∧
    ((is_text_file (opened (0 :: 0 :: 0 :: 0 :: 106 :: 80 :: List.replicate 300 0))).1 = false ∧
      ¬ Detects ⟨[], by decide⟩ ⟨[([106, 80], ascii "image/jp2")], by decide⟩
        ((0 :: 0 :: 0 :: 0 :: 106 :: 80 :: List.replicate 300 0).take 255)
        (mime_from_magic ⟨[], by decide⟩ ⟨[([106, 80], ascii "image/jp2")], by decide⟩
          (opened (0 :: 0 :: 0 :: 0 :: 106 :: 80 :: List.replicate 300 0)))) := by
  decide +kernel

end Libgs.mime
