import RefsForensic.Core.Directory
import RefsForensic.Core.RowLaws
import Mathlib.Tactic.IntervalCases

/-!
# The directory format

The page format that `parse_directory` reads, as a layout of records: the 72-byte value of a
directory, the 128-byte value of a file, the entry-record key with its UTF-16LE name, and the node
of the page with its record-offset array. Parsing a page on which records are laid out gives the
entries of the records in order (`parseDirectory_laidOut`).
-/

namespace RefsForensic

open Rust

variable {T : Target}

/-! ## Records -/

/-- The 72-byte value of a directory entry. -/
structure DirectoryValue where
  objectId : UInt64
  reserved8 : Vector UInt8 8
  created : UInt64
  modified : UInt64
  changed : UInt64
  accessed : UInt64
  reserved48 : Vector UInt8 16
  attributes : UInt32
  reserved68 : Vector UInt8 4

def DirectoryValue.bytes (v : DirectoryValue) : List UInt8 :=
  layout [(8, v.objectId.toNat)] ++ v.reserved8.toList ++
    layout [(8, v.created.toNat), (8, v.modified.toNat), (8, v.changed.toNat),
      (8, v.accessed.toNat)] ++
    v.reserved48.toList ++ layout [(4, v.attributes.toNat)] ++ v.reserved68.toList

def DirectoryValue.metadata (v : DirectoryValue) : FileMetadata where
  size := 0
  allocated := 0
  created := v.created.toNat
  modified := v.modified.toNat
  accessed := v.accessed.toNat
  changed := v.changed.toNat
  attributes := v.attributes.toNat
  isDirectory := true

/-- The 128-byte value of a file entry. -/
structure FileValue where
  created : UInt64
  modified : UInt64
  changed : UInt64
  accessed : UInt64
  attributes : UInt32
  reserved36 : Vector UInt8 28
  size : UInt64
  allocated : UInt64
  reserved80 : Vector UInt8 48

def FileValue.bytes (v : FileValue) : List UInt8 :=
  layout [(8, v.created.toNat), (8, v.modified.toNat), (8, v.changed.toNat), (8, v.accessed.toNat),
    (4, v.attributes.toNat)] ++ v.reserved36.toList ++
    layout [(8, v.size.toNat), (8, v.allocated.toNat)] ++ v.reserved80.toList

def FileValue.metadata (v : FileValue) : FileMetadata where
  size := v.size.toNat
  allocated := v.allocated.toNat
  created := v.created.toNat
  modified := v.modified.toNat
  accessed := v.accessed.toNat
  changed := v.changed.toNat
  attributes := v.attributes.toNat
  isDirectory := false

/-- What the value of an entry record says, by its entry type. -/
inductive EntryBody
  | directory (value : DirectoryValue)
  | file (value : FileValue)
  | other (type : UInt16) (value : List UInt8)
      (h : type.toNat ≠ entryTypeDirectory ∧ type.toNat ≠ entryTypeFile)

namespace EntryBody

def entryType : EntryBody → ℕ
  | directory _ => entryTypeDirectory
  | file _ => entryTypeFile
  | other type _ _ => type.toNat

def bytes : EntryBody → List UInt8
  | directory value => value.bytes
  | file value => value.bytes
  | other _ value _ => value

def isDirectory : EntryBody → Bool
  | directory _ => true
  | file _ => false
  | other _ _ _ => false

def objectId : EntryBody → Option ℕ
  | directory value => some value.objectId.toNat
  | file _ => none
  | other _ _ _ => none

def metadata : EntryBody → Option FileMetadata
  | directory value => some value.metadata
  | file value => some value.metadata
  | other _ _ _ => none

end EntryBody

/-- A directory record: an entry record, or one whose key starts with another record type. -/
inductive DirRecord
  | entry (name : String) (body : EntryBody)
  | nonEntry (key value : List UInt8) (h : key.take 2 ≠ toLeBytes 2 recordTypeEntry)

namespace DirRecord

def key : DirRecord → List UInt8
  | entry name body =>
    layout [(2, recordTypeEntry), (2, body.entryType)] ++ encodeUtf16le name
  | nonEntry key _ _ => key

def value : DirRecord → List UInt8
  | entry _ body => body.bytes
  | nonEntry _ value _ => value

/-- The entry a record stands for. -/
def dirEntry : DirRecord → Option DirEntry
  | entry name body =>
    some {
      name
      isDirectory := body.isDirectory
      objectId := body.objectId
      metadata := body.metadata }
  | nonEntry _ _ _ => none

end DirRecord

/-! ## Reading a record -/

/-- The value of a directory entry is read back, each time in its role. -/
theorem parseMetadata_directory {value : Slice T} {v : DirectoryValue}
    (h : value.toList = v.bytes) :
    leU64 value 0 = v.objectId.toNat ∧ parseMetadata value true = v.metadata := by
  have hholds := h ▸ value.holds_toList
  simp only [DirectoryValue.bytes, layout_cons, layout_nil, Slice.holds_append, List.length_append,
    length_toLeBytes, Vector.length_toList, List.append_nil, Nat.zero_add, Nat.reduceAdd] at hholds
  obtain ⟨⟨⟨⟨⟨hid, -⟩, hcreated, hmodified, hchanged, haccessed⟩, -⟩, hattributes⟩, -⟩ := hholds
  refine ⟨leU64_of_holds hid, ?_⟩
  simp only [parseMetadata, if_true, leU64_of_holds hcreated, leU64_of_holds hmodified,
    leU64_of_holds hchanged, leU64_of_holds haccessed, leU32_of_holds hattributes]
  rfl

/-- The value of a file entry is read back. -/
theorem parseMetadata_file {value : Slice T} {v : FileValue} (h : value.toList = v.bytes) :
    parseMetadata value false = v.metadata := by
  have hholds := h ▸ value.holds_toList
  simp only [FileValue.bytes, layout_cons, layout_nil, Slice.holds_append, List.length_append,
    length_toLeBytes, Vector.length_toList, List.append_nil, Nat.zero_add, Nat.reduceAdd] at hholds
  obtain ⟨⟨⟨⟨hcreated, hmodified, hchanged, haccessed, hattributes⟩, -⟩, hsize, hallocated⟩, -⟩ :=
    hholds
  simp only [parseMetadata, Bool.false_eq_true, if_false, leU64_of_holds hcreated,
    leU64_of_holds hmodified, leU64_of_holds hchanged, leU64_of_holds haccessed,
    leU32_of_holds hattributes, leU64_of_holds hsize, leU64_of_holds hallocated]
  rfl

/-- A key that does not start with the entry type is no entry record. -/
theorem leU16_ne_entry {key : Slice T} (h : key.toList.take 2 ≠ toLeBytes 2 recordTypeEntry) :
    leU16 key 0 ≠ recordTypeEntry := by
  intro heq
  rcases Nat.lt_or_ge key.len 2 with hshort | hlong
  · rw [leU16, leField_of_lt (by omega)] at heq
    cases heq
  · have hholds := key.holds_toList
    rw [← List.take_append_drop 2 key.toList, Slice.holds_append] at hholds
    have hbytes := bytesAt_of_holds hholds.1
    have hlen : (key.toList.take 2).length = 2 := by simpa using hlong
    rw [hlen] at hbytes
    rw [leU16, leField, hbytes] at heq
    have hback := toLeBytes_fromLeBytes (key.toList.take 2)
    rw [hlen, heq] at hback
    exact h hback.symm

/-- The name of an entry key. -/
theorem decodeUtf16le_of_key {key : Slice T} {name : String} {body : EntryBody}
    (h : key.toList = (DirRecord.entry name body).key) :
    decodeUtf16le ((key.getFrom 4).getD Slice.empty) = name := by
  have hlen : key.len = 4 + (encodeUtf16le name).length := by
    rw [← Slice.length_toList, h]
    simp [DirRecord.key]
    omega
  have hholds := h ▸ key.holds_toList
  simp only [DirRecord.key, layout_cons, layout_nil, Slice.holds_append, List.length_append,
    length_toLeBytes, List.append_nil, Nat.zero_add, Nat.reduceAdd] at hholds
  obtain ⟨s, hs, hbytes⟩ := hholds.2.exists_getRange
  rw [Slice.getFrom, hlen, hs, Option.getD_some, decodeUtf16le, hbytes,
    decodeUtf16Lossy_encodeUtf16le]

/-- **A record is read back** from its key and its value. -/
theorem entryOfRow_eq {row : MinstoreRow T} {r : DirRecord} (hkey : row.key.toList = r.key)
    (hvalue : row.value.toList = r.value) : entryOfRow row = r.dirEntry := by
  cases r with
  | nonEntry key value h =>
    have hne : leU16 row.key 0 ≠ recordTypeEntry := leU16_ne_entry (by rw [hkey]; exact h)
    rw [entryOfRow, if_pos hne]
    rfl
  | entry name body =>
    have hname := decodeUtf16le_of_key hkey
    have hholds := hkey ▸ row.key.holds_toList
    simp only [DirRecord.key, layout_cons, layout_nil, Slice.holds_append, List.length_append,
      length_toLeBytes, List.append_nil, Nat.zero_add, Nat.reduceAdd] at hholds
    have htype : leU16 row.key 0 = recordTypeEntry := leField_of_holds hholds.1.1 (by decide)
    unfold entryOfRow
    rw [if_neg (not_not.2 htype)]
    cases body with
    | directory v =>
      have hentry : leU16 row.key 2 = entryTypeDirectory :=
        leField_of_holds hholds.1.2 (by decide)
      obtain ⟨hid, hmetadata⟩ := parseMetadata_directory hvalue
      simp only [hentry, hname, hid, hmetadata]
      rfl
    | file v =>
      have hentry : leU16 row.key 2 = entryTypeFile := leField_of_holds hholds.1.2 (by decide)
      simp only [hentry, hname, parseMetadata_file hvalue]
      rfl
    | other type value h =>
      have hentry : leU16 row.key 2 = type.toNat := leU16_of_holds hholds.1.2
      simp only [hentry, hname, h.1, h.2, if_false, decide_false]
      rfl

/-! ## Pages of records -/

/-- Record `r` is placed by `p`, with its slot at `slotPos`. -/
structure PlacedAt (page : Slice T) (nodeHeader slotPos : ℕ) (p : Placement) (r : DirRecord) :
    Prop where
  slot : page.Holds slotPos (toLeBytes 4 p.slot.toNat)
  header : page.Holds (p.start nodeHeader) (layout [(4, p.size.toNat), (2, p.keyOff.toNat),
    (2, r.key.length), (2, p.flags.toNat), (2, p.valOff.toNat), (2, r.value.length)])
  key : page.Holds (p.start nodeHeader + p.keyOff.toNat) r.key
  value : page.Holds (p.start nodeHeader + p.valOff.toNat) r.value

/-- The records are laid out in the page: the node header and the record-offset array are where the
page says, and each record is where its slot says. -/
structure LaidOut (page : Slice T) (nodeHeader recordOffsets : ℕ)
    (records : List (Placement × DirRecord)) : Prop where
  len : page.len = refsMetadataPageSize
  nodeHeader_ge : nodeHeaderOffsetField ≤ nodeHeader
  nodeHeader_le : nodeHeader + nodeHeaderLen ≤ page.len
  nodeHeaderField : page.Holds nodeHeaderOffsetField
    (toLeBytes 4 (nodeHeader - nodeHeaderOffsetField))
  recordOffsets_ge : nodeHeader ≤ recordOffsets
  recordOffsets_le : recordOffsets + records.length * 4 ≤ page.len
  recordOffsetsField : page.Holds (nodeHeader + 16) (toLeBytes 4 (recordOffsets - nodeHeader))
  countField : page.Holds (nodeHeader + 20) (toLeBytes 4 records.length)
  placed : ∀ i p r, records[i]? = some (p, r) →
    PlacedAt page nodeHeader (recordOffsets + i * 4) p r

/-- The keys and the values of the records are written into the page. -/
theorem LaidOut.written {page : Slice T} {nodeHeader recordOffsets : ℕ}
    {records : List (Placement × DirRecord)} (h : LaidOut page nodeHeader recordOffsets records) :
    Written page nodeHeader recordOffsets
      (records.map fun record => (record.1, record.2.key, record.2.value)) where
  len := h.len.le
  nodeHeader_ge := h.nodeHeader_ge
  nodeHeader_le := h.nodeHeader_le
  nodeHeaderField := h.nodeHeaderField
  recordOffsets_ge := h.recordOffsets_ge
  recordOffsets_le := by rw [List.length_map]; exact h.recordOffsets_le
  recordOffsetsField := h.recordOffsetsField
  countField := by rw [List.length_map]; exact h.countField
  placed := by
    intro i p key value hi
    rw [List.getElem?_map, Option.map_eq_some_iff] at hi
    obtain ⟨⟨p, r⟩, hr, heq⟩ := hi
    cases heq
    obtain ⟨hslot, hheader, hkey, hvalue⟩ := h.placed i p r hr
    exact ⟨hslot, hheader, hkey, hvalue⟩

theorem filterMap_eq_of_forall₂ {α β γ : Type} {R : α → β → Prop} {f : α → Option γ}
    {g : β → Option γ} {l : List α} {l' : List β} (h : List.Forall₂ R l l')
    (heq : ∀ a b, R a b → f a = g b) : l.filterMap f = l'.filterMap g := by
  induction h with
  | nil => rfl
  | cons hab _ ih => rw [List.filterMap_cons, List.filterMap_cons, heq _ _ hab, ih]

/-- **The format round trip**: a page of records parses to the entries of its entry records, in
record order. -/
theorem parseDirectory_laidOut {page : Slice T} {nodeHeader recordOffsets : ℕ}
    {records : List (Placement × DirRecord)} (h : LaidOut page nodeHeader recordOffsets records) :
    parseDirectory page = .ok (records.filterMap fun p => p.2.dirEntry) := by
  obtain ⟨node, hnode, hrows⟩ := h.written.rows
  rw [List.forall₂_map_left_iff] at hrows
  have hentries : records.filterMap (fun p => p.2.dirEntry) = node.rows.filterMap entryOfRow := by
    refine filterMap_eq_of_forall₂ hrows fun record row hcontents => ?_
    obtain ⟨hkey, hcontents⟩ := Prod.mk.inj hcontents
    exact (entryOfRow_eq hkey (Prod.mk.inj hcontents).1).symm
  rw [parseDirectory_of_parse hnode, hentries]

/-! ### A page of three records -/

/-- The bytes of one record, with their positions. -/
def Placement.writes (p : Placement) (nodeHeader slotPos : ℕ) (r : DirRecord) :
    List (ℕ × List UInt8) :=
  [(slotPos, toLeBytes 4 p.slot.toNat),
    (p.start nodeHeader, layout [(4, p.size.toNat), (2, p.keyOff.toNat), (2, r.key.length),
      (2, p.flags.toNat), (2, p.valOff.toNat), (2, r.value.length)]),
    (p.start nodeHeader + p.keyOff.toNat, r.key),
    (p.start nodeHeader + p.valOff.toNat, r.value)]

/-- A record of another type, a directory whose name is outside the BMP, and a file. -/
def sampleRecords : List (Placement × DirRecord) :=
  [(⟨0xffff0200, 0x40, 0x10, 0, 0x40⟩, .nonEntry [0x10, 0x00] [] (by decide)),
    (⟨0xffff0300, 0x88, 0x10, 0, 0x40⟩, .entry "𝄞" (.directory {
      objectId := 0x701
      reserved8 := Vector.replicate 8 0
      created := 1
      modified := 2
      changed := 3
      accessed := 4
      reserved48 := Vector.replicate 16 0
      attributes := 0x10
      reserved68 := Vector.replicate 4 0 })),
    (⟨0xffff0400, 0xc0, 0x10, 0, 0x40⟩, .entry "a" (.file {
      created := 5
      modified := 6
      changed := 7
      accessed := 8
      attributes := 0x20
      reserved36 := Vector.replicate 28 0
      size := 9
      allocated := 4096
      reserved80 := Vector.replicate 48 0 }))]

def sampleWrites : List (ℕ × List UInt8) :=
  [(0x50, toLeBytes 4 0xb0), (0x110, toLeBytes 4 0x100), (0x114, toLeBytes 4 3)] ++
    sampleRecords.zipIdx.flatMap fun r => r.1.1.writes 0x100 (0x200 + r.2 * 4) r.1.2

def samplePage : Slice .w64 where
  len := 16384
  len_le := by decide
  byte i := (sampleWrites.findSome? fun w =>
    if w.1 ≤ i.1 then w.2[i.1 - w.1]? else none).getD 0

theorem samplePage_laidOut : LaidOut samplePage 0x100 0x200 sampleRecords where
  len := rfl
  nodeHeader_ge := by decide
  nodeHeader_le := by decide
  nodeHeaderField := by decide +kernel
  recordOffsets_ge := by decide
  recordOffsets_le := by decide
  recordOffsetsField := by decide +kernel
  countField := by decide +kernel
  placed := by
    intro i p r hi
    have hlt : i < 3 := (List.getElem?_eq_some_iff.1 hi).1
    interval_cases i
    all_goals
      obtain ⟨rfl, rfl⟩ := Prod.mk.inj (Option.some.inj hi)
      exact ⟨by decide +kernel, by decide +kernel, by decide +kernel, by decide +kernel⟩

/-- The page parses to its two entries, each with its name. -/
theorem samplePage_parsed :
    LaidOut samplePage 0x100 0x200 sampleRecords ∧
      (parseDirectory samplePage).map (·.map DirEntry.name) = .ok ["𝄞", "a"] := by
  refine ⟨samplePage_laidOut, ?_⟩
  rw [parseDirectory_laidOut samplePage_laidOut]
  rfl

end RefsForensic
