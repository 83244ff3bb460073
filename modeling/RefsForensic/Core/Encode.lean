import RefsForensic.Core.Headers
import RefsForensic.Core.Writes

/-!
# Writing a page

The inverse of `MinstorePage::parse` and `MinstorePage::rows`: `MetaPage.encode` lays any records
that fit a metadata page out on one, the slots behind the node header and the records behind the
slots. What is written is read back: the header fields and, in order, the records (`encode_parse`).
-/

namespace RefsForensic

open Rust

variable {T : Target}

/-- A key, a value and the flags of a record. -/
structure Record where
  key : List UInt8
  value : List UInt8
  flags : UInt16

namespace Record

/-- The bytes a record takes, with its 14-byte header. -/
def size (r : Record) : ℕ := 14 + r.key.length + r.value.length

def bytes (r : Record) : List UInt8 :=
  layout [(4, r.size), (2, 14), (2, r.key.length), (2, r.flags.toNat), (2, 14 + r.key.length),
    (2, r.value.length)] ++ r.key ++ r.value

/-- What a row of the record says. -/
def contents (r : Record) : List UInt8 × List UInt8 × ℕ := (r.key, r.value, r.flags.toNat)

@[simp] theorem length_bytes (r : Record) : r.bytes.length = r.size := by
  simp only [bytes, layout_cons, layout_nil, List.length_append, length_toLeBytes, List.length_nil,
    size]

/-- Where a record starts whose slot points `off` bytes behind the node header. -/
def placement (off : ℕ) (r : Record) : Placement where
  slot := UInt32.ofNat (0xffff0000 + off)
  size := UInt32.ofNat r.size
  keyOff := 14
  flags := r.flags
  valOff := UInt16.ofNat (14 + r.key.length)

end Record

/-- The bytes `count` records take. -/
def recordsSize (rs : List Record) : ℕ := (rs.map Record.size).sum

@[simp] theorem recordsSize_nil : recordsSize [] = 0 := rfl

@[simp] theorem recordsSize_cons (r : Record) (rs : List Record) :
    recordsSize (r :: rs) = r.size + recordsSize rs := rfl

/-- The slots of records that follow one another from `off` behind the node header. -/
def slotBytes : ℕ → List Record → List UInt8
  | _, [] => []
  | off, r :: rs => toLeBytes 4 (0xffff0000 + off) ++ slotBytes (off + r.size) rs

@[simp] theorem length_slotBytes (off : ℕ) (rs : List Record) :
    (slotBytes off rs).length = rs.length * 4 := by
  induction rs generalizing off with
  | nil => rfl
  | cons r rs ih =>
    rw [slotBytes, List.length_append, length_toLeBytes, ih, List.length_cons]
    ring

@[simp] theorem length_flatMap_bytes (rs : List Record) :
    (rs.flatMap Record.bytes).length = recordsSize rs := by
  induction rs with
  | nil => rfl
  | cons r rs ih => rw [List.flatMap_cons, List.length_append, ih, Record.length_bytes,
      recordsSize_cons]

/-- The records with their placements. -/
def placeRecords : ℕ → List Record → List (Placement × List UInt8 × List UInt8)
  | _, [] => []
  | off, r :: rs => (r.placement off, r.key, r.value) :: placeRecords (off + r.size) rs

@[simp] theorem length_placeRecords (off : ℕ) (rs : List Record) :
    (placeRecords off rs).length = rs.length := by
  induction rs generalizing off with
  | nil => rfl
  | cons r rs ih => rw [placeRecords, List.length_cons, ih, List.length_cons]

theorem placeRecords_contents (off : ℕ) (rs : List Record) :
    (placeRecords off rs).map (fun p => (p.2.1, p.2.2, p.1.flags.toNat)) =
      rs.map Record.contents := by
  induction rs generalizing off with
  | nil => rfl
  | cons r rs ih =>
    rw [placeRecords, List.map_cons, ih, List.map_cons]
    rfl

theorem placeRecords_keyValue (off : ℕ) (rs : List Record) :
    (placeRecords off rs).map (·.2) = rs.map fun r => (r.key, r.value) := by
  induction rs generalizing off with
  | nil => rfl
  | cons r rs ih => rw [placeRecords, List.map_cons, ih, List.map_cons]

/-! ## The record part -/

/-- A record whose slot and whose bytes are in place. -/
theorem recordAt_of_holds {page : Slice T} {nodeHeader slotPos off : ℕ} {r : Record}
    (hsize : off + r.size < 2 ^ 16) (hslot : page.Holds slotPos (toLeBytes 4 (0xffff0000 + off)))
    (hbytes : page.Holds (nodeHeader + off) r.bytes) :
    RecordAt page nodeHeader slotPos (r.placement off) r.key r.value := by
  have hr : r.size = 14 + r.key.length + r.value.length := rfl
  have hslotNat : (r.placement off).slot.toNat = 0xffff0000 + off :=
    (UInt32.toNat_ofNat_of_lt' (by change _ < 2 ^ 32; omega))
  have hsizeNat : (r.placement off).size.toNat = r.size :=
    (UInt32.toNat_ofNat_of_lt' (by change _ < 2 ^ 32; omega))
  have hvalNat : (r.placement off).valOff.toNat = 14 + r.key.length :=
    (UInt16.toNat_ofNat_of_lt' (by change _ < 2 ^ 16; omega))
  have hstart : (r.placement off).start nodeHeader = nodeHeader + off := by
    rw [Placement.start, hslotNat]
    omega
  rw [Record.bytes, Slice.holds_append, Slice.holds_append] at hbytes
  obtain ⟨⟨hheader, hkey⟩, hvalue⟩ := hbytes
  simp only [layout_cons, layout_nil, List.length_append, length_toLeBytes, List.length_nil,
    Nat.add_zero, Nat.reduceAdd] at hkey hvalue
  refine ⟨by rwa [hslotNat], ?_, ?_, ?_⟩
  · rw [hstart, hsizeNat, hvalNat]
    exact hheader
  · rw [hstart]
    exact hkey
  · rw [hstart, hvalNat]
    rwa [Nat.add_assoc, ← Nat.add_assoc off] at hvalue ⊢

/-- Slots in a row and records in a row place each record. -/
theorem placeRecords_placed {page : Slice T} {nodeHeader slotsAt off : ℕ} {rs : List Record}
    (hsize : off + recordsSize rs < 2 ^ 16) (hslots : page.Holds slotsAt (slotBytes off rs))
    (hbytes : page.Holds (nodeHeader + off) (rs.flatMap Record.bytes)) (i : ℕ) (p : Placement)
    (key value : List UInt8) (hi : (placeRecords off rs)[i]? = some (p, key, value)) :
    RecordAt page nodeHeader (slotsAt + i * 4) p key value := by
  induction rs generalizing slotsAt off i with
  | nil => cases hi
  | cons r rs ih =>
    rw [slotBytes, Slice.holds_append, length_toLeBytes] at hslots
    rw [List.flatMap_cons, Slice.holds_append, Record.length_bytes] at hbytes
    rw [recordsSize_cons] at hsize
    cases i with
    | zero =>
      cases hi
      rw [Nat.zero_mul, Nat.add_zero]
      exact recordAt_of_holds (by omega) hslots.1 hbytes.1
    | succ i =>
      rw [Nat.add_assoc nodeHeader] at hbytes
      have hrec := ih (by omega) hslots.2 hbytes.2 i hi
      rwa [show slotsAt + (i + 1) * 4 = slotsAt + 4 + i * 4 by ring]

/-! ## The page -/

/-- The fields of a page besides its records. -/
structure PageFields where
  number : UInt64
  tableId : UInt64
  level : UInt8
  flags : UInt8

def zeros (n : ℕ) : List UInt8 := List.replicate n 0

@[simp] theorem length_zeros (n : ℕ) : (zeros n).length = n := List.length_replicate

/-- The 80-byte block header. -/
def PageFields.blockHeader (h : PageFields) : List UInt8 :=
  msbSignature ++ zeros 28 ++ toLeBytes 8 h.number.toNat ++ zeros 32 ++
    toLeBytes 8 h.tableId.toNat

/-- The offset of the node header, and the 32-byte node header with the slots right behind it. -/
def PageFields.nodeHeader (h : PageFields) (count : ℕ) : List UInt8 :=
  toLeBytes 4 4 ++ zeros 12 ++ [h.level, h.flags] ++ zeros 2 ++ toLeBytes 4 32 ++
    toLeBytes 4 count ++ zeros 8

/-- The bytes of a page in use. -/
def usedSize (rs : List Record) : ℕ := 116 + rs.length * 4 + recordsSize rs

def PageFields.bytes (h : PageFields) (rs : List Record) : List UInt8 :=
  h.blockHeader ++ h.nodeHeader rs.length ++ slotBytes (32 + rs.length * 4) rs ++
    rs.flatMap Record.bytes ++ zeros (refsMetadataPageSize - usedSize rs)

theorem PageFields.length_bytes (h : PageFields) {rs : List Record}
    (hfits : usedSize rs ≤ refsMetadataPageSize) : (h.bytes rs).length = refsMetadataPageSize := by
  unfold usedSize at hfits
  simp only [bytes, blockHeader, nodeHeader, msbSignature, List.length_append, List.length_cons,
    List.length_nil, length_zeros, length_toLeBytes, length_slotBytes, length_flatMap_bytes,
    usedSize]
  omega

/-- What stands where on a written page. -/
structure PageHolds (page : Slice T) (h : PageFields) (rs : List Record) : Prop where
  signature : page.Holds 0 msbSignature
  number : page.Holds selfBlockOffset (toLeBytes 8 h.number.toNat)
  tableId : page.Holds 72 (toLeBytes 8 h.tableId.toNat)
  nodeHeaderField : page.Holds nodeHeaderOffsetField (toLeBytes 4 4)
  nodeType : page.Holds 96 [h.level, h.flags]
  recordOffsetsField : page.Holds 100 (toLeBytes 4 32)
  countField : page.Holds 104 (toLeBytes 4 rs.length)
  slots : page.Holds 116 (slotBytes (32 + rs.length * 4) rs)
  records : page.Holds (116 + rs.length * 4) (rs.flatMap Record.bytes)
  rest : page.Holds (usedSize rs) (zeros (refsMetadataPageSize - usedSize rs))

theorem pageHolds_of_toList {page : Slice T} {h : PageFields} {rs : List Record}
    (hpage : page.toList = h.bytes rs) : PageHolds page h rs := by
  have hholds := hpage ▸ page.holds_toList
  simp only [PageFields.bytes, PageFields.blockHeader, PageFields.nodeHeader, msbSignature,
    Slice.holds_append, List.length_append, List.length_cons, List.length_nil, length_zeros,
    length_toLeBytes, length_slotBytes, length_flatMap_bytes, Nat.zero_add, Nat.reduceAdd]
    at hholds
  obtain ⟨⟨⟨⟨⟨⟨⟨⟨hsig, -⟩, hnumber⟩, -⟩, htable⟩, ⟨⟨⟨⟨⟨hnode, -⟩, htype⟩, -⟩, hoffsets⟩, hcount⟩,
    -⟩, hslots⟩, hrecords⟩, hrest⟩ := hholds
  exact ⟨hsig, hnumber, htable, hnode, htype, hoffsets, hcount, hslots, hrecords, hrest⟩

theorem PageHolds.written {page : Slice T} {h : PageFields} {rs : List Record}
    (hpage : PageHolds page h rs) (hlen : page.len = refsMetadataPageSize)
    (hfits : usedSize rs ≤ refsMetadataPageSize) :
    Written page 84 116 (placeRecords (32 + rs.length * 4) rs) where
  len := hlen.le
  nodeHeader_ge := by decide
  nodeHeader_le := by rw [hlen]; decide
  nodeHeaderField := hpage.nodeHeaderField
  recordOffsets_ge := by decide
  recordOffsets_le := by
    rw [hlen, length_placeRecords]
    unfold usedSize at hfits
    omega
  recordOffsetsField := hpage.recordOffsetsField
  countField := by
    rw [length_placeRecords]
    exact hpage.countField
  placed := by
    unfold usedSize refsMetadataPageSize at hfits
    refine placeRecords_placed (by omega) hpage.slots ?_
    rw [show 84 + (32 + rs.length * 4) = 116 + rs.length * 4 by omega]
    exact hpage.records

/-- The page of the records `rs`. -/
def MetaPage.encode (h : PageFields) (rs : List Record)
    (hfits : usedSize rs ≤ refsMetadataPageSize) : MetaPage T where
  data := .ofList (h.bytes rs) <| by
    rw [h.length_bytes hfits]
    cases T <;> decide
  len_eq := h.length_bytes hfits
  signature := (pageHolds_of_toList (Slice.toList_ofList _ _)).signature

theorem encode_holds (h : PageFields) {rs : List Record}
    (hfits : usedSize rs ≤ refsMetadataPageSize) :
    PageHolds (MetaPage.encode (T := T) h rs hfits).data h rs :=
  pageHolds_of_toList (Slice.toList_ofList _ _)

@[simp] theorem encode_number (h : PageFields) {rs : List Record}
    (hfits : usedSize rs ≤ refsMetadataPageSize) :
    (MetaPage.encode (T := T) h rs hfits).number = h.number.toNat :=
  leU64_of_holds (encode_holds h hfits).number

/-- The bytes behind the records are zero. -/
theorem PageHolds.holds_zeros {page : Slice T} {h : PageFields} {rs : List Record}
    (hpage : PageHolds page h rs) {off n : ℕ} (hused : usedSize rs ≤ off)
    (hoff : off + n ≤ refsMetadataPageSize) : page.Holds off (zeros n) := by
  obtain ⟨hle, hbytes⟩ := Slice.holds_iff.1 hpage.rest
  simp only [length_zeros] at hle hbytes
  refine Slice.holds_iff.2 ⟨by rw [length_zeros]; omega, fun i hi => ?_⟩
  rw [length_zeros] at hi
  have hbyte := hbytes (off - usedSize rs + i) (by omega)
  rw [show usedSize rs + (off - usedSize rs + i) = off + i by omega] at hbyte
  rw [hbyte, zeros, zeros, List.getElem?_replicate_of_lt (by omega),
    List.getElem?_replicate_of_lt hi]

/-- A page with one cluster in use is a plain one. -/
theorem encode_plain (h : PageFields) {rs : List Record}
    (hfits : usedSize rs ≤ refsMetadataPageSize) (hused : usedSize rs ≤ refsClusterSize) :
    (MetaPage.encode (T := T) h rs hfits).Plain := by
  intro i hi hpos hsig
  have hused' : usedSize rs ≤ i * refsClusterSize :=
    hused.trans (Nat.le_mul_of_pos_left _ hpos)
  have hzeros := (encode_holds (T := T) h hfits).holds_zeros (n := 4) hused'
    (by unfold refsClusterSize refsMetadataPageSize; omega)
  have hbytes := bytesAt_of_holds hzeros
  rw [length_zeros, hsig] at hbytes
  cases hbytes

theorem encode_writable (h : PageFields) {rs : List Record}
    (hfits : usedSize rs ≤ refsMetadataPageSize) {len : ℕ} (haligned : 4 ∣ h.number.toNat)
    (hle : h.number.toNat * refsClusterSize + refsMetadataPageSize ≤ len)
    (hused : usedSize rs ≤ refsClusterSize) :
    (MetaPage.encode (T := T) h rs hfits).Writable len where
  aligned := by rwa [encode_number]
  fits := by rwa [encode_number]
  plain := encode_plain h hfits hused

/-- Written records as the rows of the node. -/
theorem Written.map_contents {page : Slice T} {nodeHeader recordOffsets : ℕ}
    {records : List (Placement × List UInt8 × List UInt8)}
    (h : Written page nodeHeader recordOffsets records) :
    ∃ node, MinstorePage.parse page = .ok node ∧ node.rows.map MinstoreRow.contents =
      records.map fun p => (p.2.1, p.2.2, p.1.flags.toNat) := by
  obtain ⟨node, hnode, hrows⟩ := h.rows
  refine ⟨node, hnode, ?_⟩
  have heq := List.forall₂_map_right_iff.2 (List.forall₂_map_left_iff.2
    (hrows.imp fun _ _ hcontents => hcontents.symm))
  rw [List.forall₂_eq_eq_eq] at heq
  exact heq.symm

/-! ## Rows by their keys and values -/

/-- The bytes of the key and the value of a row. -/
def MinstoreRow.keyValue (r : MinstoreRow T) : List UInt8 × List UInt8 :=
  (r.key.toList, r.value.toList)

/-- The rows are written on the page, each a key and a value. -/
def RowsWritten (page : Slice T) (rows : List (List UInt8 × List UInt8)) : Prop :=
  ∃ nodeHeader recordOffsets records, Written page nodeHeader recordOffsets records ∧
    records.map (·.2) = rows

theorem Written.map_keyValue {page : Slice T} {nodeHeader recordOffsets : ℕ}
    {records : List (Placement × List UInt8 × List UInt8)}
    (h : Written page nodeHeader recordOffsets records) :
    ∃ node, MinstorePage.parse page = .ok node ∧
      node.rows.map MinstoreRow.keyValue = records.map (·.2) := by
  obtain ⟨node, hnode, hrows⟩ := h.map_contents
  refine ⟨node, hnode, ?_⟩
  have hpairs := congrArg (List.map fun c : List UInt8 × List UInt8 × ℕ => (c.1, c.2.1)) hrows
  rw [List.map_map, List.map_map] at hpairs
  exact hpairs

theorem RowsWritten.exists_node {page : Slice T} {rows : List (List UInt8 × List UInt8)}
    (h : RowsWritten page rows) :
    ∃ node, MinstorePage.parse page = .ok node ∧ node.rows.map MinstoreRow.keyValue = rows := by
  obtain ⟨nodeHeader, recordOffsets, records, hwritten, rfl⟩ := h
  exact hwritten.map_keyValue

/-- What is found in the rows of a page is found in what the rows were written from. -/
theorem filterMap_rows {ρ β : Type} {rows : List (MinstoreRow T)} {rs : List ρ}
    {keyValue : ρ → List UInt8 × List UInt8} {f : MinstoreRow T → Option β} {g : ρ → Option β}
    (h : rows.map MinstoreRow.keyValue = rs.map keyValue)
    (hfg : ∀ row r, row.keyValue = keyValue r → f row = g r) :
    rows.filterMap f = rs.filterMap g := by
  induction rows generalizing rs with
  | nil =>
    rw [List.map_eq_nil_iff.1 h.symm]
    rfl
  | cons row rows ih =>
    cases rs with
    | nil => cases h
    | cons r rs =>
      rw [List.map_cons, List.map_cons, List.cons.injEq] at h
      rw [List.filterMap_cons, List.filterMap_cons, hfg row r h.1, ih h.2]

theorem encode_rowsWritten (h : PageFields) {rs : List Record}
    (hfits : usedSize rs ≤ refsMetadataPageSize) :
    RowsWritten (MetaPage.encode (T := T) h rs hfits).data (rs.map fun r => (r.key, r.value)) := by
  exact ⟨_, _, _, (encode_holds h hfits).written (MetaPage.encode h rs hfits).len_eq hfits,
    placeRecords_keyValue _ rs⟩

/-- The level and the flags of a written page. -/
theorem encode_nodeType (h : PageFields) {rs : List Record}
    (hfits : usedSize rs ≤ refsMetadataPageSize) {node : MinstorePage T}
    (hnode : MinstorePage.parse (MetaPage.encode h rs hfits).data = .ok node) :
    node.level = h.level ∧ node.flags = h.flags := by
  have hholds := encode_holds (T := T) h hfits
  have hspec := MinstorePage.parse_spec hnode
  have hmax := T.le_usizeMax
  have hat : MinstorePage.headerAt (MetaPage.encode (T := T) h rs hfits).data = 84 := by
    have hfield : leU32 (MetaPage.encode (T := T) h rs hfits).data nodeHeaderOffsetField = 4 :=
      leField_of_holds hholds.nodeHeaderField (by decide)
    rw [MinstorePage.headerAt, hfield]
    unfold saturatingAdd nodeHeaderOffsetField
    omega
  constructor
  · rw [hspec.level, hat]
    exact u8At_of_holds (i := 0) hholds.nodeType rfl
  · rw [hspec.flags, hat]
    exact u8At_of_holds (i := 1) hholds.nodeType rfl

/-- **The page round trip**: any records that fit a page are read back from it in order, each with
its key, its value and its flags, and so are the fields of the page. -/
theorem encode_parse (h : PageFields) (rs : List Record)
    (hfits : usedSize rs ≤ refsMetadataPageSize) :
    ∃ node, MinstorePage.parse (MetaPage.encode (T := T) h rs hfits).data = .ok node ∧
      (MetaPage.encode (T := T) h rs hfits).number = h.number.toNat ∧
      leU64 (MetaPage.encode (T := T) h rs hfits).data 72 = h.tableId.toNat ∧
      node.level = h.level ∧ node.flags = h.flags ∧
      node.rows.map MinstoreRow.contents = rs.map Record.contents := by
  have hholds := encode_holds (T := T) h hfits
  have hwritten := hholds.written (MetaPage.encode (T := T) h rs hfits).len_eq hfits
  obtain ⟨node, hnode, hrows⟩ := hwritten.map_contents
  obtain ⟨hlevel, hflags⟩ := encode_nodeType h hfits hnode
  refine ⟨node, hnode, encode_number h hfits, leU64_of_holds hholds.tableId, hlevel, hflags, ?_⟩
  rw [hrows, placeRecords_contents]

/-- Two records of different keys, values and flags. -/
def branchRecords : List Record := [⟨[1], [2, 3], 4⟩, ⟨[5, 6, 7], [], 8⟩]

theorem branchRecords_fit : usedSize branchRecords ≤ refsMetadataPageSize := by decide

/-- A branch page of level 2 with the two records. -/
def branchPage : MetaPage .w64 := .encode ⟨8, 0x600, 2, 1⟩ branchRecords branchRecords_fit

/-- The records are read back from the branch page, with its level and its flags. -/
theorem branchPage_parse :
    ∃ node, MinstorePage.parse branchPage.data = .ok node ∧ branchPage.number = 8 ∧
      leU64 branchPage.data 72 = 0x600 ∧ node.level = 2 ∧ node.flags = 1 ∧
      node.rows.map MinstoreRow.contents = [([1], [2, 3], 4), ([5, 6, 7], [], 8)] :=
  encode_parse ⟨8, 0x600, 2, 1⟩ branchRecords branchRecords_fit

theorem branchPage_number : branchPage.number = 8 := encode_number _ branchRecords_fit

theorem branchPage_plain : branchPage.Plain := encode_plain _ branchRecords_fit (by decide)

/-- The leaf of block `b` without records. -/
def emptyLeaf (b : UInt64) : MetaPage .w64 := .encode ⟨b, 0x600, 0, 0⟩ [] (by decide)

theorem emptyLeaf_number (b : UInt64) : (emptyLeaf b).number = b.toNat := encode_number _ _

theorem emptyLeaf_writable {b : UInt64} {len : ℕ} (haligned : 4 ∣ b.toNat)
    (hle : b.toNat * refsClusterSize + refsMetadataPageSize ≤ len) : (emptyLeaf b).Writable len :=
  encode_writable _ _ haligned hle (by decide)

end RefsForensic
