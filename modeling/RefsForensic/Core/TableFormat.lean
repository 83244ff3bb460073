import RefsForensic.Core.Banded
import RefsForensic.Core.Encode
import RefsForensic.Core.ObjectTableLaws

/-!
# The tables on disk

The object table and the container table as rows of fields. An object table reads as a list of
object ids and tree-root blocks of which the first entry of an id counts (`rootBlockOf_stored`), a
container table as the list of its container records (`containerRecords_written`). On a volume whose
pages lie where the container table puts their bands, the bootstrap from the resident pages and the
container table agree (`bootstrap_agrees_with_table`).
-/

namespace RefsForensic

open Rust

variable {T : Target}

/-! ## The object table -/

/-- A row of the object table: an object with its tree-root block, or a row too short to name
one. -/
inductive ObjectRow
  | object (keyFront : Vector UInt8 8) (id : UInt64) (keyRest : List UInt8)
      (valueFront : Vector UInt8 32) (block : UInt64) (valueRest : List UInt8)
  | other (key value : List UInt8) (h : key.length < 16 ∨ value.length < 40)

namespace ObjectRow

def keyValue : ObjectRow → List UInt8 × List UInt8
  | object keyFront id keyRest valueFront block valueRest =>
    (keyFront.toList ++ toLeBytes 8 id.toNat ++ keyRest,
      valueFront.toList ++ toLeBytes 8 block.toNat ++ valueRest)
  | other key value _ => (key, value)

/-- The block a row names for object `id`. -/
def blockOf (id : ℕ) : ObjectRow → Option ℕ
  | object _ id' _ _ block _ => if id'.toNat = id then some block.toNat else none
  | other _ _ _ => none

end ObjectRow

/-- What the table says of an object id: the first row that names it counts. -/
def rootOf (rs : List ObjectRow) (id : ℕ) : Option ℕ := rs.findSome? (ObjectRow.blockOf id)

/-- The page at the object-table cluster holds the rows. -/
def TableStored (image : Slice T) (rs : List ObjectRow) : Prop :=
  ∃ page, image.getRange objectTableStart objectTableEnd = some page ∧
    RowsWritten page (rs.map ObjectRow.keyValue)

theorem lookupRow_of_keyValue {row : MinstoreRow T} {r : ObjectRow} (id : ℕ)
    (h : row.keyValue = r.keyValue) :
    ObjectTable.lookupRow id row = (r.blockOf id).map PageRef.mk := by
  cases r with
  | object keyFront id' keyRest valueFront block valueRest =>
    obtain ⟨hkey, hvalue⟩ := Prod.mk.inj h
    have hkeyHolds := hkey ▸ row.key.holds_toList
    have hvalueHolds := hvalue ▸ row.value.holds_toList
    simp only [Slice.holds_append, List.length_append, Vector.length_toList, Nat.zero_add]
      at hkeyHolds hvalueHolds
    have hkeyLe := hkeyHolds.1.2.le
    have hvalueLe := hvalueHolds.1.2.le
    rw [length_toLeBytes] at hkeyLe hvalueLe
    have hread : leU64 row.key ObjectTable.keyIdOffset = id'.toNat := leU64_of_holds hkeyHolds.1.2
    by_cases heq : id'.toNat = id
    · rw [ObjectRow.blockOf, if_pos heq, Option.map_some, lookupRow_eq_some]
      exact ⟨⟨hkeyLe, hread.trans heq, hvalueLe⟩, (leU64_of_holds hvalueHolds.1.2).symm⟩
    · rw [ObjectRow.blockOf, if_neg heq, Option.map_none, Option.eq_none_iff_forall_ne_some]
      rintro ⟨b⟩ hsome
      exact heq (hread.symm.trans (lookupRow_eq_some.1 hsome).1.2.1)
  | other key value hshort =>
    obtain ⟨rfl, rfl⟩ := Prod.mk.inj h
    rw [ObjectRow.blockOf, Option.map_none, Option.eq_none_iff_forall_ne_some]
    rintro ⟨b⟩ hsome
    obtain ⟨⟨hkeyLe, -, hvalueLe⟩, -⟩ := lookupRow_eq_some.1 hsome
    rw [Slice.length_toList, Slice.length_toList] at hshort
    unfold ObjectTable.keyIdOffset at hkeyLe
    unfold ObjectTable.valueBlockRefOffset at hvalueLe
    omega

/-- A lookup in written rows. -/
theorem lookup_of_rows {node : MinstorePage T} {rs : List ObjectRow}
    (h : node.rows.map MinstoreRow.keyValue = rs.map ObjectRow.keyValue) (id : ℕ) :
    (ObjectTable.mk node).lookup id = (rootOf rs id).map PageRef.mk := by
  have hrows := filterMap_rows h fun row r => lookupRow_of_keyValue id
  rw [ObjectTable.lookup, ← List.head?_filterMap, hrows, rootOf, ← List.head?_filterMap,
    ← List.head?_map, List.map_filterMap]

/-- The lookup of written rows stays in their page. -/
theorem staysWithin_of_written {data page : Slice T} {rows : List (List UInt8 × List UInt8)}
    (h : RowsWritten page rows) (hpage : page = data.take refsMetadataPageSize)
    (hlen : refsMetadataPageSize ≤ data.len) (id : ℕ) :
    StaysWithin data refsMetadataPageSize id := by
  obtain ⟨nodeHeader, recordOffsets, records, hwritten, -⟩ := h
  have hpageLen : page.len = refsMetadataPageSize := by rw [hpage, Slice.take_len, min_eq_left hlen]
  obtain ⟨cut, hcut, hof⟩ := exists_nodeOf hwritten.len
    (by rw [hwritten.node]; exact hwritten.nodeHeader_le)
  have hheader := (MinstorePage.exists_parse_iff.1 ⟨cut, hcut⟩).2
  have hspec := MinstorePage.parse_spec hcut
  rw [hpageLen, hpage, MinstorePage.headerAt_take (by decide)] at hheader
  refine ⟨hheader, fun node hnode i b hfirst => .inl ?_⟩
  have hnodeSpec := MinstorePage.parse_spec hnode
  obtain ⟨cut', hcut', hisCut⟩ := MinstorePage.parse_take hlen (by decide) hnode
    (by rw [hnodeSpec.nodeHeader]; exact hheader)
  obtain rfl := Except.ok.inj ((hpage ▸ hcut).symm.trans hcut')
  -- a record of the open-ended table is one the page claims
  have hclaimed : i < records.length := by
    have hlt := hfirst.lt
    have hcount : leU32 data (MinstorePage.headerAt data + 20) = records.length := by
      rw [← hwritten.claimed, PageRow.claimed, hwritten.node, ← hof.nodeHeader.trans hwritten.node,
        hspec.nodeHeader, hpage, MinstorePage.headerAt_take (by decide)]
      unfold nodeHeaderLen at hheader
      exact (leField_take data (by omega)).symm
    rw [hnodeSpec.recordCount, hcount] at hlt
    omega
  obtain ⟨r, hyields, -⟩ := hwritten.yields (List.getElem?_eq_getElem hclaimed)
  have hrow := hof.slotYields_iff.1 hyields
  exact ((hisCut.row_eq_some (by rw [hnodeSpec.page]; exact hlen)).1 hrow).2.1

/-- The object-table step answers as the stored rows do, though it parses the image to its end. -/
theorem rootBlockOf_stored {image : Slice T} {rs : List ObjectRow} (h : TableStored image rs)
    (id : ℕ) :
    rootBlockOf image id =
      match rootOf rs id with
      | some b => .ok b
      | none => .error (.objectIdNotFound id) := by
  obtain ⟨page, hpage, hwritten⟩ := h
  obtain ⟨node, hnode, hrows⟩ := hwritten.exists_node
  have hlong := (Slice.getRange_eq_some.1 hpage).choose.2
  have hin : TableInPage image id := by
    intro data hdata
    have hlen := Slice.len_of_getRange hdata
    have hle : refsMetadataPageSize ≤ data.len := by
      unfold objectTableEnd at hlong
      omega
    have htake := Slice.getRange_of_getFrom hdata hle
    exact .inr (staysWithin_of_written hwritten (Option.some.inj (hpage.symm.trans htake)) hle id)
  rw [(rootBlockOf_take_iff hlong id).2 hin, rootBlockOf_take hpage, rootBlockIn_of_parse hnode,
    lookup_of_rows hrows]
  cases rootOf rs id with
  | none => rfl
  | some b => rfl

theorem rootOf_eq_some {image : Slice T} {rs : List ObjectRow} (h : TableStored image rs)
    {id b : ℕ} (hroot : rootBlockOf image id = .ok b) : rootOf rs id = some b := by
  rw [rootBlockOf_stored h] at hroot
  cases hrow : rootOf rs id with
  | none =>
    rw [hrow] at hroot
    cases hroot
  | some b' =>
    rw [hrow] at hroot
    exact congrArg some (Except.ok.inj hroot)

/-- The store has a page on which the rows are written at the object-table cluster. -/
def TableWritten (st : Store T) (rs : List ObjectRow) : Prop :=
  ∃ p, st objectTableCluster = some p ∧ RowsWritten p.data (rs.map ObjectRow.keyValue)

theorem TableWritten.stored {image : Slice T} {rs : List ObjectRow}
    (h : TableWritten (residentPage image) rs) : TableStored image rs := by
  obtain ⟨p, hpage, hrows⟩ := h
  exact ⟨p.data, residentPage_eq_some.1 hpage, hrows⟩

/-- **The object table under writes**: after any run that leaves the page of a table in place, the
object-table step answers every object id as the rows do. -/
theorem rootBlockOf_written {image image' : Slice T} {ws : List (Write T)}
    (hrun : Run image ws image') {rs : List ObjectRow}
    (h : TableWritten ((residentPage image).putAll ws) rs) (id : ℕ) :
    rootBlockOf image' id =
      match rootOf rs id with
      | some b => .ok b
      | none => .error (.objectIdNotFound id) := by
  rw [← hrun.store] at h
  exact rootBlockOf_stored h.stored id

def ObjectRow.record (r : ObjectRow) : Record := ⟨r.keyValue.1, r.keyValue.2, 0⟩

/-- The row that names tree-root block `b` for object `id`. -/
def plainRow (id b : UInt64) : ObjectRow :=
  .object (Vector.replicate 8 0) id [] (Vector.replicate 32 0) b []

/-- The object-table page. -/
def tablePage (rows : List ObjectRow)
    (hfits : usedSize (rows.map ObjectRow.record) ≤ refsMetadataPageSize) : MetaPage .w64 :=
  .encode ⟨56, 2, 0, 0⟩ (rows.map ObjectRow.record) hfits

theorem tablePage_number {rows : List ObjectRow}
    (hfits : usedSize (rows.map ObjectRow.record) ≤ refsMetadataPageSize) :
    (tablePage rows hfits).number = 56 := encode_number _ hfits

theorem tablePage_tableId {rows : List ObjectRow}
    (hfits : usedSize (rows.map ObjectRow.record) ≤ refsMetadataPageSize) :
    leU64 (tablePage rows hfits).data 72 = 2 := by
  have h := (encode_holds (T := .w64) ⟨56, 2, 0, 0⟩ hfits).tableId
  exact leU64_of_holds h

theorem tablePage_writable {rows : List ObjectRow}
    (hfits : usedSize (rows.map ObjectRow.record) ≤ refsMetadataPageSize)
    (hused : usedSize (rows.map ObjectRow.record) ≤ refsClusterSize) :
    (tablePage rows hfits).Writable blankVolume.len :=
  encode_writable _ hfits (by decide) (by decide) hused

theorem tablePage_rows {rows : List ObjectRow}
    (hfits : usedSize (rows.map ObjectRow.record) ≤ refsMetadataPageSize) :
    RowsWritten (tablePage rows hfits).data (rows.map ObjectRow.keyValue) := by
  have h := encode_rowsWritten (T := .w64) ⟨56, 2, 0, 0⟩ hfits
  rw [List.map_map] at h
  exact h

theorem tablePage_written {st : Store .w64} {rows : List ObjectRow}
    {hfits : usedSize (rows.map ObjectRow.record) ≤ refsMetadataPageSize}
    (h : st objectTableCluster = some (tablePage rows hfits)) : TableWritten st rows :=
  ⟨_, h, tablePage_rows hfits⟩

/-- A row too short to name an object, and two rows for the root directory. -/
def repeatedRows : List ObjectRow :=
  [.other [1] [2] (.inl (by decide)), plainRow 0x600 8, plainRow 0x600 12]

theorem repeatedRows_fit : usedSize (repeatedRows.map ObjectRow.record) ≤ refsMetadataPageSize := by
  decide

/-- The first row of the root directory is found behind the short row, and no row of another
directory. -/
theorem repeatedRows_found : ∃ image,
    Run blankVolume (ownWrites [tablePage repeatedRows repeatedRows_fit]) image ∧
      rootBlockOf image 0x600 = .ok 8 ∧
      rootBlockOf image 0x701 = .error (.objectIdNotFound 0x701) := by
  have htable : (tablePage repeatedRows repeatedRows_fit).Writable blankVolume.len :=
    tablePage_writable _ (by decide)
  obtain ⟨image, hrun, -⟩ := exists_run_own blankVolume_aligned
    (show ∀ p ∈ [_], _ by simpa using htable)
  have hpage : (residentPage blankVolume).putAll
      (ownWrites [tablePage repeatedRows repeatedRows_fit]) objectTableCluster =
        some (tablePage repeatedRows repeatedRows_fit) :=
    Store.putAll_own (by simp) List.mem_cons_self (tablePage_number _)
  have hfound := rootBlockOf_written hrun (tablePage_written hpage)
  exact ⟨image, hrun, (hfound 0x600).trans rfl, (hfound 0x701).trans rfl⟩

/-! ## The container table -/

/-- A row of the container table: a container record, or a row with a value too short for one. -/
inductive ContainerRow
  | container (key : List UInt8) (bandId : UInt64) (reserved : Vector UInt8 136) (lcn : UInt64)
      (count : UInt64) (valueRest : List UInt8)
  | other (key value : List UInt8) (h : value.length < containerRecordValueLen)

namespace ContainerRow

def keyValue : ContainerRow → List UInt8 × List UInt8
  | container key bandId reserved lcn count valueRest =>
    (key, toLeBytes 8 bandId.toNat ++ reserved.toList ++ toLeBytes 8 lcn.toNat ++
      toLeBytes 8 count.toNat ++ valueRest)
  | other key value _ => (key, value)

/-- The record of a row. -/
def record : ContainerRow → Option ContainerRecord
  | container _ bandId _ lcn count _ => some ⟨bandId.toNat, lcn.toNat, count.toNat⟩
  | other _ _ _ => none

end ContainerRow

theorem recordOfRow_of_keyValue {row : MinstoreRow T} {r : ContainerRow}
    (h : row.keyValue = r.keyValue) : ContainerTable.recordOfRow row = r.record := by
  cases r with
  | container key bandId reserved lcn count valueRest =>
    obtain ⟨-, hvalue⟩ := Prod.mk.inj h
    have hholds := hvalue ▸ row.value.holds_toList
    simp only [Slice.holds_append, List.length_append, length_toLeBytes, Vector.length_toList,
      Nat.zero_add, Nat.reduceAdd] at hholds
    obtain ⟨⟨⟨⟨hband, -⟩, hlcn⟩, hcount⟩, -⟩ := hholds
    have hle := hcount.le
    rw [length_toLeBytes] at hle
    rw [ContainerTable.recordOfRow, if_neg (by unfold containerRecordValueLen; omega),
      leU64_of_holds hband, show leU64 row.value containerLcnOffset = lcn.toNat from
        leU64_of_holds hlcn, show leU64 row.value containerClusterCountOffset = count.toNat from
        leU64_of_holds hcount]
    rfl
  | other key value hshort =>
    obtain ⟨-, rfl⟩ := Prod.mk.inj h
    rw [Slice.length_toList] at hshort
    rw [ContainerTable.recordOfRow, if_pos hshort, ContainerRow.record]

/-- `r` is the first of the records that carries the band id. -/
def FirstOfBand (records : List ContainerRecord) (bandId : ℕ) (r : ContainerRecord) : Prop :=
  ∃ before after, records = before ++ r :: after ∧ r.bandId = bandId ∧
    ∀ r' ∈ before, r'.bandId ≠ bandId

theorem find?_bandId {records : List ContainerRecord} {bandId : ℕ} {r : ContainerRecord} :
    records.find? (·.bandId = bandId) = some r ↔ FirstOfBand records bandId r := by
  rw [List.find?_eq_some_iff_append]
  simp only [decide_eq_true_eq, Bool.not_eq_eq_eq_not, Bool.not_true, decide_eq_false_iff_not]
  constructor
  · rintro ⟨hband, before, after, hsplit, hbefore⟩
    exact ⟨before, after, hsplit, hband, hbefore⟩
  · rintro ⟨before, after, hsplit, hband, hbefore⟩
    exact ⟨hband, before, after, hsplit, hbefore⟩

theorem exists_containerTable {page : Slice T} {rs : List ContainerRow}
    (h : RowsWritten page (rs.map ContainerRow.keyValue)) :
    ∃ table, ContainerTable.parse page = .ok table ∧
      table.records = rs.filterMap ContainerRow.record := by
  obtain ⟨node, hnode, hrows⟩ := h.exists_node
  exact ⟨⟨node⟩, map_eq_ok.2 ⟨node, hnode, rfl⟩,
    filterMap_rows hrows fun row r => recordOfRow_of_keyValue⟩

theorem physicalBase_eq_some {table : ContainerTable T} {bandId lcn : ℕ} :
    table.physicalBase bandId = some lcn ↔
      ∃ r, FirstOfBand table.records bandId r ∧ r.physicalLcn = lcn := by
  rw [ContainerTable.physicalBase, Option.map_eq_some_iff]
  simp only [find?_bandId]

/-- **The container-table round trip**: the records of a container page are those of the rows
written on it, in order, and the base and the size of a band are those of its first record. -/
theorem containerRecords_written {page : Slice T} {rs : List ContainerRow}
    (h : RowsWritten page (rs.map ContainerRow.keyValue)) :
    ∃ table, ContainerTable.parse page = .ok table ∧
      table.records = rs.filterMap ContainerRow.record ∧
      ∀ bandId,
        (∀ lcn, table.physicalBase bandId = some lcn ↔
          ∃ r, FirstOfBand (rs.filterMap ContainerRow.record) bandId r ∧ r.physicalLcn = lcn) ∧
        ∀ count, table.clusterCount bandId = some count ↔
          ∃ r, FirstOfBand (rs.filterMap ContainerRow.record) bandId r ∧
            r.clusterCount = count := by
  obtain ⟨table, htable, hrecords⟩ := exists_containerTable h
  refine ⟨table, htable, hrecords, fun bandId => ⟨fun lcn => ?_, fun count => ?_⟩⟩
  · rw [physicalBase_eq_some, hrecords]
  · rw [ContainerTable.clusterCount, hrecords, Option.map_eq_some_iff]
    simp only [find?_bandId]

/-- A row too short for a record, a band of 16384 clusters from cluster 0 on, another record of the
same band, and a second band. -/
def containerRows : List ContainerRow :=
  [.other [1] [2] (by decide), .container [] 0 (Vector.replicate 136 0) 0 16384 [],
    .container [] 0 (Vector.replicate 136 0) 99 100 [],
    .container [] 3 (Vector.replicate 136 0) 20000 16384 []]

def ContainerRow.pageRecord (r : ContainerRow) : Record := ⟨r.keyValue.1, r.keyValue.2, 0⟩

theorem containerRows_fit :
    usedSize (containerRows.map ContainerRow.pageRecord) ≤ refsMetadataPageSize := by
  decide +kernel

/-- The container-table page with the rows. -/
def containerPage : MetaPage .w64 :=
  .encode ⟨60, 11, 0, 0⟩ (containerRows.map ContainerRow.pageRecord) containerRows_fit

theorem containerPage_rows :
    RowsWritten containerPage.data (containerRows.map ContainerRow.keyValue) := by
  have h := encode_rowsWritten (T := .w64) ⟨60, 11, 0, 0⟩ containerRows_fit
  rw [List.map_map] at h
  exact h

def containerPageRecords : List ContainerRecord := [⟨0, 0, 16384⟩, ⟨0, 99, 100⟩, ⟨3, 20000, 16384⟩]

/-- The page gives the records of three rows, the first band is where its first record says, and the
second band has the size its record says. -/
theorem containerPage_records : ∃ table,
    ContainerTable.parse containerPage.data = .ok table ∧ table.records = containerPageRecords ∧
      table.physicalBase 0 = some 0 ∧ table.clusterCount 3 = some 16384 := by
  obtain ⟨table, hparse, hrecords, hbands⟩ := containerRecords_written containerPage_rows
  have hfirst : FirstOfBand containerPageRecords 0 ⟨0, 0, 16384⟩ := ⟨[], _, rfl, rfl, by simp⟩
  have hsecond : FirstOfBand containerPageRecords 3 ⟨3, 20000, 16384⟩ :=
    ⟨[⟨0, 0, 16384⟩, ⟨0, 99, 100⟩], [], rfl, rfl, by simp⟩
  exact ⟨table, hparse, hrecords, ((hbands 0).1 0).2 ⟨_, hfirst, rfl⟩,
    ((hbands 3).2 16384).2 ⟨_, hsecond, rfl⟩⟩

/-! ## The bootstrap and the table -/

/-- **The bootstrap agrees with the container table**: on a volume whose resident pages lie where
the table places the bands of their containers, a virtual block resolves, in bands of a size that is
not 0, exactly when its container has a resident page, the table places its band and the place
behind the base the table names is an offset within `u64`, and then to that place. -/
theorem bootstrap_agrees_with_table {image : Slice T} {table : ContainerTable T} {band : ℕ → ℕ}
    {k : ℕ} (hk : 0 < k)
    (hplaced : ∀ c p, residentPage image c = some p →
      ∃ lcn, table.physicalBase (band (p.number / k)) = some lcn ∧ c = lcn + p.number % k)
    (v off : ℕ) :
    (ContainerResolver.fromResidentImage image k).resolveVirtual v = some off ↔
      (∃ c p, residentPage image c = some p ∧ p.number / k = v / k) ∧
        ∃ lcn, table.physicalBase (band (v / k)) = some lcn ∧
          off = (lcn + v % k) * refsClusterSize ∧ off ≤ u64Max := by
  have hbanded : (residentPage image).Banded k
      fun idx => (table.physicalBase (band idx)).getD 0 := by
    intro c p hp
    obtain ⟨lcn, hlcn, hc⟩ := hplaced c p hp
    rw [bandCluster, hlcn, Option.getD_some, hc]
  rw [hbanded.resolveVirtual hk]
  refine and_congr_right fun ⟨c, p, hp, hidx⟩ => ?_
  obtain ⟨lcn, hlcn, -⟩ := hplaced c p hp
  rw [hidx] at hlcn
  simp only [bandCluster, hlcn, Option.getD_some, Option.some.injEq, exists_eq_left']

/-- A container table that places the lowest band at cluster 0 agrees with the bootstrap from a page
at cluster 8. -/
theorem emptyLeaf_agrees : ∃ (image : Slice .w64) (table : ContainerTable .w64),
    Run blankVolume (ownWrites [emptyLeaf 8]) image ∧
      ContainerTable.parse containerPage.data = .ok table ∧
      (ContainerResolver.fromResidentImage image 16384).resolveVirtual 9 = some (9 * 4096) := by
  have hleaf : (emptyLeaf 8).Writable blankVolume.len :=
    emptyLeaf_writable (by decide) (by decide)
  obtain ⟨image, hrun, -⟩ := exists_run_own blankVolume_aligned
    (show ∀ p ∈ [emptyLeaf 8], p.Writable blankVolume.len by simpa using hleaf)
  obtain ⟨table, hparse, hrecords⟩ := exists_containerTable containerPage_rows
  have hbase : table.physicalBase 0 = some 0 :=
    physicalBase_eq_some.2 ⟨⟨0, 0, 16384⟩, ⟨[], _, hrecords, rfl, by simp⟩, rfl⟩
  have hpage : residentPage image 8 = some (emptyLeaf 8) := by
    rw [hrun.store]
    exact Store.putAll_own (by simp) List.mem_cons_self (emptyLeaf_number 8)
  have honly : ∀ c p, residentPage image c = some p → c = 8 ∧ p.number = 8 := fun c p hp => by
    obtain ⟨hmem, rfl⟩ := hrun.of_blankVolume hp
    rw [List.mem_singleton.1 hmem]
    exact ⟨emptyLeaf_number 8, emptyLeaf_number 8⟩
  have hplaced : ∀ c p, residentPage image c = some p →
      ∃ lcn, table.physicalBase (id (p.number / 16384)) = some lcn ∧
        c = lcn + p.number % 16384 := fun c p hp => by
    obtain ⟨rfl, hnumber⟩ := honly c p hp
    exact ⟨0, by rw [hnumber]; exact hbase, by rw [hnumber]⟩
  exact ⟨image, table, hrun, hparse, (bootstrap_agrees_with_table (by decide) hplaced 9 _).2
    ⟨⟨8, emptyLeaf 8, hpage, by rw [emptyLeaf_number]; decide⟩, 0, hbase, rfl, by decide⟩⟩

end RefsForensic
