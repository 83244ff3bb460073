import RefsForensic.Checked.Blocks
import RefsForensic.Core.Container
import RefsForensic.Core.Rows

/-!
# Minstore pages, tables and the resolver, with overflow checks

`core/src/minstore.rs` and `container.rs` as computations that may panic. The raw sums of a row are
safe because its slot lies in the clamped record-offset array and its 14-byte header in the page;
those of the resident scan, because a cluster of the image starts within it. A division by a
non-zero constant is written as it is.
-/

namespace RefsForensic.Checked

open Rust Exec

variable {T : Target}

/-! ## Minstore pages -/

namespace MinstorePage

/-- `MinstorePage::parse`. -/
def parse (data : Slice T) : Exec (Except RefsError (MinstorePage T)) :=
  if data.len < nodeHeaderOffsetField + 4 then
    .ok (.error (.truncated "Minstore node-header-offset field" (nodeHeaderOffsetField + 4)
      data.len))
  else do
    let rel ← leU32 data nodeHeaderOffsetField
    let nodeHeader := saturatingAdd T.usizeMax nodeHeaderOffsetField rel.1
    if h : nodeHeader + nodeHeaderLen ≤ T.usizeMax ∧ nodeHeader + nodeHeaderLen ≤ data.len then do
      let level := u8At data (← add T.usizeMax nodeHeader 12)
      let flags := u8At data (← add T.usizeMax nodeHeader 13)
      let roffRel ← leU32 data (← add T.usizeMax nodeHeader 16)
      let claimed ← leU32 data (← add T.usizeMax nodeHeader 20)
      let recordOffsets := saturatingAdd T.usizeMax nodeHeader roffRel.1
      let capacity := saturatingSub data.len recordOffsets / 4
      .ok (.ok {
        page := data
        nodeHeader
        level
        flags
        recordOffsets
        recordCount := min (min claimed.1 capacity) maxRecords
        nodeHeader_le := h.2
        recordCount_le := (min_le_left _ _).trans (min_le_right _ _)
        recordCount_le_max := min_le_right _ _ })
    else
      .ok (.error (.truncated "Minstore node header"
        (saturatingAdd T.usizeMax nodeHeader nodeHeaderLen) data.len))

/-- `MinstorePage::row`. -/
def row (node : MinstorePage T) (i : ℕ) : Exec (Option (MinstoreRow T)) :=
  tryOption (checkedMul T.usizeMax i 4) fun slot =>
  tryOption (checkedAdd T.usizeMax node.recordOffsets slot) fun offPos => do
  let raw ← leU32 node.page offPos
  tryOption (checkedAdd T.usizeMax node.nodeHeader (raw.1 &&& 0xffff)) fun record =>
  tryOption (checkedAdd T.usizeMax record 14) fun headerEnd =>
  if node.page.len < headerEnd then .ok none
  else do
    let keyOff ← leU16 node.page (← add T.usizeMax record 4)
    let keyLen ← leU16 node.page (← add T.usizeMax record 6)
    let flags ← leU16 node.page (← add T.usizeMax record 8)
    let valOff ← leU16 node.page (← add T.usizeMax record 10)
    let valLen ← leU16 node.page (← add T.usizeMax record 12)
    tryOption (checkedAdd T.usizeMax record keyOff.1) fun keyStart =>
    tryOption (checkedAdd T.usizeMax keyStart keyLen.1) fun keyEnd =>
    tryOption (checkedAdd T.usizeMax record valOff.1) fun valStart =>
    tryOption (checkedAdd T.usizeMax valStart valLen.1) fun valEnd =>
    tryOption (node.page.getRange keyStart keyEnd) fun key =>
    tryOption (node.page.getRange valStart valEnd) fun value =>
    .ok (some { key, value, flags := flags.1 })

/-- `MinstorePage::rows`. -/
def rows (node : MinstorePage T) : Exec (List (MinstoreRow T)) :=
  (List.range node.recordCount).filterMapM (row node)

theorem parse_ok (data : Slice T) : parse data = .ok (RefsForensic.MinstorePage.parse data) := by
  have hT := T.le_usizeMax
  have hlen := data.len_le
  have hmax := T.isizeMax_lt_usizeMax
  unfold parse RefsForensic.MinstorePage.parse
  refine ite_ok (fun _ => rfl) fun _ => ?_
  apply bind_ok (leU32_ok (by unfold nodeHeaderOffsetField; omega))
  dsimp only
  split_ifs with h
  · have hhdr : nodeHeaderLen = 32 := rfl
    refine bind_ok (add_ok (by omega)) <| bind_ok (add_ok (by omega)) <|
      bind_ok (add_ok (by omega)) <| bind_ok (leU32_ok (by omega)) <|
      bind_ok (add_ok (by omega)) <| bind_ok (leU32_ok (by omega)) rfl
  · rfl

theorem row_ok {node : MinstorePage T} {i : ℕ} (hi : i < node.recordCount) :
    row node i = .ok (node.row i) := by
  have hslot := node.slot_le hi
  have hlen := node.page.len_le
  have hmax := T.isizeMax_lt_usizeMax
  unfold row RefsForensic.MinstorePage.row
  refine tryOption_ok fun slot hs => tryOption_ok fun offPos ho => ?_
  obtain ⟨-, rfl⟩ := checkedMul_eq_some.1 hs
  obtain ⟨-, rfl⟩ := checkedAdd_eq_some.1 ho
  apply bind_ok (leU32_ok (by omega))
  refine tryOption_ok fun record _ => tryOption_ok fun headerEnd he => ?_
  obtain ⟨-, rfl⟩ := checkedAdd_eq_some.1 he
  refine ite_ok (fun _ => rfl) fun hin => ?_
  refine bind_ok (add_ok (by omega)) <| bind_ok (leU16_ok (by omega)) <|
    bind_ok (add_ok (by omega)) <| bind_ok (leU16_ok (by omega)) <|
    bind_ok (add_ok (by omega)) <| bind_ok (leU16_ok (by omega)) <|
    bind_ok (add_ok (by omega)) <| bind_ok (leU16_ok (by omega)) <|
    bind_ok (add_ok (by omega)) <| bind_ok (leU16_ok (by omega)) ?_
  exact tryOption_ok fun keyStart _ => tryOption_ok fun keyEnd _ => tryOption_ok fun valStart _ =>
    tryOption_ok fun valEnd _ => tryOption_ok fun key _ => tryOption_ok fun value _ => rfl

theorem rows_ok (node : MinstorePage T) : rows node = .ok node.rows :=
  filterMapM_ok fun _ hi => row_ok (List.mem_range.1 hi)

end MinstorePage

/-! ## The object table -/

/-- `ObjectTable::parse`. -/
def ObjectTable.parse (data : Slice T) : Exec (Except RefsError (ObjectTable T)) := do
  let node ← MinstorePage.parse data
  .ok (node.map ObjectTable.mk)

/-- The closure of `ObjectTable::lookup`. -/
def ObjectTable.lookupRow (objectId : ℕ) (row : MinstoreRow T) : Exec (Option PageRef) :=
  tryOption (row.key.getRange RefsForensic.ObjectTable.keyIdOffset
    (RefsForensic.ObjectTable.keyIdOffset + 8)) fun idBytes => do
  let id ← leU64 idBytes 0
  if id.1 ≠ objectId then .ok none
  else
    tryOption (row.value.getRange RefsForensic.ObjectTable.valueBlockRefOffset
      (RefsForensic.ObjectTable.valueBlockRefOffset + 8)) fun b => do
    let block ← leU64 b 0
    .ok (some { blockNumber := block.1 })

/-- `ObjectTable::lookup`. -/
def ObjectTable.lookup (table : ObjectTable T) (objectId : ℕ) : Exec (Option PageRef) := do
  (← MinstorePage.rows table.node).findSomeM? (lookupRow objectId)

theorem ObjectTable.parse_ok (data : Slice T) :
    ObjectTable.parse data = .ok (RefsForensic.ObjectTable.parse data) :=
  bind_ok (MinstorePage.parse_ok data) rfl

theorem ObjectTable.lookupRow_ok (objectId : ℕ) (row : MinstoreRow T) :
    ObjectTable.lookupRow objectId row =
      .ok (RefsForensic.ObjectTable.lookupRow objectId row) := by
  have hT := T.le_usizeMax
  unfold ObjectTable.lookupRow RefsForensic.ObjectTable.lookupRow
  refine tryOption_ok fun idBytes _ => bind_ok (leU64_ok (by omega)) ?_
  refine ite_ok (fun _ => rfl) fun _ => ?_
  cases row.value.getRange RefsForensic.ObjectTable.valueBlockRefOffset
    (RefsForensic.ObjectTable.valueBlockRefOffset + 8) with
  | none =>
    rfl
  | some b =>
    exact bind_ok (leU64_ok (by omega)) rfl

theorem ObjectTable.lookup_ok (table : ObjectTable T) (objectId : ℕ) :
    ObjectTable.lookup table objectId = .ok (table.lookup objectId) :=
  bind_ok (MinstorePage.rows_ok _) (findSomeM?_ok fun row _ => lookupRow_ok objectId row)

/-! ## The container table -/

/-- The closure of `ContainerTable::records`. -/
def ContainerTable.recordOfRow (row : MinstoreRow T) : Exec (Option ContainerRecord) :=
  if row.value.len < containerRecordValueLen then .ok none
  else do
    let bandId ← leU64 row.value 0
    let physicalLcn ← leU64 row.value containerLcnOffset
    let clusterCount ← leU64 row.value containerClusterCountOffset
    .ok (some {
      bandId := bandId.1
      physicalLcn := physicalLcn.1
      clusterCount := clusterCount.1 })

/-- `ContainerTable::records`. -/
def ContainerTable.records (table : ContainerTable T) : Exec (List ContainerRecord) := do
  (← MinstorePage.rows table.node).filterMapM recordOfRow

theorem ContainerTable.records_ok (table : ContainerTable T) :
    ContainerTable.records table = .ok table.records := by
  have hT := T.le_usizeMax
  refine bind_ok (MinstorePage.rows_ok _) (filterMapM_ok fun row _ => ?_)
  unfold recordOfRow RefsForensic.ContainerTable.recordOfRow
  refine ite_ok (fun _ => rfl) fun _ => ?_
  exact bind_ok (leU64_ok (by omega)) <|
    bind_ok (leU64_ok (by unfold containerLcnOffset; omega)) <|
    bind_ok (leU64_ok (by unfold containerClusterCountOffset; omega)) rfl

/-! ## The resolver -/

/-- `decompose_virtual_block`. -/
def decomposeVirtualBlock (vblock bandClusters : ℕ) : Exec (ℕ × ℕ) :=
  if bandClusters = 0 then .ok (vblock, 0)
  else do
    let index ← div vblock bandClusters
    let off ← rem vblock bandClusters
    .ok (index, off)

theorem decomposeVirtualBlock_ok (vblock bandClusters : ℕ) :
    decomposeVirtualBlock vblock bandClusters =
      .ok (RefsForensic.decomposeVirtualBlock vblock bandClusters) :=
  ite_ok (fun _ => rfl) fun h => bind_ok (div_ok h) (bind_ok (rem_ok h) rfl)

namespace ContainerResolver

/-- The scan loop of `ContainerResolver::from_resident_image`. -/
def scan (image : Slice T) (bandClusters : ℕ) : List ℕ → List (ℕ × ℕ) → Exec (List (ℕ × ℕ))
  | [], base => .ok base
  | c :: cs, base => do
    let off ← mul T.usizeMax c refsClusterSize
    let pageEnd ← add T.usizeMax off refsMetadataPageSize
    if image.len < pageEnd then .ok base
    else
      let signature ← slice image off (← add T.usizeMax off 4)
      if signature.toList ≠ msbSignature then scan image bandClusters cs base
      else
        let selfBlock ← leU64 image (← add T.usizeMax off selfBlockOffset)
        let (idx, offInBand) ← decomposeVirtualBlock selfBlock.1 bandClusters
        match checkedSub c offInBand with
        | none => scan image bandClusters cs base
        | some bandBase =>
          if base.any fun p => p.1 = idx then scan image bandClusters cs base
          else scan image bandClusters cs (base ++ [(idx, bandBase)])

/-- `ContainerResolver::from_resident_image`. -/
def fromResidentImage (image : Slice T) (bandClusters : ℕ) : Exec ContainerResolver :=
  if bandClusters = 0 then .ok { bandClusters, base := [] }
  else do
    let base ← scan image bandClusters (List.range (image.len / refsClusterSize)) []
    .ok { bandClusters, base }

/-- `ContainerResolver::resolve_virtual`. -/
def resolveVirtual (resolver : ContainerResolver) (vblock : ℕ) : Exec (Option ℕ) := do
  let (idx, off) ← decomposeVirtualBlock vblock resolver.bandClusters
  .ok (((resolver.baseOf idx).bind fun base => checkedAdd u64Max base off).bind fun cluster =>
    checkedMul u64Max cluster refsClusterSize)

/-- A page at `off` in bounds: its signature and its number are read from the image. -/
theorem scan_ok (image : Slice T) (bandClusters : ℕ) {cs : List ℕ} (base : List (ℕ × ℕ))
    (hcs : ∀ c ∈ cs, c * refsClusterSize ≤ image.len) :
    scan image bandClusters cs base =
      .ok (RefsForensic.ContainerResolver.scan image bandClusters cs base) := by
  induction cs generalizing base with
  | nil => rfl
  | cons c cs ih =>
    have hlen := image.len_le
    have hroom := T.isizeMax_add_le
    have hc := hcs c (by simp)
    have ih := fun base => ih base fun d hd => hcs d (by simp [hd])
    have hpage : refsMetadataPageSize = 16384 := rfl
    have hself : selfBlockOffset = 0x20 := rfl
    unfold scan RefsForensic.ContainerResolver.scan
    refine bind_ok (mul_ok (by omega)) <| bind_ok (add_ok (by omega)) ?_
    refine ite_ok (fun _ => rfl) fun hin => ?_
    rcases hs : image.getRange (c * refsClusterSize) (c * refsClusterSize + 4) with _ | s
    · exact absurd ⟨by omega, by omega⟩ (Slice.getRange_eq_none.1 hs)
    refine bind_ok (add_ok (by omega)) <| bind_ok (slice_ok hs) ?_
    simp only [Option.map_some, ne_eq, Option.some.injEq]
    refine ite_ok (fun _ => ih base) fun _ => ?_
    refine bind_ok (add_ok (by omega)) <| bind_ok (leU64_ok (by omega)) <|
      bind_ok (decomposeVirtualBlock_ok ..) ?_
    dsimp only [RefsForensic.ContainerResolver.witness]
    cases checkedSub c (RefsForensic.decomposeVirtualBlock _ bandClusters).2 with
    | none =>
      exact ih base
    | some bandBase =>
      exact ite_ok (fun _ => ih base) fun _ => ih _

theorem fromResidentImage_ok (image : Slice T) (bandClusters : ℕ) :
    fromResidentImage image bandClusters =
      .ok (RefsForensic.ContainerResolver.fromResidentImage image bandClusters) := by
  unfold fromResidentImage RefsForensic.ContainerResolver.fromResidentImage
  by_cases hb : bandClusters = 0
  · simp [hb]
  · simp only [hb, if_false]
    refine bind_ok (scan_ok image bandClusters [] fun c hc => ?_) rfl
    have hc := List.mem_range.1 hc
    exact (Nat.mul_le_mul_right _ hc.le).trans (Nat.div_mul_le_self _ _)

theorem resolveVirtual_ok (resolver : ContainerResolver) (vblock : ℕ) :
    resolveVirtual resolver vblock = .ok (resolver.resolveVirtual vblock) := by
  apply bind_ok (decomposeVirtualBlock_ok ..)
  simp only [RefsForensic.ContainerResolver.resolveVirtual, Option.bind_eq_bind, Option.bind_assoc]

end ContainerResolver

end RefsForensic.Checked
