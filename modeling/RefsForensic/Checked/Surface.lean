import RefsForensic.Checked.Directory
import RefsForensic.Forensic.Residue

/-!
# The read and audit surface never panics

`forensic/src/lib.rs` as computations that may panic, and the theorem the layer is for: on both
pointer widths, every entry point of the reader and the analyzer returns on every input, with the
value of the model, and the descent spends at most 65 stack frames (`surface_never_panics`).
-/

namespace RefsForensic.Checked

open Rust Exec Forensic

variable {T : Target}

/-! ## The image auditor -/

/-- `check_checkpoints`. -/
def checkCheckpoints (out : List Anomaly) (superblockPage : Slice T) : Exec (List Anomaly) := do
  match ← Checkpoint.locationsFromSuperblock superblockPage with
  | .ok checkpoints =>
    if checkpoints = [] then
      .ok (out ++ [Anomaly.new (.checkpointDivergence zeroCheckpoints checkpoints)])
    else .ok out
  | .error _ => .ok out

/-- The superblock stage of `audit_image`. -/
def checkSuperblock (out : List Anomaly) (image : Slice T) (sbOff : ℕ) : Exec (List Anomaly) :=
  match headerAt image sbOff with
  | none => .ok out
  | some page =>
    if startsWith page supbSignature then
      let recorded := Forensic.leU64 page selfBlockOffset
      let out :=
        if recorded ≠ superblockBlockNumber then
          out ++ [Anomaly.new (.selfBlockMismatch "SUPB" recorded superblockBlockNumber sbOff)]
        else out
      checkCheckpoints out page
    else .ok out

/-- The loop of `sweep_resident_self_blocks`. -/
def sweepClusters (image : Slice T) (clusterSize residentCeiling : ℕ) :
    List ℕ → List Anomaly → Exec (List Anomaly)
  | [], out => .ok out
  | c :: cs, out => do
    let off ← mul T.usizeMax c clusterSize
    match blockAt image off with
    | none => .ok out
    | some page =>
      if ¬startsWith page msbSignature then sweepClusters image clusterSize residentCeiling cs out
      else
        let selfBlock := Forensic.leU64 page selfBlockOffset
        if selfBlock < residentCeiling ∧ selfBlock ≠ c then
          sweepClusters image clusterSize residentCeiling cs
            (out ++ [Anomaly.new (.selfBlockMismatch "MSB+" selfBlock c off)])
        else sweepClusters image clusterSize residentCeiling cs out

/-- `sweep_resident_self_blocks`. -/
def sweepResidentSelfBlocks (out : List Anomaly) (image : Slice T) (clusterSize : ℕ) :
    Exec (List Anomaly) :=
  if clusterSize = 0 then .ok out
  else do
    let clusters ← div image.len clusterSize
    sweepClusters image clusterSize clusters (List.range clusters) out

/-- `audit_image`. -/
def auditImage (image : Slice T) : Exec (List Anomaly) := do
  match ← BootSector.parse image with
  | .error _ =>
    let found ← bytesAt 8 image 3
    .ok (if found.1 ≠ refsSignature then [Anomaly.new (.bootSignatureInvalid found.1)] else [])
  | .ok boot =>
    let cluster := boot.clusterSize
    if cluster = 0 ∨ maxSaneClusterSize < cluster then
      .ok [Anomaly.new (.impossibleGeometry "cluster_size" cluster maxSaneClusterSize)]
    else
      let out ← checkSuperblock [] image boot.superblockOffset
      sweepResidentSelfBlocks out image cluster

/-- `audit_crc_range`. -/
def auditCrcRange (crc32c : List UInt8 → ℕ) (block : Slice T) (offset start stop stored : ℕ) :
    Exec (Option Anomaly) :=
  match MetaBlock.verifyCrc32c crc32c block start stop stored with
  | some true | none => .ok none
  | some false => .ok (some (Anomaly.new (.metadataCrcMismatch "caller-supplied range" offset 1)))

theorem checkCheckpoints_ok (out : List Anomaly) (superblockPage : Slice T) :
    checkCheckpoints out superblockPage = .ok (Forensic.checkCheckpoints out superblockPage) := by
  apply bind_ok (Checkpoint.locationsFromSuperblock_ok _)
  unfold Forensic.checkCheckpoints
  cases RefsForensic.Checkpoint.locationsFromSuperblock superblockPage with
  | error e =>
    rfl
  | ok checkpoints =>
    exact ite_ok (fun _ => rfl) fun _ => rfl

theorem checkSuperblock_ok (out : List Anomaly) (image : Slice T) (sbOff : ℕ) :
    checkSuperblock out image sbOff = .ok (Forensic.checkSuperblock out image sbOff) := by
  unfold checkSuperblock Forensic.checkSuperblock
  cases headerAt image sbOff with
  | none =>
    rfl
  | some page =>
    exact ite_ok (fun _ => checkCheckpoints_ok ..) fun _ => rfl

theorem sweepClusters_ok (image : Slice T) (clusterSize residentCeiling : ℕ) {cs : List ℕ}
    (out : List Anomaly) (hcs : ∀ c ∈ cs, c * clusterSize ≤ image.len) :
    sweepClusters image clusterSize residentCeiling cs out =
      .ok (Forensic.sweepClusters image clusterSize residentCeiling cs out) := by
  induction cs generalizing out with
  | nil => rfl
  | cons c cs ih =>
    have hlen := image.len_le
    have hroom := T.isizeMax_add_le
    have hc := hcs c (by simp)
    have ih := fun out => ih out fun d hd => hcs d (by simp [hd])
    unfold sweepClusters Forensic.sweepClusters
    apply bind_ok (mul_ok (by omega))
    dsimp only
    cases blockAt image (c * clusterSize) with
    | none =>
      rfl
    | some page =>
      exact ite_ok (fun _ => ih out) fun _ => ite_ok (fun _ => ih _) fun _ => ih out

theorem sweepResidentSelfBlocks_ok (out : List Anomaly) (image : Slice T) (clusterSize : ℕ) :
    sweepResidentSelfBlocks out image clusterSize =
      .ok (Forensic.sweepResidentSelfBlocks out image clusterSize) := by
  refine ite_ok (fun _ => rfl) fun h => bind_ok (div_ok h) (sweepClusters_ok image _ _ _ ?_)
  intro c hc
  exact (Nat.mul_le_mul_right _ (List.mem_range.1 hc).le).trans (Nat.div_mul_le_self _ _)

theorem auditImage_ok (image : Slice T) :
    auditImage image = .ok (Forensic.auditImage image) := by
  have hT := T.le_usizeMax
  apply bind_ok (BootSector.parse_ok image)
  unfold Forensic.auditImage
  cases RefsForensic.BootSector.parse image with
  | error e =>
    exact bind_ok (bytesAt_ok (by omega)) rfl
  | ok boot =>
    exact ite_ok (fun _ => rfl) fun _ =>
      bind_ok (checkSuperblock_ok ..) (sweepResidentSelfBlocks_ok ..)

theorem auditCrcRange_ok (crc32c : List UInt8 → ℕ) (block : Slice T)
    (offset start stop stored : ℕ) :
    auditCrcRange crc32c block offset start stop stored =
      .ok (Forensic.auditCrcRange crc32c block offset start stop stored) := by
  unfold auditCrcRange Forensic.auditCrcRange
  rcases MetaBlock.verifyCrc32c crc32c block start stop stored with _ | _ | _ <;> rfl

/-! ## The residue carver -/

/-- The closure of `resident_msb_pages`. -/
def residentMsbPage (image : Slice T) (c : ℕ) : Exec (Option (ℕ × Slice T)) := do
  let off ← mul T.usizeMax c clusterSize
  tryOption (blockAt image off) fun page =>
  .ok (if startsWith page msbSignature then some (off, page) else none)

/-- `resident_msb_pages`. -/
def residentMsbPages (image : Slice T) : Exec (List (ℕ × Slice T)) :=
  (List.range (image.len / clusterSize)).filterMapM (residentMsbPage image)

/-- `carve_directory_entries`. -/
def carveDirectoryEntries (page : Slice T) : Exec (List String) := do
  match ← parseDirectory page with
  | .error _ => .ok []
  | .ok node => .ok (node.map DirEntry.name)

/-- Record a page of a table. -/
def recordVersion (tableId selfBlock : ℕ) (page : Slice T) :
    List CurrentVersion → Exec (List CurrentVersion)
  | [] => do
    let entries ← carveDirectoryEntries page
    .ok [{ tableId, selfBlock, entries }]
  | entry :: current =>
    if entry.tableId = tableId then
      if entry.selfBlock < selfBlock then do
        let entries ← carveDirectoryEntries page
        .ok ({ entry with selfBlock, entries } :: current)
      else .ok (entry :: current)
    else do
      let current ← recordVersion tableId selfBlock page current
      .ok (entry :: current)

/-- One page of pass 1. -/
def recordPage (current : List CurrentVersion) (page : Slice T) : Exec (List CurrentVersion) :=
  let tableId := Forensic.leU64 page tableIdOffset
  if tableId ≠ refsRootDirectoryTableId then .ok current
  else recordVersion tableId (Forensic.leU64 page selfBlockOffset) page current

/-- One page of pass 2. -/
def surfacePage (current : List CurrentVersion) (off : ℕ) (page : Slice T) :
    Exec (Option StalePage) :=
  let tableId := Forensic.leU64 page tableIdOffset
  if tableId ≠ refsRootDirectoryTableId then .ok none
  else
    let selfBlock := Forensic.leU64 page selfBlockOffset
    match current.find? (·.tableId = tableId) with
    | none => .ok none
    | some cur =>
      if cur.selfBlock ≤ selfBlock then .ok none
      else do
        let dropped := (← carveDirectoryEntries page).filter (· ∉ cur.entries)
        if dropped = [] then .ok none
        else .ok (some { selfBlock, tableId, offset := off, entries := dropped })

/-- `recover_residue`. -/
def recoverResidue (image : Slice T) : Exec (List StalePage) := do
  let pages ← residentMsbPages image
  let current ← pages.foldlM (fun current p => recordPage current p.2) []
  let pages ← residentMsbPages image
  pages.filterMapM fun p => surfacePage current p.1 p.2

theorem residentMsbPages_ok (image : Slice T) :
    residentMsbPages image = .ok (Forensic.residentMsbPages image) := by
  have hlen := image.len_le
  have hroom := T.isizeMax_add_le
  refine filterMapM_ok fun c hc => ?_
  have hc : c * clusterSize ≤ image.len :=
    (Nat.mul_le_mul_right _ (List.mem_range.1 hc).le).trans (Nat.div_mul_le_self _ _)
  exact bind_ok (mul_ok (by omega)) (tryOption_ok fun page _ => rfl)

theorem carveDirectoryEntries_ok (page : Slice T) :
    carveDirectoryEntries page = .ok (Forensic.carveDirectoryEntries page) := by
  apply bind_ok (parseDirectory_ok page)
  unfold Forensic.carveDirectoryEntries
  cases RefsForensic.parseDirectory page with
  | error e =>
    rfl
  | ok node =>
    rfl

theorem recordVersion_ok (tableId selfBlock : ℕ) (page : Slice T)
    (current : List CurrentVersion) :
    recordVersion tableId selfBlock page current =
      .ok (Forensic.recordVersion tableId selfBlock page current) := by
  induction current with
  | nil => exact bind_ok (carveDirectoryEntries_ok page) rfl
  | cons entry current ih =>
    apply ite_ok
    · intro _
      exact ite_ok (fun _ => bind_ok (carveDirectoryEntries_ok page) rfl) fun _ => rfl
    · intro _
      exact bind_ok ih rfl

theorem surfacePage_ok (current : List CurrentVersion) (off : ℕ) (page : Slice T) :
    surfacePage current off page = .ok (Forensic.surfacePage current off page) := by
  refine ite_ok (fun _ => rfl) fun _ => ?_
  dsimp only
  generalize List.find? _ current = found
  cases found with
  | none =>
    rfl
  | some cur =>
    refine ite_ok (fun _ => rfl) fun _ => bind_ok (carveDirectoryEntries_ok page) ?_
    exact ite_ok (fun _ => rfl) fun _ => rfl

theorem recoverResidue_ok (image : Slice T) :
    recoverResidue image = .ok (Forensic.recoverResidue image) := by
  refine bind_ok (residentMsbPages_ok image) <| bind_ok (foldlM_ok [] fun current p _ => ?_) <|
    bind_ok (residentMsbPages_ok image) <| filterMapM_ok fun p _ => surfacePage_ok ..
  exact ite_ok (fun _ => rfl) fun _ => recordVersion_ok ..

/-! ## The surface -/

/-- **No panic is reachable**: with overflow checks on, every entry point returns on every input
with the value of the model, and 65 stack frames are enough for the descent of a walk. -/
theorem surface_never_panics (T : Target) :
    (∀ data : Slice T, BootSector.parse data = .ok (RefsForensic.BootSector.parse data)) ∧
    (∀ (data : Slice T) offset,
      Superblock.parseAt data offset = .ok (RefsForensic.Superblock.parseAt data offset)) ∧
    (∀ (data : Slice T) expected offset,
      MetaBlock.parse data expected offset =
        .ok (RefsForensic.MetaBlock.parse data expected offset)) ∧
    (∀ superblock : Slice T, Checkpoint.locationsFromSuperblock superblock =
      .ok (RefsForensic.Checkpoint.locationsFromSuperblock superblock)) ∧
    (∀ data : Slice T, MinstorePage.parse data = .ok (RefsForensic.MinstorePage.parse data)) ∧
    (∀ node : MinstorePage T, MinstorePage.rows node = .ok node.rows) ∧
    (∀ (table : ObjectTable T) objectId,
      ObjectTable.lookup table objectId = .ok (table.lookup objectId)) ∧
    (∀ table : ContainerTable T, ContainerTable.records table = .ok table.records) ∧
    (∀ (image : Slice T) bandClusters, ContainerResolver.fromResidentImage image bandClusters =
      .ok (RefsForensic.ContainerResolver.fromResidentImage image bandClusters)) ∧
    (∀ (resolver : ContainerResolver) vblock,
      ContainerResolver.resolveVirtual resolver vblock = .ok (resolver.resolveVirtual vblock)) ∧
    (∀ page : Slice T, parseDirectory page = .ok (RefsForensic.parseDirectory page)) ∧
    (∀ (image : Slice T) rootBlock,
      descend image (walkResolver image) 65 rootBlock 0 { visited := [], out := [] } =
        .ok (RefsForensic.walk image rootBlock)) ∧
    (∀ (image : Slice T) rootBlock,
      walkDirectory image rootBlock = .ok (RefsForensic.walkDirectory image rootBlock)) ∧
    (∀ (image : Slice T) dirObjectId,
      listDir image dirObjectId = .ok (RefsForensic.listDir image dirObjectId)) ∧
    (∀ (image : Slice T) (path : Str T),
      findByPath image path = .ok (RefsForensic.findByPath image path.val)) ∧
    (∀ image : Slice T, auditImage image = .ok (Forensic.auditImage image)) ∧
    (∀ crc32c (block : Slice T) offset start stop stored,
      auditCrcRange crc32c block offset start stop stored =
        .ok (Forensic.auditCrcRange crc32c block offset start stop stored)) ∧
    (∀ image : Slice T, recoverResidue image = .ok (Forensic.recoverResidue image)) :=
  ⟨BootSector.parse_ok, Superblock.parseAt_ok, MetaBlock.parse_ok,
    Checkpoint.locationsFromSuperblock_ok, MinstorePage.parse_ok, MinstorePage.rows_ok,
    ObjectTable.lookup_ok, ContainerTable.records_ok, ContainerResolver.fromResidentImage_ok,
    ContainerResolver.resolveVirtual_ok, parseDirectory_ok,
    fun image rootBlock => descend_ok image (near_fromResidentImage image) 65 rootBlock 0 _
      (Nat.zero_le _) (by decide),
    walkDirectory_ok, listDir_ok, findByPath_ok, auditImage_ok, auditCrcRange_ok,
    recoverResidue_ok⟩

end RefsForensic.Checked
