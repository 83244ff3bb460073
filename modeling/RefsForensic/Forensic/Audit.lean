import RefsForensic.Forensic.Anomaly

/-!
# The image auditor

`audit_image` of `forensic/src/lib.rs`, stage by stage: the boot record and its geometry, the
superblock's own number and its checkpoint set, and the sweep of the resident `MSB+` pages. The
analyzer reads raw bytes with its own reader.
-/

namespace RefsForensic.Forensic

open Rust

variable {T : Target}

/-- The block number of the primary superblock. -/
def superblockBlockNumber : ℕ := 30

/-- Upper bound on the cluster size: 1 MiB. -/
def maxSaneClusterSize : ℕ := 2 ^ 20

/-! ## Readers -/

/-- The analyzer's own little-endian `u64` reader; the end of the range saturates. -/
def leU64 (d : Slice T) (o : ℕ) : ℕ :=
  match d.getRange o (saturatingAdd T.usizeMax o 8) with
  | some b => if b.len = 8 then fromLeBytes b.toList else 0
  | none => 0

/-- The 16 KiB page at `offset`, if it fits within the image. -/
def blockAt (image : Slice T) (offset : ℕ) : Option (Slice T) := do
  let start ← T.tryFrom offset
  let pageEnd ← checkedAdd T.usizeMax start refsMetadataPageSize
  image.getRange start pageEnd

/-- From `offset` to the end of the image. -/
def headerAt (image : Slice T) (offset : ℕ) : Option (Slice T) := do
  let start ← T.tryFrom offset
  image.getFrom start

/-! ## Stages -/

/-- The reason of the checkpoint finding. -/
def zeroCheckpoints : String :=
  "the superblock names zero checkpoint copies (a live volume keeps at least one)"

/-- Flag a superblock that names no checkpoint; one too short to tell is left alone. -/
def checkCheckpoints (out : List Anomaly) (superblockPage : Slice T) : List Anomaly :=
  match Checkpoint.locationsFromSuperblock superblockPage with
  | .ok checkpoints =>
    if checkpoints = [] then
      out ++ [Anomaly.new (.checkpointDivergence zeroCheckpoints checkpoints)]
    else out
  | .error _ => out

/-- The superblock stage. -/
def checkSuperblock (out : List Anomaly) (image : Slice T) (sbOff : ℕ) : List Anomaly :=
  match headerAt image sbOff with
  | none => out
  | some page =>
    if startsWith page supbSignature then
      let recorded := leU64 page selfBlockOffset
      let out :=
        if recorded ≠ superblockBlockNumber then
          out ++ [Anomaly.new (.selfBlockMismatch "SUPB" recorded superblockBlockNumber sbOff)]
        else out
      checkCheckpoints out page
    else out

/-- The sweep loop over the clusters still ahead. -/
def sweepClusters (image : Slice T) (clusterSize residentCeiling : ℕ) :
    List ℕ → List Anomaly → List Anomaly
  | [], out => out
  | c :: cs, out =>
    let off := c * clusterSize
    match blockAt image off with
    | none => out
    | some page =>
      if ¬startsWith page msbSignature then
        sweepClusters image clusterSize residentCeiling cs out
      else
        let selfBlock := leU64 page selfBlockOffset
        if selfBlock < residentCeiling ∧ selfBlock ≠ c then
          sweepClusters image clusterSize residentCeiling cs
            (out ++ [Anomaly.new (.selfBlockMismatch "MSB+" selfBlock c off)])
        else sweepClusters image clusterSize residentCeiling cs out

/-- Flag every resident page whose number is a low block that is not its cluster. -/
def sweepResidentSelfBlocks (out : List Anomaly) (image : Slice T) (clusterSize : ℕ) :
    List Anomaly :=
  if clusterSize = 0 then out
  else
    let clusters := image.len / clusterSize
    sweepClusters image clusterSize clusters (List.range clusters) out

/-- `audit_image`. -/
def auditImage (image : Slice T) : List Anomaly :=
  match BootSector.parse image with
  | .error _ =>
    let found := bytesAt 8 image 3
    if found ≠ refsSignature then [Anomaly.new (.bootSignatureInvalid found)] else []
  | .ok boot =>
    let cluster := boot.clusterSize
    if cluster = 0 ∨ maxSaneClusterSize < cluster then
      [Anomaly.new (.impossibleGeometry "cluster_size" cluster maxSaneClusterSize)]
    else
      sweepResidentSelfBlocks (checkSuperblock [] image boot.superblockOffset) image cluster

/-- `audit_crc_range`, over the checksum function of the `crc` crate. -/
def auditCrcRange (crc32c : List UInt8 → ℕ) (block : Slice T) (offset start stop stored : ℕ) :
    Option Anomaly :=
  match MetaBlock.verifyCrc32c crc32c block start stop stored with
  | some true | none => none
  | some false => some (Anomaly.new (.metadataCrcMismatch "caller-supplied range" offset 1))

/-! ## Specification of the readers -/

/-- The analyzer's reader and the reader of the core agree. -/
theorem leU64_eq (d : Slice T) (o : ℕ) : leU64 d o = RefsForensic.leU64 d o := by
  have hT := T.isizeMax_lt_usizeMax
  have hlen := d.len_le
  unfold leU64 saturatingAdd
  by_cases h : o + 8 ≤ d.len
  · rw [min_eq_left (by omega), Slice.getRange_of_le ⟨by omega, h⟩, RefsForensic.leU64, leField,
      bytesAt, Slice.getRange_of_le ⟨by omega, h⟩]
    simp
  · rw [Slice.getRange_of_not_le (by omega), RefsForensic.leU64, leField_of_lt (by omega)]

theorem blockAt_eq (image : Slice T) (offset : ℕ) :
    blockAt image offset = image.getRange offset (offset + refsMetadataPageSize) := by
  have hT := T.isizeMax_lt_usizeMax
  have hlen := image.len_le
  unfold blockAt
  by_cases h : offset + refsMetadataPageSize ≤ image.len
  · rw [Target.tryFrom_of_le (by omega)]
    simp only [Option.bind_eq_bind, Option.bind_some]
    rw [checkedAdd_of_le (by omega), Option.bind_some]
  · rw [Slice.getRange_of_not_le (by omega)]
    cases ht : T.tryFrom offset with
    | none =>
      rfl
    | some start =>
      obtain ⟨-, rfl⟩ := Target.tryFrom_eq_some.1 ht
      cases hc : checkedAdd T.usizeMax start refsMetadataPageSize with
      | none =>
        simp [hc]
      | some pageEnd =>
        obtain ⟨-, rfl⟩ := checkedAdd_eq_some.1 hc
        simp [hc, Slice.getRange_of_not_le (show ¬(start ≤ start + refsMetadataPageSize ∧
          start + refsMetadataPageSize ≤ image.len) by omega)]

theorem headerAt_eq (image : Slice T) (offset : ℕ) :
    headerAt image offset = image.getFrom offset := by
  have hT := T.isizeMax_lt_usizeMax
  have hlen := image.len_le
  unfold headerAt
  by_cases h : offset ≤ image.len
  · rw [Target.tryFrom_of_le (by omega)]
    rfl
  · rw [Slice.getFrom, Slice.getRange_of_not_le (by omega)]
    cases ht : T.tryFrom offset with
    | none =>
      rfl
    | some start =>
      obtain ⟨-, rfl⟩ := Target.tryFrom_eq_some.1 ht
      exact Slice.getRange_of_not_le (by omega)

end RefsForensic.Forensic
