import RefsForensic.Core.Superblock
import RefsForensic.Rust.Exec

/-!
# The readers and the block parsers, with overflow checks

`core/src/bytes.rs`, `boot.rs`, `superblock.rs`, `metablock.rs` and `checkpoint.rs` once more, as
computations that may panic: every raw operation of the source, every slice index and every
`copy_from_slice` is one that can. The theorem beside each definition is that it does not panic and
returns what the model returns. A reader takes the sum `off + n`, so its callers owe that sum's
bound.
-/

namespace RefsForensic.Checked

open Rust Exec

variable {T : Target}

/-! ## Readers -/

/-- `let mut b = [0u8; n]; if let Some(s) = data.get(off..off + n) { b.copy_from_slice(s) }`. -/
def bytesAt (n : ℕ) (data : Slice T) (off : ℕ) : Exec {b : List UInt8 // b.length = n} := do
  let stop ← add T.usizeMax off n
  match data.getRange off stop with
  | some s => copyFromSlice n s
  | none => .ok ⟨List.replicate n 0, List.length_replicate⟩

/-- An `n`-byte field, with the bound of its type. -/
def leField (n : ℕ) (data : Slice T) (off : ℕ) : Exec {v : ℕ // v < 256 ^ n} := do
  let b ← bytesAt n data off
  .ok ⟨fromLeBytes b.1, by simpa only [b.2] using fromLeBytes_lt b.1⟩

def leU16 (data : Slice T) (off : ℕ) : Exec {v : ℕ // v < 2 ^ 16} := leField 2 data off

def leU32 (data : Slice T) (off : ℕ) : Exec {v : ℕ // v < 2 ^ 32} := leField 4 data off

def leU64 (data : Slice T) (off : ℕ) : Exec {v : ℕ // v < 2 ^ 64} := leField 8 data off

theorem bytesAt_ok {n : ℕ} {data : Slice T} {off : ℕ} (h : off + n ≤ T.usizeMax) :
    bytesAt n data off = .ok ⟨RefsForensic.bytesAt n data off, length_bytesAt n data off⟩ := by
  apply bind_ok (add_ok h)
  cases hs : data.getRange off (off + n) with
  | none =>
    simp only [RefsForensic.bytesAt, hs]
  | some s =>
    have hlen : s.len = n := by rw [Slice.len_of_getRange hs, Nat.add_sub_cancel_left]
    simp only [RefsForensic.bytesAt, hs, copyFromSlice_ok hlen]

theorem leField_ok {n : ℕ} {data : Slice T} {off : ℕ} (h : off + n ≤ T.usizeMax) :
    leField n data off = .ok ⟨RefsForensic.leField n data off, leField_lt n data off⟩ :=
  bind_ok (bytesAt_ok h) rfl

theorem leU16_ok {data : Slice T} {off : ℕ} (h : off + 2 ≤ T.usizeMax) :
    leU16 data off = .ok ⟨RefsForensic.leU16 data off, leField_lt 2 data off⟩ := leField_ok h

theorem leU32_ok {data : Slice T} {off : ℕ} (h : off + 4 ≤ T.usizeMax) :
    leU32 data off = .ok ⟨RefsForensic.leU32 data off, leU32_lt data off⟩ := leField_ok h

theorem leU64_ok {data : Slice T} {off : ℕ} (h : off + 8 ≤ T.usizeMax) :
    leU64 data off = .ok ⟨RefsForensic.leU64 data off, leU64_lt data off⟩ := leField_ok h

/-! ## The boot sector -/

/-- `BootSector::parse`. -/
def BootSector.parse (data : Slice T) : Exec (Except RefsError BootSector) := do
  let signature ← bytesAt 8 data 3
  if signature.1 ≠ refsSignature then .ok (.error (.badSignature signature.1))
  else
    let fsrs ← bytesAt 4 data 16
    if fsrs.1 ≠ refsFsrs then .ok (.error (.badFsrs fsrs.1 (ascii fsrs.1)))
    else if data.len < bootMinLen then .ok (.error (.truncated "boot VBR" bootMinLen data.len))
    else
      let numSectors ← leU64 data 24
      let bytesPerSector ← leU32 data 32
      let sectorsPerCluster ← leU32 data 36
      let volumeSerial ← leU64 data 56
      let containerSize ← leU64 data 64
      .ok (.ok {
        signature := signature.1
        fsrs := fsrs.1
        numSectors := numSectors.1
        bytesPerSector := bytesPerSector.1
        sectorsPerCluster := sectorsPerCluster.1
        majorVersion := u8At data 40
        minorVersion := u8At data 41
        volumeSerial := volumeSerial.1
        containerSize := containerSize.1
        numSectors_lt := numSectors.2
        bytesPerSector_lt := bytesPerSector.2
        sectorsPerCluster_lt := sectorsPerCluster.2
        volumeSerial_lt := volumeSerial.2
        containerSize_lt := containerSize.2 })

theorem BootSector.parse_ok (data : Slice T) :
    BootSector.parse data = .ok (RefsForensic.BootSector.parse data) := by
  have hT := T.le_usizeMax
  unfold BootSector.parse RefsForensic.BootSector.parse
  refine bind_ok (bytesAt_ok (by omega)) (ite_ok (fun _ => rfl) fun _ => ?_)
  refine bind_ok (bytesAt_ok (by omega)) (ite_ok (fun _ => rfl) fun _ => ?_)
  refine ite_ok (fun _ => rfl) fun _ => ?_
  exact bind_ok (leU64_ok (by omega)) <| bind_ok (leU32_ok (by omega)) <|
    bind_ok (leU32_ok (by omega)) <| bind_ok (leU64_ok (by omega)) <|
    bind_ok (leU64_ok (by omega)) rfl

/-! ## Block headers -/

/-- The common body of the two header parsers. -/
def parseBlockHeader (structureName : String) (minLen : ℕ) (data : Slice T) (expected : String)
    (offset : ℕ) : Exec (Except RefsError (List UInt8 × ℕ)) := do
  let signature ← bytesAt 4 data 0
  if signature.1 ≠ asBytes expected then
    .ok (.error (.badBlockSignature signature.1 (ascii signature.1) expected offset))
  else if data.len < minLen then .ok (.error (.truncated structureName minLen data.len))
  else
    let blockNumber ← leU64 data selfBlockOffset
    .ok (.ok (signature.1, blockNumber.1))

theorem parseBlockHeader_ok (structureName : String) (minLen : ℕ) (data : Slice T)
    (expected : String) (offset : ℕ) :
    parseBlockHeader structureName minLen data expected offset =
      .ok (RefsForensic.parseBlockHeader structureName minLen data expected offset) := by
  have hT := T.le_usizeMax
  unfold parseBlockHeader RefsForensic.parseBlockHeader
  refine bind_ok (bytesAt_ok (by omega)) (ite_ok (fun _ => rfl) fun _ => ?_)
  refine ite_ok (fun _ => rfl) fun _ => ?_
  exact bind_ok (leU64_ok (by unfold selfBlockOffset; omega)) rfl

/-- `MetadataBlockRef::parse`. -/
def MetadataBlockRef.parse (data : Slice T) (expected : String) (offset : ℕ) :
    Exec (Except RefsError MetadataBlockRef) := do
  let r ← parseBlockHeader "metadata-block header" blockHeaderMinLen data expected offset
  .ok (r.map fun r => ⟨r.1, r.2⟩)

/-- `MetaBlock::parse`. -/
def MetaBlock.parse (data : Slice T) (expected : String) (offset : ℕ) :
    Exec (Except RefsError MetaBlock) := do
  let r ← parseBlockHeader "v3 metadata-block header" v3HeaderLen data expected offset
  .ok (r.map fun r => ⟨r.1, r.2⟩)

/-- `Superblock::parse_at`. -/
def Superblock.parseAt (data : Slice T) (offset : ℕ) : Exec (Except RefsError Superblock) :=
  let start := (T.tryFrom offset).getD T.usizeMax
  match data.getFrom start with
  | none => .ok (.error (.truncated "superblock (image slice)" start data.len))
  | some slice => do
    let block ← MetadataBlockRef.parse slice "SUPB" offset
    .ok (block.map Superblock.mk)

theorem MetadataBlockRef.parse_ok (data : Slice T) (expected : String) (offset : ℕ) :
    MetadataBlockRef.parse data expected offset =
      .ok (RefsForensic.MetadataBlockRef.parse data expected offset) :=
  bind_ok (parseBlockHeader_ok ..) rfl

theorem MetaBlock.parse_ok (data : Slice T) (expected : String) (offset : ℕ) :
    MetaBlock.parse data expected offset =
      .ok (RefsForensic.MetaBlock.parse data expected offset) :=
  bind_ok (parseBlockHeader_ok ..) rfl

theorem Superblock.parseAt_ok (data : Slice T) (offset : ℕ) :
    Superblock.parseAt data offset = .ok (RefsForensic.Superblock.parseAt data offset) := by
  unfold Superblock.parseAt RefsForensic.Superblock.parseAt
  dsimp only
  cases data.getFrom ((T.tryFrom offset).getD T.usizeMax) with
  | none =>
    rfl
  | some slice =>
    exact bind_ok (MetadataBlockRef.parse_ok ..) rfl

/-! ## Checkpoints -/

/-- `Checkpoint::locations_from_superblock`. -/
def Checkpoint.locationsFromSuperblock (superblock : Slice T) :
    Exec (Except RefsError (List ℕ)) :=
  if superblock.len < checkpointCountField + 4 then
    .ok (.error (.truncated "superblock checkpoint-references header" (checkpointCountField + 4)
      superblock.len))
  else do
    let refsOff ← leU32 superblock checkpointRefsOffsetField
    let claimed ← leU32 superblock checkpointCountField
    let count := min claimed.1 maxCheckpoints
    match checkedMul T.usizeMax count 8 with
    | none => .ok (.error (.truncated "checkpoint references data (count overflow)" T.usizeMax
        superblock.len))
    | some size =>
      match checkedAdd T.usizeMax refsOff.1 size with
      | none => .ok (.error (.truncated "checkpoint references data (offset overflow)" T.usizeMax
          superblock.len))
      | some need =>
        if superblock.len < need then
          .ok (.error (.truncated "checkpoint references data" need superblock.len))
        else
          let locations ← (List.range count).mapM fun i => do
            let location ← leU64 superblock (← add T.usizeMax refsOff.1 (← mul T.usizeMax i 8))
            .ok location.1
          .ok (.ok locations)

/-- Every reference lies in the references data, which lies in the buffer. -/
theorem Checkpoint.locationsFromSuperblock_ok (superblock : Slice T) :
    Checkpoint.locationsFromSuperblock superblock =
      .ok (RefsForensic.Checkpoint.locationsFromSuperblock superblock) := by
  have hT := T.le_usizeMax
  have hlen := superblock.len_le
  have hmax := T.isizeMax_lt_usizeMax
  unfold Checkpoint.locationsFromSuperblock RefsForensic.Checkpoint.locationsFromSuperblock
  refine ite_ok (fun _ => rfl) fun _ => ?_
  have hfield : checkpointRefsOffsetField + 4 ≤ T.usizeMax ∧
      checkpointCountField + 4 ≤ T.usizeMax := by
    unfold checkpointRefsOffsetField checkpointCountField v3HeaderLen
    omega
  refine bind_ok (leU32_ok hfield.1) (bind_ok (leU32_ok hfield.2) ?_)
  have hcount : min (RefsForensic.leU32 superblock checkpointCountField) maxCheckpoints =
      Checkpoint.count superblock := rfl
  simp only [hcount]
  rcases hsize : checkedMul T.usizeMax (Checkpoint.count superblock) 8 with _ | size
  · rfl
  dsimp only
  rcases hneed : checkedAdd T.usizeMax
      (RefsForensic.leU32 superblock checkpointRefsOffsetField) size with _ | need
  · rfl
  obtain ⟨-, rfl⟩ := checkedMul_eq_some.1 hsize
  obtain ⟨-, rfl⟩ := checkedAdd_eq_some.1 hneed
  refine ite_ok (fun _ => rfl) fun _ => ?_
  refine bind_ok (mapM_ok fun i hi => ?_) rfl
  have hi : i < Checkpoint.count superblock := List.mem_range.1 hi
  exact bind_ok (mul_ok (by omega)) <| bind_ok (add_ok (by omega)) <|
    bind_ok (leU64_ok (by omega)) rfl

end RefsForensic.Checked
