import RefsForensic.Core.Boot

/-!
# Metadata block headers, the superblock and its checkpoints

`core/src/superblock.rs`, `core/src/metablock.rs` and `core/src/checkpoint.rs`. The two header
parsers differ in the length they require and the name of their truncation error
(`parseBlockHeader`). `Checkpoint.locationsFromSuperblock` reads the checkpoint block numbers a
superblock names.
-/

namespace RefsForensic

open Rust

variable {T : Target}

/-- `"SUPB"`. -/
def supbSignature : List UInt8 := [0x53, 0x55, 0x50, 0x42]

/-- `"MSB+"`, the signature of every Minstore page. -/
def msbSignature : List UInt8 := [0x4d, 0x53, 0x42, 0x2b]

/-- A metadata page: four 4096-byte clusters. -/
def refsMetadataPageSize : ℕ := 16384

/-- Offset of a block's own number within its header. -/
def selfBlockOffset : ℕ := 0x20

/-- Length of the format-version-3 metadata block header. -/
def v3HeaderLen : ℕ := 80

/-- Minimum bytes of a metadata-block header, through the self-describing block number. -/
def blockHeaderMinLen : ℕ := 40

/-- `expected.as_bytes()`. -/
def asBytes (s : String) : List UInt8 := s.toUTF8.data.toList

theorem asBytes_supb : asBytes "SUPB" = supbSignature := by decide

/-- Validate the signature, then the length, then read the block's own number. -/
def parseBlockHeader (structureName : String) (minLen : ℕ) (data : Slice T) (expected : String)
    (offset : ℕ) : Except RefsError (List UInt8 × ℕ) :=
  if bytesAt 4 data 0 ≠ asBytes expected then
    .error (.badBlockSignature (bytesAt 4 data 0) (ascii (bytesAt 4 data 0)) expected offset)
  else if data.len < minLen then
    .error (.truncated structureName minLen data.len)
  else
    .ok (bytesAt 4 data 0, leU64 data selfBlockOffset)

theorem parseBlockHeader_eq_ok {name : String} {minLen : ℕ} {data : Slice T} {expected : String}
    {offset : ℕ} {r : List UInt8 × ℕ} :
    parseBlockHeader name minLen data expected offset = .ok r ↔
      bytesAt 4 data 0 = asBytes expected ∧ minLen ≤ data.len ∧
        r = (asBytes expected, leU64 data selfBlockOffset) := by
  unfold parseBlockHeader
  split_ifs with h₁ h₂
  · simp [h₁]
  · simp [h₂]
  · simp only [not_not] at h₁
    simp only [Except.ok.injEq, h₁, true_and, eq_comm]
    exact ⟨fun h => ⟨by omega, h⟩, fun h => h.2⟩

/-- A self-describing metadata-block header. -/
structure MetadataBlockRef where
  signature : List UInt8
  blockNumber : ℕ
  deriving DecidableEq

/-- `MetadataBlockRef::parse`. -/
def MetadataBlockRef.parse (data : Slice T) (expected : String) (offset : ℕ) :
    Except RefsError MetadataBlockRef :=
  (parseBlockHeader "metadata-block header" blockHeaderMinLen data expected offset).map
    fun r => ⟨r.1, r.2⟩

/-- The v3 metadata-block header. -/
structure MetaBlock where
  signature : List UInt8
  blockNumber : ℕ
  deriving DecidableEq

/-- `MetaBlock::parse`. -/
def MetaBlock.parse (data : Slice T) (expected : String) (offset : ℕ) :
    Except RefsError MetaBlock :=
  (parseBlockHeader "v3 metadata-block header" v3HeaderLen data expected offset).map
    fun r => ⟨r.1, r.2⟩

/-- `MetaBlock::verify_crc32c`, over the checksum function of the `crc` crate. -/
def MetaBlock.verifyCrc32c (crc32c : List UInt8 → ℕ) (data : Slice T) (start stop stored : ℕ) :
    Option Bool :=
  if stop < start then none
  else (data.getRange start stop).map fun s => decide (crc32c s.toList = stored)

/-- The parsed superblock. -/
structure Superblock where
  block : MetadataBlockRef
  deriving DecidableEq

/-- `Superblock::parse_at`: an offset that does not fit `usize` is read as `usize::MAX`. -/
def Superblock.parseAt (data : Slice T) (offset : ℕ) : Except RefsError Superblock :=
  let start := (T.tryFrom offset).getD T.usizeMax
  match data.getFrom start with
  | none => .error (.truncated "superblock (image slice)" start data.len)
  | some slice => (MetadataBlockRef.parse slice "SUPB" offset).map Superblock.mk

theorem MetadataBlockRef.parse_eq_ok {data : Slice T} {expected : String} {offset : ℕ}
    {r : MetadataBlockRef} :
    parse data expected offset = .ok r ↔
      bytesAt 4 data 0 = asBytes expected ∧ blockHeaderMinLen ≤ data.len ∧
        r = ⟨asBytes expected, leU64 data selfBlockOffset⟩ := by
  unfold parse
  rw [map_eq_ok]
  constructor
  · rintro ⟨p, hp, rfl⟩
    obtain ⟨h₁, h₂, rfl⟩ := parseBlockHeader_eq_ok.1 hp
    exact ⟨h₁, h₂, rfl⟩
  · rintro ⟨h₁, h₂, rfl⟩
    exact ⟨_, parseBlockHeader_eq_ok.2 ⟨h₁, h₂, rfl⟩, rfl⟩

/-! ## Checkpoints -/

/-- Offset of the checkpoint references data offset, in the struct at `block + 0x50`. -/
def checkpointRefsOffsetField : ℕ := v3HeaderLen + 0x20

/-- Offset of the number of checkpoint block numbers. -/
def checkpointCountField : ℕ := v3HeaderLen + 0x24

/-- Hard cap on the checkpoint-block-number count. -/
def maxCheckpoints : ℕ := 64

/-- The number of checkpoint block numbers read from a superblock, clamped. -/
def Checkpoint.count (superblock : Slice T) : ℕ :=
  min (leU32 superblock checkpointCountField) maxCheckpoints

/-- `Checkpoint::locations_from_superblock`. -/
def Checkpoint.locationsFromSuperblock (superblock : Slice T) : Except RefsError (List ℕ) :=
  if superblock.len < checkpointCountField + 4 then
    .error (.truncated "superblock checkpoint-references header" (checkpointCountField + 4)
      superblock.len)
  else
    let refsOff := leU32 superblock checkpointRefsOffsetField
    let count := Checkpoint.count superblock
    match checkedMul T.usizeMax count 8 with
    | none => .error (.truncated "checkpoint references data (count overflow)" T.usizeMax
        superblock.len)
    | some size =>
      match checkedAdd T.usizeMax refsOff size with
      | none => .error (.truncated "checkpoint references data (offset overflow)" T.usizeMax
          superblock.len)
      | some need =>
        if superblock.len < need then
          .error (.truncated "checkpoint references data" need superblock.len)
        else
          .ok ((List.range count).map fun i => leU64 superblock (refsOff + i * 8))

/-- The references are read exactly when header and references data lie in the buffer. -/
theorem Checkpoint.locations_eq_ok {superblock : Slice T} {locations : List ℕ} :
    Checkpoint.locationsFromSuperblock superblock = .ok locations ↔
      checkpointCountField + 4 ≤ superblock.len ∧
        leU32 superblock checkpointRefsOffsetField + Checkpoint.count superblock * 8 ≤
          superblock.len ∧
        locations = (List.range (Checkpoint.count superblock)).map fun i =>
          leU64 superblock (leU32 superblock checkpointRefsOffsetField + i * 8) := by
  have hT := T.isizeMax_lt_usizeMax
  have hlen := superblock.len_le
  have hmax : 512 ≤ T.usizeMax := by cases T <;> decide
  have hcount : Checkpoint.count superblock ≤ 64 := min_le_right _ _
  unfold Checkpoint.locationsFromSuperblock
  by_cases h₁ : superblock.len < checkpointCountField + 4
  · rw [if_pos h₁]
    exact iff_of_false (by simp) fun h => by omega
  · have hsize : Checkpoint.count superblock * 8 ≤ T.usizeMax := by omega
    simp only [if_neg h₁, checkedMul_of_le hsize]
    by_cases h₂ : leU32 superblock checkpointRefsOffsetField + Checkpoint.count superblock * 8 ≤
        superblock.len
    · have hneed : leU32 superblock checkpointRefsOffsetField + Checkpoint.count superblock * 8 ≤
          T.usizeMax := by omega
      simp only [checkedAdd_of_le hneed, if_neg (not_lt.2 h₂), Except.ok.injEq]
      exact ⟨fun h => ⟨by omega, h₂, h.symm⟩, fun h => h.2.2.symm⟩
    · refine iff_of_false ?_ fun h => h₂ h.2.1
      by_cases h₃ : leU32 superblock checkpointRefsOffsetField + Checkpoint.count superblock * 8 ≤
          T.usizeMax
      · simp [checkedAdd_of_le h₃, not_le.1 h₂]
      · simp [checkedAdd_of_lt (not_le.1 h₃)]

end RefsForensic
