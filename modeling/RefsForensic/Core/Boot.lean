import RefsForensic.Core.Bytes
import RefsForensic.Core.Error

/-!
# The boot sector

`core/src/boot.rs`: the volume boot record at offset `0`, its validation order (file-system
signature, `FSRS` identifier, length) and the addresses derived from its geometry.
-/

namespace RefsForensic

open Rust

variable {T : Target}

/-- `"ReFS\0\0\0\0"`. -/
def refsSignature : List UInt8 := [0x52, 0x65, 0x46, 0x53, 0, 0, 0, 0]

/-- `"FSRS"`. -/
def refsFsrs : List UInt8 := [0x46, 0x53, 0x52, 0x53]

/-- Bytes needed to read every field, through the container size at offset 64. -/
def bootMinLen : ℕ := 72

/-- The cluster the primary superblock lives at. -/
def refsSuperblockCluster : ℕ := 30

/-- The parsed boot record, its integer fields within their on-disk widths. -/
structure BootSector where
  signature : List UInt8
  fsrs : List UInt8
  numSectors : ℕ
  bytesPerSector : ℕ
  sectorsPerCluster : ℕ
  majorVersion : UInt8
  minorVersion : UInt8
  volumeSerial : ℕ
  containerSize : ℕ
  numSectors_lt : numSectors < 2 ^ 64
  bytesPerSector_lt : bytesPerSector < 2 ^ 32
  sectorsPerCluster_lt : sectorsPerCluster < 2 ^ 32
  volumeSerial_lt : volumeSerial < 2 ^ 64
  containerSize_lt : containerSize < 2 ^ 64
  deriving DecidableEq

namespace BootSector

/-- The fields at their offsets, after the identity and length checks. -/
def fields (data : Slice T) : BootSector where
  signature := bytesAt 8 data 3
  fsrs := bytesAt 4 data 16
  numSectors := leU64 data 24
  bytesPerSector := leU32 data 32
  sectorsPerCluster := leU32 data 36
  majorVersion := u8At data 40
  minorVersion := u8At data 41
  volumeSerial := leU64 data 56
  containerSize := leU64 data 64
  numSectors_lt := leU64_lt ..
  bytesPerSector_lt := leU32_lt ..
  sectorsPerCluster_lt := leU32_lt ..
  volumeSerial_lt := leU64_lt ..
  containerSize_lt := leU64_lt ..

/-- Parse the boot VBR from the start of `data`. The identity comes before the length, so a wrong
image is named by its bytes even on a short buffer. -/
def parse (data : Slice T) : Except RefsError BootSector :=
  if bytesAt 8 data 3 ≠ refsSignature then
    .error (.badSignature (bytesAt 8 data 3))
  else if bytesAt 4 data 16 ≠ refsFsrs then
    .error (.badFsrs (bytesAt 4 data 16) (ascii (bytesAt 4 data 16)))
  else if data.len < bootMinLen then
    .error (.truncated "boot VBR" bootMinLen data.len)
  else
    .ok (fields data)

/-- Cluster size in bytes, saturating. -/
def clusterSize (boot : BootSector) : ℕ :=
  saturatingMul u64Max boot.bytesPerSector boot.sectorsPerCluster

def isV3 (boot : BootSector) : Bool := boot.majorVersion = 3

/-- Byte offset of the primary superblock, saturating. -/
def superblockOffset (boot : BootSector) : ℕ :=
  saturatingMul u64Max refsSuperblockCluster boot.clusterSize

/-- Reject any volume that is not v3.x. -/
def requireV3 (boot : BootSector) : Except RefsError Unit :=
  if boot.isV3 then .ok () else .error (.unsupportedVersion boot.majorVersion boot.minorVersion)

theorem parse_eq_ok {data : Slice T} {boot : BootSector} :
    parse data = .ok boot ↔
      bytesAt 8 data 3 = refsSignature ∧ bytesAt 4 data 16 = refsFsrs ∧
        bootMinLen ≤ data.len ∧ boot = fields data := by
  unfold parse
  split_ifs with h₁ h₂ h₃
  · simp [h₁]
  · simp [h₂]
  · simp only [false_iff, not_and]
    intros
    omega
  · simp only [not_not] at h₁ h₂
    simp only [Except.ok.injEq, h₁, h₂, true_and, eq_comm]
    exact ⟨fun h => ⟨by omega, h⟩, fun h => h.2⟩

/-- Cutting an image behind the boot record keeps the record. -/
theorem fields_take (data : Slice T) {n : ℕ} (hn : bootMinLen ≤ n) :
    fields (data.take n) = fields data := by
  have hn : 72 ≤ n := hn
  simp only [fields, leU32, leU64, bytesAt_take data (show 3 + 8 ≤ n by omega),
    bytesAt_take data (show 16 + 4 ≤ n by omega), leField_take data (show 24 + 8 ≤ n by omega),
    leField_take data (show 32 + 4 ≤ n by omega), leField_take data (show 36 + 4 ≤ n by omega),
    leField_take data (show 56 + 8 ≤ n by omega), leField_take data (show 64 + 8 ≤ n by omega),
    u8At_take data (show 40 < n by omega), u8At_take data (show 41 < n by omega)]

theorem parse_of_parse_take {data : Slice T} {n : ℕ} {boot : BootSector}
    (h : parse (data.take n) = .ok boot) : parse data = .ok boot := by
  obtain ⟨hs, hf, hlen, rfl⟩ := parse_eq_ok.1 h
  have hn : 72 ≤ n ∧ 72 ≤ data.len := by
    simp only [Slice.take_len, bootMinLen] at hlen
    omega
  rw [bytesAt_take data (by omega)] at hs hf
  exact parse_eq_ok.2 ⟨hs, hf, hn.2, fields_take data hn.1⟩

end BootSector

end RefsForensic
