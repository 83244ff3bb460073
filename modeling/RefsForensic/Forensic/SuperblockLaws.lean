import RefsForensic.Forensic.AuditLaws

/-!
# The superblock stage

Where the superblock is and what its checkpoint set says. The two saturating products and the
narrowing to `usize` never lead to other bytes than those at the true offset
(`superblock_addressing_exact`). A superblock that names no checkpoint is reported exactly when the
offset field of its empty reference list stays in the image (`zero_checkpoints_iff`).
-/

namespace RefsForensic.Forensic

open Rust

variable {T : Target}

/-! ## Addressing -/

/-- The byte offset of the primary superblock, in no machine type. -/
def trueSuperblockOffset (boot : BootSector) : ℕ :=
  refsSuperblockCluster * (boot.bytesPerSector * boot.sectorsPerCluster)

/-- The cluster size never saturates: it is a product of two `u32`. -/
theorem clusterSize_eq (boot : BootSector) :
    boot.clusterSize = boot.bytesPerSector * boot.sectorsPerCluster := by
  have hle : boot.bytesPerSector * boot.sectorsPerCluster ≤ (2 ^ 32 - 1) * (2 ^ 32 - 1) :=
    Nat.mul_le_mul (Nat.le_sub_one_of_lt boot.bytesPerSector_lt)
      (Nat.le_sub_one_of_lt boot.sectorsPerCluster_lt)
  exact min_eq_left (hle.trans (by decide))

/-- The offset saturates only beyond every image. -/
theorem superblockOffset_eq (boot : BootSector) :
    boot.superblockOffset = min (trueSuperblockOffset boot) u64Max := by
  rw [BootSector.superblockOffset, saturatingMul, clusterSize_eq, trueSuperblockOffset]

theorem len_lt_u64Max (image : Slice T) : image.len < u64Max := by
  have hlen := image.len_le
  have hT := T.isizeMax_lt_usizeMax
  have hmax := T.usizeMax_le_u64Max
  omega

theorem superblockOffset_of_le {image : Slice T} {boot : BootSector}
    (h : trueSuperblockOffset boot ≤ image.len) :
    boot.superblockOffset = trueSuperblockOffset boot := by
  have hlen := len_lt_u64Max image
  rw [superblockOffset_eq]
  omega

theorem lt_superblockOffset {image : Slice T} {boot : BootSector}
    (h : image.len < trueSuperblockOffset boot) : image.len < boot.superblockOffset := by
  have hlen := len_lt_u64Max image
  rw [superblockOffset_eq]
  omega

/-- Narrowing an offset of the image to `usize` keeps it. -/
theorem narrowed_of_le {image : Slice T} {off : ℕ} (h : off ≤ image.len) :
    (T.tryFrom off).getD T.usizeMax = off := by
  have hlen := image.len_le
  have hT := T.isizeMax_lt_usizeMax
  rw [Target.tryFrom_of_le (by omega), Option.getD_some]

/-- Narrowing an offset behind the image leaves it behind. -/
theorem lt_narrowed {image : Slice T} {off : ℕ} (h : image.len < off) :
    image.len < (T.tryFrom off).getD T.usizeMax := by
  have hlen := image.len_le
  have hT := T.isizeMax_lt_usizeMax
  unfold Target.tryFrom
  split_ifs with hoff
  · exact h
  · rw [Option.getD_none]
    omega

/-- **Superblock addressing never aliases**: the reader parses and the auditor inspects the bytes
from the true offset on, and where that lies behind the image the reader reports a truncation and
the auditor finds no superblock. -/
theorem superblock_addressing_exact (image : Slice T) (boot : BootSector) :
    (trueSuperblockOffset boot ≤ image.len →
      ∃ slice, image.getFrom (trueSuperblockOffset boot) = some slice ∧
        Superblock.parseAt image boot.superblockOffset =
          (MetadataBlockRef.parse slice "SUPB" (trueSuperblockOffset boot)).map Superblock.mk ∧
        headerAt image boot.superblockOffset = some slice) ∧
    (image.len < trueSuperblockOffset boot →
      (∃ need, Superblock.parseAt image boot.superblockOffset =
        .error (.truncated "superblock (image slice)" need image.len)) ∧
      headerAt image boot.superblockOffset = none) := by
  constructor
  · intro h
    have hslice : image.getFrom (trueSuperblockOffset boot) = some (image.range _ _ ⟨h, le_rfl⟩) :=
      Slice.getRange_of_le ⟨h, le_rfl⟩
    rw [superblockOffset_of_le h, headerAt_eq]
    refine ⟨_, hslice, ?_, hslice⟩
    rw [Superblock.parseAt]
    simp only [narrowed_of_le h, hslice]
  · intro h
    have hoff := lt_superblockOffset h
    have hnarrowed := lt_narrowed hoff
    rw [headerAt_eq]
    refine ⟨⟨(T.tryFrom boot.superblockOffset).getD T.usizeMax, ?_⟩, ?_⟩
    · rw [Superblock.parseAt]
      simp only [Slice.getFrom, Slice.getRange_of_not_le (show ¬(_ ∧ _) from
        fun hle => absurd hle.1 (not_le.2 hnarrowed))]
    · exact Slice.getRange_of_not_le fun hle => absurd hle.1 (not_le.2 hoff)

/-! ## Zero checkpoints -/

/-- The boot record parses with a sane cluster size, and `page` is a `SUPB` block at the superblock
offset that reaches through the checkpoint count. -/
structure HoldsSuperblock (image : Slice T) (boot : BootSector) (page : Slice T) : Prop where
  parses : BootSector.parse image = .ok boot
  sane : SaneGeometry boot
  inBounds : image.getFrom boot.superblockOffset = some page
  signature : startsWith page supbSignature
  len : 120 ≤ page.len

/-- The audit emits a checkpoint divergence. -/
def ReportsDivergence (image : Slice T) : Prop :=
  ∃ a ∈ auditImage image, ∃ reason checkpoints, a.kind = .checkpointDivergence reason checkpoints

/-- The parser gets as far as an empty list. -/
theorem locations_eq_nil {page : Slice T} (hlen : 120 ≤ page.len) :
    Checkpoint.locationsFromSuperblock page = .ok [] ↔
      leU32 page checkpointCountField = 0 ∧ leU32 page checkpointRefsOffsetField ≤ page.len := by
  have hcount : Checkpoint.count page = 0 ↔ leU32 page checkpointCountField = 0 := by
    unfold Checkpoint.count maxCheckpoints
    omega
  have hfield : checkpointCountField + 4 ≤ page.len := hlen
  rw [Checkpoint.locations_eq_ok, ← hcount]
  constructor
  · rintro ⟨-, hrefs, hnil⟩
    have hzero : Checkpoint.count page = 0 := by simpa using hnil.symm
    rw [hzero] at hrefs
    exact ⟨hzero, hrefs⟩
  · rintro ⟨hzero, hrefs⟩
    rw [hzero]
    exact ⟨hfield, hrefs, rfl⟩

theorem HoldsSuperblock.reportsDivergence_iff {image page : Slice T} {boot : BootSector}
    (h : HoldsSuperblock image boot page) :
    ReportsDivergence image ↔
      leU32 page checkpointCountField = 0 ∧ leU32 page checkpointRefsOffsetField ≤ page.len := by
  rw [← locations_eq_nil h.len, ReportsDivergence]
  constructor
  · rintro ⟨a, ha, reason, checkpoints, hkind⟩
    rcases (mem_auditImage h.parses h.sane).1 ha with ha | ⟨c, s, -, rfl⟩
    · obtain ⟨page', hpage', -, ⟨-, rfl⟩ | ⟨hnil, -⟩⟩ := mem_checkSuperblock.1 ha
      · cases hkind
      · obtain rfl := Option.some.inj (h.inBounds.symm.trans hpage')
        exact hnil
    · cases hkind
  · intro hnil
    refine ⟨noCheckpoints, (mem_auditImage h.parses h.sane).2 (.inl ?_), _, _, rfl⟩
    exact mem_checkSuperblock.2 ⟨page, h.inBounds, h.signature, .inr ⟨hnil, rfl⟩⟩

/-- **When zero-checkpoint detection is exact**: a superblock that names no checkpoint keeps the
offset field of its empty list in the image. -/
theorem zero_checkpoints_iff {image page : Slice T} {boot : BootSector}
    (h : HoldsSuperblock image boot page) :
    (ReportsDivergence image ↔ leU32 page checkpointCountField = 0) ↔
      leU32 page checkpointCountField ≠ 0 ∨
        leU32 page checkpointRefsOffsetField ≤ page.len := by
  rw [h.reportsDivergence_iff, and_iff_left_iff_imp, imp_iff_not_or]

/-- `plainVolume` with no checkpoint and an offset of 16 MiB to the list of them. -/
def farReferences : Slice .w64 where
  len := plainVolume.len
  len_le := plainVolume.len_le
  byte i :=
    match (i : ℕ) with
    | 0x1e073 => 1
    | 0x1e074 => 0
    | _ => plainVolume.byte i

/-- The page of `farReferences` from the superblock on. -/
def farReferencesPage : Slice .w64 := (farReferences.getFrom (30 * 4096)).getD Slice.empty

theorem farReferences_holds :
    HoldsSuperblock farReferences (BootSector.fields farReferences) farReferencesPage where
  parses := by decide +kernel
  sane := by unfold SaneGeometry; decide +kernel
  inBounds := by
    have hoff : (BootSector.fields farReferences).superblockOffset = 30 * 4096 := by
      decide +kernel
    rw [hoff, farReferencesPage, Slice.getFrom,
      Slice.getRange_of_le (show 30 * 4096 ≤ farReferences.len ∧ _ from ⟨by decide, le_rfl⟩),
      Option.getD_some]
  signature := by decide +kernel
  len := by decide

/-- The superblock names no checkpoint, and the audit is silent. -/
theorem farReferences_silent :
    HoldsSuperblock farReferences (BootSector.fields farReferences) farReferencesPage ∧
      auditImage farReferences = [] ∧
      ¬(ReportsDivergence farReferences ↔ leU32 farReferencesPage checkpointCountField = 0) := by
  have hsilent : auditImage farReferences = [] := by decide +kernel
  refine ⟨farReferences_holds, hsilent, fun h => ?_⟩
  obtain ⟨a, ha, -⟩ := h.2 (by decide +kernel)
  rw [hsilent] at ha
  cases ha

/-- The condition fails for `farReferences`. -/
theorem farReferences_condition :
    HoldsSuperblock farReferences (BootSector.fields farReferences) farReferencesPage ∧
      ((ReportsDivergence farReferences ↔ leU32 farReferencesPage checkpointCountField = 0) ↔
        leU32 farReferencesPage checkpointCountField ≠ 0 ∨
          leU32 farReferencesPage checkpointRefsOffsetField ≤ farReferencesPage.len) :=
  ⟨farReferences_holds, zero_checkpoints_iff farReferences_holds⟩

end RefsForensic.Forensic
