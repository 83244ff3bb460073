import RefsForensic.Forensic.AuditSpec

/-!
# Laws of the auditor

How far the findings of `audit_image` can be trusted.

* Truncating an image fabricates a finding exactly when the cut goes through the header of a
  superblock whose number is not zero (`truncation_monotone_iff`): the absent field reads as zero.
* A normal high-band page is reported as relocated exactly when the image is so large that its
  number is below the cluster count (`high_band_clean_iff`).
* A silent audit means that the reader accepts the front of the volume exactly when the `FSRS`
  identifier and the `SUPB` signature are there (`silent_audit_iff`): neither is audited.
* On a volume that is not v3 the auditor keeps off the v3 structures exactly when the geometry is
  out of bounds (`version_gate_iff`): the version is not consulted.
-/

namespace RefsForensic.Forensic

open Rust

variable {T : Target}

/-! ## Truncation -/

/-- The header slice of a cut image is the cut of the header slice. -/
theorem getFrom_of_getRange {image page : Slice T} {n off : ℕ} (hn : n ≤ image.len)
    (h : image.getRange off n = some page) :
    ∃ whole, image.getFrom off = some whole ∧ whole.getRange 0 (n - off) = some page ∧
      page.len = n - off ∧ whole.len = image.len - off := by
  obtain ⟨hle, rfl⟩ := Slice.getRange_eq_some.1 h
  refine ⟨_, Slice.getRange_of_le ⟨by omega, le_rfl⟩, ?_, rfl, rfl⟩
  rw [Slice.getRange_range _ _ (by omega), Nat.add_zero, show off + (n - off) = n by omega, h]

/-- A superblock whose references were read from a cut header and turned out empty is empty in the
whole image. -/
theorem locations_of_cut {whole page : Slice T} {m : ℕ} (h : whole.getRange 0 m = some page)
    (hm : m ≤ whole.len) (hempty : Checkpoint.locationsFromSuperblock page = .ok []) :
    Checkpoint.locationsFromSuperblock whole = .ok [] := by
  have hlen : page.len = m := by simpa using Slice.len_of_getRange h
  obtain ⟨h₁, h₂, h₃⟩ := Checkpoint.locations_eq_ok.1 hempty
  have hfield : ∀ off, off + 4 ≤ page.len → leU32 page off = leU32 whole off := fun off ho => by
    rw [leU32, leField_getRange h ho, Nat.zero_add, leU32]
  have hcount : Checkpoint.count page = Checkpoint.count whole := by
    rw [Checkpoint.count, hfield _ h₁, Checkpoint.count]
  have hzero : Checkpoint.count whole = 0 := by
    rw [← hcount]
    simpa using h₃.symm
  have hrefs : leU32 page checkpointRefsOffsetField = leU32 whole checkpointRefsOffsetField :=
    hfield _ (by simp only [checkpointRefsOffsetField, checkpointCountField] at h₁ ⊢; omega)
  refine Checkpoint.locations_eq_ok.2 ⟨by omega, ?_, by simp [hzero]⟩
  rw [hrefs, hcount] at h₂
  omega

theorem relocated_of_take {image : Slice T} {n clusterSize c s : ℕ}
    (h : Relocated (image.take n) clusterSize c s) : Relocated image clusterSize c s := by
  have hle : (image.take n).len / clusterSize ≤ image.len / clusterSize :=
    Nat.div_le_div_right (by simp)
  obtain ⟨page, hp⟩ := h.page
  have hn : c * clusterSize + refsMetadataPageSize ≤ n := by
    have := hp.le
    simp only [Slice.take_len] at this
    omega
  refine ⟨h.cluster.trans_le hle, ⟨page, ?_, hp.signature, hp.selfBlock⟩, h.resident.trans_le hle,
    h.moved⟩
  rw [← hp.inBounds, Slice.getRange_take image hn]

/-- The cut at `n` goes through the header of the superblock: its signature is left, its own number
is not, and the number was not zero. -/
structure CutsSuperblock (image : Slice T) (n : ℕ) (boot : BootSector) : Prop where
  parses : BootSector.parse (image.take n) = .ok boot
  sane : SaneGeometry boot
  signature : bytesAt 4 image boot.superblockOffset = supbSignature
  signature_left : boot.superblockOffset + 4 ≤ n
  number_cut : n < boot.superblockOffset + 40
  number : leU64 image (boot.superblockOffset + selfBlockOffset) ≠ 0

/-- Where the superblock header is cut, the audit of the rest reports the number zero. -/
theorem CutsSuperblock.fabricates {image : Slice T} {n : ℕ} {boot : BootSector}
    (h : CutsSuperblock image n boot) (hn : n ≤ image.len) :
    superblockMismatch 0 boot.superblockOffset ∈ auditImage (image.take n) ∧
      superblockMismatch 0 boot.superblockOffset ∉ auditImage image := by
  have h₁ := h.signature_left
  have h₂ := h.number_cut
  obtain ⟨page, hpage⟩ : ∃ page, image.getRange boot.superblockOffset n = some page :=
    ⟨_, Slice.getRange_of_le ⟨by omega, hn⟩⟩
  obtain ⟨whole, hwhole, -, hplen, hwlen⟩ := getFrom_of_getRange hn hpage
  constructor
  · refine (mem_auditImage h.parses h.sane).2 (.inl (mem_checkSuperblock.2 ⟨page, ?_, ?_, .inl ?_⟩))
    · rw [Slice.getFrom_take hn, hpage]
    · exact startsWith_of_bytesAt hpage (by omega) h.signature
    · rw [RefsForensic.leU64, leField_of_lt (by simp only [selfBlockOffset]; omega)]
      exact ⟨by decide, rfl⟩
  · intro hmem
    rcases (mem_auditImage (BootSector.parse_of_parse_take h.parses) h.sane).1 hmem with
      hmem | ⟨c, s, -, he⟩
    · obtain ⟨page, hpage, -, ⟨-, he⟩ | ⟨-, he⟩⟩ := mem_checkSuperblock.1 hmem
      · obtain rfl := Option.some.inj (hwhole.symm.trans hpage)
        have he := Anomaly.new_injective he
        simp only [AnomalyKind.selfBlockMismatch.injEq, true_and, and_true] at he
        have hnum := h.number
        rw [leU64_eq] at hnum
        rw [RefsForensic.leU64, leField_getFrom hwhole] at he
        exact hnum he.symm
      · cases Anomaly.new_injective he
    · have he := Anomaly.new_injective he
      simp at he

/-- Where the superblock header is not cut, the audit of the rest reads the number of the whole. -/
theorem number_of_take {image page : Slice T} {n : ℕ} {boot : BootSector}
    (hcut : ¬CutsSuperblock image n boot) (hboot : BootSector.parse (image.take n) = .ok boot)
    (hg : SaneGeometry boot) (hpage : image.getRange boot.superblockOffset n = some page)
    (hs : startsWith page supbSignature) :
    RefsForensic.leU64 page selfBlockOffset =
      RefsForensic.leU64 image (boot.superblockOffset + selfBlockOffset) := by
  by_cases hfit : selfBlockOffset + 8 ≤ page.len
  · exact leField_getRange hpage hfit
  · -- the number is cut off: it was zero, or the cut would go through the header
    rw [RefsForensic.leU64, leField_of_lt (by omega)]
    have hlen := Slice.len_of_getRange hpage
    have h4 := hs.four_le_len
    by_contra hz
    apply hcut
    refine ⟨hboot, hg, hs.bytesAt_getRange hpage, by omega, ?_, ?_⟩
    · simp only [selfBlockOffset] at hfit
      omega
    · rw [leU64_eq]
      exact fun h => hz h.symm

theorem mem_checkSuperblock_of_take {image : Slice T} {n : ℕ} {boot : BootSector}
    (hn : n ≤ image.len) (hcut : ¬CutsSuperblock image n boot)
    (hboot : BootSector.parse (image.take n) = .ok boot) (hg : SaneGeometry boot) {a : Anomaly}
    (ha : a ∈ checkSuperblock [] (image.take n) boot.superblockOffset) :
    a ∈ checkSuperblock [] image boot.superblockOffset := by
  obtain ⟨page, hpage, hs, hkind⟩ := mem_checkSuperblock.1 ha
  rw [Slice.getFrom_take hn] at hpage
  obtain ⟨whole, hwhole, hcutw, hplen, hwlen⟩ := getFrom_of_getRange hn hpage
  have h4 := hs.four_le_len
  have hsw : startsWith whole supbSignature :=
    startsWith_of_bytesAt hwhole (by omega) (hs.bytesAt_getRange hpage)
  refine mem_checkSuperblock.2 ⟨whole, hwhole, hsw, ?_⟩
  rcases hkind with ⟨hne, rfl⟩ | ⟨hempty, rfl⟩
  · have hnum : RefsForensic.leU64 page selfBlockOffset =
        RefsForensic.leU64 whole selfBlockOffset :=
      (number_of_take hcut hboot hg hpage hs).trans (leField_getFrom hwhole).symm
    rw [hnum] at hne ⊢
    exact .inl ⟨hne, rfl⟩
  · exact .inr ⟨locations_of_cut hcutw (by omega) hempty, rfl⟩

/-- A boot record that the cut leaves broken is reported only where it is broken in the whole. -/
theorem mem_auditImage_of_take_error {image : Slice T} {n : ℕ} (hlo : 11 ≤ n) {e : RefsError}
    (hboot : BootSector.parse (image.take n) = .error e) {a : Anomaly}
    (ha : a ∈ auditImage (image.take n)) : a ∈ auditImage image := by
  rw [auditImage_of_error hboot, bytesAt_take image (by omega)] at ha
  split_ifs at ha with hs
  · cases hb : BootSector.parse image with
    | error e' =>
      rwa [auditImage_of_error hb, if_pos hs]
    | ok boot =>
      exact absurd (BootSector.parse_eq_ok.1 hb).1 hs
  · simp at ha

/-- Where the superblock header is not cut, the audit of the rest reports nothing new. -/
theorem mem_auditImage_of_take {image : Slice T} {n : ℕ} (hlo : 11 ≤ n) (hn : n ≤ image.len)
    (hcut : ∀ boot, ¬CutsSuperblock image n boot) {a : Anomaly}
    (ha : a ∈ auditImage (image.take n)) : a ∈ auditImage image := by
  cases hboot : BootSector.parse (image.take n) with
  | error e =>
    exact mem_auditImage_of_take_error hlo hboot ha
  | ok boot =>
    have hboot' := BootSector.parse_of_parse_take hboot
    by_cases hg : SaneGeometry boot
    · rw [mem_auditImage hboot' hg]
      rcases (mem_auditImage hboot hg).1 ha with ha | ⟨c, s, hr, rfl⟩
      · exact .inl (mem_checkSuperblock_of_take hn (hcut boot) hboot hg ha)
      · exact .inr ⟨c, s, relocated_of_take hr, rfl⟩
    · rwa [auditImage_of_insane hboot' hg, ← auditImage_of_insane hboot hg]

/-- **When truncation fabricates no finding.** -/
theorem truncation_monotone_iff (image : Slice T) (n : ℕ) (hlo : 11 ≤ n) (hn : n ≤ image.len) :
    (∀ a ∈ auditImage (image.take n), a ∈ auditImage image) ↔
      ¬∃ boot, CutsSuperblock image n boot := by
  constructor
  · rintro h ⟨boot, hb⟩
    obtain ⟨hin, hout⟩ := hb.fabricates hn
    exact hout (h _ hin)
  · exact fun h a ha => mem_auditImage_of_take hlo hn (fun boot hb => h ⟨boot, hb⟩) ha

/-! ### Small volumes -/

/-- A boot record with 4096-byte clusters and the given `FSRS` byte and major version. -/
def bootByte (fsrs major : UInt8) (i : ℕ) : UInt8 :=
  match i with
  | 3 => 0x52
  | 4 => 0x65
  | 5 => 0x46
  | 6 => 0x53
  | 16 => fsrs
  | 17 => 0x53
  | 18 => 0x52
  | 19 => 0x53
  | 33 => 0x02
  | 36 => 0x08
  | 40 => major
  | _ => 0

/-- A v3 volume whose superblock at cluster 30 records block 30 and one checkpoint. -/
def plainVolume : Slice .w64 where
  len := 30 * 4096 + 256
  len_le := by decide
  byte i :=
    match (i : ℕ) with
    | 0x1e000 => 0x53
    | 0x1e001 => 0x55
    | 0x1e002 => 0x50
    | 0x1e003 => 0x42
    | 0x1e020 => 30
    | 0x1e074 => 1
    | i => bootByte 0x46 3 i

/-- The first 20 bytes of the superblock header are left, and its number is read as zero. -/
theorem plainVolume_cut :
    CutsSuperblock plainVolume (30 * 4096 + 20)
      (BootSector.fields (plainVolume.take (30 * 4096 + 20))) where
  parses := by decide +kernel
  sane := by unfold SaneGeometry; decide +kernel
  signature := by decide +kernel
  signature_left := by decide +kernel
  number_cut := by decide +kernel
  number := by decide +kernel

/-- Cutting `plainVolume` inside its superblock header fabricates a finding. -/
theorem plainVolume_truncation :
    ¬∀ a ∈ auditImage (plainVolume.take (30 * 4096 + 20)), a ∈ auditImage plainVolume := by
  intro h
  obtain ⟨hin, hout⟩ := plainVolume_cut.fabricates (by decide)
  exact hout (h _ hin)

/-- Cutting it in front of the superblock does not. -/
theorem plainVolume_cut_in_front :
    (∀ a ∈ auditImage (plainVolume.take 4096), a ∈ auditImage plainVolume) ↔
      ¬∃ boot, CutsSuperblock plainVolume 4096 boot :=
  truncation_monotone_iff plainVolume 4096 (by decide) (by decide)

/-! ## High-band pages -/

/-- A page that starts with `MSB+` is not where the superblock stage found `SUPB`. -/
theorem not_superblock_of_msbPage {image page : Slice T} {off s : ℕ} (h : MsbPage image off s page)
    {whole : Slice T} (hw : image.getFrom off = some whole) : ¬startsWith whole supbSignature := by
  intro hs
  have : msbSignature = supbSignature :=
    (h.signature.bytesAt_getRange h.inBounds).symm.trans (hs.bytesAt_getRange hw)
  exact absurd this (by decide)

/-- **When a normal high-band page is not reported as relocated.** -/
theorem high_band_clean_iff (image : Slice T) (boot : BootSector) (c : ℕ) (page : Slice T)
    (hparse : BootSector.parse image = .ok boot) (hcluster : boot.clusterSize = 4096)
    (hpage : MsbPage image (c * 4096) (65536 + c) page) :
    (∀ a ∈ auditImage image, ∀ name recorded expected,
        a.kind ≠ .selfBlockMismatch name recorded expected (c * 4096)) ↔
      image.len / 4096 ≤ 65536 + c := by
  have hg : SaneGeometry boot := ⟨by omega, by rw [hcluster]; decide⟩
  have hle := hpage.le
  constructor
  · intro h
    by_contra hlt
    have hrel : Relocated image 4096 c (65536 + c) :=
      ⟨by unfold refsMetadataPageSize at hle; omega, ⟨page, hpage⟩, by omega, by omega⟩
    exact h _ ((mem_auditImage hparse hg).2 (.inr ⟨c, 65536 + c, hcluster ▸ hrel, rfl⟩)) "MSB+"
      (65536 + c) c (by rw [relocation, hcluster]; rfl)
  · rintro hclusters a ha name recorded expected hkind
    rcases (mem_auditImage hparse hg).1 ha with ha | ⟨c', s, hrel, rfl⟩
    · obtain ⟨whole, hw, hs, ⟨-, rfl⟩ | ⟨-, rfl⟩⟩ := mem_checkSuperblock.1 ha
      · obtain ⟨-, -, -, hoff⟩ := AnomalyKind.selfBlockMismatch.inj hkind
        rw [hoff] at hw
        exact not_superblock_of_msbPage hpage hw hs
      · cases hkind
    · obtain ⟨-, -, -, hoff⟩ := AnomalyKind.selfBlockMismatch.inj hkind
      rw [hcluster] at hrel hoff
      obtain rfl : c' = c := by omega
      obtain ⟨page', hp'⟩ := hrel.page
      have hs := hrel.resident
      rw [hp'.unique hpage] at hs
      omega

/-- A v3 volume of `clusters` clusters whose only page, at cluster 1, carries the high-band number
`65537`. -/
def highBandVolume (clusters : ℕ) (h : clusters * 4096 ≤ Target.isizeMax .w64) : Slice .w64 where
  len := clusters * 4096
  len_le := h
  byte i :=
    match (i : ℕ) with
    | 0x1000 => 0x4d
    | 0x1001 => 0x53
    | 0x1002 => 0x42
    | 0x1003 => 0x2b
    | 0x1020 => 1
    | 0x1022 => 1
    | i => bootByte 0x46 3 i

theorem highBandVolume_page :
    ∃ page, MsbPage (highBandVolume 65540 (by decide)) (1 * 4096) (65536 + 1) page :=
  ⟨_, Slice.getRange_of_le (by decide), by decide +kernel, by decide +kernel⟩

/-- On a volume past 65536 clusters the page is reported. -/
theorem highBandVolume_reported :
    ¬∀ boot c page, BootSector.parse (highBandVolume 65540 (by decide)) = .ok boot →
      boot.clusterSize = 4096 →
      MsbPage (highBandVolume 65540 (by decide)) (c * 4096) (65536 + c) page →
      ∀ a ∈ auditImage (highBandVolume 65540 (by decide)), ∀ name recorded expected,
        a.kind ≠ .selfBlockMismatch name recorded expected (c * 4096) := by
  intro h
  obtain ⟨page, hpage⟩ := highBandVolume_page
  have hparse : BootSector.parse (highBandVolume 65540 (by decide)) =
      .ok (BootSector.fields (highBandVolume 65540 (by decide))) := by decide +kernel
  have hcluster : (BootSector.fields (highBandVolume 65540 (by decide))).clusterSize = 4096 := by
    decide +kernel
  have hg : SaneGeometry (BootSector.fields (highBandVolume 65540 (by decide))) :=
    ⟨by omega, by rw [hcluster]; decide⟩
  have hrel : relocation 4096 1 (65536 + 1) ∈ auditImage (highBandVolume 65540 (by decide)) := by
    refine (mem_auditImage hparse hg).2 (.inr ⟨1, 65536 + 1, ?_, by rw [hcluster]⟩)
    rw [hcluster]
    exact ⟨by decide, ⟨page, hpage⟩, by decide, by decide⟩
  exact h _ 1 page hparse hcluster hpage _ hrel "MSB+" (65536 + 1) 1 rfl

/-- On a volume of 16 clusters it is not. -/
theorem highBandVolume_small :
    (∀ a ∈ auditImage (highBandVolume 16 (by decide)), ∀ name recorded expected,
        a.kind ≠ .selfBlockMismatch name recorded expected (1 * 4096)) ↔
      (highBandVolume 16 (by decide)).len / 4096 ≤ 65536 + 1 :=
  high_band_clean_iff (highBandVolume 16 (by decide))
    (BootSector.fields (highBandVolume 16 (by decide))) 1 _ (by decide +kernel) (by decide +kernel)
    ⟨Slice.getRange_of_le (by decide), by decide +kernel, by decide +kernel⟩

/-! ## Silent audits -/

/-- The reader accepts the front of the volume. -/
def ReaderAccepts (image : Slice T) : Prop :=
  ∃ boot, BootSector.parse image = .ok boot ∧
    (boot.superblockOffset + 40 ≤ image.len →
      ∃ sb, Superblock.parseAt image boot.superblockOffset = .ok sb ∧ sb.block.blockNumber = 30)

theorem parseAt_eq_ok {image : Slice T} {off : ℕ} {sb : Superblock} (h : off + 40 ≤ image.len) :
    Superblock.parseAt image off = .ok sb ↔
      bytesAt 4 image off = supbSignature ∧
        sb = ⟨⟨supbSignature, RefsForensic.leU64 image (off + selfBlockOffset)⟩⟩ := by
  have hT := T.isizeMax_lt_usizeMax
  have hlen := image.len_le
  obtain ⟨slice, hslice⟩ : ∃ slice, image.getFrom off = some slice :=
    ⟨_, Slice.getRange_of_le ⟨by omega, le_rfl⟩⟩
  have hsl := Slice.len_of_getRange hslice
  have hbytes : bytesAt 4 slice 0 = bytesAt 4 image off := bytesAt_getRange hslice (by omega)
  have hnum : RefsForensic.leU64 slice selfBlockOffset =
      RefsForensic.leU64 image (off + selfBlockOffset) :=
    leField_getFrom hslice
  simp only [Superblock.parseAt, Target.tryFrom_of_le (show off ≤ T.usizeMax by omega),
    Option.getD_some, hslice, map_eq_ok, MetadataBlockRef.parse_eq_ok, hbytes, hnum, asBytes_supb]
  constructor
  · rintro ⟨r, ⟨hsig, -, rfl⟩, rfl⟩
    exact ⟨hsig, rfl⟩
  · rintro ⟨hsig, rfl⟩
    exact ⟨_, ⟨hsig, by simp only [blockHeaderMinLen]; omega, rfl⟩, rfl⟩

/-- The bytes the reader rejects without a finding are there: the `FSRS` identifier behind a right
signature, and, on a sane geometry, the `SUPB` signature of a superblock that fits, unless some
page is reported anyway. -/
structure RejectionsAudited (image : Slice T) : Prop where
  fsrs : bytesAt 8 image 3 = refsSignature → bytesAt 4 image 16 = refsFsrs
  supb : ∀ boot, BootSector.parse image = .ok boot → SaneGeometry boot →
    boot.superblockOffset + 40 ≤ image.len →
    bytesAt 4 image boot.superblockOffset = supbSignature ∨
      ∃ c s, Relocated image boot.clusterSize c s

/-- A superblock that fits is reported when it does not record block 30. -/
theorem superblockMismatch_mem {image : Slice T} {boot : BootSector}
    (hparse : BootSector.parse image = .ok boot) (hg : SaneGeometry boot)
    (hfit : boot.superblockOffset + 40 ≤ image.len)
    (hs : bytesAt 4 image boot.superblockOffset = supbSignature)
    (hne : RefsForensic.leU64 image (boot.superblockOffset + selfBlockOffset) ≠ 30) :
    superblockMismatch (RefsForensic.leU64 image (boot.superblockOffset + selfBlockOffset))
      boot.superblockOffset ∈ auditImage image := by
  obtain ⟨page, hpage⟩ : ∃ page, image.getFrom boot.superblockOffset = some page :=
    ⟨_, Slice.getRange_of_le ⟨by omega, le_rfl⟩⟩
  have hlen := Slice.len_of_getRange hpage
  have hnum : RefsForensic.leU64 page selfBlockOffset =
      RefsForensic.leU64 image (boot.superblockOffset + selfBlockOffset) :=
    leField_getFrom hpage
  refine (mem_auditImage hparse hg).2 (.inl (mem_checkSuperblock.2 ⟨page, hpage, ?_, .inl ?_⟩))
  · exact startsWith_of_bytesAt hpage (by omega) hs
  · rw [hnum]
    exact ⟨hne, rfl⟩

/-- Behind a rejected boot record the audit is silent when the signature is right, and the reader
accepts nothing. -/
theorem silent_iff_of_error {image : Slice T} (hlen : 72 ≤ image.len) {e : RefsError}
    (hb : BootSector.parse image = .error e) :
    (auditImage image = [] → ReaderAccepts image) ↔ RejectionsAudited image := by
  have hrej : ¬ReaderAccepts image := by
    rintro ⟨boot, hboot, -⟩
    cases hb.symm.trans hboot
  by_cases hs : bytesAt 8 image 3 = refsSignature
  · have hf : bytesAt 4 image 16 ≠ refsFsrs := by
      intro hf
      cases hb.symm.trans (BootSector.parse_eq_ok.2 ⟨hs, hf, hlen, rfl⟩)
    have hsilent : auditImage image = [] := by
      rw [auditImage_of_error hb, if_neg (not_not.2 hs)]
    exact iff_of_false (fun h => hrej (h hsilent)) fun h => hf (h.fsrs hs)
  · have hreported : auditImage image ≠ [] := by
      rw [auditImage_of_error hb, if_pos hs]
      exact List.cons_ne_nil _ _
    refine iff_of_true (fun h => absurd h hreported) ⟨fun h => absurd h hs, fun boot hboot => ?_⟩
    cases hb.symm.trans hboot

/-- An impossible geometry is always reported. -/
theorem silent_iff_of_insane {image : Slice T} {boot : BootSector}
    (hb : BootSector.parse image = .ok boot) (hg : ¬SaneGeometry boot) :
    (auditImage image = [] → ReaderAccepts image) ↔ RejectionsAudited image := by
  have hreported : auditImage image ≠ [] := by
    rw [auditImage_of_insane hb hg]
    exact List.cons_ne_nil _ _
  refine iff_of_true (fun h => absurd h hreported)
    ⟨fun _ => (BootSector.parse_eq_ok.1 hb).2.1, fun boot' hb' hg' => ?_⟩
  obtain rfl := Except.ok.inj (hb.symm.trans hb')
  exact absurd hg' hg

/-- Behind a sane geometry the audit is silent when there is neither a superblock signature nor a
relocated page. -/
theorem auditImage_eq_nil {image : Slice T} {boot : BootSector}
    (hb : BootSector.parse image = .ok boot) (hg : SaneGeometry boot)
    (hs : bytesAt 4 image boot.superblockOffset ≠ supbSignature)
    (hr : ¬∃ c s, Relocated image boot.clusterSize c s) : auditImage image = [] := by
  apply List.eq_nil_iff_forall_not_mem.2
  intro a ha
  rcases (mem_auditImage hb hg).1 ha with ha | ⟨c, s, hrel, -⟩
  · obtain ⟨page, hpage, hsig, -⟩ := mem_checkSuperblock.1 ha
    exact hs (hsig.bytesAt_getRange hpage)
  · exact hr ⟨c, s, hrel⟩

theorem silent_iff_of_sane {image : Slice T} {boot : BootSector}
    (hb : BootSector.parse image = .ok boot) (hg : SaneGeometry boot) :
    (auditImage image = [] → ReaderAccepts image) ↔ RejectionsAudited image := by
  constructor
  · intro h
    refine ⟨fun _ => (BootSector.parse_eq_ok.1 hb).2.1, fun boot' hb' _ hfit => ?_⟩
    obtain rfl := Except.ok.inj (hb.symm.trans hb')
    by_contra hno
    rw [not_or] at hno
    obtain ⟨boot', hb', hacc⟩ := h (auditImage_eq_nil hb hg hno.1 hno.2)
    obtain rfl := Except.ok.inj (hb.symm.trans hb')
    obtain ⟨sb, hsb, -⟩ := hacc hfit
    exact hno.1 ((parseAt_eq_ok hfit).1 hsb).1
  · intro h hsilent
    refine ⟨boot, hb, fun hfit => ?_⟩
    rcases h.supb boot hb hg hfit with hs | ⟨c, s, hrel⟩
    · refine ⟨_, (parseAt_eq_ok hfit).2 ⟨hs, rfl⟩, ?_⟩
      by_contra hne
      have := superblockMismatch_mem hb hg hfit hs hne
      rw [hsilent] at this
      cases this
    · have := (mem_auditImage hb hg).2 (.inr ⟨c, s, hrel, rfl⟩)
      rw [hsilent] at this
      cases this

/-- **When a silent audit means that the reader accepts the front of the volume.** -/
theorem silent_audit_iff (image : Slice T) (hlen : 72 ≤ image.len) :
    (auditImage image = [] → ReaderAccepts image) ↔ RejectionsAudited image := by
  cases hb : BootSector.parse image with
  | error e =>
    exact silent_iff_of_error hlen hb
  | ok boot =>
    by_cases hg : SaneGeometry boot
    · exact silent_iff_of_sane hb hg
    · exact silent_iff_of_insane hb hg

/-- A volume with a wrong `FSRS` identifier. -/
def wipedFsrs : Slice .w64 where
  len := 4096
  len_le := by decide
  byte i := bootByte 0 3 i

/-- The audit of `wipedFsrs` is silent, and the reader rejects it. -/
theorem wipedFsrs_silent : ¬(auditImage wipedFsrs = [] → ReaderAccepts wipedFsrs) := by
  intro h
  obtain ⟨boot, hboot, -⟩ := h (by decide +kernel)
  have hf := (BootSector.parse_eq_ok.1 hboot).2.1
  revert hf
  decide +kernel

theorem plainVolume_silent :
    (auditImage plainVolume = [] → ReaderAccepts plainVolume) ↔ RejectionsAudited plainVolume :=
  silent_audit_iff plainVolume (by decide)

/-! ## The version gate -/

/-- The kinds obtained by reading a v3 structure. -/
def ReadsV3 : AnomalyKind → Prop
  | .selfBlockMismatch structureName .. => structureName = "SUPB" ∨ structureName = "MSB+"
  | .checkpointDivergence .. => True
  | _ => False

/-- Behind a sane geometry every finding reads a v3 structure. -/
theorem readsV3_of_sane {image : Slice T} {boot : BootSector}
    (hparse : BootSector.parse image = .ok boot) (hg : SaneGeometry boot) {a : Anomaly}
    (ha : a ∈ auditImage image) : ReadsV3 a.kind := by
  rcases (mem_auditImage hparse hg).1 ha with ha | ⟨c, s, -, rfl⟩
  · obtain ⟨page, -, -, ⟨-, rfl⟩ | ⟨-, rfl⟩⟩ := mem_checkSuperblock.1 ha
    · exact .inl rfl
    · trivial
  · exact .inr rfl

/-- **When the auditor keeps the version gate**: on a volume that is not v3 it reports something,
and nothing read from a v3 structure, exactly when the geometry stops it. -/
theorem version_gate_iff (image : Slice T) (boot : BootSector)
    (hparse : BootSector.parse image = .ok boot) (hmajor : boot.majorVersion ≠ 3) :
    (boot.requireV3 ≠ .ok () ∧ auditImage image ≠ [] ∧ ∀ a ∈ auditImage image, ¬ReadsV3 a.kind) ↔
      boot.clusterSize = 0 ∨ 2 ^ 20 < boot.clusterSize := by
  have hgate : boot.requireV3 ≠ .ok () := by
    simp [BootSector.requireV3, BootSector.isV3, hmajor]
  by_cases hg : SaneGeometry boot
  · refine iff_of_false ?_ ?_
    · rintro ⟨-, hne, hall⟩
      obtain ⟨a, ha⟩ := List.exists_mem_of_ne_nil _ hne
      exact hall a ha (readsV3_of_sane hparse hg ha)
    · unfold SaneGeometry maxSaneClusterSize at hg
      omega
  · refine iff_of_true ⟨hgate, ?_⟩ ?_
    · rw [auditImage_of_insane hparse hg]
      simp [insaneCluster, Anomaly.new, ReadsV3]
    · unfold SaneGeometry maxSaneClusterSize at hg
      omega

/-- A v1 volume. -/
def versionOneVolume : Slice .w64 where
  len := 4096
  len_le := by decide
  byte i := bootByte 0x46 1 i

/-- The audit of a v1 volume finds nothing to say. -/
theorem versionOneVolume_silent :
    ¬∀ boot, BootSector.parse versionOneVolume = .ok boot → boot.majorVersion ≠ 3 →
      boot.requireV3 ≠ .ok () ∧ auditImage versionOneVolume ≠ [] ∧
        ∀ a ∈ auditImage versionOneVolume, ¬ReadsV3 a.kind := by
  intro h
  have hsilent : auditImage versionOneVolume = [] := by decide +kernel
  exact (h (BootSector.fields versionOneVolume) (by decide +kernel) (by decide +kernel)).2.1 hsilent

theorem versionOneVolume_gate :
    ((BootSector.fields versionOneVolume).requireV3 ≠ .ok () ∧ auditImage versionOneVolume ≠ [] ∧
        ∀ a ∈ auditImage versionOneVolume, ¬ReadsV3 a.kind) ↔
      (BootSector.fields versionOneVolume).clusterSize = 0 ∨
        2 ^ 20 < (BootSector.fields versionOneVolume).clusterSize :=
  version_gate_iff versionOneVolume _ (by decide +kernel) (by decide +kernel)

end RefsForensic.Forensic
