import RefsForensic.Core.Encode
import RefsForensic.Forensic.AuditLaws

/-!
# The audit of a history

The auditor sees a volume as a run of writes has left it. As long as the writes keep clear of the
boot record and the superblock header, an audit reports what it reported of the superblock at the
start, and exactly the misplaced pages among those the run has left (`audit_run`): a silent volume
stays silent exactly as long as every page is left at the cluster of its number
(`silent_run_iff`).
-/

namespace RefsForensic.Forensic

open Rust

variable {T : Target}

/-- The bytes of a superblock that its audit depends on, up to the end of the checkpoint count. -/
def superblockHeaderLen : ℕ := checkpointCountField + 4

/-! ## What the audit depends on -/

theorem bootSector_parse_congr {image image' : Slice T} (hlen : image'.len = image.len)
    (h : ∀ x < bootMinLen, image'.get? x = image.get? x) :
    BootSector.parse image' = BootSector.parse image := by
  have hbytes : ∀ n off, off + n ≤ 72 → bytesAt n image' off = bytesAt n image off :=
    fun n off hoff => bytesAt_congr hlen fun x _ hx => h x (by unfold bootMinLen; omega)
  have hfield : ∀ n off, off + n ≤ 72 → leField n image' off = leField n image off :=
    fun n off hoff => by rw [leField, hbytes n off hoff, leField]
  have hbyte : ∀ off < 72, u8At image' off = u8At image off := fun off hoff => by
    rw [u8At, h off hoff, u8At]
  unfold BootSector.parse BootSector.fields leU32 RefsForensic.leU64
  simp only [hbytes 8 3 (by decide), hbytes 4 16 (by decide), hfield 8 24 (by decide),
    hfield 4 32 (by decide), hfield 4 36 (by decide), hfield 8 56 (by decide),
    hfield 8 64 (by decide), hbyte 40 (by decide), hbyte 41 (by decide), hlen]

/-- A tail of an image, in another one that has its first `n` bytes. -/
theorem getFrom_congr {image image' page : Slice T} {off n : ℕ} (hlen : image'.len = image.len)
    (h : ∀ x, off ≤ x → x < off + n → image'.get? x = image.get? x)
    (hpage : image.getFrom off = some page) :
    ∃ page', image'.getFrom off = some page' ∧ page'.len = page.len ∧
      ∀ x < n, page'.get? x = page.get? x := by
  obtain ⟨hle, rfl⟩ := Slice.getRange_eq_some.1 hpage
  refine ⟨image'.range off image'.len ⟨by omega, le_rfl⟩, Slice.getRange_of_le _, ?_,
    fun x hx => ?_⟩
  · rw [Slice.range_len, Slice.range_len, hlen]
  · rw [Slice.get?_range, Slice.get?_range, hlen, h (off + x) (by omega) (by omega)]

/-- The findings of the superblock stage are those of its header. -/
theorem checkSuperblock_congr {image image' : Slice T} {off : ℕ} (hlen : image'.len = image.len)
    (h : ∀ x, off ≤ x → x < off + superblockHeaderLen → image'.get? x = image.get? x)
    (a : Anomaly) (ha : a ∈ checkSuperblock [] image off) : a ∈ checkSuperblock [] image' off := by
  obtain ⟨page, hpage, hsig, hfinding⟩ := mem_checkSuperblock.1 ha
  obtain ⟨page', hpage', hlen', hbytes⟩ := getFrom_congr hlen h hpage
  have hfield : ∀ n o, o + n ≤ superblockHeaderLen → bytesAt n page' o = bytesAt n page o :=
    fun n o ho => bytesAt_congr hlen' fun x _ hx => hbytes x (by omega)
  have hle := hsig.four_le_len
  refine mem_checkSuperblock.2 ⟨page', hpage', ?_, ?_⟩
  · rw [startsWith_iff_bytesAt (by omega), hfield 4 0 (by decide)]
    exact (startsWith_iff_bytesAt hle).1 hsig
  · have hself : RefsForensic.leU64 page' selfBlockOffset =
        RefsForensic.leU64 page selfBlockOffset := by
      rw [RefsForensic.leU64, leField, hfield 8 _ (by decide), RefsForensic.leU64, leField]
    have hcount : Checkpoint.count page' = Checkpoint.count page := by
      rw [Checkpoint.count, leU32, leField, hfield 4 _ (by decide), Checkpoint.count, leU32,
        leField]
    have hrefs : leU32 page' checkpointRefsOffsetField = leU32 page checkpointRefsOffsetField := by
      rw [leU32, leField, hfield 4 _ (by decide), leU32, leField]
    rw [hself]
    refine hfinding.imp_right (And.imp_left fun hempty => ?_)
    -- an empty list is one of count zero, so no reference is read
    obtain ⟨h₁, h₂, h₃⟩ := Checkpoint.locations_eq_ok.1 hempty
    have hzero : Checkpoint.count page = 0 := by simpa using h₃.symm
    refine Checkpoint.locations_eq_ok.2 ⟨by rwa [hlen'], ?_, ?_⟩
    · rwa [hrefs, hcount, hlen']
    · rw [hcount, hzero]
      rfl

/-! ## Runs -/

variable {image image' : Slice T} {ws : List (Write T)} {boot : BootSector}

/-- A cluster of the boot record's geometry holds a misplaced page: its number is another cluster
of the image. -/
structure Misplaced (st : Store T) (clusters m c : ℕ) (p : MetaPage T) : Prop where
  page : st (c * m) = some p
  cluster : c < clusters
  resident : p.number < clusters
  moved : p.number ≠ c

theorem relocated_iff_misplaced {m c s : ℕ} :
    Relocated image (m * refsClusterSize) c s ↔
      ∃ p, Misplaced (residentPage image) (image.len / (m * refsClusterSize)) m c p ∧
        p.number = s := by
  have hoff : c * (m * refsClusterSize) = c * m * refsClusterSize := (Nat.mul_assoc ..).symm
  constructor
  · rintro ⟨hc, ⟨page, hpage⟩, hs, hne⟩
    rw [hoff] at hpage
    obtain ⟨p, hp, rfl, -⟩ := answeringPage_iff.1
      ⟨hpage.inBounds, hpage.signature, hpage.selfBlock⟩
    exact ⟨p, ⟨hp, hc, hs, hne⟩, rfl⟩
  · rintro ⟨p, ⟨hp, hc, hs, hne⟩, rfl⟩
    have hans := answeringPage_iff.2 ⟨p, hp, rfl, rfl⟩
    exact ⟨hc, ⟨p.data, by rw [hoff]; exact ⟨hans.inBounds, hans.signature, hans.selfBlock⟩⟩, hs,
      hne⟩

/-- The findings of an audit, on the page store. -/
theorem mem_auditImage_store (hboot : BootSector.parse image = .ok boot)
    (hsane : SaneGeometry boot) {m : ℕ} (hcluster : boot.clusterSize = m * refsClusterSize)
    {a : Anomaly} :
    a ∈ auditImage image ↔ a ∈ checkSuperblock [] image boot.superblockOffset ∨
      ∃ c p, Misplaced (residentPage image) (image.len / boot.clusterSize) m c p ∧
        a = relocation boot.clusterSize c p.number := by
  rw [mem_auditImage hboot hsane]
  refine or_congr_right ?_
  simp only [hcluster, relocated_iff_misplaced]
  constructor
  · rintro ⟨c, s, ⟨p, hp, rfl⟩, rfl⟩
    exact ⟨c, p, hp, rfl⟩
  · rintro ⟨c, p, hp, rfl⟩
    exact ⟨c, p.number, ⟨p, hp, rfl⟩, rfl⟩

/-- The writes keep clear of the boot record and of the superblock header. -/
def KeepsHeaders (boot : BootSector) (ws : List (Write T)) : Prop :=
  ∀ w ∈ ws, w.Clear 0 bootMinLen ∧
    w.Clear boot.superblockOffset (boot.superblockOffset + superblockHeaderLen)

/-- What the headers say is kept. -/
theorem Run.headers (hrun : Run image ws image') (hboot : BootSector.parse image = .ok boot)
    (hkeeps : KeepsHeaders boot ws) :
    BootSector.parse image' = .ok boot ∧
      ∀ a, a ∈ checkSuperblock [] image' boot.superblockOffset ↔
        a ∈ checkSuperblock [] image boot.superblockOffset := by
  have hbootBytes : ∀ x < bootMinLen, image'.get? x = image.get? x := fun x hx =>
    hrun.get?_eq (fun w hw => (hkeeps w hw).1) (Nat.zero_le x) hx
  have hheader : ∀ x, boot.superblockOffset ≤ x →
      x < boot.superblockOffset + superblockHeaderLen → image'.get? x = image.get? x := fun x =>
    hrun.get?_eq fun w hw => (hkeeps w hw).2
  constructor
  · rw [bootSector_parse_congr hrun.len hbootBytes, hboot]
  · exact fun a => ⟨checkSuperblock_congr hrun.len.symm (fun x h₁ h₂ => (hheader x h₁ h₂).symm) a,
      checkSuperblock_congr hrun.len hheader a⟩

/-- **The audit of a run**: an image that a run of writes has made of a volume, with headers left
alone, is reported for what the superblock of the volume is reported for and for exactly the
misplaced pages among those the run has left. -/
theorem audit_run (hrun : Run image ws image') (hboot : BootSector.parse image = .ok boot)
    (hsane : SaneGeometry boot) {m : ℕ} (hcluster : boot.clusterSize = m * refsClusterSize)
    (hkeeps : KeepsHeaders boot ws) (a : Anomaly) :
    a ∈ auditImage image' ↔
      a ∈ checkSuperblock [] image boot.superblockOffset ∨
        ∃ c p, Misplaced ((residentPage image).putAll ws) (image.len / boot.clusterSize) m c p ∧
          a = relocation boot.clusterSize c p.number := by
  obtain ⟨hboot', hsuper⟩ := Run.headers hrun hboot hkeeps
  rw [mem_auditImage_store hboot' hsane hcluster, hsuper, hrun.store, hrun.len]

/-! ### A volume without pages -/

/-- The boot record of `plainVolume`. -/
def plainBoot : BootSector := BootSector.fields plainVolume

theorem plainVolume_boot : BootSector.parse plainVolume = .ok plainBoot := by decide +kernel

theorem plainBoot_sane : SaneGeometry plainBoot := by
  unfold SaneGeometry
  decide +kernel

theorem plainBoot_clusterSize : plainBoot.clusterSize = 1 * refsClusterSize := by decide +kernel

theorem plainBoot_superblockOffset : plainBoot.superblockOffset = 30 * 4096 := by decide +kernel

theorem plainVolume_clusters : plainVolume.len / plainBoot.clusterSize = 30 := by decide +kernel

theorem residentPage_plainVolume : residentPage plainVolume = fun _ => none := by
  have hnone : ∀ c < 27, bytesAt 4 plainVolume (c * refsClusterSize) ≠ msbSignature := by
    decide +kernel
  funext c
  rw [Option.eq_none_iff_forall_ne_some]
  intro p hp
  obtain ⟨hle, hsig⟩ := exists_residentPage_iff.1 ⟨p, hp⟩
  change c * 4096 + 16384 ≤ 30 * 4096 + 256 at hle
  exact hnone c (by omega) hsig

theorem emptyLeaf_allowed {b : UInt64} {c : ℕ} (hc : c ≤ 26) :
    (Write.page c (emptyLeaf b)).Allowed plainVolume := by
  refine .page ?_ (encode_plain _ _ (by decide)) fun c' _ _ _ => ?_
  · change c * 4096 + 16384 ≤ 30 * 4096 + 256
    omega
  · rw [residentPage_plainVolume]

theorem emptyLeaf_keepsHeaders {b : UInt64} {c : ℕ} (hpos : 0 < c) (hc : c ≤ 26) :
    KeepsHeaders plainBoot [.page c (emptyLeaf b)] := by
  intro w hw
  rw [List.mem_singleton.1 hw, plainBoot_superblockOffset]
  refine ⟨.inl ?_, .inr ?_⟩
  · change 72 ≤ c * 4096
    omega
  · change c * 4096 + 16384 ≤ 30 * 4096
    omega

/-- A page that is written to cluster 4 with the number 9 is reported. -/
theorem movedPage_reported : ∃ image', Run plainVolume [.page 4 (emptyLeaf 9)] image' ∧
    relocation 4096 4 9 ∈ auditImage image' := by
  have hrun : Run plainVolume [.page 4 (emptyLeaf 9)] _ :=
    .step .start (emptyLeaf_allowed (by decide))
  have hnumber : (emptyLeaf 9).number = 9 := emptyLeaf_number 9
  have hmis : Misplaced ((residentPage plainVolume).putAll [.page 4 (emptyLeaf 9)])
      (plainVolume.len / plainBoot.clusterSize) 1 4 (emptyLeaf 9) := by
    rw [plainVolume_clusters]
    refine ⟨?_, by decide, by rw [hnumber]; decide, by rw [hnumber]; decide⟩
    change Function.update (residentPage plainVolume) 4 (some (emptyLeaf 9)) 4 = _
    rw [Function.update_self]
  refine ⟨_, hrun, (audit_run hrun plainVolume_boot plainBoot_sane plainBoot_clusterSize
    (emptyLeaf_keepsHeaders (by decide) (by decide)) _).2 (.inr ⟨4, _, hmis, ?_⟩)⟩
  rw [hnumber, plainBoot_clusterSize]
  rfl

/-- **When a silent volume stays silent**: exactly when the run has left none of its pages
misplaced. -/
theorem silent_run_iff (hrun : Run image ws image') (hboot : BootSector.parse image = .ok boot)
    (hsane : SaneGeometry boot) {m : ℕ} (hcluster : boot.clusterSize = m * refsClusterSize)
    (hkeeps : KeepsHeaders boot ws) (hsilent : auditImage image = []) :
    auditImage image' = [] ↔
      ∀ c p, Write.page (c * m) p ∈ ws →
        ¬Misplaced ((residentPage image).putAll ws) (image.len / boot.clusterSize) m c p := by
  obtain ⟨hboot', hsuper⟩ := Run.headers hrun hboot hkeeps
  simp only [List.eq_nil_iff_forall_not_mem, mem_auditImage_store hboot hsane hcluster, not_or,
    not_exists, not_and] at hsilent
  simp only [List.eq_nil_iff_forall_not_mem, mem_auditImage_store hboot' hsane hcluster, hsuper,
    hrun.store, hrun.len, not_or, not_exists, not_and]
  constructor
  · exact fun h c p _ hmis => (h _).2 c p hmis rfl
  · refine fun h a => ⟨(hsilent a).1, fun c p hmis heq => ?_⟩
    rcases Store.putAll_origin hmis.page with hold | hnew
    · exact (hsilent a).2 c p ⟨hold, hmis.cluster, hmis.resident, hmis.moved⟩ heq
    · exact h c p hnew hmis

/-- A page that is written to the cluster of its number leaves the volume silent. -/
theorem ownPage_silent : ∃ image', Run plainVolume [.page 8 (emptyLeaf 8)] image' ∧
    auditImage image' = [] := by
  have hrun : Run plainVolume [.page 8 (emptyLeaf 8)] _ :=
    .step .start (emptyLeaf_allowed (by decide))
  have hsilent : auditImage plainVolume = [] := by decide +kernel
  refine ⟨_, hrun, (silent_run_iff hrun plainVolume_boot plainBoot_sane plainBoot_clusterSize
    (emptyLeaf_keepsHeaders (by decide) (by decide)) hsilent).2 fun c p hmem hmis => ?_⟩
  have hwrite := List.mem_singleton.1 hmem
  rw [Write.page.injEq] at hwrite
  obtain ⟨hc, rfl⟩ := hwrite
  refine hmis.moved ?_
  rw [← Nat.mul_one c, hc]
  exact emptyLeaf_number 8

end RefsForensic.Forensic
