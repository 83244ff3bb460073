import RefsForensic.Forensic.Audit

/-!
# What the auditor reports

The findings of `audit_image`, stage by stage. The sweep stops at the first cluster whose page does
not fit, but no later page fits either, so it reports exactly the relocated pages
(`mem_sweepResidentSelfBlocks`); the superblock stage reports its own number and an empty checkpoint
set (`mem_checkSuperblock`); `mem_auditImage` puts them together.
-/

namespace RefsForensic.Forensic

open Rust

variable {T : Target}

/-! ## The sweep -/

/-- An in-bounds `MSB+` page at byte `off` whose own number is `s`. -/
structure MsbPage (image : Slice T) (off s : ℕ) (page : Slice T) : Prop where
  inBounds : image.getRange off (off + refsMetadataPageSize) = some page
  signature : startsWith page msbSignature
  selfBlock : RefsForensic.leU64 page selfBlockOffset = s

/-- The page at cluster `c` claims to be the resident block `s`, which is not its cluster. -/
structure Relocated (image : Slice T) (clusterSize c s : ℕ) : Prop where
  cluster : c < image.len / clusterSize
  page : ∃ page, MsbPage image (c * clusterSize) s page
  resident : s < image.len / clusterSize
  moved : s ≠ c

/-- The finding for a page at cluster `c` that claims to be block `s`. -/
def relocation (clusterSize c s : ℕ) : Anomaly :=
  Anomaly.new (.selfBlockMismatch "MSB+" s c (c * clusterSize))

theorem MsbPage.le {image page : Slice T} {off s : ℕ} (h : MsbPage image off s page) :
    off + refsMetadataPageSize ≤ image.len :=
  (Slice.getRange_eq_some.1 h.inBounds).1.2

theorem MsbPage.unique {image p p' : Slice T} {off s s' : ℕ} (h : MsbPage image off s p)
    (h' : MsbPage image off s' p') : s = s' := by
  obtain rfl := Option.some.inj (h.inBounds.symm.trans h'.inBounds)
  exact h.selfBlock.symm.trans h'.selfBlock

/-- What one iteration of the sweep adds for a page that fits. -/
theorem sweepClusters_cons {image page : Slice T} {clusterSize ceiling c : ℕ} {cs : List ℕ}
    {out : List Anomaly} (hpage : blockAt image (c * clusterSize) = some page) :
    sweepClusters image clusterSize ceiling (c :: cs) out =
      sweepClusters image clusterSize ceiling cs (out ++
        if startsWith page msbSignature ∧ RefsForensic.leU64 page selfBlockOffset < ceiling ∧
            RefsForensic.leU64 page selfBlockOffset ≠ c then
          [relocation clusterSize c (RefsForensic.leU64 page selfBlockOffset)]
        else []) := by
  conv_lhs => unfold sweepClusters
  simp only [hpage, leU64_eq]
  by_cases hs : startsWith page msbSignature
  · rw [if_neg (not_not.2 hs)]
    split_ifs <;> simp_all [relocation]
  · rw [if_pos hs, if_neg fun h => hs h.1, List.append_nil]

/-- What the sweep adds from cluster `c` on. -/
theorem mem_sweepClusters (image : Slice T) (clusterSize ceiling : ℕ) (a : Anomaly) (n c : ℕ)
    (out : List Anomaly) :
    a ∈ sweepClusters image clusterSize ceiling (List.range' c n) out ↔
      a ∈ out ∨ ∃ c' s page, c ≤ c' ∧ c' < c + n ∧ MsbPage image (c' * clusterSize) s page ∧
        s < ceiling ∧ s ≠ c' ∧ a = relocation clusterSize c' s := by
  induction n generalizing c out with
  | zero =>
    simp only [List.range'_zero, sweepClusters]
    refine ⟨.inl, ?_⟩
    rintro (h | ⟨c', s, page, h₁, h₂, -⟩)
    · exact h
    · omega
  | succ n ih =>
    rw [List.range'_succ]
    cases hpage : blockAt image (c * clusterSize) with
    | none =>
      -- the loop breaks: this page does not fit, and the later ones reach further
      simp only [sweepClusters, hpage]
      refine ⟨.inl, ?_⟩
      rintro (h | ⟨c', s, page, h₁, -, hp, -⟩)
      · exact h
      · rw [blockAt_eq, Slice.getRange_eq_none] at hpage
        have hle := hp.le
        have := Nat.mul_le_mul_right clusterSize h₁
        omega
    | some page =>
      rw [sweepClusters_cons hpage, ih, List.mem_append, or_assoc]
      rw [blockAt_eq] at hpage
      apply or_congr_right
      constructor
      · rintro (h | ⟨c', s, p, h₁, h₂, h⟩)
        · split_ifs at h with hm
          · exact ⟨c, _, page, le_rfl, by omega, ⟨hpage, hm.1, rfl⟩, hm.2.1, hm.2.2,
              List.mem_singleton.1 h⟩
          · simp at h
        · exact ⟨c', s, p, by omega, by omega, h⟩
      · rintro ⟨c', s, p, h₁, h₂, hp, hs, hne, rfl⟩
        rcases Nat.eq_or_lt_of_le h₁ with rfl | h₁
        · obtain rfl := Option.some.inj (hpage.symm.trans hp.inBounds)
          obtain rfl := hp.selfBlock
          exact .inl (by rw [if_pos ⟨hp.signature, hs, hne⟩]; exact List.mem_singleton.2 rfl)
        · exact .inr ⟨c', s, p, h₁, by omega, hp, hs, hne, rfl⟩

/-- **The sweep reports exactly the relocated pages.** -/
theorem mem_sweepResidentSelfBlocks {image : Slice T} {clusterSize : ℕ} {out : List Anomaly}
    {a : Anomaly} (hcs : clusterSize ≠ 0) :
    a ∈ sweepResidentSelfBlocks out image clusterSize ↔
      a ∈ out ∨ ∃ c s, Relocated image clusterSize c s ∧ a = relocation clusterSize c s := by
  simp only [sweepResidentSelfBlocks, if_neg hcs, List.range_eq_range', mem_sweepClusters]
  refine or_congr_right ⟨?_, ?_⟩
  · rintro ⟨c, s, page, -, h₂, hp, hs, hne, rfl⟩
    exact ⟨c, s, ⟨by omega, ⟨page, hp⟩, hs, hne⟩, rfl⟩
  · rintro ⟨c, s, ⟨hc, ⟨page, hp⟩, hs, hne⟩, rfl⟩
    exact ⟨c, s, page, Nat.zero_le _, by omega, hp, hs, hne, rfl⟩

/-! ## The superblock -/

/-- The finding for a superblock at `sbOff` that records `recorded`. -/
def superblockMismatch (recorded sbOff : ℕ) : Anomaly :=
  Anomaly.new (.selfBlockMismatch "SUPB" recorded superblockBlockNumber sbOff)

/-- The finding for a superblock that names no checkpoint. -/
def noCheckpoints : Anomaly := Anomaly.new (.checkpointDivergence zeroCheckpoints [])

theorem mem_checkCheckpoints {out : List Anomaly} {page : Slice T} {a : Anomaly} :
    a ∈ checkCheckpoints out page ↔
      a ∈ out ∨ Checkpoint.locationsFromSuperblock page = .ok [] ∧ a = noCheckpoints := by
  unfold checkCheckpoints
  cases Checkpoint.locationsFromSuperblock page with
  | error e =>
    simp
  | ok cps =>
    by_cases h : cps = []
    · simp [h, noCheckpoints]
    · simp [h]

theorem mem_checkSuperblock {image : Slice T} {sbOff : ℕ} {a : Anomaly} :
    a ∈ checkSuperblock [] image sbOff ↔
      ∃ page, image.getFrom sbOff = some page ∧ startsWith page supbSignature ∧
        (RefsForensic.leU64 page selfBlockOffset ≠ superblockBlockNumber ∧
            a = superblockMismatch (RefsForensic.leU64 page selfBlockOffset) sbOff ∨
          Checkpoint.locationsFromSuperblock page = .ok [] ∧ a = noCheckpoints) := by
  unfold checkSuperblock
  rw [headerAt_eq]
  cases image.getFrom sbOff with
  | none =>
    simp
  | some page =>
    by_cases hs : startsWith page supbSignature
    · simp only [leU64_eq, Option.some.injEq, exists_eq_left', hs, true_and]
      by_cases hr : RefsForensic.leU64 page selfBlockOffset = superblockBlockNumber
      · simp [hr, mem_checkCheckpoints]
      · simp [hr, mem_checkCheckpoints, superblockMismatch]
    · simp [hs]

/-! ## The whole audit -/

/-- The geometry stage lets the cluster size pass. -/
def SaneGeometry (boot : BootSector) : Prop :=
  boot.clusterSize ≠ 0 ∧ boot.clusterSize ≤ maxSaneClusterSize

/-- The finding for a cluster size out of bounds. -/
def insaneCluster (cluster : ℕ) : Anomaly :=
  Anomaly.new (.impossibleGeometry "cluster_size" cluster maxSaneClusterSize)

theorem auditImage_of_error {image : Slice T} {e : RefsError}
    (h : BootSector.parse image = .error e) :
    auditImage image =
      if bytesAt 8 image 3 ≠ refsSignature then
        [Anomaly.new (.bootSignatureInvalid (bytesAt 8 image 3))]
      else [] := by
  rw [auditImage, h]

theorem auditImage_of_insane {image : Slice T} {boot : BootSector}
    (h : BootSector.parse image = .ok boot) (hg : ¬SaneGeometry boot) :
    auditImage image = [insaneCluster boot.clusterSize] := by
  unfold SaneGeometry at hg
  simp only [auditImage, h]
  rw [if_pos (by omega), insaneCluster]

/-- **The findings of an audit that reaches the metadata.** -/
theorem mem_auditImage {image : Slice T} {boot : BootSector}
    (h : BootSector.parse image = .ok boot) (hg : SaneGeometry boot) {a : Anomaly} :
    a ∈ auditImage image ↔
      a ∈ checkSuperblock [] image boot.superblockOffset ∨
        ∃ c s, Relocated image boot.clusterSize c s ∧ a = relocation boot.clusterSize c s := by
  have hg' := hg
  unfold SaneGeometry at hg'
  simp only [auditImage, h]
  rw [if_neg (by omega), mem_sweepResidentSelfBlocks hg.1]

end RefsForensic.Forensic
