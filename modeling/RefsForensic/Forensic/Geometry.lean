import RefsForensic.Core.ResolverLaws
import RefsForensic.Core.Unresolved
import RefsForensic.Forensic.AuditLaws
import Mathlib.Tactic.LinearCombination

/-!
# Two geometries

The auditor steps by the cluster size of the boot record, the reader by 4096 bytes. On an image
whose pages all carry the number of their cluster in the boot record's geometry the audit finds
nothing to report, and `geometry_agrees_iff` says which of those pages the reader finds.
-/

namespace RefsForensic.Forensic

open Rust

variable {T : Target}

/-! ## Agreement -/

/-- The boot record parses with a sane cluster size, and every `MSB+` page on a cluster boundary of
the boot record or of the reader is where its number puts it in the boot record's geometry. -/
structure AuditedGeometry (image : Slice T) (boot : BootSector) : Prop where
  parses : BootSector.parse image = .ok boot
  sane : SaneGeometry boot
  pages : ∀ off s page, MsbPage image off s page → boot.clusterSize ∣ off ∨ refsClusterSize ∣ off →
    off = s * boot.clusterSize

theorem msbPage_iff {image page : Slice T} {off s : ℕ} :
    MsbPage image off s page ↔ AnsweringPage image s off page :=
  ⟨fun h => ⟨h.inBounds, h.signature, h.selfBlock⟩,
    fun h => ⟨h.inBounds, h.signature, h.selfBlock⟩⟩

/-- The audit reports no relocated page. -/
theorem AuditedGeometry.no_relocation {image : Slice T} {boot : BootSector}
    (h : AuditedGeometry image boot) (c s : ℕ) :
    relocation boot.clusterSize c s ∉ auditImage image := by
  intro hmem
  rcases (mem_auditImage h.parses h.sane).1 hmem with hmem | ⟨c', s', hrel, -⟩
  · obtain ⟨page, -, -, ⟨-, heq⟩ | ⟨-, heq⟩⟩ := mem_checkSuperblock.1 hmem
    · have hkind := congrArg Anomaly.kind heq
      simp [relocation, superblockMismatch, Anomaly.new] at hkind
    · have hkind := congrArg Anomaly.kind heq
      simp [relocation, noCheckpoints, Anomaly.new] at hkind
  · obtain ⟨page, hpage⟩ := hrel.page
    have hoff := h.pages _ s' page hpage (.inl (Nat.dvd_mul_left _ _))
    exact hrel.moved (Nat.eq_of_mul_eq_mul_right (Nat.pos_of_ne_zero h.sane.1) hoff.symm)

/-- On the reader's grid a page is only where the auditor has it. -/
theorem AuditedGeometry.offset_eq {image page : Slice T} {boot : BootSector}
    (h : AuditedGeometry image boot) {s off : ℕ} (hpage : AnsweringPage image s off page)
    (hoff : refsClusterSize ∣ off) : off = s * boot.clusterSize :=
  h.pages off s page (msbPage_iff.2 hpage) (.inr hoff)

/-- The first page of a container is at its cluster in both geometries. -/
theorem AuditedGeometry.first_offset {image : Slice T} {boot : BootSector}
    (h : AuditedGeometry image boot) {idx d s : ℕ}
    (hfirst : FirstWitness image defaultBandClusters idx d s) :
    d * refsClusterSize = s * boot.clusterSize := by
  obtain ⟨page, hpage⟩ := hfirst.page
  exact h.offset_eq hpage (Nat.dvd_mul_left _ _)

/-- A walk rooted at a block reports that block exactly when it does not resolve. -/
theorem walkDirectory_self_iff {image : Slice T} {b : ℕ} :
    walkDirectory image b ≠ .error (.unresolvedVirtualBlock b) ↔
      ∃ off, resolveBlockOffset image (walkResolver image) b = some off := by
  have hmem : b ∈ (walkSearch image b).1 :=
    Search.root_mem_dfs (blockGraph image) (show 0 < maxVisitedPages by decide) 63 b
  constructor
  · intro hne
    by_contra hno
    refine hne (walkDirectory_error_of_mem hmem (Option.eq_none_iff_forall_ne_some.2 ?_))
    exact fun off h => hno ⟨off, h⟩
  · rintro ⟨off, hoff⟩ herr
    cases (mem_of_walkDirectory_error herr).2.symm.trans hoff

/-- A page that puts another one at its place in the boot record's geometry is that page, or the
geometries are the same. -/
theorem same_cluster {c s d C : ℕ} (hs : s ≤ d + c) (hd : d * refsClusterSize = s * C)
    (hc : (d + c - s) * refsClusterSize = c * C) : s = c ∨ C = refsClusterSize := by
  obtain ⟨q, hq⟩ := Nat.exists_eq_add_of_le hs
  rw [hq, Nat.add_sub_cancel_left] at hc
  have hprod : ((s : ℤ) - c) * (C - refsClusterSize) = 0 := by
    zify at hd hc hq
    linear_combination (refsClusterSize : ℤ) * hq + hc - hd
  rcases mul_eq_zero.1 hprod with h | h
  · exact .inl (by omega)
  · exact .inr (by omega)

/-- The reader's geometry leads to the page of `c`: the geometries are the same, or the page is
itself the first consistent page of its container, or it is at the direct cluster of its number. -/
def ReaderLeads (image : Slice T) (boot : BootSector) (c : ℕ) : Prop :=
  boot.clusterSize = refsClusterSize ∨
    (∃ d, d * refsClusterSize = c * boot.clusterSize ∧
      FirstWitness image defaultBandClusters (c / defaultBandClusters) d c) ∨
    c * boot.clusterSize = directCluster c * refsClusterSize

/-- Where the placement rules lead, both of them on the reader's grid. -/
theorem AuditedGeometry.placed_iff {image page : Slice T} {boot : BootSector}
    (h : AuditedGeometry image boot) {c : ℕ}
    (hpage : AnsweringPage image c (c * boot.clusterSize) page) :
    Placed image c ↔ ReaderLeads image boot c := by
  constructor
  · rintro ⟨off, page', hpage', ⟨d, s, hfirst, hoff⟩ | hoff⟩
    · have hc := h.offset_eq hpage' (hoff ▸ Nat.dvd_mul_left _ _)
      obtain ⟨hcluster, hs⟩ := witnessed_cluster hfirst.container hfirst.consistent
      rw [hoff, hcluster] at hc
      have hd := h.first_offset hfirst
      rcases same_cluster hs hd hc with rfl | hsame
      · exact .inr (.inl ⟨d, hd, hfirst⟩)
      · exact .inl hsame
    · have hc := h.offset_eq hpage' (hoff ▸ Nat.dvd_mul_left _ _)
      exact .inr (.inr (hc.symm.trans hoff))
  · rintro (hsame | ⟨d, hd, hfirst⟩ | hdirect)
    · -- every page is at the cluster of its number
      rw [hsame] at hpage
      have hself : Witness image defaultBandClusters (c / defaultBandClusters) c c :=
        ⟨⟨page, hpage⟩, rfl, Nat.mod_le _ _⟩
      obtain ⟨d, s, hfirst⟩ := hself.exists_first
      obtain ⟨hcluster, -⟩ := witnessed_cluster hfirst.container hfirst.consistent
      have hd := h.first_offset hfirst
      rw [hsame] at hd
      obtain rfl := Nat.eq_of_mul_eq_mul_right (show 0 < refsClusterSize by decide) hd
      refine ⟨_, page, hpage, .inl ⟨d, d, hfirst, ?_⟩⟩
      rw [hcluster, Nat.add_sub_cancel_left]
    · refine ⟨_, page, hpage, .inl ⟨d, c, hfirst, ?_⟩⟩
      rw [Nat.sub_add_cancel hfirst.consistent, hd]
    · exact ⟨_, page, hpage, .inr hdirect⟩

/-- **Which pages the reader finds where the auditor has them**: an audited image reports no
relocated page; the reader finds the page of `c` exactly when its own geometry leads there; and
whatever it resolves `c` to is the auditor's offset. -/
theorem geometry_agrees_iff {image page : Slice T} {boot : BootSector}
    (h : AuditedGeometry image boot) {c : ℕ}
    (hpage : MsbPage image (c * boot.clusterSize) c page) :
    (walkDirectory image c ≠ .error (.unresolvedVirtualBlock c) ↔ ReaderLeads image boot c) ∧
    (∀ off, resolveBlockOffset image (walkResolver image) c = some off →
      off = c * boot.clusterSize) ∧
    ∀ c' s, relocation boot.clusterSize c' s ∉ auditImage image := by
  refine ⟨?_, fun off hoff => ?_, h.no_relocation⟩
  · rw [walkDirectory_self_iff, resolves_iff_placed, h.placed_iff (msbPage_iff.1 hpage)]
  · obtain ⟨page', hpage'⟩ := pageAnswersBlock_iff.1 (answers_of_resolve hoff)
    refine h.offset_eq hpage' ?_
    rcases resolveBlockOffset_cases hoff with hv | rfl
    · obtain ⟨d, s, -, rfl, -⟩ := (resolveVirtual_eq_some (by decide)).1 hv
      exact Nat.dvd_mul_left _ _
    · exact Nat.dvd_mul_left _ _

/-! ### A volume of 8 KiB clusters -/

/-- A v3 volume of ten 8 KiB clusters with the pages 4 and 8 at their clusters. -/
def wideClusters : Slice .w64 where
  len := 10 * 8192
  len_le := by decide
  byte i :=
    match (i : ℕ) with
    | 36 => 0x10
    | i =>
      if i / 4096 = 8 then msbHeaderByte 4 (i % 4096)
      else if i / 4096 = 16 then msbHeaderByte 8 (i % 4096)
      else bootByte 0x46 3 i

theorem wideClusters_boot :
    BootSector.parse wideClusters = .ok (BootSector.fields wideClusters) ∧
      (BootSector.fields wideClusters).clusterSize = 8192 := by
  decide +kernel

/-- The front of every cluster of the reader: only the clusters 8 and 16 hold a page. -/
theorem wideClusters_signature {m : ℕ} (hm : m ≤ 16)
    (h : bytesAt 4 wideClusters (m * 4096) = msbSignature) : m = 8 ∨ m = 16 := by
  revert h
  interval_cases m <;> decide +kernel

theorem wideClusters_page4 : ∃ page, MsbPage wideClusters (4 * 8192) 4 page :=
  ⟨_, Slice.getRange_of_le (by decide), by decide +kernel, by decide +kernel⟩

theorem wideClusters_page8 : ∃ page, MsbPage wideClusters (8 * 8192) 8 page :=
  ⟨_, Slice.getRange_of_le (by decide), by decide +kernel, by decide +kernel⟩

theorem wideClusters_audited : AuditedGeometry wideClusters (BootSector.fields wideClusters) := by
  obtain ⟨hparse, hcluster⟩ := wideClusters_boot
  refine ⟨hparse, by rw [SaneGeometry, hcluster]; decide, fun off s page hpage hoff => ?_⟩
  rw [hcluster] at hoff ⊢
  have hlen : wideClusters.len = 10 * 8192 := rfl
  have hle := hpage.le
  obtain ⟨m, rfl⟩ : ∃ m, off = m * 4096 := by
    rcases hoff with ⟨q, rfl⟩ | ⟨q, rfl⟩
    · exact ⟨2 * q, by ring⟩
    · exact ⟨q, by unfold refsClusterSize; ring⟩
  have hm : m ≤ 16 := by
    unfold refsMetadataPageSize at hle
    omega
  rcases wideClusters_signature hm (hpage.signature.bytesAt_getRange hpage.inBounds) with rfl | rfl
  · obtain ⟨page4, hpage4⟩ := wideClusters_page4
    rw [hpage.unique hpage4]
  · obtain ⟨page8, hpage8⟩ := wideClusters_page8
    rw [hpage.unique hpage8]

/-- The audit is silent, and the reader does not find page 8. -/
theorem wideClusters_disagree :
    AuditedGeometry wideClusters (BootSector.fields wideClusters) ∧ auditImage wideClusters = [] ∧
      (∃ page, MsbPage wideClusters (8 * (BootSector.fields wideClusters).clusterSize) 8 page) ∧
      walkDirectory wideClusters 8 = .error (.unresolvedVirtualBlock 8) := by
  refine ⟨wideClusters_audited, by decide +kernel, ?_, by decide +kernel⟩
  rw [wideClusters_boot.2]
  exact wideClusters_page8

/-- Page 4 is the first one of its container, and the reader finds it. -/
theorem wideClusters_found :
    (∃ page, MsbPage wideClusters (4 * (BootSector.fields wideClusters).clusterSize) 4 page) ∧
      walkDirectory wideClusters 4 ≠ .error (.unresolvedVirtualBlock 4) := by
  obtain ⟨page, hpage⟩ := wideClusters_page4
  rw [← wideClusters_boot.2] at hpage
  refine ⟨⟨page, hpage⟩, (geometry_agrees_iff wideClusters_audited hpage).1.2 (.inr (.inl ?_))⟩
  refine ⟨8, by rw [wideClusters_boot.2]; rfl, ⟨page, ?_⟩, by decide, by decide, ?_⟩
  · rw [wideClusters_boot.2] at hpage
    exact msbPage_iff.1 hpage
  · intro d hd s page' hpage' _ _
    have hsig := hpage'.signature.bytesAt_getRange hpage'.inBounds
    rcases wideClusters_signature (by omega) hsig with rfl | rfl
    · omega
    · omega

end RefsForensic.Forensic
