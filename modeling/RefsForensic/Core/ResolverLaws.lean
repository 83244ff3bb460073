import RefsForensic.Core.Resolution
import Mathlib.Tactic.IntervalCases

/-!
# Laws of the resolver

What the bootstrap of `ContainerResolver::from_resident_image` gives its callers: the virtual block
of every container is where the lowest consistent page of the container puts it
(`resolver_bootstrap`), whether or not the image reaches that far (`resolved_page_fits_iff`). The
strategies of `resolve_block_offset` have one more candidate than the code ever validates
(`strategy_chain_iff`).
-/

namespace RefsForensic

open Rust

variable {T : Target}

/-! ## Witnesses -/

/-- The page at cluster `c`, numbered `s`, is a consistent page of container `idx`. -/
structure Witness (image : Slice T) (bandClusters idx c s : ℕ) : Prop where
  page : ∃ page, AnsweringPage image s (c * refsClusterSize) page
  container : s / bandClusters = idx
  consistent : s % bandClusters ≤ c

theorem FirstWitness.witness {image : Slice T} {bandClusters idx c s : ℕ}
    (h : FirstWitness image bandClusters idx c s) : Witness image bandClusters idx c s :=
  ⟨h.page, h.container, h.consistent⟩

theorem firstWitness_iff {image : Slice T} {bandClusters idx c s : ℕ} :
    FirstWitness image bandClusters idx c s ↔
      Witness image bandClusters idx c s ∧
        ∀ c' s', Witness image bandClusters idx c' s' → c ≤ c' := by
  constructor
  · intro h
    refine ⟨h.witness, fun c' s' h' => ?_⟩
    by_contra hlt
    obtain ⟨page, hpage⟩ := h'.page
    exact h.first c' (by omega) s' page hpage h'.container h'.consistent
  · rintro ⟨h, hlow⟩
    refine ⟨h.page, h.container, h.consistent, fun c' hc' s' page hpage hidx hle => ?_⟩
    have := hlow c' s' ⟨⟨page, hpage⟩, hidx, hle⟩
    omega

/-- A page has one number. -/
theorem Witness.number_eq {image : Slice T} {bandClusters idx c s s' : ℕ}
    (h : Witness image bandClusters idx c s) (h' : Witness image bandClusters idx c s') :
    s = s' := by
  obtain ⟨page, hpage⟩ := h.page
  obtain ⟨page', hpage'⟩ := h'.page
  rw [← hpage.leU64_image, hpage'.leU64_image]

theorem FirstWitness.unique {image : Slice T} {bandClusters idx c s c' s' : ℕ}
    (h : FirstWitness image bandClusters idx c s)
    (h' : FirstWitness image bandClusters idx c' s') : c = c' ∧ s = s' := by
  have hle := (firstWitness_iff.1 h).2 c' s' h'.witness
  have hge := (firstWitness_iff.1 h').2 c s h.witness
  obtain rfl : c = c' := by omega
  exact ⟨rfl, h.witness.number_eq h'.witness⟩

/-- A container with a consistent page has a lowest one. -/
theorem Witness.exists_first {image : Slice T} {bandClusters idx c s : ℕ}
    (h : Witness image bandClusters idx c s) :
    ∃ c₀ s₀, FirstWitness image bandClusters idx c₀ s₀ := by
  classical
  have hex : ∃ c, ∃ s, Witness image bandClusters idx c s := ⟨c, s, h⟩
  obtain ⟨s₀, h₀⟩ := Nat.find_spec hex
  refine ⟨Nat.find hex, s₀, firstWitness_iff.2 ⟨h₀, fun c' s' h' => ?_⟩⟩
  exact Nat.find_min' hex ⟨s', h'⟩

/-! ## The bootstrap -/

/-- A block is unresolved where its container has no page, or the first one puts it beyond the
`u64` range. -/
theorem resolveVirtual_eq_none {image : Slice T} {bandClusters v : ℕ} (hk : 0 < bandClusters) :
    (ContainerResolver.fromResidentImage image bandClusters).resolveVirtual v = none ↔
      (∀ c s, ¬Witness image bandClusters (v / bandClusters) c s) ∨
        ∃ c s, FirstWitness image bandClusters (v / bandClusters) c s ∧
          u64Max < (c - s % bandClusters + v % bandClusters) * refsClusterSize := by
  constructor
  · intro hnone
    by_cases hw : ∃ c s, Witness image bandClusters (v / bandClusters) c s
    · obtain ⟨c, s, hw⟩ := hw
      obtain ⟨c₀, s₀, h₀⟩ := hw.exists_first
      refine .inr ⟨c₀, s₀, h₀, ?_⟩
      by_contra hle
      have hsome := (resolveVirtual_eq_some hk.ne').2 ⟨c₀, s₀, h₀, rfl, not_lt.1 hle⟩
      rw [hnone] at hsome
      cases hsome
    · exact .inl fun c s h => hw ⟨c, s, h⟩
  · intro h
    rw [Option.eq_none_iff_forall_ne_some]
    intro off hoff
    obtain ⟨c, s, hfirst, rfl, hle⟩ := (resolveVirtual_eq_some hk.ne').1 hoff
    rcases h with h | ⟨c', s', hfirst', hlt⟩
    · exact h c s hfirst.witness
    · obtain ⟨rfl, rfl⟩ := hfirst.unique hfirst'
      omega

/-- Where the pages of a container agree, each resolves to itself. -/
theorem Witness.resolves {image : Slice T} {bandClusters idx c s : ℕ} (hk : 0 < bandClusters)
    (h : Witness image bandClusters idx c s)
    (hagree : ∀ c' s', Witness image bandClusters idx c' s' →
      c' - s' % bandClusters = c - s % bandClusters) :
    (ContainerResolver.fromResidentImage image bandClusters).resolveVirtual s =
      some (c * refsClusterSize) := by
  have hlen := image.len_le
  have hmax := T.isizeMax_lt_usizeMax
  have hu64 := T.usizeMax_le_u64Max
  obtain ⟨page, hpage⟩ := h.page
  have hle := hpage.le
  obtain ⟨c₀, s₀, h₀⟩ := h.exists_first
  have hbase := hagree c₀ s₀ h₀.witness
  have hcons := h.consistent
  obtain rfl := h.container
  refine (resolveVirtual_eq_some hk.ne').2 ⟨c₀, s₀, h₀, ?_, by omega⟩
  rw [hbase, Nat.sub_add_cancel hcons]

/-- **The container bootstrap**: a block is unresolved exactly where its container has no consistent
page or the lowest one puts it beyond the `u64` range; a resolved block is where the lowest page
puts it; and the pages of a container that agree on its base all resolve to themselves. -/
theorem resolver_bootstrap (image : Slice T) {bandClusters : ℕ} (hk : 0 < bandClusters) :
    (∀ v, (ContainerResolver.fromResidentImage image bandClusters).resolveVirtual v = none ↔
      (∀ c s, ¬Witness image bandClusters (v / bandClusters) c s) ∨
        ∃ c s, FirstWitness image bandClusters (v / bandClusters) c s ∧
          u64Max < (c - s % bandClusters + v % bandClusters) * refsClusterSize) ∧
    (∀ v c s, FirstWitness image bandClusters (v / bandClusters) c s →
      (c - s % bandClusters + v % bandClusters) * refsClusterSize ≤ u64Max →
      (ContainerResolver.fromResidentImage image bandClusters).resolveVirtual v =
        some ((c - s % bandClusters + v % bandClusters) * refsClusterSize)) ∧
    (∀ idx,
      (∀ c s c' s', Witness image bandClusters idx c s → Witness image bandClusters idx c' s' →
        c - s % bandClusters = c' - s' % bandClusters) →
      ∀ c s, Witness image bandClusters idx c s →
        (ContainerResolver.fromResidentImage image bandClusters).resolveVirtual s =
          some (c * refsClusterSize)) := by
  refine ⟨fun v => resolveVirtual_eq_none hk, fun v c s h hle => ?_, fun idx hagree c s h => ?_⟩
  · exact (resolveVirtual_eq_some hk.ne').2 ⟨c, s, h, rfl, hle⟩
  · exact h.resolves hk fun c' s' h' => hagree c' s' c s h' h

/-- The signature of a Minstore page and, behind it, the number `block` of up to three bytes. -/
def msbHeaderByte (block : ℕ) (j : ℕ) : UInt8 :=
  match j with
  | 0x00 => 0x4d
  | 0x01 => 0x53
  | 0x02 => 0x42
  | 0x03 => 0x2b
  | 0x20 => UInt8.ofNat block
  | 0x21 => UInt8.ofNat (block / 0x100)
  | 0x22 => UInt8.ofNat (block / 0x10000)
  | _ => 0

/-- Pages of container 0 at clusters 8 and 12, numbered 4 and 8, which put it at cluster 4. The page
at cluster 0, numbered 5, would lie in front of the image, and the page at cluster 4 is the first of
container 1. -/
def crowdedPagesByte (i : ℕ) : UInt8 :=
  match i / 4096 with
  | 0 => msbHeaderByte 5 (i % 4096)
  | 4 => msbHeaderByte 16384 (i % 4096)
  | 8 => msbHeaderByte 4 (i % 4096)
  | 12 => msbHeaderByte 8 (i % 4096)
  | _ => 0

def crowdedPages : Slice .w64 where
  len := 16 * 4096
  len_le := by decide
  byte i := crowdedPagesByte i

theorem crowdedPages_answering {c s : ℕ} {page : Slice .w64}
    (h : AnsweringPage crowdedPages s (c * refsClusterSize) page) :
    (c, s) ∈ [(0, 5), (4, 16384), (8, 4), (12, 8)] := by
  have hall : ∀ c < 13, bytesAt 4 crowdedPages (c * refsClusterSize) = msbSignature →
      (c, leU64 crowdedPages (c * refsClusterSize + selfBlockOffset)) ∈
        [(0, 5), (4, 16384), (8, 4), (12, 8)] := by decide +kernel
  have hle : c * 4096 + 16384 ≤ 16 * 4096 := h.le
  rw [← h.leU64_image]
  exact hall c (by omega) (h.signature.bytesAt_getRange h.inBounds)

/-- The consistent pages: two of container 0 and one of container 1. -/
theorem crowdedPages_witness {idx c s : ℕ} (h : Witness crowdedPages 16384 idx c s) :
    idx = 0 ∧ c = 8 ∧ s = 4 ∨ idx = 0 ∧ c = 12 ∧ s = 8 ∨ idx = 1 ∧ c = 4 ∧ s = 16384 := by
  obtain ⟨page, hpage⟩ := h.page
  have hcontainer := h.container
  have hconsistent := h.consistent
  have hmem := crowdedPages_answering hpage
  simp only [List.mem_cons, Prod.mk.injEq, List.not_mem_nil, or_false] at hmem
  omega

/-- A block of container 0 is where the page at cluster 8 puts it, the page at cluster 12 resolves to
itself, and a block of container 2 is unresolved. -/
theorem crowdedPages_bootstrap :
    0 < 16384 ∧
      (ContainerResolver.fromResidentImage crowdedPages 16384).resolveVirtual 9 =
        some (13 * 4096) ∧
      (ContainerResolver.fromResidentImage crowdedPages 16384).resolveVirtual 8 =
        some (12 * 4096) ∧
      (ContainerResolver.fromResidentImage crowdedPages 16384).resolveVirtual 32768 = none := by
  obtain ⟨hnone, hvalue, hagree⟩ := resolver_bootstrap crowdedPages (show 0 < 16384 by decide)
  have hlow : Witness crowdedPages 16384 0 8 4 :=
    ⟨pageAnswersBlock_iff.1 (by decide +kernel), by decide, by decide⟩
  have hhigh : Witness crowdedPages 16384 0 12 8 :=
    ⟨pageAnswersBlock_iff.1 (by decide +kernel), by decide, by decide⟩
  have hfirst : FirstWitness crowdedPages 16384 0 8 4 :=
    firstWitness_iff.2 ⟨hlow, fun c' s' h' => by have := crowdedPages_witness h'; omega⟩
  refine ⟨by decide, hvalue 9 8 4 hfirst (by decide), hagree 0 (fun c s c' s' h h' => ?_) 12 8 hhigh,
    (hnone 32768).2 (.inl fun c s h => ?_)⟩
  · have := crowdedPages_witness h
    have := crowdedPages_witness h'
    omega
  · have := crowdedPages_witness h
    omega

/-- An image of one page, numbered `0`. -/
def lonePage : Slice .w64 where
  len := 4 * 4096
  len_le := by decide
  byte i := msbHeaderByte 0 i

/-! ## Resolved offsets and the end of the image -/

/-- Whatever offset the resolver gives for block `v`, a whole page fits the image there. -/
structure ResolvedFits (image : Slice T) (bandClusters v : ℕ) : Prop where
  plain : ∀ off,
    (ContainerResolver.fromResidentImage image bandClusters).resolveVirtual v = some off →
    off + refsMetadataPageSize ≤ image.len
  checked : ∀ off,
    (ContainerResolver.fromResidentImage image bandClusters).resolveVirtualChecked v = .ok off →
    off + refsMetadataPageSize ≤ image.len

theorem resolveVirtualChecked_eq_ok {resolver : ContainerResolver} {v off : ℕ} :
    resolver.resolveVirtualChecked v = .ok off ↔ resolver.resolveVirtual v = some off := by
  unfold ContainerResolver.resolveVirtualChecked
  cases resolver.resolveVirtual v with
  | none =>
    simp
  | some off' =>
    simp

theorem resolveVirtual_zero_band (image : Slice T) (v : ℕ) :
    (ContainerResolver.fromResidentImage image 0).resolveVirtual v = none := rfl

/-- In a container a block and a page are as far apart as their places in it. -/
theorem witnessed_cluster {k v s c : ℕ} (hcontainer : s / k = v / k) (hle : s % k ≤ c) :
    c - s % k + v % k = c + v - s ∧ s ≤ c + v := by
  have hs := Nat.div_add_mod s k
  have hv := Nat.div_add_mod v k
  rw [hcontainer] at hs
  omega

theorem resolvedFits_iff {image : Slice T} {bandClusters v : ℕ} :
    ResolvedFits image bandClusters v ↔ ∀ off,
      (ContainerResolver.fromResidentImage image bandClusters).resolveVirtual v = some off →
      off + refsMetadataPageSize ≤ image.len :=
  ⟨fun h => h.plain, fun h => ⟨h, fun off hoff => h off (resolveVirtualChecked_eq_ok.1 hoff)⟩⟩

/-- A page is four clusters. -/
theorem page_fits_iff {a s len : ℕ} (hs : s ≤ a) :
    (a - s) * refsClusterSize + refsMetadataPageSize ≤ len ↔
      a + 4 ≤ s + len / refsClusterSize := by
  unfold refsClusterSize refsMetadataPageSize
  omega

/-- **When resolved offsets lie in the image**: the block is no further behind the lowest consistent
page of its container than there is image, or so far behind that its offset leaves the `u64`
range. -/
theorem resolved_page_fits_iff (image : Slice T) (bandClusters v : ℕ) :
    ResolvedFits image bandClusters v ↔
      bandClusters = 0 ∨ ∀ c s, FirstWitness image bandClusters (v / bandClusters) c s →
        c + v + 4 ≤ s + image.len / refsClusterSize ∨
            u64Max < (c + v - s) * refsClusterSize := by
  rw [resolvedFits_iff]
  rcases Nat.eq_zero_or_pos bandClusters with rfl | hk
  · -- nothing is scanned for a zero band
    refine iff_of_true (fun off hoff => ?_) (.inl rfl)
    rw [resolveVirtual_zero_band] at hoff
    cases hoff
  · rw [or_iff_right hk.ne']
    constructor
    · intro h c s hfirst
      obtain ⟨hcluster, hs⟩ := witnessed_cluster hfirst.container hfirst.consistent
      rw [or_iff_not_imp_right, not_lt]
      intro hle
      refine (page_fits_iff hs).1 (h _ ((resolveVirtual_eq_some hk.ne').2 ⟨c, s, hfirst, ?_, hle⟩))
      rw [hcluster]
    · intro h off hoff
      obtain ⟨c, s, hfirst, rfl, hle⟩ := (resolveVirtual_eq_some hk.ne').1 hoff
      obtain ⟨hcluster, hs⟩ := witnessed_cluster hfirst.container hfirst.consistent
      rw [hcluster] at hle ⊢
      exact (page_fits_iff hs).2 ((h c s hfirst).resolve_right (not_lt.2 hle))

/-- Block 4 of `lonePage` resolves to the end of the image, where there is no page. -/
theorem lonePage_beyond : ¬ResolvedFits lonePage 16384 4 := by
  intro h
  have hoff : (ContainerResolver.fromResidentImage lonePage 16384).resolveVirtual 4 =
      some (4 * 4096) := by decide +kernel
  exact absurd (h.plain _ hoff) (by decide)

/-! ## The strategy chain -/

/-- The offsets the strategies name for `block`: the resolver's, and those of the high-band and of
the low mapping. -/
def candidateOffsets (resolver : ContainerResolver) (block : ℕ) : List ℕ :=
  (resolver.resolveVirtual block).toList ++
    (if residentVirtualBase ≤ block then [(block - residentVirtualBase) * refsClusterSize]
      else []) ++ [block * refsClusterSize]

theorem mem_candidateOffsets {resolver : ContainerResolver} {block off : ℕ} :
    off ∈ candidateOffsets resolver block ↔
      resolver.resolveVirtual block = some off ∨
        residentVirtualBase ≤ block ∧ off = (block - residentVirtualBase) * refsClusterSize ∨
        off = block * refsClusterSize := by
  unfold candidateOffsets
  split_ifs with h
  · simp [h]
  · simp [h]

/-- The direct cluster is the high-band mapping where there is one, else the low one. -/
theorem directCluster_mem_candidateOffsets (resolver : ContainerResolver) (block : ℕ) :
    directCluster block * refsClusterSize ∈ candidateOffsets resolver block := by
  rw [mem_candidateOffsets]
  unfold directCluster
  split_ifs with h
  · exact .inr (.inl ⟨h, rfl⟩)
  · exact .inr (.inr rfl)

/-- The chain resolves `block` exactly when a candidate answers it, and then to one that does. -/
structure ChainExact (image : Slice T) (resolver : ContainerResolver) (block : ℕ) : Prop where
  sound : ∀ off, resolveBlockOffset image resolver block = some off →
    off ∈ candidateOffsets resolver block ∧ Answers image block off
  complete : ∀ off ∈ candidateOffsets resolver block, Answers image block off →
    ∃ off', resolveBlockOffset image resolver block = some off'

theorem resolveBlockOffset_sound {image : Slice T} {resolver : ContainerResolver} {block off : ℕ}
    (h : resolveBlockOffset image resolver block = some off) :
    off ∈ candidateOffsets resolver block ∧ Answers image block off := by
  refine ⟨?_, pageAnswersBlock_iff.1 (answers_of_resolve h)⟩
  rcases resolveBlockOffset_cases h with hv | rfl
  · exact mem_candidateOffsets.2 (.inl hv)
  · exact directCluster_mem_candidateOffsets resolver block

/-- **When the strategy chain is exact**: the page of a high-band block is not at its low mapping
alone. The low mapping lies behind the high-band one, which therefore fits first and is the only one
validated. -/
theorem strategy_chain_iff (image : Slice T) (resolver : ContainerResolver) (block : ℕ) :
    ChainExact image resolver block ↔
      ¬(residentVirtualBase ≤ block ∧ Answers image block (block * refsClusterSize) ∧
        ¬Answers image block ((block - residentVirtualBase) * refsClusterSize) ∧
        ∀ off, resolver.resolveVirtual block = some off → ¬Answers image block off) := by
  constructor
  · rintro h ⟨hhigh, hlow, hnot, hres⟩
    obtain ⟨off, hv, hans⟩ | hans := resolves_iff.1
      (h.complete _ (mem_candidateOffsets.2 (.inr (.inr rfl))) hlow)
    · exact hres off hv hans
    · rw [directCluster, if_pos hhigh] at hans
      exact hnot hans
  · intro h
    refine ⟨fun off => resolveBlockOffset_sound, fun off hoff hans => resolves_iff.2 ?_⟩
    rcases mem_candidateOffsets.1 hoff with hv | ⟨hhigh, hoff⟩ | hoff
    · exact .inl ⟨off, hv, hans⟩
    · rw [hoff] at hans
      right
      rwa [directCluster, if_pos hhigh]
    · rw [hoff] at hans
      unfold directCluster
      split_ifs with hhigh
      · by_contra hno
        rw [not_or] at hno
        exact h ⟨hhigh, hans, hno.2, fun off hv hoff => hno.1 ⟨off, hv, hoff⟩⟩
      · exact .inr hans

/-- The page numbered `65540` at its low mapping, cluster 65540, and a page numbered `65541` at
cluster 5, which puts their container at cluster 0. -/
def strandedPageByte (i : ℕ) : UInt8 :=
  if i / 4096 = 65540 then msbHeaderByte 65540 (i % 4096)
  else if i / 4096 = 5 then msbHeaderByte 65541 (i % 4096)
  else 0

def strandedPage : Slice .w64 where
  len := 65544 * 4096
  len_le := by decide
  byte i := strandedPageByte i

theorem strandedPage_firstWitness : FirstWitness strandedPage defaultBandClusters 4 5 65541 := by
  refine ⟨pageAnswersBlock_iff.1 (by decide +kernel), by decide, by decide, ?_⟩
  -- the clusters in front of the page are empty
  intro c hc s page hp
  have hsig := hp.signature.bytesAt_getRange hp.inBounds
  exfalso
  revert hsig
  interval_cases c <;> decide +kernel

/-- Block `65540` is unresolved although its page is at its low mapping. -/
theorem strandedPage_unresolved :
    resolveBlockOffset strandedPage (walkResolver strandedPage) 65540 = none ∧
      Answers strandedPage 65540 (65540 * 4096) ∧
      ¬ChainExact strandedPage (walkResolver strandedPage) 65540 := by
  have hband : defaultBandClusters ≠ 0 := by decide
  have hans : Answers strandedPage 65540 (65540 * 4096) :=
    pageAnswersBlock_iff.1 (by decide +kernel)
  have hempty : ¬Answers strandedPage 65540 (4 * 4096) := by
    rw [Answers, ← pageAnswersBlock_iff]
    decide +kernel
  have hnone : ¬∃ off,
      resolveBlockOffset strandedPage (walkResolver strandedPage) 65540 = some off := by
    rw [resolves_iff, not_or]
    refine ⟨?_, hempty⟩
    rintro ⟨off, hv, hoff⟩
    obtain ⟨c, s, hfirst, rfl, -⟩ := (resolveVirtual_eq_some hband).1 hv
    obtain ⟨rfl, rfl⟩ := hfirst.unique strandedPage_firstWitness
    exact hempty hoff
  refine ⟨Option.eq_none_iff_forall_ne_some.2 fun off h => hnone ⟨off, h⟩, hans, fun h => ?_⟩
  exact hnone (h.complete _ (mem_candidateOffsets.2 (.inr (.inr rfl))) hans)

end RefsForensic
