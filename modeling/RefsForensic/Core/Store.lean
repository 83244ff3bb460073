import RefsForensic.Core.Listing
import RefsForensic.Core.ResolverLaws

/-!
# The page store of an image

What the reader sees of an image is its page store: for each cluster, the Minstore page that starts
there, if one does. A block is found in the store where the lowest consistent page of its container
puts it, or else at its direct cluster (`Store.Finds`); `resolve_block_offset` computes that place
(`resolveBlockOffset_eq_some`), so a walk is a function of the store: the bytes outside the resident
pages and the length of the image have no part in it (`walkDirectory_congr`).
-/

namespace RefsForensic

open Rust

variable {T : Target}

/-! ## Pages -/

/-- A Minstore metadata page: 16 KiB that start with `MSB+`. -/
structure MetaPage (T : Target) where
  data : Slice T
  len_eq : data.len = refsMetadataPageSize
  signature : startsWith data msbSignature

namespace MetaPage

theorem ext {p q : MetaPage T} (h : p.data = q.data) : p = q := by
  cases p
  cases q
  congr

/-- The block number a page records of itself. -/
def number (p : MetaPage T) : ℕ := leU64 p.data selfBlockOffset

/-- The bytes of a page, when they are one. -/
def ofSlice (page : Slice T) : Option (MetaPage T) :=
  if h : page.len = refsMetadataPageSize ∧ startsWith page msbSignature then
    some ⟨page, h.1, h.2⟩
  else none

theorem ofSlice_eq_some {page : Slice T} {p : MetaPage T} :
    ofSlice page = some p ↔ page = p.data := by
  unfold ofSlice
  split_ifs with h
  · rw [Option.some.injEq]
    exact ⟨fun heq => heq ▸ rfl, fun heq => ext heq⟩
  · exact iff_of_false (by simp) fun heq => h (heq ▸ ⟨p.len_eq, p.signature⟩)

end MetaPage

/-- The Minstore page at each cluster, where there is one. -/
abbrev Store (T : Target) := ℕ → Option (MetaPage T)

/-- The page store of an image. -/
def residentPage (image : Slice T) : Store T := fun c =>
  (image.getRange (c * refsClusterSize) (c * refsClusterSize + refsMetadataPageSize)).bind
    MetaPage.ofSlice

theorem residentPage_eq_some {image : Slice T} {c : ℕ} {p : MetaPage T} :
    residentPage image c = some p ↔
      image.getRange (c * refsClusterSize) (c * refsClusterSize + refsMetadataPageSize) =
        some p.data := by
  unfold residentPage
  rw [Option.bind_eq_some_iff]
  constructor
  · rintro ⟨page, hpage, hp⟩
    rw [hpage, MetaPage.ofSlice_eq_some.1 hp]
  · exact fun h => ⟨p.data, h, MetaPage.ofSlice_eq_some.2 rfl⟩

theorem le_len_of_residentPage {image : Slice T} {c : ℕ} {p : MetaPage T}
    (h : residentPage image c = some p) :
    c * refsClusterSize + refsMetadataPageSize ≤ image.len :=
  (Slice.getRange_eq_some.1 (residentPage_eq_some.1 h)).choose.2

/-- A page that answers a block at a cluster is the resident page there. -/
theorem answeringPage_iff {image page : Slice T} {s c : ℕ} :
    AnsweringPage image s (c * refsClusterSize) page ↔
      ∃ p, residentPage image c = some p ∧ p.number = s ∧ p.data = page := by
  constructor
  · intro h
    exact ⟨⟨page, h.len, h.signature⟩, residentPage_eq_some.2 h.inBounds, h.selfBlock, rfl⟩
  · rintro ⟨p, hp, hs, rfl⟩
    exact ⟨residentPage_eq_some.1 hp, p.signature, hs⟩

theorem answers_iff {image : Slice T} {s c : ℕ} :
    Answers image s (c * refsClusterSize) ↔
      ∃ p, residentPage image c = some p ∧ p.number = s := by
  unfold Answers
  simp only [answeringPage_iff]
  constructor
  · rintro ⟨_, p, hp, hs, -⟩
    exact ⟨p, hp, hs⟩
  · rintro ⟨p, hp, hs⟩
    exact ⟨p.data, p, hp, hs, rfl⟩

/-! ## Finding a block -/

namespace Store

/-- Cluster `c` holds the lowest page of container `idx`, among those that lie at least as far into
the volume as into the container; `s` is its number. -/
structure Lowest (st : Store T) (bandClusters idx c s : ℕ) : Prop where
  page : ∃ p, st c = some p ∧ p.number = s
  container : s / bandClusters = idx
  consistent : s % bandClusters ≤ c
  first : ∀ c' < c, ∀ p, st c' = some p → p.number / bandClusters = idx →
    ¬p.number % bandClusters ≤ c'

/-- Block `b` is at cluster `c` by its container: where the container's lowest page puts it, there
is a page of that number. -/
def InBand (st : Store T) (b c : ℕ) : Prop :=
  (∃ c₀ s₀, st.Lowest defaultBandClusters (b / defaultBandClusters) c₀ s₀ ∧
    c = c₀ - s₀ % defaultBandClusters + b % defaultBandClusters) ∧
  ∃ p, st c = some p ∧ p.number = b

/-- Where block `b` is found: by its container, or else at its direct cluster. -/
inductive Finds (st : Store T) (b : ℕ) : ℕ → Prop
  | band {c : ℕ} (h : st.InBand b c) : Finds st b c
  | direct (hband : ∀ c, ¬st.InBand b c) (h : ∃ p, st (directCluster b) = some p ∧ p.number = b) :
      Finds st b (directCluster b)

theorem Finds.page {st : Store T} {b c : ℕ} (h : st.Finds b c) :
    ∃ p, st c = some p ∧ p.number = b := by
  cases h with
  | band h => exact h.2
  | direct _ h => exact h

end Store

theorem firstWitness_iff_lowest {image : Slice T} {k idx c s : ℕ} :
    FirstWitness image k idx c s ↔ (residentPage image).Lowest k idx c s := by
  constructor
  · intro h
    refine ⟨answers_iff.1 h.page, h.container, h.consistent, fun c' hc' p hp hidx => ?_⟩
    exact h.first c' hc' p.number p.data (answeringPage_iff.2 ⟨p, hp, rfl, rfl⟩) hidx
  · intro h
    refine ⟨answers_iff.2 h.page, h.container, h.consistent, fun c' hc' s' page hpage hidx => ?_⟩
    obtain ⟨p, hp, rfl, -⟩ := answeringPage_iff.1 hpage
    exact h.first c' hc' p hp hidx

/-- The resolver's candidate answers exactly when the block is found by its container. -/
theorem resolveVirtual_answers_iff {image : Slice T} {b off : ℕ} :
    (walkResolver image).resolveVirtual b = some off ∧ Answers image b off ↔
      ∃ c, (residentPage image).InBand b c ∧ off = c * refsClusterSize := by
  have hband : defaultBandClusters ≠ 0 := by decide
  have hlen := image.len_le
  have hmax := T.isizeMax_lt_usizeMax
  have hu64 := T.usizeMax_le_u64Max
  unfold walkResolver Store.InBand
  simp only [resolveVirtual_eq_some hband, firstWitness_iff_lowest]
  constructor
  · rintro ⟨⟨c₀, s₀, hlow, rfl, -⟩, hans⟩
    exact ⟨_, ⟨⟨c₀, s₀, hlow, rfl⟩, answers_iff.1 hans⟩, rfl⟩
  · rintro ⟨c, ⟨⟨c₀, s₀, hlow, rfl⟩, p, hp, hs⟩, rfl⟩
    have hle := le_len_of_residentPage hp
    exact ⟨⟨c₀, s₀, hlow, rfl, by omega⟩, answers_iff.2 ⟨p, hp, hs⟩⟩

/-- The two strategies in turn: the heuristic counts where the resolver's candidate fails. -/
theorem resolveBlockOffset_eq_some_iff {image : Slice T} {resolver : ContainerResolver}
    {b off : ℕ} :
    resolveBlockOffset image resolver b = some off ↔
      (resolver.resolveVirtual b = some off ∧ Answers image b off) ∨
        (¬∃ off', resolver.resolveVirtual b = some off' ∧ Answers image b off') ∧
          off = directCluster b * refsClusterSize ∧ Answers image b off := by
  have hlen := image.len_le
  have hmax := T.isizeMax_lt_usizeMax
  have hfirst : ∀ off, ((resolver.resolveVirtual b).bind T.tryFrom).filter
      (pageAnswersBlock image · b) = some off ↔
        resolver.resolveVirtual b = some off ∧ Answers image b off := by
    intro off
    rw [Option.filter_eq_some_iff, pageAnswersBlock_iff, Option.bind_eq_some_iff]
    refine and_congr_left fun ⟨page, hpage⟩ => ?_
    have hle := hpage.le
    constructor
    · rintro ⟨v, hv, ht⟩
      obtain ⟨-, rfl⟩ := Target.tryFrom_eq_some.1 ht
      exact hv
    · exact fun hv => ⟨off, hv, Target.tryFrom_of_le (by omega)⟩
  have hsecond : (residentBlockOffset T b image.len).filter (pageAnswersBlock image · b) =
      some off ↔ off = directCluster b * refsClusterSize ∧ Answers image b off := by
    rw [Option.filter_eq_some_iff, pageAnswersBlock_iff, residentBlockOffset_eq_some hlen]
    constructor
    · rintro ⟨⟨hoff, -⟩, hans⟩
      exact ⟨hoff, hans⟩
    · rintro ⟨hoff, page, hpage⟩
      exact ⟨⟨hoff, hpage.le⟩, page, hpage⟩
  unfold resolveBlockOffset
  rw [Option.or_eq_some_iff, hfirst, hsecond, Option.eq_none_iff_forall_ne_some]
  simp only [ne_eq, hfirst, not_exists]

/-- **Block resolution is finding the block in the page store.** -/
theorem resolveBlockOffset_eq_some {image : Slice T} {b off : ℕ} :
    resolveBlockOffset image (walkResolver image) b = some off ↔
      ∃ c, (residentPage image).Finds b c ∧ off = c * refsClusterSize := by
  rw [resolveBlockOffset_eq_some_iff]
  simp only [resolveVirtual_answers_iff]
  constructor
  · rintro (⟨c, hc, rfl⟩ | ⟨hnone, rfl, hans⟩)
    · exact ⟨c, .band hc, rfl⟩
    · exact ⟨_, .direct (fun c hc => hnone ⟨_, c, hc, rfl⟩) (answers_iff.1 hans), rfl⟩
  · rintro ⟨c, hc, rfl⟩
    cases hc with
    | band h => exact .inl ⟨c, h, rfl⟩
    | direct hband h =>
      refine .inr ⟨?_, rfl, answers_iff.2 h⟩
      rintro ⟨_, c, hc, -⟩
      exact hband c hc

/-- The page a block resolves to, in the store. -/
theorem resolvesTo_iff {image page : Slice T} {b : ℕ} :
    ResolvesTo image b page ↔
      ∃ c p, (residentPage image).Finds b c ∧ residentPage image c = some p ∧ p.data = page := by
  unfold ResolvesTo
  simp only [resolveBlockOffset_eq_some]
  constructor
  · rintro ⟨_, ⟨c, hc, rfl⟩, hans⟩
    obtain ⟨p, hp, -, hdata⟩ := answeringPage_iff.1 hans
    exact ⟨c, p, hc, hp, hdata⟩
  · rintro ⟨c, p, hc, hp, rfl⟩
    obtain ⟨q, hq, hnum⟩ := hc.page
    obtain rfl := Option.some.inj (hp.symm.trans hq)
    exact ⟨_, ⟨c, hc, rfl⟩, answeringPage_iff.2 ⟨p, hp, hnum, rfl⟩⟩

/-- **Reading a block is reading the page store**: the page where the block is found, and the error
that names the block exactly when it is found nowhere. -/
theorem readPage_finds (image : Slice T) (b : ℕ) :
    (∀ page, readPage image (walkResolver image) b = .ok page ↔
      ∃ c p, (residentPage image).Finds b c ∧ residentPage image c = some p ∧ p.data = page) ∧
    ∀ e, readPage image (walkResolver image) b = .error e ↔
      (∀ c, ¬(residentPage image).Finds b c) ∧ e = .unresolvedVirtualBlock b := by
  constructor
  · intro page
    rw [← resolvesTo_iff]
    constructor
    · intro hread
      obtain ⟨off, hoff, hans⟩ := readPage_eq_ok hread
      exact ⟨off, hoff, hans⟩
    · rintro ⟨off, hoff, hans⟩
      rw [readPage, hoff]
      simp only [hans.inBounds]
  · intro e
    rw [readPage_eq_error, Option.eq_none_iff_forall_ne_some]
    refine and_congr_left' ⟨fun hnone c hc => ?_, fun hnone off hoff => ?_⟩
    · exact hnone _ (resolveBlockOffset_eq_some.2 ⟨c, hc, rfl⟩)
    · obtain ⟨c, hc, -⟩ := resolveBlockOffset_eq_some.1 hoff
      exact hnone c hc

/-! ## Two images with one store -/

section Congr

variable {image image' : Slice T} (h : residentPage image = residentPage image')
include h

theorem resolveBlockOffset_congr (b : ℕ) :
    resolveBlockOffset image (walkResolver image) b =
      resolveBlockOffset image' (walkResolver image') b := by
  refine Option.ext fun off => ?_
  rw [resolveBlockOffset_eq_some, resolveBlockOffset_eq_some, h]

theorem readPage_congr (b : ℕ) :
    readPage image (walkResolver image) b = readPage image' (walkResolver image') b := by
  unfold readPage
  rw [resolveBlockOffset_congr h b]
  cases hoff : resolveBlockOffset image' (walkResolver image') b with
  | none => rfl
  | some off =>
    obtain ⟨c, hc, rfl⟩ := resolveBlockOffset_eq_some.1 hoff
    obtain ⟨p, hp, -⟩ := hc.page
    have hp' : residentPage image c = some p := h ▸ hp
    simp only [residentPage_eq_some.1 hp, residentPage_eq_some.1 hp']

theorem nodeAt_congr (b : ℕ) : nodeAt image b = nodeAt image' b := by
  rw [nodeAt, nodeUnder, readPage_congr h, nodeAt, nodeUnder]

theorem blockGraph_congr : blockGraph image = blockGraph image' := by
  funext b
  rw [blockGraph, nodeAt_congr h, blockGraph]

theorem leafEntries_congr : leafEntries image = leafEntries image' := by
  funext b
  rw [leafEntries, nodeAt_congr h, leafEntries]

/-- **A walk is a function of the page store.** -/
theorem walkDirectory_congr (root : ℕ) : walkDirectory image root = walkDirectory image' root := by
  rw [walkDirectory, walk_eq, walkDirectory, walk_eq, walkSearch, blockGraph_congr h, walkSearch]
  unfold Descent.ofVisited
  rw [leafEntries_congr h]

/-- The base of every container, for any band size. -/
theorem resolveVirtual_congr (bandClusters v : ℕ) :
    (ContainerResolver.fromResidentImage image bandClusters).resolveVirtual v =
      (ContainerResolver.fromResidentImage image' bandClusters).resolveVirtual v := by
  rcases Nat.eq_zero_or_pos bandClusters with rfl | hk
  · rw [resolveVirtual_zero_band, resolveVirtual_zero_band]
  · refine Option.ext fun off => ?_
    simp only [resolveVirtual_eq_some hk.ne', firstWitness_iff_lowest, h]

end Congr

end RefsForensic
