import RefsForensic.Core.Directory

/-!
# Where blocks resolve

The scan of `ContainerResolver::from_resident_image` keeps, for each container, the base that the
first consistent page of the container implies (`baseOf_fromResidentImage`), and the resident
heuristic lands every block in one place (`residentBlockOffset_eq_some`): where the high-band
mapping does not fit, the low one does not fit either. So a block resolves exactly when its page is
where one of the two puts it (`resolves_iff_placed`).
-/

namespace RefsForensic

open Rust

variable {T : Target}

/-! ## Pages that answer a block -/

/-- The page at byte `off` is in bounds, a Minstore page, and numbered `block`. -/
structure AnsweringPage (image : Slice T) (block off : ℕ) (page : Slice T) : Prop where
  inBounds : image.getRange off (off + refsMetadataPageSize) = some page
  signature : startsWith page msbSignature
  selfBlock : leU64 page selfBlockOffset = block

theorem AnsweringPage.len {image page : Slice T} {block off : ℕ}
    (h : AnsweringPage image block off page) : page.len = refsMetadataPageSize := by
  have := Slice.len_of_getRange h.inBounds
  omega

theorem AnsweringPage.le {image page : Slice T} {block off : ℕ}
    (h : AnsweringPage image block off page) : off + refsMetadataPageSize ≤ image.len :=
  (Slice.getRange_eq_some.1 h.inBounds).choose.2

theorem pageAnswersBlock_iff {image : Slice T} {off block : ℕ} :
    pageAnswersBlock image off block = true ↔ ∃ page, AnsweringPage image block off page := by
  unfold pageAnswersBlock
  cases h : image.getRange off (off + refsMetadataPageSize) with
  | none =>
    exact iff_of_false (by simp) fun ⟨page, hp⟩ => by cases h.symm.trans hp.inBounds
  | some page =>
    simp only [decide_eq_true_eq]
    constructor
    · exact fun ⟨hs, hb⟩ => ⟨page, h, hs, hb⟩
    · rintro ⟨page', hin, hs, hb⟩
      obtain rfl := Option.some.inj (h.symm.trans hin)
      exact ⟨hs, hb⟩

/-- The number of an answering page, read from the image. -/
theorem AnsweringPage.leU64_image {image page : Slice T} {block off : ℕ}
    (h : AnsweringPage image block off page) : leU64 image (off + selfBlockOffset) = block := by
  rw [← h.selfBlock]
  refine (leField_getRange h.inBounds ?_).symm
  rw [h.len]
  decide

/-! ## The first witness of a container -/

/-- The base that cluster `c` witnesses for container `idx`, as the scan reads it. -/
def witnessAt (image : Slice T) (bandClusters idx c : ℕ) : Option ℕ :=
  let off := c * refsClusterSize
  if off + refsMetadataPageSize ≤ image.len ∧
      (image.getRange off (off + 4)).map Slice.toList = some msbSignature then
    ((ContainerResolver.witness bandClusters c (leU64 image (off + selfBlockOffset))).filter
      (·.1 = idx)).map (·.2)
  else none

/-- The base recorded for container `idx`. -/
def lookupBase (idx : ℕ) (base : List (ℕ × ℕ)) : Option ℕ :=
  (base.find? fun p => p.1 = idx).map (·.2)

theorem lookupBase_append (idx : ℕ) (base : List (ℕ × ℕ)) (p : ℕ × ℕ) :
    lookupBase idx (base ++ [p]) =
      (lookupBase idx base).or (if p.1 = idx then some p.2 else none) := by
  unfold lookupBase
  rw [List.find?_append, Option.map_or]
  by_cases hp : p.1 = idx
  · simp [hp]
  · simp [hp]

theorem lookupBase_eq_none_iff {idx : ℕ} {base : List (ℕ × ℕ)} :
    lookupBase idx base = none ↔ ¬(base.any fun p => p.1 = idx) = true := by
  simp only [lookupBase, Option.map_eq_none_iff, List.find?_eq_none, List.any_eq_true, not_exists,
    not_and]

/-- What the scan has recorded for `idx` once container `i` has witnessed `b`: the first base
counts. -/
theorem lookupBase_record (idx i b : ℕ) (base : List (ℕ × ℕ)) :
    lookupBase idx (if base.any fun p => p.1 = i then base else base ++ [(i, b)]) =
      (lookupBase idx base).or (if i = idx then some b else none) := by
  split_ifs with hany hi hi
  · -- the container has its base already
    subst hi
    obtain ⟨b', hb'⟩ := Option.ne_none_iff_exists'.1
      (mt lookupBase_eq_none_iff.1 (not_not.2 hany))
    rw [hb', Option.some_or]
  · rw [Option.or_none]
  · rw [lookupBase_append, if_pos hi]
  · rw [lookupBase_append, if_neg hi]

/-- **The scan**: a base found before stays, and for another container the first cluster ahead that
witnesses one counts. Clusters come in ascending order, so nothing is lost when the scan breaks at
the first page that does not fit. -/
theorem lookupBase_scan (image : Slice T) (bandClusters idx : ℕ) {cs : List ℕ}
    (base : List (ℕ × ℕ)) (hcs : cs.Pairwise (· ≤ ·)) :
    lookupBase idx (ContainerResolver.scan image bandClusters cs base) =
      (lookupBase idx base).or (cs.findSome? (witnessAt image bandClusters idx)) := by
  induction cs generalizing base with
  | nil => simp [ContainerResolver.scan]
  | cons c cs ih =>
    obtain ⟨hc, hcs⟩ := List.pairwise_cons.1 hcs
    have ih := fun base => ih base hcs
    unfold ContainerResolver.scan
    dsimp only
    rw [List.findSome?_cons]
    split_ifs with hend hsig
    · -- no page from here on fits
      have hnone : ∀ d, c ≤ d → witnessAt image bandClusters idx d = none := by
        intro d hd
        have := Nat.mul_le_mul_right refsClusterSize hd
        exact if_neg fun h => by omega
      rw [hnone c le_rfl, List.findSome?_eq_none_iff.2 fun d hd => hnone d (hc d hd)]
      simp
    · rw [ih, show witnessAt image bandClusters idx c = none from if_neg fun h => hsig h.2]
    · have hat : witnessAt image bandClusters idx c =
          ((ContainerResolver.witness bandClusters c
            (leU64 image (c * refsClusterSize + selfBlockOffset))).filter (·.1 = idx)).map (·.2) :=
        if_pos ⟨not_lt.1 hend, not_not.1 hsig⟩
      rw [hat]
      cases ContainerResolver.witness bandClusters c
        (leU64 image (c * refsClusterSize + selfBlockOffset)) with
      | none =>
        exact ih base
      | some w =>
        obtain ⟨i, bandBase⟩ := w
        dsimp only
        rw [← apply_ite (ContainerResolver.scan image bandClusters cs), ih, lookupBase_record,
          Option.or_assoc]
        by_cases hi : i = idx
        · simp [Option.filter_some, hi]
        · simp [Option.filter_some, hi]

/-- The page at cluster `c`, numbered `s`, is the first consistent page of container `idx`. -/
structure FirstWitness (image : Slice T) (bandClusters idx c s : ℕ) : Prop where
  page : ∃ page, AnsweringPage image s (c * refsClusterSize) page
  container : s / bandClusters = idx
  consistent : s % bandClusters ≤ c
  first : ∀ c' < c, ∀ s' page, AnsweringPage image s' (c' * refsClusterSize) page →
    s' / bandClusters = idx → ¬s' % bandClusters ≤ c'

theorem witnessAt_eq_some {image : Slice T} {bandClusters idx c b : ℕ} (hk : bandClusters ≠ 0) :
    witnessAt image bandClusters idx c = some b ↔
      ∃ s page, AnsweringPage image s (c * refsClusterSize) page ∧ s / bandClusters = idx ∧
        s % bandClusters ≤ c ∧ b = c - s % bandClusters := by
  have hsig : ∀ {page : Slice T} {off : ℕ},
      image.getRange off (off + refsMetadataPageSize) = some page →
      (image.getRange off (off + 4) = page.getRange 0 4) := fun hp => by
    have hlen := Slice.len_of_getRange hp
    unfold refsMetadataPageSize at hlen
    rw [Slice.getRange_getRange hp (by omega)]
    rfl
  unfold witnessAt ContainerResolver.witness decomposeVirtualBlock
  simp only [hk, if_false]
  constructor
  · intro h
    split_ifs at h with hpage
    obtain ⟨p, hp, rfl⟩ := Option.map_eq_some_iff.1 h
    obtain ⟨hw, hidx⟩ := Option.filter_eq_some_iff.1 hp
    obtain ⟨d, hd, rfl⟩ := Option.map_eq_some_iff.1 hw
    obtain ⟨hle, rfl⟩ := checkedSub_eq_some.1 hd
    obtain ⟨page, hin⟩ : ∃ page, image.getRange (c * refsClusterSize)
        (c * refsClusterSize + refsMetadataPageSize) = some page :=
      ⟨_, Slice.getRange_of_le ⟨by omega, hpage.1⟩⟩
    have hans : AnsweringPage image (leU64 page selfBlockOffset) (c * refsClusterSize) page :=
      ⟨hin, by rw [startsWith, ← hsig hin]; exact hpage.2, rfl⟩
    rw [hans.leU64_image] at hle hidx ⊢
    exact ⟨_, page, hans, by simpa using hidx, hle, rfl⟩
  · rintro ⟨s, page, hans, hidx, hle, rfl⟩
    have hs := hans.signature
    rw [startsWith, ← hsig hans.inBounds] at hs
    rw [if_pos ⟨hans.le, hs⟩, hans.leU64_image, checkedSub, if_pos hle]
    simp [hidx]

/-- The first hit over a range. -/
theorem findSome?_range_eq_some {α : Type*} {f : ℕ → Option α} {a : α} {n : ℕ} :
    (List.range n).findSome? f = some a ↔
      ∃ c < n, f c = some a ∧ ∀ c' < c, f c' = none := by
  induction n with
  | zero => simp
  | succ n ih =>
    rw [List.range_succ, List.findSome?_append, Option.or_eq_some_iff, ih]
    simp only [List.findSome?_eq_none_iff, List.mem_range, List.findSome?_singleton]
    constructor
    · rintro (⟨c, hc, h⟩ | ⟨hnone, ha⟩)
      · exact ⟨c, by omega, h⟩
      · exact ⟨n, by omega, ha, hnone⟩
    · rintro ⟨c, hc, ha, hfirst⟩
      rcases Nat.lt_succ_iff_lt_or_eq.1 hc with hc | rfl
      · exact .inl ⟨c, hc, ha, hfirst⟩
      · exact .inr ⟨hfirst, ha⟩

/-- **The base of a container** is the one its first consistent page implies. -/
theorem baseOf_fromResidentImage {image : Slice T} {bandClusters idx b : ℕ}
    (hk : bandClusters ≠ 0) :
    (ContainerResolver.fromResidentImage image bandClusters).baseOf idx = some b ↔
      ∃ c s, FirstWitness image bandClusters idx c s ∧ b = c - s % bandClusters := by
  have hscan := lookupBase_scan image bandClusters idx []
    (List.pairwise_le_range (n := image.len / refsClusterSize))
  rw [show lookupBase idx [] = none from rfl, Option.none_or] at hscan
  rw [ContainerResolver.fromResidentImage, if_neg hk]
  change lookupBase idx _ = some b ↔ _
  rw [hscan, findSome?_range_eq_some]
  constructor
  · rintro ⟨c, -, hat, hfirst⟩
    obtain ⟨s, page, hpage, hidx, hle, rfl⟩ := (witnessAt_eq_some hk).1 hat
    refine ⟨c, s, ⟨⟨page, hpage⟩, hidx, hle, fun c' hc' s' page' hp' hidx' hle' => ?_⟩, rfl⟩
    have := (witnessAt_eq_some hk).2 ⟨s', page', hp', hidx', hle', rfl⟩
    rw [hfirst c' hc'] at this
    cases this
  · rintro ⟨c, s, h, rfl⟩
    obtain ⟨page, hpage⟩ := h.page
    refine ⟨c, ?_, (witnessAt_eq_some hk).2 ⟨s, page, hpage, h.container, h.consistent, rfl⟩, ?_⟩
    · have := hpage.le
      unfold refsClusterSize refsMetadataPageSize at *
      omega
    · intro c' hc'
      by_contra hne
      obtain ⟨b, hb⟩ := Option.ne_none_iff_exists'.1 hne
      obtain ⟨s', page', hp', hidx', hle', -⟩ := (witnessAt_eq_some hk).1 hb
      exact h.first c' hc' s' page' hp' hidx' hle'

/-- **The offset of a virtual block**: its container's base and its place in the container. -/
theorem resolveVirtual_eq_some {image : Slice T} {bandClusters v off : ℕ} (hk : bandClusters ≠ 0) :
    (ContainerResolver.fromResidentImage image bandClusters).resolveVirtual v = some off ↔
      ∃ c s, FirstWitness image bandClusters (v / bandClusters) c s ∧
        off = (c - s % bandClusters + v % bandClusters) * refsClusterSize ∧ off ≤ u64Max := by
  have hdec : decomposeVirtualBlock v
      (ContainerResolver.fromResidentImage image bandClusters).bandClusters =
        (v / bandClusters, v % bandClusters) := if_neg hk
  simp only [ContainerResolver.resolveVirtual, hdec, Option.bind_eq_bind, Option.bind_eq_some_iff,
    baseOf_fromResidentImage hk, checkedAdd_eq_some, checkedMul_eq_some]
  constructor
  · rintro ⟨base, ⟨c, s, h, rfl⟩, cluster, ⟨-, rfl⟩, hle, rfl⟩
    exact ⟨c, s, h, rfl, hle⟩
  · rintro ⟨c, s, h, rfl, hle⟩
    refine ⟨_, ⟨c, s, h, rfl⟩, _, ⟨?_, rfl⟩, hle, rfl⟩
    exact (Nat.le_mul_of_pos_right _ (by decide)).trans hle

/-! ## The resident heuristic -/

/-- The cluster the resident heuristic lands a block at. -/
def directCluster (block : ℕ) : ℕ :=
  if residentVirtualBase ≤ block then block - residentVirtualBase else block

theorem exists_of_firstFitting {imageLen off : ℕ} {clusters : List ℕ}
    (h : firstFitting T imageLen clusters = some off) :
    ∃ d ∈ clusters, off = d * refsClusterSize ∧ off + refsMetadataPageSize ≤ imageLen := by
  induction clusters with
  | nil => cases h
  | cons cluster clusters ih =>
    simp only [firstFitting, Option.bind_eq_bind, Option.bind_eq_some_iff, Target.tryFrom_eq_some,
      checkedMul_eq_some, checkedAdd_eq_some] at h
    obtain ⟨_, ⟨-, rfl⟩, _, ⟨-, rfl⟩, _, ⟨-, rfl⟩, h⟩ := h
    split_ifs at h with hle
    · obtain rfl := Option.some.inj h
      exact ⟨_, List.mem_cons_self, rfl, hle⟩
    · obtain ⟨d, hd, h⟩ := ih h
      exact ⟨d, List.mem_cons_of_mem _ hd, h⟩

/-- Among ascending candidates only the first can fit first. -/
theorem firstFitting_eq_some {imageLen cluster off : ℕ} {clusters : List ℕ}
    (himage : imageLen ≤ T.isizeMax) (hrest : ∀ d ∈ clusters, cluster ≤ d) :
    firstFitting T imageLen (cluster :: clusters) = some off ↔
      off = cluster * refsClusterSize ∧ off + refsMetadataPageSize ≤ imageLen := by
  have hmax := T.isizeMax_lt_usizeMax
  have hpos : cluster ≤ cluster * refsClusterSize := Nat.le_mul_of_pos_right _ (by decide)
  constructor
  · intro h
    obtain ⟨d, hd, rfl, hle⟩ := exists_of_firstFitting h
    rcases List.mem_cons.1 hd with rfl | hd'
    · exact ⟨rfl, hle⟩
    · -- a later candidate fits only where the first does
      have hmul := Nat.mul_le_mul_right refsClusterSize (hrest d hd')
      rw [firstFitting, Target.tryFrom_of_le (by omega)] at h
      simp only [Option.bind_eq_bind, Option.bind_some] at h
      rw [checkedMul_of_le (by omega), Option.bind_some, checkedAdd_of_le (by omega),
        Option.bind_some, if_pos (by omega)] at h
      exact ⟨(Option.some.inj h).symm, hle⟩
  · rintro ⟨rfl, hle⟩
    rw [firstFitting, Target.tryFrom_of_le (by omega)]
    simp only [Option.bind_eq_bind, Option.bind_some]
    rw [checkedMul_of_le (by omega), Option.bind_some, checkedAdd_of_le (by omega),
      Option.bind_some, if_pos hle]

/-- **The resident heuristic has one candidate**: the low mapping of a high-band block lies beyond
its high-band one, so it is never the first to fit. -/
theorem residentBlockOffset_eq_some {block imageLen off : ℕ} (himage : imageLen ≤ T.isizeMax) :
    residentBlockOffset T block imageLen = some off ↔
      off = directCluster block * refsClusterSize ∧ off + refsMetadataPageSize ≤ imageLen := by
  unfold residentBlockOffset directCluster
  split_ifs with h
  · exact firstFitting_eq_some himage (by simp)
  · exact firstFitting_eq_some himage (by simp)

/-! ## Resolved blocks -/

/-- A resolved offset holds a page that answers the block. -/
theorem answers_of_resolve {image : Slice T} {resolver : ContainerResolver} {block off : ℕ}
    (h : resolveBlockOffset image resolver block = some off) :
    pageAnswersBlock image off block = true := by
  unfold resolveBlockOffset at h
  rcases Option.or_eq_some_iff.1 h with h | ⟨-, h⟩
  · exact (Option.filter_eq_some_iff.1 h).2
  · exact (Option.filter_eq_some_iff.1 h).2

theorem readPage_eq_error {image : Slice T} {resolver : ContainerResolver} {block : ℕ}
    {e : RefsError} :
    readPage image resolver block = .error e ↔
      resolveBlockOffset image resolver block = none ∧ e = .unresolvedVirtualBlock block := by
  unfold readPage
  cases h : resolveBlockOffset image resolver block with
  | none =>
    simp [eq_comm]
  | some off =>
    obtain ⟨page, hp⟩ := pageAnswersBlock_iff.1 (answers_of_resolve h)
    simp [hp.inBounds]

theorem readPage_eq_ok {image : Slice T} {resolver : ContainerResolver} {block : ℕ}
    {page : Slice T} (h : readPage image resolver block = .ok page) :
    ∃ off, resolveBlockOffset image resolver block = some off ∧
      AnsweringPage image block off page := by
  unfold readPage at h
  cases hr : resolveBlockOffset image resolver block with
  | none =>
    rw [hr] at h
    cases h
  | some off =>
    obtain ⟨page', hp⟩ := pageAnswersBlock_iff.1 (answers_of_resolve hr)
    simp only [hr, hp.inBounds, Except.ok.injEq] at h
    exact ⟨off, rfl, h ▸ hp⟩

/-- Some page at byte `off` answers `block`. -/
def Answers (image : Slice T) (block off : ℕ) : Prop := ∃ page, AnsweringPage image block off page

theorem resolveBlockOffset_cases {image : Slice T} {resolver : ContainerResolver} {block off : ℕ}
    (h : resolveBlockOffset image resolver block = some off) :
    resolver.resolveVirtual block = some off ∨ off = directCluster block * refsClusterSize := by
  unfold resolveBlockOffset at h
  rcases Option.or_eq_some_iff.1 h with h | ⟨-, h⟩
  · obtain ⟨v, hv, ht⟩ := Option.bind_eq_some_iff.1 (Option.filter_eq_some_iff.1 h).1
    obtain ⟨-, rfl⟩ := Target.tryFrom_eq_some.1 ht
    exact .inl hv
  · exact .inr ((residentBlockOffset_eq_some image.len_le).1 (Option.filter_eq_some_iff.1 h).1).1

/-- **What the chain validates**: the resolver's offset and the direct cluster, nothing else. -/
theorem resolves_iff {image : Slice T} {resolver : ContainerResolver} {block : ℕ} :
    (∃ off, resolveBlockOffset image resolver block = some off) ↔
      (∃ off, resolver.resolveVirtual block = some off ∧ Answers image block off) ∨
        Answers image block (directCluster block * refsClusterSize) := by
  have hlen := image.len_le
  have hmax := T.isizeMax_lt_usizeMax
  constructor
  · rintro ⟨off, h⟩
    have hans := pageAnswersBlock_iff.1 (answers_of_resolve h)
    rcases resolveBlockOffset_cases h with hv | rfl
    · exact .inl ⟨off, hv, hans⟩
    · exact .inr hans
  · unfold resolveBlockOffset
    rintro (⟨off, hv, page, hpage⟩ | ⟨page, hpage⟩)
    · have hle := hpage.le
      refine ⟨off, Option.or_eq_some_iff.2 (.inl (Option.filter_eq_some_iff.2 ⟨?_, ?_⟩))⟩
      · rw [hv, Option.bind_some, Target.tryFrom_of_le (by omega)]
      · exact pageAnswersBlock_iff.2 ⟨page, hpage⟩
    · rw [(residentBlockOffset_eq_some hlen).2 ⟨rfl, hpage.le⟩, Option.filter_some,
        if_pos (pageAnswersBlock_iff.2 ⟨page, hpage⟩)]
      exact Option.isSome_iff_exists.1 (by simp)

/-- The page of `block` is where a walk looks for it: where the first witness of its container puts
it, or at its direct cluster. -/
def Placed (image : Slice T) (block : ℕ) : Prop :=
  ∃ off page, AnsweringPage image block off page ∧
    ((∃ c s, FirstWitness image defaultBandClusters (block / defaultBandClusters) c s ∧
        off = (c - s % defaultBandClusters + block % defaultBandClusters) * refsClusterSize) ∨
      off = directCluster block * refsClusterSize)

/-- **A block resolves exactly when its page is placed.** -/
theorem resolves_iff_placed {image : Slice T} {block : ℕ} :
    (∃ off, resolveBlockOffset image (walkResolver image) block = some off) ↔
      Placed image block := by
  have hband : defaultBandClusters ≠ 0 := by decide
  have hlen := image.len_le
  have hmax := T.isizeMax_lt_usizeMax
  have hu64 := T.usizeMax_le_u64Max
  rw [resolves_iff]
  constructor
  · rintro (⟨off, hv, page, hpage⟩ | ⟨page, hpage⟩)
    · obtain ⟨c, s, hw, hoff, -⟩ := (resolveVirtual_eq_some hband).1 hv
      exact ⟨off, page, hpage, .inl ⟨c, s, hw, hoff⟩⟩
    · exact ⟨_, page, hpage, .inr rfl⟩
  · rintro ⟨off, page, hpage, ⟨c, s, hw, hoff⟩ | rfl⟩
    · have hle := hpage.le
      have hv := (resolveVirtual_eq_some hband).2 ⟨c, s, hw, hoff, by omega⟩
      exact .inl ⟨off, hv, page, hpage⟩
    · exact .inr ⟨page, hpage⟩

/-- Block `block` resolves, and `page` is the page it resolves to. -/
def ResolvesTo (image : Slice T) (block : ℕ) (page : Slice T) : Prop :=
  ∃ off, resolveBlockOffset image (walkResolver image) block = some off ∧
    AnsweringPage image block off page

theorem ResolvesTo.page_eq {image page page' : Slice T} {block : ℕ}
    (h : ResolvesTo image block page) (h' : ResolvesTo image block page') : page = page' := by
  obtain ⟨off, hoff, hp⟩ := h
  obtain ⟨off', hoff', hp'⟩ := h'
  obtain rfl := Option.some.inj (hoff.symm.trans hoff')
  exact Option.some.inj (hp.inBounds.symm.trans hp'.inBounds)

end RefsForensic
