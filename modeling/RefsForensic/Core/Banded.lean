import RefsForensic.Core.Encode

/-!
# Banded volumes

On a sound volume every metadata page lies in its band: a base cluster for each virtual container,
and each page as far behind the base of its container as its number is into the container. Two
containers may share a base. On such a volume the bootstrap finds the base of every container it has
a page of (`Store.Banded.resolveVirtual`), and a block is found exactly when it is resident, at its
own cluster (`Store.Banded.resolvesTo_iff`).

Over a run of writes that keep to the bands a block reads as the page last written for it
(`banded_read_after_write`), and a tree whose clusters are left alone reads as it did from its old
root, however much is written elsewhere (`snapshot_readable`).
-/

namespace RefsForensic

open Rust

variable {T : Target}

/-- The cluster of block `b` when container `idx` has its base at cluster `place idx`. -/
def bandCluster (bandClusters : ℕ) (place : ℕ → ℕ) (b : ℕ) : ℕ :=
  place (b / bandClusters) + b % bandClusters

/-- Every page lies in its band. -/
def Store.Banded (bandClusters : ℕ) (place : ℕ → ℕ) (st : Store T) : Prop :=
  ∀ c p, st c = some p → c = bandCluster bandClusters place p.number

/-- Where every base is the cluster of the container's first block, each block is its own
cluster. -/
@[simp] theorem bandCluster_self (k b : ℕ) : bandCluster k (fun idx => idx * k) b = b :=
  Nat.div_add_mod' b k

namespace Store

/-- A container with a page far enough into the volume has a lowest one. -/
theorem exists_lowest {st : Store T} {k c : ℕ} {p : MetaPage T} (hp : st c = some p)
    (hle : p.number % k ≤ c) : ∃ c₀ s₀, st.Lowest k (p.number / k) c₀ s₀ := by
  classical
  have hex : ∃ c, ∃ q, st c = some q ∧ q.number / k = p.number / k ∧ q.number % k ≤ c :=
    ⟨c, p, hp, rfl, hle⟩
  obtain ⟨q, hq, hidx, hqle⟩ := Nat.find_spec hex
  refine ⟨Nat.find hex, q.number, ⟨q, hq, rfl⟩, hidx, hqle, fun c' hc' r hr hridx hrle => ?_⟩
  exact Nat.find_min hex hc' ⟨r, hr, hridx, hrle⟩

namespace Banded

variable {st : Store T} {k : ℕ} {place : ℕ → ℕ}

theorem mod_le (h : st.Banded k place) {c : ℕ} {p : MetaPage T} (hp : st c = some p) :
    p.number % k ≤ c := by
  have := h c p hp
  unfold bandCluster at this
  omega

/-- The lowest page of a container gives the container's base. -/
theorem base_eq (h : st.Banded k place) {idx c s : ℕ} (hlow : st.Lowest k idx c s) :
    c - s % k = place idx := by
  obtain ⟨p, hp, rfl⟩ := hlow.page
  obtain rfl := hlow.container
  have := h c p hp
  unfold bandCluster at this
  omega

/-- A resident block is found at its cluster, another block nowhere. -/
theorem finds_iff (h : st.Banded defaultBandClusters place) {b c : ℕ} :
    st.Finds b c ↔ ∃ p, st c = some p ∧ p.number = b := by
  constructor
  · exact Finds.page
  · rintro ⟨p, hp, rfl⟩
    obtain ⟨c₀, s₀, hlow⟩ := exists_lowest hp (h.mod_le hp)
    refine .band ⟨⟨c₀, s₀, hlow, ?_⟩, p, hp, rfl⟩
    rw [h.base_eq hlow]
    exact h c p hp

/-- Writing a page in its band keeps the pages in their bands. -/
theorem update (h : st.Banded k place) {c : ℕ} {p : MetaPage T}
    (hp : c = bandCluster k place p.number) : Banded k place (Function.update st c (some p)) := by
  intro c' q hq
  rcases eq_or_ne c' c with rfl | hne
  · rw [Function.update_self, Option.some.injEq] at hq
    exact hq ▸ hp
  · rw [Function.update_of_ne hne] at hq
    exact h c' q hq

variable {image : Slice T}

/-- **The bootstrap on a banded volume**: exactly the blocks of the containers that have a resident
page are resolved, each to its place behind the base of its container. -/
theorem resolveVirtual (h : (residentPage image).Banded k place) (hk : 0 < k) {v off : ℕ} :
    (ContainerResolver.fromResidentImage image k).resolveVirtual v = some off ↔
      (∃ c p, residentPage image c = some p ∧ p.number / k = v / k) ∧
        off = bandCluster k place v * refsClusterSize ∧ off ≤ u64Max := by
  simp only [resolveVirtual_eq_some hk.ne', firstWitness_iff_lowest]
  constructor
  · rintro ⟨c, s, hlow, hoff, hle⟩
    obtain ⟨p, hp, rfl⟩ := hlow.page
    rw [h.base_eq hlow] at hoff
    exact ⟨⟨c, p, hp, hlow.container⟩, hoff, hle⟩
  · rintro ⟨⟨c, p, hp, hidx⟩, hoff, hle⟩
    obtain ⟨c₀, s₀, hlow⟩ := exists_lowest hp (h.mod_le hp)
    rw [hidx] at hlow
    exact ⟨c₀, s₀, hlow, by rw [h.base_eq hlow]; exact hoff, hle⟩

theorem resolvesTo_iff (h : (residentPage image).Banded defaultBandClusters place) {b : ℕ}
    {page : Slice T} :
    ResolvesTo image b page ↔
      ∃ p, residentPage image (bandCluster defaultBandClusters place b) = some p ∧
        p.number = b ∧ p.data = page := by
  rw [RefsForensic.resolvesTo_iff]
  simp only [h.finds_iff]
  constructor
  · rintro ⟨c, p, ⟨q, hq, rfl⟩, hp, rfl⟩
    obtain rfl := Option.some.inj (hp.symm.trans hq)
    exact ⟨p, by rw [← h c p hp]; exact hp, rfl, rfl⟩
  · rintro ⟨p, hp, rfl, rfl⟩
    exact ⟨_, p, ⟨p, hp, rfl⟩, hp, rfl⟩

end Banded

end Store

/-! ## Runs that keep to the bands -/

/-- Every page write of the run is to the page's own cluster. -/
def KeepsBands (place : ℕ → ℕ) (ws : List (Write T)) : Prop :=
  ∀ c p, Write.page c p ∈ ws → c = bandCluster defaultBandClusters place p.number

theorem Run.banded {image image' : Slice T} {ws : List (Write T)} {place : ℕ → ℕ}
    (h : Run image ws image') (hbands : KeepsBands place ws)
    (hstart : (residentPage image).Banded defaultBandClusters place) :
    (residentPage image').Banded defaultBandClusters place :=
  h.invariant (I := Store.Banded defaultBandClusters place) hstart
    fun _ c p hst hmem => hst.update (hbands c p hmem)

/-- **Read after write**: on a volume that is banded at the start, after any run of page writes to
their bands and of data writes, a block resolves exactly when the page last written at its cluster
has its number, and to that page. -/
theorem banded_read_after_write {image image' : Slice T} {ws : List (Write T)} {place : ℕ → ℕ}
    (h : Run image ws image') (hbands : KeepsBands place ws)
    (hstart : (residentPage image).Banded defaultBandClusters place) (b : ℕ) (page : Slice T) :
    ResolvesTo image' b page ↔
      ∃ p, (residentPage image).putAll ws (bandCluster defaultBandClusters place b) = some p ∧
        p.number = b ∧ p.data = page := by
  rw [(h.banded hbands hstart).resolvesTo_iff, h.store]

theorem keepsBands_own (ps : List (MetaPage T)) :
    KeepsBands (fun idx => idx * defaultBandClusters) (ownWrites ps) := by
  intro c p hmem
  rw [bandCluster_self]
  exact (page_mem_ownWrites.1 hmem).2

theorem blankVolume_banded (k : ℕ) (place : ℕ → ℕ) :
    (residentPage blankVolume).Banded k place := by
  rw [residentPage_blankVolume]
  intro c p hp
  cases hp

/-- Two leaves, then bytes in a free cluster, then another page over the first leaf. -/
def overwriting : List (Write .w64) :=
  ownWrites [emptyLeaf 8, emptyLeaf 12] ++ [spareData] ++ [.page 8 branchPage]

theorem overwriting_bands : KeepsBands (fun idx => idx * defaultBandClusters) overwriting := by
  intro c p hmem
  rw [bandCluster_self]
  simp only [overwriting, spareData, List.mem_append, page_mem_ownWrites, List.mem_singleton,
    reduceCtorEq, or_false, Write.page.injEq] at hmem
  rcases hmem with ⟨-, rfl⟩ | ⟨rfl, rfl⟩
  · rfl
  · exact branchPage_number.symm

theorem putAll_overwriting (st : Store .w64) : st.putAll overwriting =
    Function.update (st.putAll (ownWrites [emptyLeaf 8, emptyLeaf 12])) 8 (some branchPage) := by
  rw [overwriting, Store.putAll_snoc, Store.putAll_snoc]
  rfl

theorem exists_run_overwriting : ∃ image', Run blankVolume overwriting image' := by
  have hfirst : (emptyLeaf 8).Writable blankVolume.len :=
    emptyLeaf_writable (by decide) (by decide)
  have hsecond : (emptyLeaf 12).Writable blankVolume.len :=
    emptyLeaf_writable (by decide) (by decide)
  obtain ⟨image, hrun, haligned⟩ := exists_run_own blankVolume_aligned
    (show ∀ p ∈ [emptyLeaf 8, emptyLeaf 12], p.Writable blankVolume.len by
      simp [hfirst, hsecond])
  have hdata : spareData.Allowed image :=
    spareData_allowed hrun (by simp [emptyLeaf_number])
  have hpages : (residentPage (spareData.apply image)).Aligned := by
    rw [hdata.store]
    exact haligned
  refine ⟨_, (hrun.step hdata).step (.of_aligned hpages (by decide) ?_ branchPage_plain)⟩
  rw [Write.apply_len, hrun.len]
  decide

theorem branchPage_ne_emptyLeaf : branchPage.data ≠ (emptyLeaf 8).data := fun heq => by
  have hbranch : u8At branchPage.data (96 + 0) = 2 :=
    u8At_of_holds (encode_holds _ branchRecords_fit).nodeType rfl
  have hleaf : u8At (emptyLeaf 8).data (96 + 0) = 0 :=
    u8At_of_holds (encode_holds (T := .w64) ⟨8, 0x600, 0, 0⟩ _).nodeType rfl
  rw [heq, hleaf] at hbranch
  cases hbranch

/-- Block 8 reads as the page written over its leaf, and no longer as the leaf; block 12 reads as
the leaf that was written for it. -/
theorem overwriting_read_after_write : ∃ image', Run blankVolume overwriting image' ∧
    ResolvesTo image' 8 branchPage.data ∧ ¬ResolvesTo image' 8 (emptyLeaf 8).data ∧
      ResolvesTo image' 12 (emptyLeaf 12).data := by
  obtain ⟨image', hrun⟩ := exists_run_overwriting
  have hread := banded_read_after_write hrun overwriting_bands (blankVolume_banded _ _)
  simp only [bandCluster_self, putAll_overwriting] at hread
  have hkept : (residentPage blankVolume).putAll (ownWrites [emptyLeaf 8, emptyLeaf 12]) 12 =
      some (emptyLeaf 12) :=
    Store.putAll_own (by simp [emptyLeaf_number]) (by simp) (emptyLeaf_number 12)
  refine ⟨image', hrun, (hread 8 _).2 ⟨_, Function.update_self .., branchPage_number, rfl⟩, ?_,
    (hread 12 _).2 ⟨_, ?_, emptyLeaf_number 12, rfl⟩⟩
  · intro h
    obtain ⟨p, hp, -, hdata⟩ := (hread 8 _).1 h
    rw [Function.update_self, Option.some.injEq] at hp
    exact branchPage_ne_emptyLeaf (hp ▸ hdata)
  · rw [Function.update_of_ne (by decide)]
    exact hkept

/-! ## Old roots -/

theorem nodeAt_congr_of_resolvesTo {image image' : Slice T} {b : ℕ}
    (h : ∀ page, ResolvesTo image' b page ↔ ResolvesTo image b page) :
    nodeAt image' b = nodeAt image b := by
  unfold nodeAt nodeUnder
  cases hread : readPage image (walkResolver image) b with
  | ok page =>
    obtain ⟨off, hoff, hans⟩ := readPage_eq_ok hread
    obtain ⟨off', hoff', hans'⟩ := (h page).2 ⟨off, hoff, hans⟩
    rw [readPage, hoff']
    simp only [hans'.inBounds]
  | error e =>
    obtain ⟨hnone, rfl⟩ := readPage_eq_error.1 hread
    cases hread' : readPage image' (walkResolver image') b with
    | ok page =>
      obtain ⟨off, hoff, hans⟩ := readPage_eq_ok hread'
      obtain ⟨off', hoff', -⟩ := (h page).1 ⟨off, hoff, hans⟩
      cases hnone.symm.trans hoff'
    | error e' =>
      rw [(readPage_eq_error.1 hread').2]

/-- **A walk reads the blocks it visits**: an image that has their pages gives the same result. -/
theorem walkDirectory_local {image image' : Slice T} {root : ℕ}
    (h : ∀ b ∈ (walk image root).1.visited, ∀ page,
      ResolvesTo image' b page ↔ ResolvesTo image b page) :
    walkDirectory image' root = walkDirectory image root := by
  have hnode : ∀ b ∈ (walkSearch image root).1, nodeAt image' b = nodeAt image b := by
    intro b hb
    refine nodeAt_congr_of_resolvesTo (h b ?_)
    rw [walk_eq]
    exact hb
  have hsearch : walkSearch image' root = walkSearch image root := by
    refine Search.dfs_congr (S := (walkSearch image root).1) (fun b hb => ?_) (List.Subset.refl _)
    rw [blockGraph, hnode b hb, blockGraph]
  rw [walkDirectory, walk_eq, walkDirectory, walk_eq, hsearch]
  have hout : (walkSearch image root).1.flatMap (leafEntries image') =
      (walkSearch image root).1.flatMap (leafEntries image) := by
    refine List.flatMap_congr fun b hb => ?_
    rw [leafEntries, hnode b hb, leafEntries]
  unfold Descent.ofVisited
  rw [hout]

/-- **An old root stays readable**: on a banded volume a run whose page writes keep to their bands
and that writes no page at the cluster of a block the walk visited leaves the walk as it was,
whatever else it writes. -/
theorem snapshot_readable {image image' : Slice T} {ws : List (Write T)} {place : ℕ → ℕ}
    (h : Run image ws image') (hbands : KeepsBands place ws)
    (hstart : (residentPage image).Banded defaultBandClusters place) (root : ℕ)
    (hspares : ∀ b ∈ (walk image root).1.visited, ∀ p,
      Write.page (bandCluster defaultBandClusters place b) p ∉ ws) :
    walkDirectory image' root = walkDirectory image root := by
  refine walkDirectory_local fun b hb page => ?_
  rw [(h.banded hbands hstart).resolvesTo_iff, hstart.resolvesTo_iff,
    h.residentPage_eq (hspares b hb)]

end RefsForensic
