import RefsForensic.Core.Banded
import RefsForensic.Core.DirTree

/-!
# Trees on volumes under writes

A directory tree written page by page: each node is a page, laid out in whatever way, that stands,
in the page store, at the cluster of its block (`DirTree.Written`). On a banded volume a written
tree is a stored one, so once a run of writes has left the pages of a tree within the budgets of the
walk in place, in whatever order and among whatever other writes, the walk from its root lists it
(`walkDirectory_written`). A run that writes the new version of a tree beside the old one leaves
both to be read (`versions_readable`).
-/

namespace RefsForensic

open Rust

variable {T : Target}

/-- The store has a page on which these rows are written at the cluster of `block`, a branch or not
as told. -/
def PageWritten (st : Store T) (place : ℕ → ℕ) (block : UInt64) (isBranch : Bool)
    (rows : List (List UInt8 × List UInt8)) : Prop :=
  ∃ p nodeHeader recordOffsets records,
    st (bandCluster defaultBandClusters place block.toNat) = some p ∧ p.number = block.toNat ∧
      Written p.data nodeHeader recordOffsets records ∧ records.map (·.2) = rows ∧
      (u8At p.data (nodeHeader + 13) &&& 0x01 ≠ 0 ↔ isBranch = true)

mutual

/-- The store has the pages of the tree at their clusters, and no page of its absent blocks. -/
def DirTree.Written (st : Store T) (place : ℕ → ℕ) : DirTree → Prop
  | .leaf block records =>
    PageWritten st place block false (records.map fun r => (r.key, r.value))
  | .branch block rows =>
    PageWritten st place block true rows.keyValues ∧ rows.Written st place
  | .absent block =>
    ∀ p, st (bandCluster defaultBandClusters place block.toNat) = some p → p.number ≠ block.toNat

def DirForest.Written (st : Store T) (place : ℕ → ℕ) : DirForest → Prop
  | .nil => True
  | .child _ _ t rows => t.Written st place ∧ rows.Written st place
  | .short _ _ _ rows => rows.Written st place

end

variable {image : Slice T} {place : ℕ → ℕ}

/-- A written page is a stored one. -/
theorem PageWritten.stored (hbanded : (residentPage image).Banded defaultBandClusters place)
    {block : UInt64} {isBranch : Bool} {rows : List (List UInt8 × List UInt8)}
    (h : PageWritten (residentPage image) place block isBranch rows) :
    RowsStored image block.toNat isBranch rows := by
  obtain ⟨p, nodeHeader, recordOffsets, records, hpage, hnumber, hwritten, hrows, hbranch⟩ := h
  exact ⟨p.data, nodeHeader, recordOffsets, records,
    hbanded.resolvesTo_iff.2 ⟨p, hpage, hnumber, rfl⟩, hwritten, hrows, hbranch⟩

/-- An encoded page is a written one. -/
theorem pageWritten_encode {st : Store T} (fields : PageFields) {rs : List Record}
    (hfits : usedSize rs ≤ refsMetadataPageSize) {isBranch : Bool}
    (hpage : st (bandCluster defaultBandClusters place fields.number.toNat) =
      some (MetaPage.encode fields rs hfits))
    (hbranch : fields.flags &&& 0x01 ≠ 0 ↔ isBranch = true) :
    PageWritten st place fields.number isBranch (rs.map fun r => (r.key, r.value)) := by
  have hholds := encode_holds (T := T) fields hfits
  refine ⟨_, 84, 116, _, hpage, encode_number fields hfits,
    hholds.written (MetaPage.encode (T := T) fields rs hfits).len_eq hfits,
    placeRecords_keyValue _ rs, ?_⟩
  rw [show 84 + 13 = 96 + 1 from rfl, u8At_of_holds hholds.nodeType rfl]
  exact hbranch

mutual

/-- A written tree is a stored one. -/
theorem DirTree.Written.stored (hbanded : (residentPage image).Banded defaultBandClusters place)
    (t : DirTree) (h : t.Written (residentPage image) place) : t.Stored image := by
  cases t with
  | leaf block records =>
    rw [DirTree.Written] at h
    rw [DirTree.Stored]
    exact h.stored hbanded
  | branch block rows =>
    rw [DirTree.Written] at h
    rw [DirTree.Stored]
    exact ⟨h.1.stored hbanded, DirForest.Written.stored hbanded rows h.2⟩
  | absent block =>
    rw [DirTree.Written] at h
    rw [DirTree.Stored]
    intro page hpage
    obtain ⟨p, hp, hnumber, -⟩ := hbanded.resolvesTo_iff.1 hpage
    exact h p hp hnumber

theorem DirForest.Written.stored (hbanded : (residentPage image).Banded defaultBandClusters place)
    (rows : DirForest) (h : rows.Written (residentPage image) place) : rows.Stored image := by
  cases rows with
  | nil =>
    rw [DirForest.Stored]
    trivial
  | child key rest t rows =>
    rw [DirForest.Written] at h
    rw [DirForest.Stored]
    exact ⟨DirTree.Written.stored hbanded t h.1, DirForest.Written.stored hbanded rows h.2⟩
  | short key value hv rows =>
    rw [DirForest.Written] at h
    rw [DirForest.Stored]
    exact DirForest.Written.stored hbanded rows h

end

/-! ## Pages of directory records -/

/-- A file of this name. -/
def fileRecord (name : String) : DirRecord :=
  .entry name (.file {
    created := 5
    modified := 6
    changed := 7
    accessed := 8
    attributes := 0x20
    reserved36 := Vector.replicate 28 0
    size := 9
    allocated := 4096
    reserved80 := Vector.replicate 48 0 })

def DirRecord.record (r : DirRecord) : Record := ⟨r.key, r.value, 0⟩

/-- The page of a leaf. -/
def leafPage (b : UInt64) (records : List DirRecord)
    (hfits : usedSize (records.map DirRecord.record) ≤ refsMetadataPageSize) : MetaPage .w64 :=
  .encode ⟨b, 0x600, 0, 0⟩ (records.map DirRecord.record) hfits

theorem leafPage_number (b : UInt64) {records : List DirRecord}
    (hfits : usedSize (records.map DirRecord.record) ≤ refsMetadataPageSize) :
    (leafPage b records hfits).number = b.toNat := encode_number _ hfits

theorem leafPage_tableId (b : UInt64) {records : List DirRecord}
    (hfits : usedSize (records.map DirRecord.record) ≤ refsMetadataPageSize) :
    leU64 (leafPage b records hfits).data 72 = 0x600 := by
  have h := (encode_holds (T := .w64) ⟨b, 0x600, 0, 0⟩ hfits).tableId
  exact leU64_of_holds h

theorem leafPage_writable (b : UInt64) {records : List DirRecord}
    (hfits : usedSize (records.map DirRecord.record) ≤ refsMetadataPageSize)
    (hused : usedSize (records.map DirRecord.record) ≤ refsClusterSize)
    (hb : 4 ∣ b.toNat ∧ b.toNat ≤ 68) : (leafPage b records hfits).Writable blankVolume.len := by
  refine encode_writable _ hfits hb.1 ?_ hused
  change b.toNat * 4096 + 16384 ≤ 72 * 4096
  omega

theorem leafPage_written {st : Store .w64} {b : UInt64} {records : List DirRecord}
    {hfits : usedSize (records.map DirRecord.record) ≤ refsMetadataPageSize}
    (h : st b.toNat = some (leafPage b records hfits)) :
    (DirTree.leaf b records).Written st fun idx => idx * defaultBandClusters := by
  have hpage : PageWritten st (fun idx => idx * defaultBandClusters) b false _ :=
    pageWritten_encode ⟨b, 0x600, 0, 0⟩ hfits (by rwa [bandCluster_self]) (by simp)
  rw [List.map_map] at hpage
  rw [DirTree.Written]
  exact hpage

theorem fileA_fits : usedSize ([fileRecord "a"].map DirRecord.record) ≤ refsMetadataPageSize := by
  decide +kernel

/-- The leaf of block 8, with a file. -/
def oldLeaf : MetaPage .w64 := leafPage 8 [fileRecord "a"] fileA_fits

/-- The leaf of block 12, with another one. -/
def newLeaf : MetaPage .w64 := leafPage 12 [fileRecord "b"] (by decide +kernel)

def newRootRecords : List Record := [⟨[1], toLeBytes 8 8, 0⟩, ⟨[2], toLeBytes 8 12, 0⟩]

/-- A branch over the two. -/
def newRoot : MetaPage .w64 := .encode ⟨16, 0x600, 1, 1⟩ newRootRecords (by decide)

theorem oldLeaf_number : oldLeaf.number = 8 := leafPage_number 8 fileA_fits

theorem newLeaf_number : newLeaf.number = 12 := leafPage_number 12 (by decide +kernel)

theorem newRoot_number : newRoot.number = 16 := encode_number _ (by decide)

theorem oldLeaf_writable : oldLeaf.Writable blankVolume.len :=
  leafPage_writable 8 _ (by decide +kernel) (by decide)

theorem newLeaf_writable : newLeaf.Writable blankVolume.len :=
  leafPage_writable 12 _ (by decide +kernel) (by decide)

theorem newRoot_writable : newRoot.Writable blankVolume.len :=
  encode_writable _ _ (by decide) (by decide) (by decide)

/-- The tree of a leaf. -/
def oldTree : DirTree := .leaf 8 [fileRecord "a"]

/-- The tree of the branch, with `second` for its second child. -/
def treeOver (second : DirTree) : DirTree :=
  .branch 16 (.child [1] [] oldTree (.child [2] [] second .nil))

theorem oldTree_block : oldTree.block = 8 := rfl

theorem treeOver_block (second : DirTree) : (treeOver second).block = 16 := rfl

theorem treeOver_written {st : Store .w64} {second : DirTree} (hblock : second.block = 12)
    (hroot : st 16 = some newRoot) (hfirst : st 8 = some oldLeaf)
    (hsecond : second.Written st fun idx => idx * defaultBandClusters) :
    (treeOver second).Written st fun idx => idx * defaultBandClusters := by
  have hpage : PageWritten st (fun idx => idx * defaultBandClusters) 16 true
      (newRootRecords.map fun r => (r.key, r.value)) :=
    pageWritten_encode ⟨16, 0x600, 1, 1⟩ (by decide) (by rwa [bandCluster_self]) (by decide)
  rw [treeOver, DirTree.Written, DirForest.Written, DirForest.Written, DirForest.Written]
  refine ⟨?_, leafPage_written hfirst, hsecond, trivial⟩
  rw [DirForest.keyValues, DirForest.keyValues, hblock]
  exact hpage

/-! ## Runs -/

variable {image' : Slice T} {ws : List (Write T)}

/-- **What is written is listed**: on a volume that is banded at the start, after any run of page
writes to their bands and of data writes that leaves the pages of a tree at their clusters, the walk
from the root returns the entries of its leaves in order, or fails with its first absent page. The
tree is within the budgets: the walk meets no block of it twice, at most 4096 pages and 64
levels. -/
theorem walkDirectory_written (h : Run image ws image') (hbands : KeepsBands place ws)
    (hstart : (residentPage image).Banded defaultBandClusters place) {t : DirTree}
    (ht : t.Written ((residentPage image).putAll ws) place) (hbudgets : t.WithinBudgets) :
    walkDirectory image' t.block = t.listing := by
  rw [← h.store] at ht
  exact walkDirectory_stored (DirTree.Written.stored (h.banded hbands hstart) t ht) hbudgets

theorem exists_run_firstLeaf : ∃ image, Run blankVolume (ownWrites [oldLeaf, newRoot]) image := by
  have hwritable : ∀ p ∈ [oldLeaf, newRoot], p.Writable blankVolume.len := by
    simp [oldLeaf_writable, newRoot_writable]
  obtain ⟨image, hrun, -⟩ := exists_run_own blankVolume_aligned hwritable
  exact ⟨image, hrun⟩

theorem putAll_firstLeaf {c : ℕ} {p : MetaPage .w64} (hp : p ∈ [oldLeaf, newRoot])
    (hc : p.number = c) :
    (residentPage blankVolume).putAll (ownWrites [oldLeaf, newRoot]) c = some p :=
  Store.putAll_own (by simp [oldLeaf_number, newRoot_number]) hp hc

theorem firstLeaf_written :
    (treeOver (.absent 12)).Written
      ((residentPage blankVolume).putAll (ownWrites [oldLeaf, newRoot]))
      fun idx => idx * defaultBandClusters := by
  have habsent : (residentPage blankVolume).putAll (ownWrites [oldLeaf, newRoot]) 12 = none := by
    rw [Store.putAll_own_of_ne (by simp [oldLeaf_number, newRoot_number]), residentPage_blankVolume]
  refine treeOver_written rfl (putAll_firstLeaf (by simp) newRoot_number)
    (putAll_firstLeaf (by simp) oldLeaf_number) ?_
  rw [DirTree.Written]
  intro p hp
  rw [bandCluster_self] at hp
  cases habsent.symm.trans hp

/-- The walk of a tree whose second leaf has not been written fails with the block of it. -/
theorem absentLeaf_reported : ∃ image', Run blankVolume (ownWrites [oldLeaf, newRoot]) image' ∧
    walkDirectory image' (treeOver (.absent 12)).block = .error (.unresolvedVirtualBlock 12) := by
  obtain ⟨image', hrun⟩ := exists_run_firstLeaf
  exact ⟨image', hrun, walkDirectory_written hrun (keepsBands_own _) (blankVolume_banded _ _)
    firstLeaf_written ⟨by decide, by decide, by decide⟩⟩

/-- The walk of a stored tree visits the pages it meets. -/
theorem visited_stored {t : DirTree} (h : t.Stored image) (hbudgets : t.WithinBudgets) :
    (walk image t.block).1.visited = t.met := by
  rw [walk_eq, walkSearch_stored h hbudgets]
  rfl

/-- **Two versions**: on a volume that is banded at the start, a run of page writes to their bands
and of data writes that keeps clear of the pages of a stored tree and writes another one leaves both
to be listed, each from its own root. Both trees are within the budgets of the walk. -/
theorem versions_readable (h : Run image ws image') (hbands : KeepsBands place ws)
    (hstart : (residentPage image).Banded defaultBandClusters place) {t t' : DirTree}
    (ht : t.Stored image) (hbudgets : t.WithinBudgets)
    (hspares : ∀ b ∈ t.met, ∀ p, Write.page (bandCluster defaultBandClusters place b) p ∉ ws)
    (ht' : t'.Written ((residentPage image).putAll ws) place) (hbudgets' : t'.WithinBudgets) :
    walkDirectory image' t.block = t.listing ∧ walkDirectory image' t'.block = t'.listing := by
  rw [← h.store] at ht'
  have hstored := DirTree.Written.stored (h.banded hbands hstart) t' ht'
  refine ⟨?_, walkDirectory_stored hstored hbudgets'⟩
  rw [← visited_stored ht hbudgets] at hspares
  rw [snapshot_readable h hbands hstart t.block hspares]
  exact walkDirectory_stored ht hbudgets

/-- The tree of the branch with both leaves. -/
def newTree : DirTree := treeOver (.leaf 12 [fileRecord "b"])

/-- The leaf of the old version is shared by the new one, and each is read from its own root. -/
theorem sharedLeaf_readable : ∃ image image',
    Run blankVolume (ownWrites [oldLeaf]) image ∧ Run image (ownWrites [newLeaf, newRoot]) image' ∧
      walkDirectory image' oldTree.block = oldTree.listing ∧
      walkDirectory image' newTree.block = newTree.listing := by
  have hwritable : ∀ p ∈ [newLeaf, newRoot], p.Writable blankVolume.len := by
    simp [newLeaf_writable, newRoot_writable]
  have hnodup : ([newLeaf, newRoot].map MetaPage.number).Nodup := by
    simp [newLeaf_number, newRoot_number]
  obtain ⟨image, hrun, haligned⟩ := exists_run_own blankVolume_aligned
    (show ∀ p ∈ [oldLeaf], p.Writable blankVolume.len by simpa using oldLeaf_writable)
  obtain ⟨image', hrun', -⟩ := exists_run_own haligned (hrun.len ▸ hwritable)
  have hbanded := hrun.banded (keepsBands_own _) (blankVolume_banded _ _)
  have hold : residentPage image 8 = some oldLeaf := by
    rw [hrun.store]
    exact Store.putAll_own (by simp) List.mem_cons_self oldLeaf_number
  have hkept : (residentPage image).putAll (ownWrites [newLeaf, newRoot]) 8 = some oldLeaf := by
    rw [Store.putAll_own_of_ne (by simp [newLeaf_number, newRoot_number]), hold]
  have hspares : ∀ b ∈ oldTree.met, ∀ p, Write.page (bandCluster defaultBandClusters
      (fun idx => idx * defaultBandClusters) b) p ∉ ownWrites [newLeaf, newRoot] := by
    intro b hb p
    rw [oldTree, DirTree.met, List.mem_singleton] at hb
    rw [bandCluster_self, hb]
    exact page_not_mem_ownWrites (by simp [newLeaf_number, newRoot_number]) p
  have hadded : (residentPage image).putAll (ownWrites [newLeaf, newRoot]) 12 = some newLeaf :=
    Store.putAll_own hnodup (by simp) newLeaf_number
  have hnew : newTree.Written ((residentPage image).putAll (ownWrites [newLeaf, newRoot]))
      fun idx => idx * defaultBandClusters :=
    treeOver_written rfl (Store.putAll_own hnodup (by simp) newRoot_number) hkept
      (leafPage_written hadded)
  exact ⟨image, image', hrun, hrun', versions_readable hrun' (keepsBands_own _) hbanded
    (DirTree.Written.stored hbanded oldTree (leafPage_written hold))
    ⟨by decide, by decide, by decide⟩ hspares hnew ⟨by decide, by decide, by decide⟩⟩

/-! ### The pages of the new tree -/

def newTreePages : List (MetaPage .w64) := [oldLeaf, newLeaf, newRoot]

theorem newTreePages_number : newTreePages.map MetaPage.number = [8, 12, 16] := by
  simp [newTreePages, oldLeaf_number, newLeaf_number, newRoot_number]

theorem exists_run_newTreePages : ∃ image, Run blankVolume (ownWrites newTreePages) image := by
  have hwritable : ∀ p ∈ newTreePages, p.Writable blankVolume.len := by
    simp [newTreePages, oldLeaf_writable, newLeaf_writable, newRoot_writable]
  obtain ⟨image, hrun, -⟩ := exists_run_own blankVolume_aligned hwritable
  exact ⟨image, hrun⟩

theorem putAll_newTreePages {c : ℕ} {p : MetaPage .w64} (hp : p ∈ newTreePages)
    (hc : p.number = c) :
    (residentPage blankVolume).putAll (ownWrites newTreePages) c = some p :=
  Store.putAll_own (by rw [newTreePages_number]; decide) hp hc

theorem newTree_stored {image : Slice .w64} (hrun : Run blankVolume (ownWrites newTreePages) image) :
    newTree.Stored image := by
  have hpage : ∀ p ∈ newTreePages, ∀ c, p.number = c → residentPage image c = some p :=
    fun p hp c hc => by
      rw [hrun.store]
      exact putAll_newTreePages hp hc
  have hsecond := hpage newLeaf (by simp [newTreePages]) 12 newLeaf_number
  have hwritten : newTree.Written (residentPage image) fun idx => idx * defaultBandClusters :=
    treeOver_written rfl (hpage _ (by simp [newTreePages]) 16 newRoot_number)
      (hpage _ (by simp [newTreePages]) 8 oldLeaf_number) (leafPage_written hsecond)
  exact DirTree.Written.stored (hrun.banded (keepsBands_own _) (blankVolume_banded _ _)) _ hwritten

end RefsForensic
