import RefsForensic.Core.Partial
import RefsForensic.Core.TableFormat
import RefsForensic.Core.TreeWrites
import RefsForensic.Forensic.ResidueLaws

/-!
# Residue of a history

What the carver recovers from a volume is settled by the writes that made it, and not by their order
(`runs_agree`). The root directory table is kept copy-on-write: a new version has a higher number and
goes to another cluster than the current one (`History`). Over such a history the carver takes the
version last committed for the current one (`Versioned.currentPage`), and its residue is exactly what
the surviving older versions hold beyond it (`residue_of_history`); from a part of the volume it is
what the part has pages for (`residue_of_part`). Where the current version is the leaf that the
object table names, a name of a surviving version is either listed or recovered, and never both
(`listed_or_recovered`).
-/

namespace RefsForensic.Forensic

open Rust

variable {T : Target}

/-! ## The scan, on the page store -/

theorem residentMsbPage_eq (image : Slice T) (c : ℕ) :
    residentMsbPage image c = (residentPage image c).map fun p => (c * clusterSize, p.data) := by
  refine Option.ext fun q => ?_
  obtain ⟨off, page⟩ := q
  simp only [Option.map_eq_some_iff, residentPage_eq_some, residentMsbPage, blockAt_eq,
    Option.bind_eq_bind, Option.bind_eq_some_iff]
  constructor
  · rintro ⟨page', hpage, hq⟩
    split_ifs at hq with hsig
    cases hq
    have hlen := Slice.len_of_getRange hpage
    rw [Nat.add_sub_cancel_left] at hlen
    exact ⟨⟨page, hlen, hsig⟩, hpage, rfl⟩
  · rintro ⟨p, hp, hq⟩
    cases hq
    exact ⟨p.data, hp, if_pos p.signature⟩

theorem mem_residentMsbPages_iff {image : Slice T} {q : ℕ × Slice T} :
    q ∈ residentMsbPages image ↔
      ∃ c p, residentPage image c = some p ∧ q = (c * clusterSize, p.data) := by
  unfold residentMsbPages
  simp only [List.mem_filterMap, List.mem_range, residentMsbPage_eq, Option.map_eq_some_iff]
  constructor
  · rintro ⟨c, -, p, hp, rfl⟩
    exact ⟨c, p, hp, rfl⟩
  · rintro ⟨c, p, hp, rfl⟩
    have hle := le_len_of_residentPage hp
    refine ⟨c, ?_, p, hp, rfl⟩
    unfold clusterSize
    unfold refsClusterSize refsMetadataPageSize at hle
    omega

/-- The scan over any number of clusters that is large enough. -/
theorem residentMsbPages_eq {image : Slice T} {n : ℕ} (hn : image.len / clusterSize ≤ n) :
    residentMsbPages image = (List.range n).filterMap (residentMsbPage image) := by
  obtain ⟨k, rfl⟩ := Nat.exists_eq_add_of_le hn
  rw [List.range_add, List.filterMap_append, residentMsbPages, eq_comm,
    List.append_right_eq_self, List.filterMap_eq_nil_iff]
  intro c hc
  obtain ⟨i, -, rfl⟩ := List.mem_map.1 hc
  rw [residentMsbPage_eq, Option.map_eq_none_iff, Option.eq_none_iff_forall_ne_some]
  intro p hp
  have hle := le_len_of_residentPage hp
  unfold clusterSize at hle
  unfold refsClusterSize refsMetadataPageSize at hle
  omega

/-- **The residue is a function of the page store.** -/
theorem recoverResidue_congr {image image' : Slice T}
    (h : residentPage image = residentPage image') :
    recoverResidue image = recoverResidue image' := by
  have hpages : residentMsbPages image = residentMsbPages image' := by
    rw [residentMsbPages_eq (le_max_left _ (image'.len / clusterSize)),
      residentMsbPages_eq (le_max_right (image.len / clusterSize) _)]
    refine List.filterMap_congr fun c _ => ?_
    rw [residentMsbPage_eq, residentMsbPage_eq, h]
  rw [recoverResidue, currentVersions, hpages, recoverResidue, currentVersions]

/-- **The readers see the page store**: the walks, the bootstrap and the carver give the same
results on any two images with the same resident pages, whatever else is in them and however long
they are. -/
theorem readers_of_store {image image' : Slice T} (h : residentPage image = residentPage image') :
    (∀ root, walkDirectory image root = walkDirectory image' root) ∧
      (∀ k v, (ContainerResolver.fromResidentImage image k).resolveVirtual v =
        (ContainerResolver.fromResidentImage image' k).resolveVirtual v) ∧
      recoverResidue image = recoverResidue image' :=
  ⟨walkDirectory_congr h, resolveVirtual_congr h, recoverResidue_congr h⟩

/-- Bytes that are written outside the pages of a tree change no result, and the tree is listed. -/
theorem dataWrite_unseen : ∃ image image', Run blankVolume (ownWrites newTreePages) image ∧
    Run image [spareData] image' ∧ walkDirectory image' newTree.block = newTree.listing ∧
      (∀ root, walkDirectory image' root = walkDirectory image root) ∧
      (∀ k v, (ContainerResolver.fromResidentImage image' k).resolveVirtual v =
        (ContainerResolver.fromResidentImage image k).resolveVirtual v) ∧
      recoverResidue image' = recoverResidue image := by
  obtain ⟨image, hrun⟩ := exists_run_newTreePages
  have hallowed : spareData.Allowed image := spareData_allowed hrun <| by
    simp [newTreePages, oldLeaf_number, newLeaf_number, newRoot_number]
  have hdata : Run image [spareData] _ := .step .start hallowed
  have hreaders := readers_of_store hdata.store
  have hlist := walkDirectory_stored (newTree_stored hrun) ⟨by decide, by decide, by decide⟩
  exact ⟨image, _, hrun, hdata, (hreaders.1 _).trans hlist, hreaders⟩

/-- **The order of the writes is not seen**: two runs that make the same writes in different orders,
no cluster with two pages, leave volumes of which the walks, the bootstrap and the carver give the
same results. -/
theorem runs_agree {image image₁ image₂ : Slice T} {ws₁ ws₂ : List (Write T)}
    (h₁ : Run image ws₁ image₁) (h₂ : Run image ws₂ image₂) (hperm : ws₁.Perm ws₂)
    (hone : OnePageEach ws₁) :
    (∀ root, walkDirectory image₁ root = walkDirectory image₂ root) ∧
      (∀ k v, (ContainerResolver.fromResidentImage image₁ k).resolveVirtual v =
        (ContainerResolver.fromResidentImage image₂ k).resolveVirtual v) ∧
      recoverResidue image₁ = recoverResidue image₂ := by
  have hstore : residentPage image₁ = residentPage image₂ := by
    rw [h₁.store, h₂.store, Store.putAll_perm hperm hone]
  exact ⟨walkDirectory_congr hstore, resolveVirtual_congr hstore, recoverResidue_congr hstore⟩

/-- Two pages in either order. -/
theorem twoLeaves_agree : ∃ image₁ image₂,
    Run blankVolume (ownWrites [oldLeaf, newLeaf]) image₁ ∧
      Run blankVolume (ownWrites [newLeaf, oldLeaf]) image₂ ∧
      recoverResidue image₁ = recoverResidue image₂ := by
  have hwritable : ∀ p ∈ [oldLeaf, newLeaf], p.Writable blankVolume.len := by
    simp [oldLeaf_writable, newLeaf_writable]
  have hswapped : ∀ p ∈ [newLeaf, oldLeaf], p.Writable blankVolume.len := by
    simp [oldLeaf_writable, newLeaf_writable]
  obtain ⟨image₁, h₁, -⟩ := exists_run_own blankVolume_aligned hwritable
  obtain ⟨image₂, h₂, -⟩ := exists_run_own blankVolume_aligned hswapped
  have hone : OnePageEach (ownWrites [oldLeaf, newLeaf]) :=
    onePageEach_own (by simp [oldLeaf_number, newLeaf_number])
  exact ⟨image₁, image₂, h₁, h₂, (runs_agree h₁ h₂ (List.Perm.swap ..) hone).2.2⟩

/-! ## Versions -/

/-- A page of the root directory table at a cluster. -/
structure Version (T : Target) where
  cluster : ℕ
  page : MetaPage T
  rootTable : leU64 page.data tableIdOffset = refsRootDirectoryTableId

namespace Version

/-- The number of the version. -/
def number (v : Version T) : ℕ := v.page.number

/-- The entry names on the page. -/
def names (v : Version T) : List String := carveDirectoryEntries v.page.data

/-- The version as a page of the carver's scan. -/
def scanned (v : Version T) : ℕ × Slice T := (v.cluster * clusterSize, v.page.data)

/-- The version is in the store. -/
def In (v : Version T) (st : Store T) : Prop := st v.cluster = some v.page

end Version

theorem mem_rootTablePages_version {image : Slice T} {q : ℕ × Slice T} :
    q ∈ rootTablePages image ↔ ∃ v : Version T, v.In (residentPage image) ∧ q = v.scanned := by
  unfold rootTablePages
  simp only [List.mem_filter, decide_eq_true_eq, mem_residentMsbPages_iff]
  constructor
  · rintro ⟨⟨c, p, hp, rfl⟩, htable⟩
    exact ⟨⟨c, p, htable⟩, hp, rfl⟩
  · rintro ⟨v, hv, rfl⟩
    exact ⟨⟨v.cluster, v.page, hv, rfl⟩, v.rootTable⟩

/-- The store is versioned with current version `cur`: the current version is in the store, and
every other one is numbered below it. -/
structure Versioned (st : Store T) (cur : Option (Version T)) : Prop where
  current : ∀ v ∈ cur, v.In st
  below : ∀ u : Version T, u.In st → ∃ v ∈ cur, u.cluster = v.cluster ∨ u.number < v.number

/-- `History cur ws cur'`: the writes `ws` keep the root directory table copy-on-write, and take the
current version from `cur` to `cur'`. -/
inductive History (cur : Option (Version T)) : List (Write T) → Option (Version T) → Prop
  | start : History cur [] cur
  /-- A new version goes elsewhere, with a higher number. -/
  | commit {ws : List (Write T)} {cur' : Option (Version T)} (h : History cur ws cur')
      (v : Version T) (newer : ∀ u ∈ cur', u.number < v.number)
      (clear : ∀ u ∈ cur', u.cluster ≠ v.cluster) :
      History cur (ws ++ [.page v.cluster v.page]) (some v)
  /-- A page of another table goes anywhere but over the current version. -/
  | page {ws : List (Write T)} {cur' : Option (Version T)} (h : History cur ws cur') (c : ℕ)
      (p : MetaPage T) (other : leU64 p.data tableIdOffset ≠ refsRootDirectoryTableId)
      (clear : ∀ u ∈ cur', u.cluster ≠ c) : History cur (ws ++ [.page c p]) cur'
  | data {ws : List (Write T)} {cur' : Option (Version T)} (h : History cur ws cur') (off : ℕ)
      (bs : List UInt8) : History cur (ws ++ [.data off bs]) cur'

theorem Versioned.commit {st : Store T} {cur : Option (Version T)} (h : Versioned st cur)
    {v : Version T} (newer : ∀ u ∈ cur, u.number < v.number) :
    Versioned (Function.update st v.cluster (some v.page)) (some v) := by
  refine ⟨?_, fun u hu => ⟨v, rfl, ?_⟩⟩
  · rintro _ ⟨⟩
    exact Function.update_self ..
  · rcases eq_or_ne u.cluster v.cluster with heq | hne
    · exact .inl heq
    · rw [Version.In, Function.update_of_ne hne] at hu
      obtain ⟨w, hw, hwu⟩ := h.below u hu
      rcases hwu with heq | hlt
      · have hcur := h.current w hw
        rw [Version.In, ← heq, hu, Option.some.injEq] at hcur
        have hnew := newer w hw
        rw [Version.number, ← hcur] at hnew
        exact .inr hnew
      · exact .inr (hlt.trans (newer w hw))

theorem Versioned.page {st : Store T} {cur : Option (Version T)} (h : Versioned st cur) {c : ℕ}
    {p : MetaPage T} (other : leU64 p.data tableIdOffset ≠ refsRootDirectoryTableId)
    (clear : ∀ u ∈ cur, u.cluster ≠ c) : Versioned (Function.update st c (some p)) cur := by
  refine ⟨fun v hv => ?_, fun u hu => ?_⟩
  · rw [Version.In, Function.update_of_ne (clear v hv)]
    exact h.current v hv
  · rcases eq_or_ne u.cluster c with heq | hne
    · rw [Version.In, heq, Function.update_self, Option.some.injEq] at hu
      exact absurd u.rootTable (hu ▸ other)
    · rw [Version.In, Function.update_of_ne hne] at hu
      exact h.below u hu

/-- **A history keeps its store versioned.** -/
theorem History.versioned {st : Store T} {cur cur' : Option (Version T)} {ws : List (Write T)}
    (h : History cur ws cur') (hstart : Versioned st cur) : Versioned (st.putAll ws) cur' := by
  induction h with
  | start => exact hstart
  | commit h v newer clear ih =>
    rw [Store.putAll_snoc]
    exact ih.commit newer
  | page h c p other clear ih =>
    rw [Store.putAll_snoc]
    exact ih.page other clear
  | data h off bs ih =>
    rw [Store.putAll_snoc]
    exact ih

/-! ## The carver at the end of a history -/

variable {image : Slice T}

theorem selfBlockOf_scanned (v : Version T) : selfBlockOf v.scanned = v.number := by
  rw [selfBlockOf, leU64_eq]
  rfl

/-- A version at the cluster of another one is that one. -/
theorem Version.In.scanned_eq {st : Store T} {u v : Version T} (hu : u.In st) (hv : v.In st)
    (h : u.cluster = v.cluster) : u.scanned = v.scanned := by
  rw [Version.In, h] at hu
  rw [Version.scanned, Version.scanned, h, Option.some.inj (hu.symm.trans hv)]

/-- **The current version** is the one the carver takes for it. -/
theorem Versioned.currentPage {cur : Option (Version T)}
    (h : Versioned (residentPage image) cur) :
    Forensic.currentPage image = cur.map Version.scanned := by
  unfold Forensic.currentPage
  cases cur with
  | none =>
    rw [Option.map_none, List.argmax_eq_none, List.eq_nil_iff_forall_not_mem]
    intro q hq
    obtain ⟨u, hu, -⟩ := mem_rootTablePages_version.1 hq
    obtain ⟨v, hv, -⟩ := h.below u hu
    cases hv
  | some v =>
    have hin := h.current v rfl
    have hmem : v.scanned ∈ rootTablePages image := mem_rootTablePages_version.2 ⟨v, hin, rfl⟩
    obtain ⟨k, hk⟩ : ∃ k, (rootTablePages image).argmax selfBlockOf = some k :=
      Option.ne_none_iff_exists'.1 fun hnone =>
        List.ne_nil_of_mem hmem (List.argmax_eq_none.1 hnone)
    have hkmem : k ∈ (rootTablePages image).argmax selfBlockOf := hk
    rw [hk, Option.map_some, Option.some.injEq]
    obtain ⟨u, hu, rfl⟩ := mem_rootTablePages_version.1 (List.argmax_mem hkmem)
    obtain ⟨w, hw, hwu⟩ := h.below u hu
    obtain rfl := Option.some.inj hw
    rcases hwu with heq | hlt
    · exact hu.scanned_eq hin heq
    · have hle := List.le_of_mem_argmax hmem hkmem
      rw [selfBlockOf_scanned, selfBlockOf_scanned] at hle
      omega

/-- The names of `u` that `v` lacks. -/
def Version.dropped (v u : Version T) : List String := u.names.filter (· ∉ v.names)

/-- **The residue of a versioned volume**: one entry for each older version with a name that the
current version lacks, with these names. -/
theorem Versioned.mem_recoverResidue {cur : Option (Version T)}
    (h : Versioned (residentPage image) cur) {s : StalePage} :
    s ∈ recoverResidue image ↔
      ∃ v ∈ cur, ∃ u : Version T, u.In (residentPage image) ∧ u.cluster ≠ v.cluster ∧
        v.dropped u ≠ [] ∧ s = ⟨u.number, refsRootDirectoryTableId, u.cluster * clusterSize,
          v.dropped u⟩ := by
  rw [Forensic.mem_recoverResidue, h.currentPage]
  constructor
  · rintro ⟨k, p, hk, hp, hlt, hne, rfl⟩
    obtain ⟨v, hv, rfl⟩ := Option.map_eq_some_iff.1 hk
    obtain ⟨u, hu, rfl⟩ := mem_rootTablePages_version.1 hp
    refine ⟨v, hv, u, hu, fun heq => ?_, hne, by rw [selfBlockOf_scanned]; rfl⟩
    rw [hu.scanned_eq (h.current v hv) heq] at hlt
    exact lt_irrefl _ hlt
  · rintro ⟨v, hv, u, hu, hcluster, hne, rfl⟩
    refine ⟨v.scanned, u.scanned, by rw [hv, Option.map_some],
      mem_rootTablePages_version.2 ⟨u, hu, rfl⟩, ?_, hne, by rw [selfBlockOf_scanned]; rfl⟩
    obtain ⟨w, hw, hwu⟩ := h.below u hu
    obtain rfl := Option.some.inj (hv.symm.trans hw)
    rw [selfBlockOf_scanned, selfBlockOf_scanned]
    exact hwu.resolve_left hcluster

/-! ## What a history leaves -/

variable {image' : Slice T} {ws : List (Write T)} {cur : Option (Version T)} {v : Version T}

/-- The names that are recovered at a cluster of a versioned volume. -/
theorem Versioned.recovered_iff (h : Versioned (residentPage image) (some v)) {c : ℕ}
    {name : String} :
    (∃ s ∈ recoverResidue image, s.offset = c * clusterSize ∧ name ∈ s.entries) ↔
      ∃ u : Version T, u.cluster = c ∧ u.In (residentPage image) ∧ u.cluster ≠ v.cluster ∧
        name ∈ u.names ∧ name ∉ v.names := by
  simp only [h.mem_recoverResidue]
  constructor
  · rintro ⟨s, ⟨v', hv', u, hu, hcluster, -, rfl⟩, hoff, hname⟩
    obtain rfl := Option.some.inj hv'
    have hname : name ∈ u.names.filter (· ∉ v.names) := hname
    rw [List.mem_filter, decide_eq_true_eq] at hname
    exact ⟨u, Nat.eq_of_mul_eq_mul_right (show 0 < clusterSize by decide) hoff, hu, hcluster, hname⟩
  · rintro ⟨u, rfl, hu, hcluster, hname, hlacks⟩
    have hmem : name ∈ v.dropped u := by
      rw [Version.dropped, List.mem_filter, decide_eq_true_eq]
      exact ⟨hname, hlacks⟩
    exact ⟨_, ⟨v, rfl, u, hu, hcluster, List.ne_nil_of_mem hmem, rfl⟩, rfl, hmem⟩

/-- **The residue of a history**: a name is recovered at a cluster exactly when a version that the
volume held at the start or that the history has committed is still there, it is not the current
one, and it has the name where the current one has not. -/
theorem residue_of_history (hrun : Run image ws image')
    (hstart : Versioned (residentPage image) cur) (h : History cur ws (some v)) (c : ℕ)
    (name : String) :
    (∃ s ∈ recoverResidue image', s.offset = c * clusterSize ∧ name ∈ s.entries) ↔
      ∃ u : Version T, u.cluster = c ∧
        (u.In (residentPage image) ∨ Write.page u.cluster u.page ∈ ws) ∧
        u.In ((residentPage image).putAll ws) ∧ u.cluster ≠ v.cluster ∧
        name ∈ u.names ∧ name ∉ v.names := by
  have hversioned := h.versioned hstart
  rw [← hrun.store] at hversioned ⊢
  rw [hversioned.recovered_iff]
  refine exists_congr fun u => and_congr_right fun _ => ?_
  refine ⟨fun hu => ⟨?_, hu⟩, And.right⟩
  have hin := hu.1
  rw [hrun.store] at hin
  exact Store.putAll_origin hin

/-! ### A history of two versions -/

theorem carveDirectoryEntries_leafPage {b : UInt64} {records : List DirRecord}
    (hfits : usedSize (records.map DirRecord.record) ≤ refsMetadataPageSize) :
    carveDirectoryEntries (leafPage b records hfits).data =
      (records.filterMap DirRecord.dirEntry).map DirEntry.name := by
  obtain ⟨node, hnode, hrows⟩ :=
    (encode_rowsWritten (T := .w64) ⟨b, 0x600, 0, 0⟩ hfits).exists_node
  rw [List.map_map] at hrows
  have hentries : node.rows.filterMap entryOfRow = records.filterMap DirRecord.dirEntry :=
    filterMap_entryOfRow hrows
  rw [carveDirectoryEntries, leafPage, parseDirectory_of_parse hnode, hentries]

/-- A leaf of the root directory table, at the cluster of its number. -/
def leafVersion (b : UInt64) (records : List DirRecord)
    (hfits : usedSize (records.map DirRecord.record) ≤ refsMetadataPageSize) : Version .w64 where
  cluster := b.toNat
  page := leafPage b records hfits
  rootTable := by
    rw [leU64_eq]
    exact leafPage_tableId b hfits

def version1 : Version .w64 := leafVersion 8 [fileRecord "a", fileRecord "b"] (by decide +kernel)

def version2 : Version .w64 := leafVersion 12 [fileRecord "a"] fileA_fits

theorem version1_number : version1.page.number = 8 := leafPage_number 8 (by decide +kernel)

theorem version2_number : version2.page.number = 12 := leafPage_number 12 fileA_fits

theorem version1_cluster : version1.cluster = 8 := rfl

theorem version2_cluster : version2.cluster = 12 := rfl

theorem version1_names : version1.names = ["a", "b"] :=
  carveDirectoryEntries_leafPage (by decide +kernel)

theorem version2_names : version2.names = ["a"] := carveDirectoryEntries_leafPage fileA_fits

/-- The root directory at block 12. -/
def rootTablePage : MetaPage .w64 := tablePage [plainRow 0x600 12] (by decide)

theorem rootTablePage_number : rootTablePage.number = 56 := tablePage_number (by decide)

def historyPages : List (MetaPage .w64) := [version1.page, version2.page, rootTablePage]

theorem historyPages_number : historyPages.map MetaPage.number = [8, 12, 56] := by
  simp [historyPages, version1_number, version2_number, rootTablePage_number]

theorem exists_run_history : ∃ image, Run blankVolume (ownWrites historyPages) image := by
  have hversion1 : version1.page.Writable blankVolume.len :=
    leafPage_writable 8 (by decide +kernel) (by decide +kernel) (by decide)
  have hversion2 : version2.page.Writable blankVolume.len :=
    leafPage_writable 12 fileA_fits (by decide +kernel) (by decide)
  have htable : rootTablePage.Writable blankVolume.len :=
    tablePage_writable (by decide) (by decide)
  have hwritable : ∀ p ∈ historyPages, p.Writable blankVolume.len := by
    simp [historyPages, hversion1, hversion2, htable]
  obtain ⟨image, hrun, -⟩ := exists_run_own blankVolume_aligned hwritable
  exact ⟨image, hrun⟩

theorem history_twoVersions : History none (ownWrites historyPages) (some version2) := by
  have h₀ : History (T := .w64) none [] none := .start
  have h₁ : History none [.page 8 version1.page] (some version1) :=
    h₀.commit version1 (by simp) (by simp)
  have h₂ : History none [.page 8 version1.page, .page 12 version2.page] (some version2) := by
    refine h₁.commit version2 ?_ ?_
    · rintro _ ⟨⟩
      rw [Version.number, version1_number, Version.number, version2_number]
      decide
    · rintro _ ⟨⟩
      rw [version1_cluster, version2_cluster]
      decide
  have h₃ := h₂.page 56 rootTablePage ?_ ?_
  · simpa [ownWrites, historyPages, version1_number, version2_number, rootTablePage_number] using h₃
  · rw [leU64_eq]
    exact (tablePage_tableId (by decide)).trans_ne (by decide)
  · rintro _ ⟨⟩
    rw [version2_cluster]
    decide

theorem versioned_blankVolume : Versioned (residentPage blankVolume) none := by
  rw [residentPage_blankVolume]
  exact ⟨by simp, fun u hu => by cases hu⟩

theorem putAll_historyPages {c : ℕ} {p : MetaPage .w64} (hp : p ∈ historyPages)
    (hc : p.number = c) :
    (residentPage blankVolume).putAll (ownWrites historyPages) c = some p :=
  Store.putAll_own (by rw [historyPages_number]; decide) hp hc

/-- The file that the second version lacks is recovered from the first. -/
theorem fileB_recovered : ∃ image, Run blankVolume (ownWrites historyPages) image ∧
    ∃ s ∈ recoverResidue image, s.offset = 8 * clusterSize ∧ "b" ∈ s.entries := by
  obtain ⟨image, hrun⟩ := exists_run_history
  have hin := putAll_historyPages (by simp [historyPages]) version1_number
  have horigin := Store.putAll_origin hin
  exact ⟨image, hrun, (residue_of_history hrun versioned_blankVolume history_twoVersions 8 "b").2
    ⟨version1, rfl, horigin, hin, by rw [version1_cluster, version2_cluster]; decide,
      by rw [version1_names]; decide,
      by rw [version2_names]; decide⟩⟩

/-! ### Partial images -/

/-- A part of a versioned volume that has the current version is versioned with it. -/
theorem Versioned.sub {part whole : Store T} (h : Versioned whole (some v)) (hsub : part.Sub whole)
    (hv : v.In part) : Versioned part (some v) where
  current := by
    rintro _ ⟨⟩
    exact hv
  below u hu := h.below u (hsub _ _ hu)

/-- **The residue of a part**: from a part of a versioned volume that has the current version
exactly what is recovered from the whole at the clusters of its pages is recovered. -/
theorem residue_of_part {part whole : Slice T} (h : Versioned (residentPage whole) (some v))
    (hsub : (residentPage part).Sub (residentPage whole)) (hv : v.In (residentPage part)) (c : ℕ)
    (name : String) :
    (∃ s ∈ recoverResidue part, s.offset = c * clusterSize ∧ name ∈ s.entries) ↔
      (∃ s ∈ recoverResidue whole, s.offset = c * clusterSize ∧ name ∈ s.entries) ∧
        ∃ p, residentPage part c = some p := by
  rw [(h.sub hsub hv).recovered_iff, h.recovered_iff]
  constructor
  · rintro ⟨u, rfl, hu, hrest⟩
    exact ⟨⟨u, rfl, hsub _ _ hu, hrest⟩, u.page, hu⟩
  · rintro ⟨⟨u, rfl, hu, hrest⟩, p, hp⟩
    have heq := (hsub _ _ hp).symm.trans hu
    exact ⟨u, rfl, hp.trans heq, hrest⟩

/-- The file is recovered from the volume cut behind the two versions, too. -/
theorem fileB_recovered_of_cut : ∃ image, Run blankVolume (ownWrites historyPages) image ∧
    ∃ s ∈ recoverResidue (image.take (20 * 4096)), s.offset = 8 * clusterSize ∧
      "b" ∈ s.entries := by
  obtain ⟨image, hrun⟩ := exists_run_history
  have hversioned := history_twoVersions.versioned versioned_blankVolume
  rw [← hrun.store] at hversioned
  have hstore : ∀ c p, p ∈ historyPages → p.number = c → residentPage image c = some p :=
    fun c p hp hc => by
      rw [hrun.store]
      exact putAll_historyPages hp hc
  have hkept : ∀ c p, c * refsClusterSize + refsMetadataPageSize ≤ 20 * 4096 →
      residentPage image c = some p → residentPage (image.take (20 * 4096)) c = some p :=
    fun c p hle hp => by
      rw [residentPage_eq_some] at hp ⊢
      rwa [Slice.getRange_take image hle]
  have hfirst := hstore 8 version1.page (by simp [historyPages]) version1_number
  have hsecond := hstore 12 version2.page (by simp [historyPages]) version2_number
  have hwhole : ∃ s ∈ recoverResidue image, s.offset = 8 * clusterSize ∧ "b" ∈ s.entries :=
    hversioned.recovered_iff.2 ⟨version1, rfl, hfirst,
      by rw [version1_cluster, version2_cluster]; decide, by rw [version1_names]; decide,
      by rw [version2_names]; decide⟩
  exact ⟨image, hrun, (residue_of_part hversioned (residentPage_take_sub image _)
    (hkept 12 _ (by decide) hsecond) 8 "b").2 ⟨hwhole, _, hkept 8 _ (by decide) hfirst⟩⟩

/-! ### The listing and the residue -/

/-- The entries of a directory that is one leaf page. -/
theorem walkDirectory_leaf {b : ℕ} {p : MetaPage T} {node : MinstorePage T}
    (hpage : ResolvesTo image b p.data) (hnode : MinstorePage.parse p.data = .ok node)
    (hleaf : node.isBranch = false) :
    ∃ entries, walkDirectory image b = .ok entries ∧
      entries.map DirEntry.name = carveDirectoryEntries p.data := by
  have hat : nodeAt image b = .ok node := nodeAt_eq_ok.2 ⟨p.data, hpage, hnode⟩
  have hgraph : blockGraph image b = .ok [] :=
    blockGraph_eq_ok.2 ⟨node, hat, by rw [childBlocks, hleaf]; rfl⟩
  have hsearch : walkSearch image b = ([b], .ok ()) := by
    rw [walkSearch, show maxDescentDepth = 63 + 1 from rfl, Search.dfs, if_neg (by decide),
      if_neg List.not_mem_nil, hgraph]
    rfl
  refine ⟨_, walkDirectory_eq_ok.2 ⟨_, hsearch, rfl⟩, ?_⟩
  rw [List.flatMap_singleton, carveDirectoryEntries_of_leaf hpage hnode hleaf]

/-- **Listed or recovered**: on a volume that is banded at the start, and after a history whose page
writes keep to their bands, where the object table names the current version, a leaf, the root
directory lists; every name of a version that is still there is listed or recovered from the
version's cluster; and no listed name is recovered. -/
theorem listed_or_recovered {place : ℕ → ℕ} (hrun : Run image ws image')
    (hstart : Versioned (residentPage image) cur) (h : History cur ws (some v))
    (hbands : KeepsBands place ws)
    (hbanded : (residentPage image).Banded defaultBandClusters place)
    (hroot : rootBlockOf image' refsRootDirectoryId = .ok v.number) {node : MinstorePage T}
    (hnode : MinstorePage.parse v.page.data = .ok node) (hleaf : node.isBranch = false) :
    ∃ entries, listDir image' refsRootDirectoryId = .ok entries ∧
      (∀ u : Version T, u.In ((residentPage image).putAll ws) → ∀ name ∈ u.names,
        name ∈ entries.map DirEntry.name ∨
          ∃ s ∈ recoverResidue image', s.offset = u.cluster * clusterSize ∧ name ∈ s.entries) ∧
      ∀ e ∈ entries, ∀ s ∈ recoverResidue image', e.name ∉ s.entries := by
  have hversioned := h.versioned hstart
  rw [← hrun.store] at hversioned ⊢
  have hv : residentPage image' v.cluster = some v.page := hversioned.current v rfl
  have hbanded' := hrun.banded hbands hbanded
  have hresolves : ResolvesTo image' v.number v.page.data :=
    hbanded'.resolvesTo_iff.2 ⟨v.page, by rw [Version.number, ← hbanded' _ _ hv, hv], rfl, rfl⟩
  obtain ⟨entries, hwalk, hnames⟩ := walkDirectory_leaf hresolves hnode hleaf
  refine ⟨entries, listDir_eq_ok.2 ⟨_, hroot, hwalk⟩, fun u hu name hname => ?_,
    fun e he s hs hrecovered => ?_⟩
  · by_cases hlive : name ∈ v.names
    · rw [hnames]
      exact .inl hlive
    · refine .inr (hversioned.recovered_iff.2 ⟨u, rfl, hu, fun heq => ?_, hname, hlive⟩)
      rw [Version.In, heq, hv, Option.some.injEq] at hu
      rw [Version.names, ← hu] at hname
      exact hlive hname
  · obtain ⟨v', hv', u, -, -, -, rfl⟩ := hversioned.mem_recoverResidue.1 hs
    obtain rfl := Option.some.inj hv'
    have hrecovered : e.name ∈ u.names.filter (· ∉ v.names) := hrecovered
    rw [List.mem_filter, decide_eq_true_eq] at hrecovered
    have hmem := List.mem_map_of_mem (f := DirEntry.name) he
    rw [hnames] at hmem
    exact hrecovered.2 hmem

/-- The file of both versions is listed, and that of the first is recovered. -/
theorem twoVersions_listed_or_recovered : ∃ image, Run blankVolume (ownWrites historyPages) image ∧
    ∃ entries, listDir image refsRootDirectoryId = .ok entries ∧
      ("b" ∈ entries.map DirEntry.name ∨
        ∃ s ∈ recoverResidue image, s.offset = 8 * clusterSize ∧ "b" ∈ s.entries) ∧
      ∀ e ∈ entries, ∀ s ∈ recoverResidue image, e.name ∉ s.entries := by
  obtain ⟨image, hrun⟩ := exists_run_history
  have htable := putAll_historyPages (by simp [historyPages]) rootTablePage_number
  have hstored : TableWritten (residentPage image) [plainRow 0x600 12] := by
    rw [hrun.store]
    exact tablePage_written htable
  have hroot : rootBlockOf image refsRootDirectoryId = .ok version2.number := by
    rw [rootBlockOf_stored hstored.stored, Version.number, version2_number]
    rfl
  obtain ⟨node, hnode, -⟩ :=
    (encode_rowsWritten (T := .w64) ⟨12, 0x600, 0, 0⟩ fileA_fits).exists_node
  have hleaf : node.isBranch = false := by
    rw [MinstorePage.isBranch, (encode_nodeType _ _ hnode).2]
    decide
  obtain ⟨entries, hlist, hall, hnone⟩ := listed_or_recovered hrun versioned_blankVolume
    history_twoVersions (keepsBands_own _) (blankVolume_banded _ _) hroot hnode hleaf
  have hin := putAll_historyPages (by simp [historyPages]) version1_number
  exact ⟨image, hrun, entries, hlist,
    hall version1 hin "b" (by rw [version1_names]; decide), hnone⟩

end RefsForensic.Forensic
