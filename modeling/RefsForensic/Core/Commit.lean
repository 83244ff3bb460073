import RefsForensic.Core.Hierarchy

/-!
# Commits

A change of the directories, made copy-on-write: the pages of the new trees go to clusters that no
listing visits, and the page of the object table that names their roots is written last. Whatever
part of the writes before the last one has been made, in whatever order, every directory lists and
every path resolves as before; with the last one every directory lists as the new hierarchy has it
(`commit_atomic`).
-/

namespace RefsForensic

open Rust

variable {T : Target} {image : Slice T} {place : ℕ → ℕ} {ws : List (Write T)}

/-- The page writes keep to their bands and go neither to the object-table page nor to a page that the
listing of a directory visits. -/
structure Prepares (image : Slice T) (place : ℕ → ℕ) (ws : List (Write T)) : Prop where
  bands : KeepsBands place ws
  table : ∀ q, Write.page objectTableCluster q ∉ ws
  spares : ∀ id root, rootBlockOf image id = .ok root → ∀ b ∈ (walk image root).1.visited, ∀ q,
    Write.page (bandCluster defaultBandClusters place b) q ∉ ws

theorem Prepares.of_subset (h : Prepares image place ws) {done : List (Write T)}
    (hdone : ∀ w ∈ done, w ∈ ws) : Prepares image place done where
  bands c p hmem := h.bands c p (hdone _ hmem)
  table q hmem := h.table q (hdone _ hmem)
  spares id root hroot b hb q hmem := h.spares id root hroot b hb q (hdone _ hmem)

/-- Preparing leaves every listing as it was. -/
theorem Prepares.listDir_eq (h : Prepares image place ws)
    (hstart : (residentPage image).Banded defaultBandClusters place) {rs : List ObjectRow}
    {p : MetaPage T} (hpage : residentPage image objectTableCluster = some p)
    (hrows : RowsWritten p.data (rs.map ObjectRow.keyValue)) {image' : Slice T}
    (hrun : Run image ws image') (id : ℕ) : listDir image' id = listDir image id :=
  listDir_spared hrun h.bands hstart hpage hrows h.table (h.spares id)

/-- **A commit is atomic**: on a banded volume with an object-table page on which rows are laid out,
any part of the writes that prepare a hierarchy, in their bands and beside the pages that listings
visit, leaves every listing and every path as it was, and once the object-table page has been
written behind all of them every directory lists as the hierarchy, of trees within the budgets of
the walk, has it. -/
theorem commit_atomic {crashed committed : Slice T} {done : List (Write T)} {q : MetaPage T}
    {new : Hierarchy} (hstart : (residentPage image).Banded defaultBandClusters place)
    {rs : List ObjectRow} {p : MetaPage T} (hpage : residentPage image objectTableCluster = some p)
    (hrows : RowsWritten p.data (rs.map ObjectRow.keyValue)) (hws : Prepares image place ws)
    (hcrashed : Run image done crashed) (hdone : ∀ w ∈ done, w ∈ ws)
    (hcommitted : Run image (ws ++ [.page objectTableCluster q]) committed)
    (hband : objectTableCluster = bandCluster defaultBandClusters place q.number)
    (hnew : new.Written ((residentPage image).putAll (ws ++ [.page objectTableCluster q])) place) :
    (∀ id, listDir crashed id = listDir image id) ∧
      (∀ path, findByPath crashed path = findByPath image path) ∧
      ∀ id, listDir committed id = new.listing id := by
  have hcrash := (hws.of_subset hdone).listDir_eq hstart hpage hrows hcrashed
  refine ⟨hcrash, fun path => findByPath_local fun d _ => hcrash d, ?_⟩
  have hbands : KeepsBands place (ws ++ [.page objectTableCluster q]) := fun c r hmem => by
    rcases List.mem_append.1 hmem with hold | hlast
    · exact hws.bands c r hold
    · cases List.mem_singleton.1 hlast
      exact hband
  rw [← hcommitted.store] at hnew
  exact listDir_stored (hnew.stored (hcommitted.banded hbands hstart))

/-! ### A new root directory -/

def newRows : List ObjectRow := [plainRow 0x600 20, plainRow 0x701 12]

theorem rootOf_newRows {id b : ℕ} (h : rootOf newRows id = some b) : b = 20 ∨ b = 12 :=
  rootOf_pair h

/-- The two directories with another file in the root directory. -/
def newDirectories : Hierarchy where
  table := newRows
  tree b := if b = 20 then .leaf 20 [fileRecord "b"] else .leaf 12 [fileRecord "a"]
  block_eq id b h := by
    rcases rootOf_newRows h with rfl | rfl
    · rfl
    · rfl
  budgets id b h := by
    rcases rootOf_newRows h with rfl | rfl
    · exact ⟨by decide, by decide, by decide⟩
    · exact ⟨by decide, by decide, by decide⟩

theorem fileB_fits : usedSize ([fileRecord "b"].map DirRecord.record) ≤ refsMetadataPageSize := by
  decide +kernel

theorem newRows_fits : usedSize (newRows.map ObjectRow.record) ≤ refsMetadataPageSize := by decide

/-- The page of the new root directory. -/
def newRootLeaf : MetaPage .w64 := leafPage 20 [fileRecord "b"] fileB_fits

theorem newRootLeaf_number : newRootLeaf.number = 20 := leafPage_number 20 fileB_fits

theorem newRootLeaf_prepares {image : Slice .w64} (hs : twoDirectories.Stored image) :
    Prepares image (fun idx => idx * defaultBandClusters) (ownWrites [newRootLeaf]) := by
  have hother : ∀ c, c ≠ 20 → ∀ q, Write.page c q ∉ ownWrites [newRootLeaf] := fun c hne =>
    page_not_mem_ownWrites (by simpa [newRootLeaf_number] using hne.symm)
  refine ⟨keepsBands_own _, hother _ (by decide), fun d root hroot b hb => ?_⟩
  have hb := visited_twoDirectories hs hroot hb
  rw [bandCluster_self]
  exact hother b (by omega)

/-- Before the object-table page is written the old root directory is listed, and after it the new
one. -/
theorem newRoot_atomic : ∃ image crashed committed,
    Run blankVolume (ownWrites twoDirectoryPages) image ∧
      Run image (ownWrites [newRootLeaf]) crashed ∧
      Run image (ownWrites [newRootLeaf] ++
        [.page objectTableCluster (tablePage newRows newRows_fits)]) committed ∧
      listDir crashed 0x600 = listDir image 0x600 ∧
      listDir committed 0x600 = newDirectories.listing 0x600 := by
  obtain ⟨image, hrun, haligned, hstored⟩ := exists_twoDirectories
  have hleaf : newRootLeaf.Writable blankVolume.len :=
    leafPage_writable 20 fileB_fits (by decide +kernel) (by decide)
  have hwritable : ∀ p ∈ [newRootLeaf], p.Writable image.len := by
    rw [hrun.len]
    simpa using hleaf
  obtain ⟨crashed, hcrashed, haligned'⟩ := exists_run_own haligned hwritable
  have htable : (tablePage newRows newRows_fits).Writable blankVolume.len :=
    tablePage_writable newRows_fits (by decide)
  have hcommitted := hcrashed.step (w := .page objectTableCluster (tablePage newRows newRows_fits))
    (.of_aligned haligned' (by decide) (by rw [hcrashed.len, hrun.len]; decide) htable.plain)
  have hold : ∀ p ∈ twoDirectoryPages, ∀ c, p.number = c → residentPage image c = some p :=
    fun p hp c hc => by
      rw [hrun.store]
      exact putAll_twoDirectoryPages hp hc
  have hnew : newDirectories.Written ((residentPage image).putAll
      (ownWrites [newRootLeaf] ++ [.page objectTableCluster (tablePage newRows newRows_fits)]))
      fun idx => idx * defaultBandClusters := by
    rw [Store.putAll_snoc, Write.put]
    have hroot : (residentPage image).putAll (ownWrites [newRootLeaf]) 20 = some newRootLeaf :=
      Store.putAll_own (by simp) List.mem_cons_self newRootLeaf_number
    have hsub : (residentPage image).putAll (ownWrites [newRootLeaf]) 12 = some subLeaf := by
      rw [Store.putAll_own_of_ne (by simp [newRootLeaf_number])]
      exact hold subLeaf (by simp [twoDirectoryPages]) 12 subLeaf_number
    refine ⟨tablePage_written (Function.update_self ..), fun id b h => ?_⟩
    rcases rootOf_newRows h with rfl | rfl
    · exact leafPage_written ((Function.update_of_ne (by decide) ..).trans hroot)
    · exact leafPage_written ((Function.update_of_ne (by decide) ..).trans hsub)
  have hatomic := commit_atomic (hrun.banded (keepsBands_own _) (blankVolume_banded _ _))
    (hold twoRowsTable (by simp [twoDirectoryPages]) _ twoRowsTable_number)
    (tablePage_rows (by decide)) (newRootLeaf_prepares hstored) hcrashed (fun w hw => hw) hcommitted
    (by rw [bandCluster_self, tablePage_number]; rfl) hnew
  exact ⟨image, crashed, _, hrun, hcrashed, hcommitted, hatomic.1 _, hatomic.2.2 _⟩

end RefsForensic
