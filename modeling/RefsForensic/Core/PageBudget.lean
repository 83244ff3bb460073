import RefsForensic.Core.Store

/-!
# The page budget

A page answers to one block number only, so a walk visits each resident page at most once, and at
most one block besides, the one it fails at. On a volume of fewer than 4096 resident pages the cap
on visited pages therefore never binds (`walk_within_pages`).
-/

namespace RefsForensic

open Rust

variable {T : Target}

/-- The block numbers of the resident pages. -/
def residentNumbers (image : Slice T) : List ℕ :=
  (List.range (image.len / refsClusterSize)).filterMap fun c =>
    (residentPage image c).map MetaPage.number

theorem mem_residentNumbers {image : Slice T} {b : ℕ} :
    b ∈ residentNumbers image ↔ ∃ c p, residentPage image c = some p ∧ p.number = b := by
  unfold residentNumbers
  simp only [List.mem_filterMap, List.mem_range, Option.map_eq_some_iff]
  constructor
  · rintro ⟨c, -, p, hp, hnumber⟩
    exact ⟨c, p, hp, hnumber⟩
  · rintro ⟨c, p, hp, hnumber⟩
    have hle := le_len_of_residentPage hp
    refine ⟨c, ?_, p, hp, hnumber⟩
    unfold refsClusterSize refsMetadataPageSize at hle
    unfold refsClusterSize
    omega

/-- A readable block is the number of a resident page. -/
theorem mem_residentNumbers_of_readable {image : Slice T} {b : ℕ}
    (h : Search.Readable (blockGraph image) b) : b ∈ residentNumbers image := by
  obtain ⟨node, hnode⟩ := readable_iff.1 h
  obtain ⟨page, hpage, -⟩ := nodeAt_eq_ok.1 hnode
  obtain ⟨c, p, hfinds, -, -⟩ := resolvesTo_iff.1 hpage
  obtain ⟨q, hq, hnumber⟩ := hfinds.page
  exact mem_residentNumbers.2 ⟨c, q, hq, hnumber⟩

/-- Blocks that were entered are fewer than the resident pages, or as many. -/
theorem length_le_of_entered {image : Slice T} {cap levels root : ℕ} {vis : List ℕ}
    (h : Search.Entered (blockGraph image) cap levels root vis) :
    vis.length ≤ (residentNumbers image).length :=
  (List.subperm_of_subset h.nodup fun b hb =>
    mem_residentNumbers_of_readable (h.readable b hb)).length_le

/-- A search of the block graph visits at most one block more than there are resident pages. -/
theorem length_dfs_le (image : Slice T) (cap levels root : ℕ) :
    (Search.dfs (blockGraph image) cap levels root []).1.length ≤
      (residentNumbers image).length + 1 := by
  have hends : Search.Ends (Search.Entered (blockGraph image) cap levels root)
      (fun vis e => ∃ b, Search.StoppedAt (blockGraph image) cap levels root vis e b)
      (Search.dfs (blockGraph image) cap levels root []) := Search.dfs_sound levels root
  cases hresult : (Search.dfs (blockGraph image) cap levels root []).2 with
  | ok u =>
    have := length_le_of_entered (hends.ok hresult)
    omega
  | error e =>
    obtain ⟨b, hstopped⟩ := hends.error e hresult
    obtain ⟨pre, hvis, hentered⟩ := hstopped.last
    rw [hvis, List.length_append, List.length_singleton]
    exact Nat.add_le_add_right (length_le_of_entered hentered) 1

/-- **The page budget**: a walk visits at most one block more than the image has resident pages, and
where these are fewer than the budget, no larger budget gives another search. -/
theorem walk_within_pages (image : Slice T) (root : ℕ) :
    (walk image root).1.visited.length ≤ (residentNumbers image).length + 1 ∧
      ((residentNumbers image).length < maxVisitedPages → ∀ cap, maxVisitedPages ≤ cap →
        Search.dfs (blockGraph image) cap maxDescentDepth root [] = walkSearch image root) := by
  refine ⟨?_, fun hfew cap hcap => ?_⟩
  · rw [walk_eq]
    exact length_dfs_le image maxVisitedPages maxDescentDepth root
  · have hlen := length_dfs_le image cap maxDescentDepth root
    exact (Search.dfs_eq_of_length_le hcap (by omega)).symm

end RefsForensic
