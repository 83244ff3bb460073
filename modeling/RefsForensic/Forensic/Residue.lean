import RefsForensic.Core.Directory
import RefsForensic.Forensic.Audit
import Mathlib.Data.List.MinMax

/-!
# The residue carver

`recover_residue` of `forensic/src/lib.rs`. Pass 1 scans the resident `MSB+` pages of the root
directory table for the highest self-block, the current version; pass 2 surfaces the pages below it
that hold a name the current version does not.

`recoverResidue_eq` states what the two passes compute: the current version is the first page of the
scan with the highest self-block, whatever the order of the scan, and the residue of every page is a
function of that page and the current one alone (`stalePage`).
-/

namespace RefsForensic.Forensic

open Rust

variable {T : Target}

/-- Header offset of a page's table identifier. -/
def tableIdOffset : ℕ := 72

/-- The table identifier of the root directory. -/
def refsRootDirectoryTableId : ℕ := 0x600

/-- The step of the carver's scan: the reader's cluster size, not the boot record's. -/
def clusterSize : ℕ := 4096

/-- A recovered stale page. -/
structure StalePage where
  selfBlock : ℕ
  tableId : ℕ
  offset : ℕ
  entries : List String
  deriving DecidableEq, Repr

/-- The `MSB+` page of cluster `c`, with its byte offset. -/
def residentMsbPage (image : Slice T) (c : ℕ) : Option (ℕ × Slice T) := do
  let off := c * clusterSize
  let page ← blockAt image off
  if startsWith page msbSignature then some (off, page) else none

/-- Every resident `MSB+` page with its byte offset, by ascending cluster. -/
def residentMsbPages (image : Slice T) : List (ℕ × Slice T) :=
  (List.range (image.len / clusterSize)).filterMap (residentMsbPage image)

/-- The directory-entry names of a page; none if its node header does not parse. -/
def carveDirectoryEntries (page : Slice T) : List String :=
  match parseDirectory page with
  | .error _ => []
  | .ok node => node.map DirEntry.name

/-! ## Pass 1 -/

/-- The current version of a table so far. -/
structure CurrentVersion where
  tableId : ℕ
  selfBlock : ℕ
  entries : List String
  deriving DecidableEq

/-- Record a page of a table: a strictly higher number takes over, a new table is pushed. -/
def recordVersion (tableId selfBlock : ℕ) (page : Slice T) :
    List CurrentVersion → List CurrentVersion
  | [] => [{ tableId, selfBlock, entries := carveDirectoryEntries page }]
  | entry :: current =>
    if entry.tableId = tableId then
      if entry.selfBlock < selfBlock then
        { entry with selfBlock, entries := carveDirectoryEntries page } :: current
      else entry :: current
    else entry :: recordVersion tableId selfBlock page current

/-- One page of pass 1. -/
def recordPage (current : List CurrentVersion) (page : Slice T) : List CurrentVersion :=
  let tableId := leU64 page tableIdOffset
  if tableId ≠ refsRootDirectoryTableId then current
  else recordVersion tableId (leU64 page selfBlockOffset) page current

/-- Pass 1. -/
def currentVersions (image : Slice T) : List CurrentVersion :=
  (residentMsbPages image).foldl (fun current p => recordPage current p.2) []

/-! ## Pass 2 -/

/-- One page of pass 2. -/
def surfacePage (current : List CurrentVersion) (off : ℕ) (page : Slice T) : Option StalePage :=
  let tableId := leU64 page tableIdOffset
  if tableId ≠ refsRootDirectoryTableId then none
  else
    let selfBlock := leU64 page selfBlockOffset
    match current.find? (·.tableId = tableId) with
    | none => none
    | some cur =>
      if cur.selfBlock ≤ selfBlock then none
      else
        let dropped := (carveDirectoryEntries page).filter (· ∉ cur.entries)
        if dropped = [] then none
        else some { selfBlock, tableId, offset := off, entries := dropped }

/-- `recover_residue`. -/
def recoverResidue (image : Slice T) : List StalePage :=
  let current := currentVersions image
  (residentMsbPages image).filterMap fun p => surfacePage current p.1 p.2

/-! ## Specification -/

theorem mem_residentMsbPages {image page : Slice T} {off : ℕ} :
    (off, page) ∈ residentMsbPages image ↔
      (∃ c, off = c * clusterSize) ∧ image.getRange off (off + refsMetadataPageSize) = some page ∧
        startsWith page msbSignature := by
  have hstep : ∀ c, residentMsbPage image c = some (off, page) ↔ off = c * clusterSize ∧
      image.getRange off (off + refsMetadataPageSize) = some page ∧
        startsWith page msbSignature := by
    intro c
    unfold residentMsbPage
    cases h : blockAt image (c * clusterSize) with
    | none =>
      apply iff_of_false (by simp [h])
      rintro ⟨rfl, hp, -⟩
      rw [blockAt_eq, hp] at h
      cases h
    | some p =>
      rw [blockAt_eq] at h
      simp only [Option.bind_eq_bind, blockAt_eq, h, Option.bind_some]
      constructor
      · intro heq
        split_ifs at heq with hs
        cases heq
        exact ⟨rfl, h, hs⟩
      · rintro ⟨rfl, hp, hs⟩
        obtain rfl := Option.some.inj (h.symm.trans hp)
        rw [if_pos hs]
  simp only [residentMsbPages, List.mem_filterMap, List.mem_range, hstep]
  constructor
  · rintro ⟨c, -, rfl, hp, hs⟩
    exact ⟨⟨c, rfl⟩, hp, hs⟩
  · rintro ⟨⟨c, rfl⟩, hp, hs⟩
    obtain ⟨⟨-, hle⟩, -⟩ := Slice.getRange_eq_some.1 hp
    refine ⟨c, ?_, rfl, hp, hs⟩
    unfold clusterSize refsMetadataPageSize at *
    omega

/-- The pages of the scan differ in their offsets. -/
theorem residentMsbPages_inj {image : Slice T} {p q : ℕ × Slice T}
    (hp : p ∈ residentMsbPages image) (hq : q ∈ residentMsbPages image) (hoff : p.1 = q.1) :
    p = q := by
  obtain ⟨-, hpPage, -⟩ := mem_residentMsbPages.1 hp
  obtain ⟨-, hqPage, -⟩ := mem_residentMsbPages.1 hq
  rw [hoff, hqPage] at hpPage
  exact Prod.ext hoff (Option.some.inj hpPage).symm

/-- The self-recorded block number of a page. -/
def selfBlockOf (p : ℕ × Slice T) : ℕ := leU64 p.2 selfBlockOffset

/-- The resident pages of the root directory table, by ascending offset. -/
def rootTablePages (image : Slice T) : List (ℕ × Slice T) :=
  (residentMsbPages image).filter fun p => leU64 p.2 tableIdOffset = refsRootDirectoryTableId

/-- The current version: the first root-table page with the highest self-block. -/
def currentPage (image : Slice T) : Option (ℕ × Slice T) :=
  (rootTablePages image).argmax selfBlockOf

/-- What pass 1 has recorded once `p` is the current page. -/
def CurrentVersion.ofPage (p : ℕ × Slice T) : CurrentVersion where
  tableId := refsRootDirectoryTableId
  selfBlock := selfBlockOf p
  entries := carveDirectoryEntries p.2

/-- The names of page `p` that page `k` does not hold. -/
def droppedNames (k p : ℕ × Slice T) : List String :=
  (carveDirectoryEntries p.2).filter (· ∉ carveDirectoryEntries k.2)

/-- The residue of root-table page `p` when `k` is the current version. -/
def stalePage (k p : ℕ × Slice T) : Option StalePage :=
  if selfBlockOf k ≤ selfBlockOf p ∨ droppedNames k p = [] then none
  else some {
    selfBlock := selfBlockOf p
    tableId := refsRootDirectoryTableId
    offset := p.1
    entries := droppedNames k p }

/-- The current version once page `p` has been scanned after `k`: a strictly higher number takes
over. -/
def takeOver (k : Option (ℕ × Slice T)) (p : ℕ × Slice T) : ℕ × Slice T :=
  match k with
  | none => p
  | some k => if selfBlockOf k < selfBlockOf p then p else k

theorem argmax_snoc (ps : List (ℕ × Slice T)) (p : ℕ × Slice T) :
    (ps ++ [p]).argmax selfBlockOf = some (takeOver (ps.argmax selfBlockOf) p) := by
  rw [List.argmax_concat]
  cases ps.argmax selfBlockOf with
  | none =>
    rfl
  | some k =>
    exact (apply_ite some ..).symm

/-- The step of pass 1 at a root-table page. -/
theorem recordPage_of_rootTable (k : Option (ℕ × Slice T)) {p : ℕ × Slice T}
    (ht : leU64 p.2 tableIdOffset = refsRootDirectoryTableId) :
    recordPage (k.map .ofPage).toList p.2 = [.ofPage (takeOver k p)] := by
  unfold recordPage
  simp only [ht, ne_eq, not_true_eq_false, if_false]
  cases k with
  | none =>
    rfl
  | some k =>
    change recordVersion refsRootDirectoryTableId (selfBlockOf p) p.2 [.ofPage k] = _
    unfold recordVersion takeOver
    by_cases hlt : selfBlockOf k < selfBlockOf p
    · simp [CurrentVersion.ofPage, hlt]
    · simp [CurrentVersion.ofPage, hlt]

/-- Pass 1 over any pages keeps the first one of the table with the highest number. -/
theorem foldl_recordPage (ps : List (ℕ × Slice T)) :
    ps.foldl (fun current p => recordPage current p.2) [] =
      (((ps.filter fun p => leU64 p.2 tableIdOffset = refsRootDirectoryTableId).argmax
        selfBlockOf).map .ofPage).toList := by
  induction ps using List.reverseRecOn with
  | nil => rfl
  | append_singleton ps p ih =>
    rw [List.foldl_append, ih, List.foldl_cons, List.foldl_nil, List.filter_append]
    by_cases ht : leU64 p.2 tableIdOffset = refsRootDirectoryTableId
    · rw [recordPage_of_rootTable _ ht, List.filter_cons_of_pos (by simpa using ht),
        List.filter_nil, argmax_snoc]
      rfl
    · rw [recordPage, if_pos ht, List.filter_cons_of_neg (by simpa using ht), List.filter_nil,
        List.append_nil]

/-- **Pass 1** keeps the first page with the highest number. -/
theorem currentVersions_eq (image : Slice T) :
    currentVersions image = ((currentPage image).map .ofPage).toList :=
  foldl_recordPage (residentMsbPages image)

/-- Pass 2 finds the current version of the root directory table. -/
theorem find?_ofPage (k : ℕ × Slice T) :
    [CurrentVersion.ofPage k].find? (·.tableId = refsRootDirectoryTableId) = some (.ofPage k) :=
  List.find?_cons_of_pos (by simp [CurrentVersion.ofPage])

/-- **Pass 2** at a page, given the current version. -/
theorem surfacePage_eq (k p : ℕ × Slice T) :
    surfacePage [.ofPage k] p.1 p.2 =
      if leU64 p.2 tableIdOffset = refsRootDirectoryTableId then stalePage k p else none := by
  unfold surfacePage stalePage
  by_cases ht : leU64 p.2 tableIdOffset = refsRootDirectoryTableId
  · have hpage : leU64 p.2 selfBlockOffset = selfBlockOf p := rfl
    simp only [ht, ne_eq, not_true_eq_false, if_false, if_true, find?_ofPage, hpage]
    by_cases hle : selfBlockOf k ≤ selfBlockOf p
    · simp [CurrentVersion.ofPage, hle]
    · simp only [CurrentVersion.ofPage, hle, false_or, if_false]
      rfl
  · simp [ht]

/-- **What the carver returns**: nothing when there is no root-table page, else the residue of each
root-table page against the current one, by ascending offset. -/
theorem recoverResidue_eq (image : Slice T) :
    recoverResidue image =
      match currentPage image with
      | none => []
      | some k => (rootTablePages image).filterMap (stalePage k) := by
  unfold recoverResidue
  simp only [currentVersions_eq]
  cases hk : currentPage image with
  | none =>
    have hnil : rootTablePages image = [] := List.argmax_eq_none.1 hk
    refine List.filterMap_eq_nil_iff.2 fun p hp => ?_
    have ht : ¬leU64 p.2 tableIdOffset = refsRootDirectoryTableId := by
      simpa using List.filter_eq_nil_iff.1 hnil p hp
    rw [surfacePage, if_pos ht]
  | some k =>
    simp only [rootTablePages, List.filterMap_filter]
    refine List.filterMap_congr fun p _ => ?_
    simpa using surfacePage_eq k p

theorem stalePage_eq_some {k p : ℕ × Slice T} {s : StalePage} :
    stalePage k p = some s ↔ selfBlockOf p < selfBlockOf k ∧ droppedNames k p ≠ [] ∧
      s = ⟨selfBlockOf p, refsRootDirectoryTableId, p.1, droppedNames k p⟩ := by
  unfold stalePage
  split_ifs with h
  · apply iff_of_false (by simp)
    rintro ⟨hlt, hne, -⟩
    exact h.elim (fun hle => absurd hlt (by omega)) hne
  · rw [not_or, not_le] at h
    simp [h, eq_comm]

/-- A page is surfaced exactly when it is numbered below the current one and drops a name. -/
theorem mem_recoverResidue {image : Slice T} {s : StalePage} :
    s ∈ recoverResidue image ↔
      ∃ k p, currentPage image = some k ∧ p ∈ rootTablePages image ∧
        selfBlockOf p < selfBlockOf k ∧ droppedNames k p ≠ [] ∧
        s = ⟨selfBlockOf p, refsRootDirectoryTableId, p.1, droppedNames k p⟩ := by
  rw [recoverResidue_eq]
  cases currentPage image with
  | none =>
    simp
  | some k =>
    simp [stalePage_eq_some]

theorem mem_droppedNames {k p : ℕ × Slice T} {name : String} :
    name ∈ droppedNames k p ↔
      name ∈ carveDirectoryEntries p.2 ∧ name ∉ carveDirectoryEntries k.2 := by
  simp [droppedNames]

theorem mem_rootTablePages {image page : Slice T} {off : ℕ} :
    (off, page) ∈ rootTablePages image ↔ (off, page) ∈ residentMsbPages image ∧
      leU64 page tableIdOffset = refsRootDirectoryTableId := by
  simp [rootTablePages]

theorem rootTablePages_inj {image : Slice T} {p q : ℕ × Slice T} (hp : p ∈ rootTablePages image)
    (hq : q ∈ rootTablePages image) (hoff : p.1 = q.1) : p = q :=
  residentMsbPages_inj (mem_rootTablePages.1 hp).1 (mem_rootTablePages.1 hq).1 hoff

end RefsForensic.Forensic
