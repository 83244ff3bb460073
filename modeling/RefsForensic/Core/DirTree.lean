import RefsForensic.Core.Encode
import RefsForensic.Core.Format
import RefsForensic.Core.Listing

/-!
# Directory trees

A directory as an abstract tree: leaves of directory records, branches of rows that name child
pages, and pages that are not resident. `DirTree.Stored` says that an image holds the tree, page by
page and byte by byte. The walk from the root of a stored tree returns the entries of its leaves in
order, or names the first page in preorder that is not resident (`walkDirectory_stored`).
-/

namespace RefsForensic

open Rust

variable {T : Target}

/-! ## Stored pages -/

/-- Block `block` resolves to a page on which the rows are written, each a key and a value, and its
node is a branch or not as told. -/
structure PageStored (image : Slice T) (block : ℕ) (isBranch : Bool)
    (rows : List (List UInt8 × List UInt8)) (page : Slice T) (nodeHeader recordOffsets : ℕ)
    (records : List (Placement × List UInt8 × List UInt8)) : Prop where
  resolves : ResolvesTo image block page
  written : Written page nodeHeader recordOffsets records
  rows_eq : records.map (·.2) = rows
  nodeType : u8At page (nodeHeader + 13) &&& 0x01 ≠ 0 ↔ isBranch = true

/-- A stored page under block `block` has these rows. -/
def RowsStored (image : Slice T) (block : ℕ) (isBranch : Bool)
    (rows : List (List UInt8 × List UInt8)) : Prop :=
  ∃ page nodeHeader recordOffsets records,
    PageStored image block isBranch rows page nodeHeader recordOffsets records

theorem RowsStored.exists_node {image : Slice T} {block : ℕ} {isBranch : Bool}
    {rows : List (List UInt8 × List UInt8)} (h : RowsStored image block isBranch rows) :
    ∃ node, nodeAt image block = .ok node ∧ node.isBranch = isBranch ∧
      node.rows.map MinstoreRow.keyValue = rows := by
  obtain ⟨page, nodeHeader, recordOffsets, records, hpage⟩ := h
  obtain ⟨node, hnode, hrows⟩ := hpage.written.map_keyValue
  refine ⟨node, nodeAt_eq_ok.2 ⟨page, hpage.resolves, hnode⟩, ?_, ?_⟩
  · have hspec := MinstorePage.parse_spec hnode
    have hmax := T.isizeMax_lt_usizeMax
    have hlen := page.len_le
    have hle := hpage.written.nodeHeader_le
    have hat : MinstorePage.headerAt page = nodeHeader := by
      have hnodeAt := hpage.written.node
      rw [MinstorePage.headerAt, saturatingAdd]
      unfold PageRow.node at hnodeAt
      omega
    have htype := hpage.nodeType
    rw [Bool.eq_iff_iff, ← htype, MinstorePage.isBranch, hspec.flags, hat]
    simp
  · rw [hrows, hpage.rows_eq]

/-! ## Trees -/

mutual

/-- A directory B+-tree. -/
inductive DirTree
  /-- A leaf page with its records. -/
  | leaf (block : UInt64) (records : List DirRecord)
  /-- A branch page with its rows. -/
  | branch (block : UInt64) (rows : DirForest)
  /-- A page that is not resident. -/
  | absent (block : UInt64)

/-- The rows of a branch page. -/
inductive DirForest
  | nil
  /-- A separator with the subtree of its child and what follows the child's number. -/
  | child (key rest : List UInt8) (subtree : DirTree) (rows : DirForest)
  /-- A row too short to name a child. -/
  | short (key value : List UInt8) (h : value.length < 8) (rows : DirForest)

end

/-- The block of the root page. -/
def DirTree.block : DirTree → ℕ
  | .leaf block _ => block.toNat
  | .branch block _ => block.toNat
  | .absent block => block.toNat

/-- The children of a branch page. -/
def DirForest.children : DirForest → List ℕ
  | .nil => []
  | .child _ _ t rows => t.block :: rows.children
  | .short _ _ _ rows => rows.children

/-- The rows of a branch page as keys and values. -/
def DirForest.keyValues : DirForest → List (List UInt8 × List UInt8)
  | .nil => []
  | .child key rest t rows => (key, toLeBytes 8 t.block ++ rest) :: rows.keyValues
  | .short key value _ rows => (key, value) :: rows.keyValues

mutual

/-- The entries of the leaves, in order. -/
def DirTree.entries : DirTree → List DirEntry
  | .leaf _ records => records.filterMap DirRecord.dirEntry
  | .branch _ rows => rows.entries
  | .absent _ => []

def DirForest.entries : DirForest → List DirEntry
  | .nil => []
  | .child _ _ t rows => t.entries ++ rows.entries
  | .short _ _ _ rows => rows.entries

end

mutual

/-- The pages that are not resident, in preorder. -/
def DirTree.missing : DirTree → List ℕ
  | .leaf _ _ => []
  | .branch _ rows => rows.missing
  | .absent block => [block.toNat]

def DirForest.missing : DirForest → List ℕ
  | .nil => []
  | .child _ _ t rows => t.missing ++ rows.missing
  | .short _ _ _ rows => rows.missing

end

mutual

/-- The pages in preorder, up to the first that is not resident. -/
def DirTree.met : DirTree → List ℕ
  | .leaf block _ => [block.toNat]
  | .branch block rows => block.toNat :: rows.met
  | .absent block => [block.toNat]

def DirForest.met : DirForest → List ℕ
  | .nil => []
  | .child _ _ t rows => if t.missing = [] then t.met ++ rows.met else t.met
  | .short _ _ _ rows => rows.met

end

mutual

/-- The levels of a tree. -/
def DirTree.height : DirTree → ℕ
  | .leaf _ _ => 1
  | .branch _ rows => rows.height + 1
  | .absent _ => 1

def DirForest.height : DirForest → ℕ
  | .nil => 0
  | .child _ _ t rows => max t.height rows.height
  | .short _ _ _ rows => rows.height

end

mutual

/-- The image holds the pages of the tree, and none for its absent blocks. -/
def DirTree.Stored (image : Slice T) : DirTree → Prop
  | .leaf block records =>
    RowsStored image block.toNat false (records.map fun r => (r.key, r.value))
  | .branch block rows => RowsStored image block.toNat true rows.keyValues ∧ rows.Stored image
  | .absent block => ∀ page, ¬ResolvesTo image block.toNat page

def DirForest.Stored (image : Slice T) : DirForest → Prop
  | .nil => True
  | .child _ _ t rows => t.Stored image ∧ rows.Stored image
  | .short _ _ _ rows => rows.Stored image

end

/-- What a walk returns for a tree: its entries, or the first page that is not resident. -/
def DirTree.listing (t : DirTree) : Except RefsError (List DirEntry) :=
  match t.missing with
  | [] => .ok t.entries
  | block :: _ => .error (.unresolvedVirtualBlock block)

/-! ## The pages of a stored tree -/

theorem DirTree.block_lt (t : DirTree) : t.block < 2 ^ 64 := by
  cases t with
  | leaf block _ => exact block.toNat_lt
  | branch block _ => exact block.toNat_lt
  | absent block => exact block.toNat_lt

theorem childOfRow_eq_some {row : MinstoreRow T} {block : ℕ} {rest : List UInt8}
    (h : row.value.toList = toLeBytes 8 block ++ rest) (hblock : block < 2 ^ 64) :
    childOfRow row = some block := by
  have hholds := h ▸ row.value.holds_toList
  rw [Slice.holds_append] at hholds
  obtain ⟨s, hs, hbytes⟩ := hholds.1.exists_getRange
  rw [length_toLeBytes, Nat.zero_add] at hs
  rw [childOfRow, hs, Option.map_some, Option.some.injEq]
  exact leField_of_holds (hbytes ▸ s.holds_toList) hblock

theorem childOfRow_eq_none {row : MinstoreRow T} (h : row.value.toList.length < 8) :
    childOfRow row = none := by
  rw [Slice.length_toList] at h
  rw [childOfRow, Slice.getRange_of_not_le (by omega), Option.map_none]

/-- The children of a branch page are those of its rows. -/
theorem filterMap_childOfRow {forest : DirForest} {rows : List (MinstoreRow T)}
    (h : rows.map MinstoreRow.keyValue = forest.keyValues) :
    rows.filterMap childOfRow = forest.children := by
  induction rows generalizing forest with
  | nil =>
    cases forest with
    | nil => rfl
    | child key rest t forest => cases h
    | short key value hv forest => cases h
  | cons row rows ih =>
    cases forest with
    | nil => cases h
    | child key rest t forest =>
      rw [List.map_cons, DirForest.keyValues, List.cons.injEq] at h
      obtain ⟨hrow, hrows⟩ := h
      rw [List.filterMap_cons_some (childOfRow_eq_some (Prod.mk.inj hrow).2 t.block_lt), ih hrows,
        DirForest.children]
    | short key value hv forest =>
      rw [List.map_cons, DirForest.keyValues, List.cons.injEq] at h
      obtain ⟨hrow, hrows⟩ := h
      rw [List.filterMap_cons_none (childOfRow_eq_none (by rw [(Prod.mk.inj hrow).2]; exact hv)),
        ih hrows, DirForest.children]

theorem filterMap_entryOfRow {records : List DirRecord} {rows : List (MinstoreRow T)}
    (h : rows.map MinstoreRow.keyValue = records.map fun r => (r.key, r.value)) :
    rows.filterMap entryOfRow = records.filterMap DirRecord.dirEntry := by
  refine filterMap_rows h fun row r hrow => ?_
  obtain ⟨hkey, hvalue⟩ := Prod.mk.inj hrow
  exact entryOfRow_eq hkey hvalue

variable {image : Slice T}

theorem blockGraph_leaf {block : ℕ} {records : List DirRecord}
    (h : RowsStored image block false (records.map fun r => (r.key, r.value))) :
    blockGraph image block = .ok [] ∧
      leafEntries image block = records.filterMap DirRecord.dirEntry := by
  obtain ⟨node, hnode, hleaf, hrows⟩ := h.exists_node
  constructor
  · exact blockGraph_eq_ok.2 ⟨node, hnode, by rw [childBlocks, hleaf]; rfl⟩
  · rw [leafEntries, hnode]
    simp only [nodeEntries, hleaf, Bool.false_eq_true, if_false]
    exact filterMap_entryOfRow hrows

theorem blockGraph_branch {block : ℕ} {rows : DirForest}
    (h : RowsStored image block true rows.keyValues) :
    blockGraph image block = .ok rows.children ∧ leafEntries image block = [] := by
  obtain ⟨node, hnode, hbranch, hrows⟩ := h.exists_node
  constructor
  · refine blockGraph_eq_ok.2 ⟨node, hnode, ?_⟩
    rw [childBlocks, if_pos hbranch]
    exact filterMap_childOfRow hrows
  · rw [leafEntries, hnode]
    simp only [nodeEntries, hbranch, if_true]

theorem blockGraph_absent {block : ℕ} (h : ∀ page, ¬ResolvesTo image block page) :
    blockGraph image block = .error (.unresolvedVirtualBlock block) := by
  rw [blockGraph_eq_error]
  cases hnode : nodeAt image block with
  | ok node =>
    obtain ⟨page, hpage, -⟩ := nodeAt_eq_ok.1 hnode
    exact absurd hpage (h page)
  | error e =>
    rcases nodeAt_eq_error hnode with ⟨rfl, -⟩ | ⟨-, page, hpage, -⟩
    · rfl
    · exact absurd hpage (h page)

/-! ## The walk of a stored tree -/

/-- How going through a tree ends, by the pages that are not resident. -/
def outcome : List ℕ → Except RefsError Unit
  | [] => .ok ()
  | block :: _ => .error (.unresolvedVirtualBlock block)

mutual

/-- A stored tree is traversed in preorder up to its first absent page. -/
theorem DirTree.traversal (t : DirTree) (h : t.Stored image) :
    Search.Traversal (blockGraph image) t.height [t.block] t.met (outcome t.missing) := by
  cases t with
  | leaf block records =>
    rw [DirTree.Stored] at h
    rw [DirTree.height, DirTree.met, DirTree.missing, ← List.append_nil [block.toNat]]
    exact .cons (blockGraph_leaf h).1 (.nil 0) (.nil 1)
  | branch block rows =>
    rw [DirTree.Stored] at h
    have hrows := DirForest.traversal rows h.2
    rw [DirTree.height, DirTree.met, DirTree.missing]
    cases hmissing : rows.missing with
    | nil =>
      rw [hmissing] at hrows
      rw [← List.append_nil rows.met]
      exact .cons (blockGraph_branch h.1).1 hrows (.nil _)
    | cons block' missing =>
      rw [hmissing] at hrows
      exact .stop (blockGraph_branch h.1).1 hrows
  | absent block =>
    rw [DirTree.Stored] at h
    rw [DirTree.height, DirTree.met, DirTree.missing]
    exact .unread (blockGraph_absent h)

theorem DirForest.traversal (rows : DirForest) (h : rows.Stored image) :
    Search.Traversal (blockGraph image) rows.height rows.children rows.met
      (outcome rows.missing) := by
  cases rows with
  | nil =>
    rw [DirForest.height, DirForest.children, DirForest.met, DirForest.missing]
    exact .nil 0
  | child key rest t rows =>
    rw [DirForest.Stored] at h
    have ht := (DirTree.traversal t h.1).mono (le_max_left _ rows.height)
    have hrows := (DirForest.traversal rows h.2).mono (le_max_right t.height _)
    rw [DirForest.height, DirForest.children, DirForest.met, DirForest.missing,
      ← List.singleton_append]
    cases hmissing : t.missing with
    | nil =>
      rw [hmissing] at ht
      rw [if_pos rfl]
      exact ht.append hrows
    | cons block missing =>
      rw [hmissing] at ht
      rw [if_neg (by simp)]
      exact ht.append_error
  | short key value hv rows =>
    rw [DirForest.Stored] at h
    rw [DirForest.height, DirForest.children, DirForest.met, DirForest.missing]
    exact DirForest.traversal rows h

end

mutual

/-- The leaves of a resident tree hold its entries. -/
theorem DirTree.flatMap_leafEntries (t : DirTree) (h : t.Stored image) (hall : t.missing = []) :
    t.met.flatMap (leafEntries image) = t.entries := by
  cases t with
  | leaf block records =>
    rw [DirTree.Stored] at h
    rw [DirTree.met, DirTree.entries, List.flatMap_singleton, (blockGraph_leaf h).2]
  | branch block rows =>
    rw [DirTree.Stored] at h
    rw [DirTree.missing] at hall
    rw [DirTree.met, DirTree.entries, List.flatMap_cons, (blockGraph_branch h.1).2,
      List.nil_append]
    exact DirForest.flatMap_leafEntries rows h.2 hall
  | absent block =>
    rw [DirTree.missing] at hall
    cases hall

theorem DirForest.flatMap_leafEntries (rows : DirForest) (h : rows.Stored image)
    (hall : rows.missing = []) : rows.met.flatMap (leafEntries image) = rows.entries := by
  cases rows with
  | nil => rfl
  | child key rest t rows =>
    rw [DirForest.Stored] at h
    rw [DirForest.missing, List.append_eq_nil_iff] at hall
    rw [DirForest.met, DirForest.entries, if_pos hall.1, List.flatMap_append,
      DirTree.flatMap_leafEntries t h.1 hall.1, DirForest.flatMap_leafEntries rows h.2 hall.2]
  | short key value hv rows =>
    rw [DirForest.Stored] at h
    rw [DirForest.missing] at hall
    exact DirForest.flatMap_leafEntries rows h hall

end

/-- The walk gets through the tree: no page is met twice, and pages and levels are within the
budgets. -/
structure DirTree.WithinBudgets (t : DirTree) : Prop where
  nodup : t.met.Nodup
  pages : t.met.length ≤ maxVisitedPages
  levels : t.height ≤ maxDescentDepth

/-- The search from the root of a stored tree within the budgets enters the pages it meets. -/
theorem walkSearch_stored {t : DirTree} (h : t.Stored image) (hbudgets : t.WithinBudgets) :
    walkSearch image t.block = (t.met, outcome t.missing) := by
  have hvisit : Search.visitAll (Search.dfs (blockGraph image) maxVisitedPages maxDescentDepth)
      [t.block] [] = ([] ++ t.met, outcome t.missing) :=
    Search.dfs_traversal ((t.traversal h).mono hbudgets.levels) (by simpa using hbudgets.nodup)
      (by simpa using hbudgets.pages)
  rw [Search.visitAll] at hvisit
  unfold walkSearch
  rcases hdfs : Search.dfs (blockGraph image) maxVisitedPages maxDescentDepth t.block []
    with ⟨vis, e | u⟩
  · rw [hdfs] at hvisit
    exact hvisit
  · rw [hdfs] at hvisit
    exact hvisit

/-- **The directory round trip**: the walk from the root of a stored tree within the budgets returns
the entries of its leaves in order, or fails with the first page in preorder that is not
resident. -/
theorem walkDirectory_stored {t : DirTree} (h : t.Stored image) (hbudgets : t.WithinBudgets) :
    walkDirectory image t.block = t.listing := by
  have hsearch := walkSearch_stored h hbudgets
  unfold DirTree.listing
  cases hmissing : t.missing with
  | nil =>
    rw [hmissing] at hsearch
    exact walkDirectory_eq_ok.2 ⟨t.met, hsearch, (t.flatMap_leafEntries h hmissing).symm⟩
  | cons block missing =>
    rw [hmissing] at hsearch
    exact walkDirectory_eq_error.2 ⟨t.met, hsearch⟩

end RefsForensic
