import RefsForensic.Core.Directory
import RefsForensic.Search.DepthFirst

/-!
# The walk as a graph search

The blocks of an image form a graph: a block is readable when it resolves and its page parses, and
its children are the block numbers in the rows of a branch node. The descent of `directory.rs` is
the budgeted depth-first search of that graph which also lists the entries of every leaf it enters
(`descend_eq_dfs`), so what a walk returns is read off the blocks it enters
(`walkDirectory_eq_ok`, `walkDirectory_eq_error`).
-/

namespace RefsForensic

open Rust

variable {T : Target}

/-! ## The block graph -/

/-- The child block a row of a branch node names, if its value has 8 bytes. -/
def childOfRow (row : MinstoreRow T) : Option ℕ := (row.value.getRange 0 8).map (leU64 · 0)

/-- The child blocks of a node: those of its rows, in row order, when it is a branch. -/
def childBlocks (node : MinstorePage T) : List ℕ :=
  if node.isBranch then node.rows.filterMap childOfRow else []

/-- The entries of a node: those of its `0x30` rows, in row order, when it is a leaf. -/
def nodeEntries (node : MinstorePage T) : List DirEntry :=
  if node.isBranch then [] else node.rows.filterMap entryOfRow

/-- The parsed page of a block under a resolver. -/
def nodeUnder (image : Slice T) (resolver : ContainerResolver) (block : ℕ) :
    Except RefsError (MinstorePage T) :=
  (readPage image resolver block).bind MinstorePage.parse

/-- The parsed page of a block, or the error that keeps it from being read. -/
def nodeAt (image : Slice T) (block : ℕ) : Except RefsError (MinstorePage T) :=
  nodeUnder image (walkResolver image) block

/-- The block graph of an image. -/
def blockGraph (image : Slice T) (block : ℕ) : Except RefsError (List ℕ) :=
  (nodeAt image block).map childBlocks

/-- The entries of a block that is a leaf; a branch has none. -/
def leafEntries (image : Slice T) (block : ℕ) : List DirEntry :=
  match nodeAt image block with
  | .ok node => nodeEntries node
  | .error _ => []

theorem blockGraph_eq_ok {image : Slice T} {block : ℕ} {cs : List ℕ} :
    blockGraph image block = .ok cs ↔
      ∃ node, nodeAt image block = .ok node ∧ childBlocks node = cs :=
  map_eq_ok

theorem blockGraph_eq_error {image : Slice T} {block : ℕ} {e : RefsError} :
    blockGraph image block = .error e ↔ nodeAt image block = .error e :=
  map_eq_error

theorem readable_iff {image : Slice T} {block : ℕ} :
    Search.Readable (blockGraph image) block ↔ ∃ node, nodeAt image block = .ok node := by
  unfold Search.Readable
  simp [blockGraph_eq_ok]

/-- `c` is a child of `b`: a row of the branch page of `b` names it in its first 8 value bytes. -/
theorem child_iff {image : Slice T} {b c : ℕ} :
    Search.Child (blockGraph image) b c ↔
      ∃ node, nodeAt image b = .ok node ∧ node.isBranch = true ∧
        ∃ row ∈ node.rows, ∃ v, row.value.getRange 0 8 = some v ∧ leU64 v 0 = c := by
  constructor
  · rintro ⟨cs, hcs, hc⟩
    obtain ⟨node, hnode, rfl⟩ := blockGraph_eq_ok.1 hcs
    unfold childBlocks at hc
    split_ifs at hc with hb
    · obtain ⟨row, hrow, hr⟩ := List.mem_filterMap.1 hc
      obtain ⟨v, hv, rfl⟩ := Option.map_eq_some_iff.1 hr
      exact ⟨node, hnode, hb, row, hrow, v, hv, rfl⟩
    · simp at hc
  · rintro ⟨node, hnode, hb, row, hrow, v, hv, rfl⟩
    refine ⟨childBlocks node, blockGraph_eq_ok.2 ⟨node, hnode, rfl⟩, ?_⟩
    rw [childBlocks, if_pos hb]
    exact List.mem_filterMap.2 ⟨row, hrow, by rw [childOfRow, hv, Option.map_some]⟩

theorem mem_leafEntries {image : Slice T} {b : ℕ} {e : DirEntry} :
    e ∈ leafEntries image b ↔
      ∃ node, nodeAt image b = .ok node ∧ node.isBranch = false ∧
        ∃ row ∈ node.rows, entryOfRow row = some e := by
  unfold leafEntries
  cases h : nodeAt image b with
  | error err =>
    simp
  | ok node =>
    unfold nodeEntries
    cases hb : node.isBranch with
    | false =>
      simp [hb]
    | true =>
      simp [hb]

/-! ## The descent is the search -/

/-- The accumulators once the blocks `vis` have been entered. -/
def Descent.ofVisited (image : Slice T) (vis : List ℕ) : Descent where
  visited := vis
  out := vis.flatMap (leafEntries image)

theorem Descent.ofVisited_snoc (image : Slice T) (vis : List ℕ) (block : ℕ) :
    Descent.ofVisited image (vis ++ [block]) =
      { visited := vis ++ [block]
        out := vis.flatMap (leafEntries image) ++ leafEntries image block } := by
  simp [Descent.ofVisited]

/-- The row loop is the agenda of child blocks. -/
theorem descendRows_eq_visitAll (image : Slice T)
    {visit : ℕ → Descent → Descent × Except RefsError Unit}
    {visit' : ℕ → List ℕ → List ℕ × Except RefsError Unit}
    (h : ∀ c vis, visit c (.ofVisited image vis) =
      (.ofVisited image (visit' c vis).1, (visit' c vis).2)) (rows : List (MinstoreRow T))
    (vis : List ℕ) :
    descendRows visit rows (.ofVisited image vis) =
      (.ofVisited image (Search.visitAll visit' (rows.filterMap childOfRow) vis).1,
        (Search.visitAll visit' (rows.filterMap childOfRow) vis).2) := by
  induction rows generalizing vis with
  | nil => rfl
  | cons row rows ih =>
    unfold descendRows
    cases hrow : row.value.getRange 0 8 with
    | none =>
      rw [List.filterMap_cons_none (by rw [childOfRow, hrow, Option.map_none])]
      exact ih vis
    | some childBytes =>
      rw [List.filterMap_cons_some (b := leU64 childBytes 0)
        (by rw [childOfRow, hrow, Option.map_some])]
      simp only [Search.visitAll, h]
      rcases visit' (leU64 childBytes 0) vis with ⟨vis₁, e | u⟩
      · rfl
      · exact ih vis₁

/-- What entering a block does, by the parsed page of the block. -/
theorem descend_enter {image : Slice T} {resolver : ContainerResolver} {levels block : ℕ}
    {s : Descent} (hcap : ¬maxVisitedPages ≤ s.visited.length) (hmem : block ∉ s.visited) :
    descend image resolver (levels + 1) block s =
      match nodeUnder image resolver block with
      | .error e => ({ s with visited := s.visited ++ [block] }, .error e)
      | .ok node =>
        if node.isBranch then
          descendRows (descend image resolver levels) node.rows
            { s with visited := s.visited ++ [block] }
        else
          ({ visited := s.visited ++ [block], out := collectEntries node s.out }, .ok ()) := by
  rw [descend, if_neg hcap, if_neg hmem, nodeUnder]
  cases readPage image resolver block with
  | error e =>
    rfl
  | ok page =>
    cases hp : MinstorePage.parse page with
    | error e =>
      simp only [Except.bind, hp]
    | ok node =>
      simp only [Except.bind, hp]

/-- **The descent is the budgeted search of the block graph**, with the entries of the leaves it
enters listed on the way. -/
theorem descend_eq_dfs (image : Slice T) (levels block : ℕ) (vis : List ℕ) :
    descend image (walkResolver image) levels block (.ofVisited image vis) =
      (.ofVisited image (Search.dfs (blockGraph image) maxVisitedPages levels block vis).1,
        (Search.dfs (blockGraph image) maxVisitedPages levels block vis).2) := by
  induction levels generalizing block vis with
  | zero => rfl
  | succ levels ih =>
    by_cases hcap : maxVisitedPages ≤ vis.length
    · rw [descend, if_pos (show maxVisitedPages ≤ (Descent.ofVisited image vis).visited.length
        from hcap), Search.dfs, if_pos hcap]
    by_cases hmem : block ∈ vis
    · rw [descend, if_neg (show ¬maxVisitedPages ≤ (Descent.ofVisited image vis).visited.length
        from hcap), if_pos (show block ∈ (Descent.ofVisited image vis).visited from hmem),
        Search.dfs, if_neg hcap, if_pos hmem]
    rw [descend_enter (s := Descent.ofVisited image vis) hcap hmem, Search.dfs, if_neg hcap,
      if_neg hmem]
    change (match nodeAt image block with | .error e => _ | .ok node => _) = _
    cases hnode : nodeAt image block with
    | error e =>
      simp only [blockGraph_eq_error.2 hnode, Descent.ofVisited_snoc, leafEntries, hnode,
        List.append_nil]
      rfl
    | ok node =>
      have hleaf : leafEntries image block = nodeEntries node := by rw [leafEntries, hnode]
      rw [blockGraph_eq_ok.2 ⟨node, hnode, rfl⟩]
      cases hb : node.isBranch with
      | false =>
        -- a leaf: its entries are listed, and it has no children
        simp [hb, childBlocks, nodeEntries, Search.visitAll, hleaf, collectEntries,
          Descent.ofVisited]
      | true =>
        -- a branch: nothing is listed, and the rows are the agenda
        have hrec := descendRows_eq_visitAll image ih node.rows (vis ++ [block])
        rw [Descent.ofVisited_snoc, hleaf, nodeEntries, if_pos hb, List.append_nil] at hrec
        simp only [childBlocks, hb, if_true]
        exact hrec

/-- The search behind a walk. -/
def walkSearch (image : Slice T) (rootBlock : ℕ) : List ℕ × Except RefsError Unit :=
  Search.dfs (blockGraph image) maxVisitedPages maxDescentDepth rootBlock []

theorem walk_eq (image : Slice T) (rootBlock : ℕ) :
    walk image rootBlock =
      (.ofVisited image (walkSearch image rootBlock).1, (walkSearch image rootBlock).2) :=
  descend_eq_dfs image maxDescentDepth rootBlock []

theorem walkDirectory_eq_ok {image : Slice T} {rootBlock : ℕ} {out : List DirEntry} :
    walkDirectory image rootBlock = .ok out ↔
      ∃ vis, walkSearch image rootBlock = (vis, .ok ()) ∧
        out = vis.flatMap (leafEntries image) := by
  rw [walkDirectory, walk_eq]
  rcases h : walkSearch image rootBlock with ⟨vis, e | u⟩
  · simp
  · simp [Descent.ofVisited, eq_comm]

theorem walkDirectory_eq_error {image : Slice T} {rootBlock : ℕ} {e : RefsError} :
    walkDirectory image rootBlock = .error e ↔
      ∃ vis, walkSearch image rootBlock = (vis, .error e) := by
  rw [walkDirectory, walk_eq]
  rcases h : walkSearch image rootBlock with ⟨vis, e | u⟩ <;> simp

end RefsForensic
