import RefsForensic.Core.Resolution
import RefsForensic.Core.Walk

/-!
# What a directory walk returns

On every image a walk that succeeds lists the leaves among a duplicate-free run of blocks, each
read from a page that answers it, and a walk that fails fails at the block its error is about
(`walkDirectory_sound`). Within the budgets of the descent the listing is exact
(`walkDirectory_exact`). Beyond them the cut-offs are silent: the listing is complete exactly when
no child of an entered block is left out (`listing_complete_iff`), and `deepChain` is an image
whose only entry is lost at the sixty-fifth level.
-/

namespace RefsForensic

open Rust

variable {T : Target}

/-! ## Reading a block -/

theorem nodeAt_eq_ok {image : Slice T} {block : ℕ} {node : MinstorePage T} :
    nodeAt image block = .ok node ↔
      ∃ page, ResolvesTo image block page ∧ MinstorePage.parse page = .ok node := by
  unfold nodeAt nodeUnder
  cases h : readPage image (walkResolver image) block with
  | error e =>
    obtain ⟨hnone, -⟩ := readPage_eq_error.1 h
    apply iff_of_false (by simp [Except.bind])
    rintro ⟨page, ⟨off, hoff, -⟩, -⟩
    cases hnone.symm.trans hoff
  | ok page =>
    obtain ⟨off, hoff, hp⟩ := readPage_eq_ok h
    constructor
    · exact fun hn => ⟨page, ⟨off, hoff, hp⟩, hn⟩
    · rintro ⟨page', hpage', hn⟩
      obtain rfl := ResolvesTo.page_eq ⟨off, hoff, hp⟩ hpage'
      exact hn

/-- A block cannot be read in two ways: it does not resolve, or the node header of its page leaves
the page. -/
theorem nodeAt_eq_error {image : Slice T} {block : ℕ} {e : RefsError}
    (h : nodeAt image block = .error e) :
    (e = .unresolvedVirtualBlock block ∧
      resolveBlockOffset image (walkResolver image) block = none) ∨
    ((∃ need, e = .truncated "Minstore node header" need refsMetadataPageSize) ∧
      ∃ page, ResolvesTo image block page ∧ MinstorePage.parse page = .error e) := by
  unfold nodeAt nodeUnder at h
  cases hp : readPage image (walkResolver image) block with
  | error e' =>
    rw [hp] at h
    obtain rfl : e' = e := Except.error.inj h
    exact .inl ((readPage_eq_error.1 hp).symm)
  | ok page =>
    rw [hp] at h
    have hparse : MinstorePage.parse page = .error e := h
    obtain ⟨off, hoff, hans⟩ := readPage_eq_ok hp
    exact .inr ⟨⟨_, MinstorePage.parse_eq_error hans.len hparse⟩, page, ⟨off, hoff, hans⟩, hparse⟩

/-! ## Soundness on every image -/

/-- Block `b` is on a path of at most `maxDescentDepth` blocks from `root` through branch rows. -/
def ShortPath (image : Slice T) (root b : ℕ) : Prop :=
  ∃ p, Search.IsPath (blockGraph image) root b p ∧ p.length ≤ maxDescentDepth

theorem walkSearch_sound (image : Slice T) (root : ℕ) :
    Search.Ends (Search.Entered (blockGraph image) maxVisitedPages maxDescentDepth root)
      (fun vis e => ∃ b,
        Search.StoppedAt (blockGraph image) maxVisitedPages maxDescentDepth root vis e b)
      (walkSearch image root) :=
  Search.dfs_sound maxDescentDepth root

theorem walkSearch_ok {image : Slice T} {root : ℕ} {vis : List ℕ}
    (h : walkSearch image root = (vis, .ok ())) :
    Search.Entered (blockGraph image) maxVisitedPages maxDescentDepth root vis := by
  simpa [h] using (walkSearch_sound image root).ok (by rw [h])

theorem walkSearch_error {image : Slice T} {root : ℕ} {vis : List ℕ} {e : RefsError}
    (h : walkSearch image root = (vis, .error e)) :
    ∃ b, Search.StoppedAt (blockGraph image) maxVisitedPages maxDescentDepth root vis e b := by
  simpa [h] using (walkSearch_sound image root).error e (by rw [h])

/-- The last block of a path is its first, or a child of a block on a shorter one. -/
theorem ShortPath.eq_or_child {image : Slice T} {root b : ℕ} (h : ShortPath image root b) :
    b = root ∨ ∃ c, ShortPath image root c ∧ Search.Child (blockGraph image) c b := by
  obtain ⟨p, hp, hl⟩ := h
  rcases hp.eq_or_snoc with rfl | ⟨c, q, hq, rfl, hcb⟩
  · exact .inl rfl
  · refine .inr ⟨c, ⟨q, hq, ?_⟩, hcb⟩
    simp only [List.length_append, List.length_singleton] at hl
    omega

/-- A walk that succeeds lists the leaves of a duplicate-free run of blocks that answer. -/
theorem walkDirectory_ok_sound {image : Slice T} {root : ℕ} {out : List DirEntry}
    (h : walkDirectory image root = .ok out) :
    ∃ vis : List ℕ, vis.Nodup ∧ vis.length ≤ maxVisitedPages ∧
      (∀ b ∈ vis, ShortPath image root b ∧ ∃ page, ResolvesTo image b page) ∧
      out = vis.flatMap (leafEntries image) := by
  obtain ⟨vis, hvis, rfl⟩ := walkDirectory_eq_ok.1 h
  have hent := walkSearch_ok hvis
  refine ⟨vis, hent.nodup, hent.length_le, ?_, rfl⟩
  intro b hb
  obtain ⟨node, hnode⟩ := readable_iff.1 (hent.readable b hb)
  obtain ⟨page, hpage, -⟩ := nodeAt_eq_ok.1 hnode
  exact ⟨hent.path b hb, page, hpage⟩

/-- A walk that reports a block unresolved stopped at that block, which does not resolve. -/
theorem stoppedAt_of_unresolved {image : Slice T} {root b : ℕ}
    (h : walkDirectory image root = .error (.unresolvedVirtualBlock b)) :
    ∃ vis, walkSearch image root = (vis, .error (.unresolvedVirtualBlock b)) ∧
      Search.StoppedAt (blockGraph image) maxVisitedPages maxDescentDepth root vis
        (.unresolvedVirtualBlock b) b ∧
      resolveBlockOffset image (walkResolver image) b = none := by
  obtain ⟨vis, hvis⟩ := walkDirectory_eq_error.1 h
  obtain ⟨b', hstop⟩ := walkSearch_error hvis
  rcases nodeAt_eq_error (blockGraph_eq_error.1 hstop.fails) with ⟨he, hnone⟩ | ⟨⟨need, he⟩, -⟩
  · obtain rfl := RefsError.unresolvedVirtualBlock.inj he
    exact ⟨vis, hvis, hstop, hnone⟩
  · cases he

/-- A block a walk reports unresolved is the root or named by a branch page, and is not found. -/
theorem walkDirectory_unresolved_sound {image : Slice T} {root b : ℕ}
    (h : walkDirectory image root = .error (.unresolvedVirtualBlock b)) :
    (b = root ∨ ∃ c page, ShortPath image root c ∧ ResolvesTo image c page ∧
      Search.Child (blockGraph image) c b) ∧
    resolveBlockOffset image (walkResolver image) b = none := by
  obtain ⟨vis, -, hstop, hnone⟩ := stoppedAt_of_unresolved h
  refine ⟨?_, hnone⟩
  rcases ShortPath.eq_or_child hstop.path with hroot | ⟨c, hc, hcb⟩
  · exact .inl hroot
  · obtain ⟨node, hnode, -⟩ := child_iff.1 hcb
    obtain ⟨page, hpage, -⟩ := nodeAt_eq_ok.1 hnode
    exact .inr ⟨c, page, hc, hpage, hcb⟩

/-- A truncation a walk reports is that of the node header of a page that answers its block. -/
theorem walkDirectory_truncated_sound {image : Slice T} {root : ℕ} {name : String}
    {need have_ : ℕ} (h : walkDirectory image root = .error (.truncated name need have_)) :
    name = "Minstore node header" ∧ have_ = refsMetadataPageSize ∧
      ∃ b page, ShortPath image root b ∧ ResolvesTo image b page ∧
        MinstorePage.parse page = .error (.truncated name need have_) := by
  obtain ⟨vis, hvis⟩ := walkDirectory_eq_error.1 h
  obtain ⟨b, hstop⟩ := walkSearch_error hvis
  rcases nodeAt_eq_error (blockGraph_eq_error.1 hstop.fails) with ⟨he, -⟩ |
    ⟨⟨need', he⟩, page, hpage, hparse⟩
  · cases he
  · obtain ⟨rfl, rfl, rfl⟩ := RefsError.truncated.inj he
    exact ⟨rfl, rfl, b, page, hstop.path, hpage, hparse⟩

/-- **Soundness of a walk on hostile images.** -/
theorem walkDirectory_sound (image : Slice T) (root : ℕ) :
    (∀ out, walkDirectory image root = .ok out →
      ∃ vis : List ℕ, vis.Nodup ∧ vis.length ≤ maxVisitedPages ∧
        (∀ b ∈ vis, ShortPath image root b ∧ ∃ page, ResolvesTo image b page) ∧
        out = vis.flatMap (leafEntries image)) ∧
    (∀ b, walkDirectory image root = .error (.unresolvedVirtualBlock b) →
      (b = root ∨ ∃ c page, ShortPath image root c ∧ ResolvesTo image c page ∧
        Search.Child (blockGraph image) c b) ∧
      resolveBlockOffset image (walkResolver image) b = none) ∧
    (∀ name need have_, walkDirectory image root = .error (.truncated name need have_) →
      name = "Minstore node header" ∧ have_ = refsMetadataPageSize ∧
        ∃ b page, ShortPath image root b ∧ ResolvesTo image b page ∧
          MinstorePage.parse page = .error (.truncated name need have_)) ∧
    (∀ resolver b need have_,
      readPage image resolver b ≠ .error (.truncated "directory page" need have_)) := by
  refine ⟨fun _ => walkDirectory_ok_sound, fun _ => walkDirectory_unresolved_sound,
    fun _ _ _ => walkDirectory_truncated_sound, ?_⟩
  intro resolver b need have_ h
  cases (readPage_eq_error.1 h).2

/-! ## Exactness within the budgets -/

/-- **Exact listing within the budgets**: when every reachable block resolves and parses, at most
4096 blocks are reachable and no duplicate-free path from the root has more than 64 blocks, the
walk lists the leaves in first-visit order, each reachable block once. -/
theorem walkDirectory_exact (image : Slice T) (root : ℕ)
    (hresolve : ∀ b, Search.Reachable (blockGraph image) root b →
      ∃ page node, ResolvesTo image b page ∧ MinstorePage.parse page = .ok node)
    (hcount : ∀ l : List ℕ, l.Nodup → (∀ b ∈ l, Search.Reachable (blockGraph image) root b) →
      l.length ≤ maxVisitedPages)
    (hdepth : ∀ b p, Search.IsPath (blockGraph image) root b p → p.Nodup →
      p.length ≤ maxDescentDepth) :
    ∃ order : List ℕ,
      (∀ vis, Search.FirstVisits (blockGraph image) [root] [] vis ↔ vis = order) ∧
        order.Nodup ∧ (∀ b, b ∈ order ↔ Search.Reachable (blockGraph image) root b) ∧
        walkDirectory image root = .ok (order.flatMap (leafEntries image)) := by
  have hread : ∀ b, Search.Reachable (blockGraph image) root b →
      Search.Readable (blockGraph image) b := by
    intro b hr
    obtain ⟨page, node, hpage, hnode⟩ := hresolve b hr
    exact readable_iff.2 ⟨node, nodeAt_eq_ok.2 ⟨page, hpage, hnode⟩⟩
  obtain ⟨order, hsearch⟩ := Search.dfs_ok_of_readable maxVisitedPages maxDescentDepth hread
  have hfirst := Search.dfs_firstVisits ⟨hcount, hdepth⟩ hsearch
  refine ⟨order, fun vis => ⟨fun h => h.unique hfirst, fun h => h ▸ hfirst⟩,
    hfirst.nodup List.nodup_nil, hfirst.mem_iff_reachable, ?_⟩
  exact walkDirectory_eq_ok.2 ⟨order, hsearch, rfl⟩

/-! ## Completeness beyond the budgets -/

/-- The listing `out` of `root` is not truncated: every block reachable from `root` resolves and
parses, is reached by the walk, and, when it is a leaf, has all its entries in `out`. -/
structure NotTruncated (image : Slice T) (root : ℕ) (out : List DirEntry) : Prop where
  parses : ∀ b, Search.Reachable (blockGraph image) root b →
    ∃ page node, ResolvesTo image b page ∧ MinstorePage.parse page = .ok node
  reached : ∀ b, Search.Reachable (blockGraph image) root b → b ∈ (walk image root).1.visited
  listed : ∀ b page node, Search.Reachable (blockGraph image) root b → ResolvesTo image b page →
    MinstorePage.parse page = .ok node → node.isBranch = false →
    ∀ row ∈ node.rows, ∀ e, entryOfRow row = some e → e ∈ out

/-- The search of the block graph with 64 levels and room for 4096 blocks either meets a block that
cannot be read, or leaves out no child of a block it enters. -/
def BudgetsSuffice (image : Slice T) (root : ℕ) : Prop :=
  ∀ vis, Search.dfs (blockGraph image) maxVisitedPages maxDescentDepth root [] = (vis, .ok ()) →
    ∀ b ∈ vis, ∀ c, Search.Child (blockGraph image) b c → c ∈ vis

theorem BudgetsSuffice.covers {image : Slice T} {root : ℕ} {vis : List ℕ}
    (h : BudgetsSuffice image root) (hvis : walkSearch image root = (vis, .ok ())) :
    ∀ b, Search.Reachable (blockGraph image) root b → b ∈ vis := by
  have hroot : root ∈ (walkSearch image root).1 :=
    Search.root_mem_dfs (blockGraph image) (by decide) 63 root
  rw [hvis] at hroot
  exact (Search.covers_iff_closed hroot (walkSearch_ok hvis)).2 (h vis hvis)

theorem visited_of_walkSearch {image : Slice T} {root : ℕ} {vis : List ℕ}
    {r : Except RefsError Unit} (h : walkSearch image root = (vis, r)) :
    (walk image root).1.visited = vis := by
  rw [walk_eq, h]
  rfl

/-- A walk that covers the reachable blocks lists all their entries. -/
theorem notTruncated_of_covers {image : Slice T} {root : ℕ} {vis : List ℕ}
    (hvis : walkSearch image root = (vis, .ok ()))
    (hcov : ∀ b, Search.Reachable (blockGraph image) root b → b ∈ vis) :
    NotTruncated image root (vis.flatMap (leafEntries image)) where
  parses b hr := by
    obtain ⟨node, hnode⟩ := readable_iff.1 ((walkSearch_ok hvis).readable b (hcov b hr))
    obtain ⟨page, hpage, hparse⟩ := nodeAt_eq_ok.1 hnode
    exact ⟨page, node, hpage, hparse⟩
  reached b hr := by
    rw [visited_of_walkSearch hvis]
    exact hcov b hr
  listed b page node hr hpage hparse hleaf row hrow e he := by
    refine List.mem_flatMap.2 ⟨b, hcov b hr, mem_leafEntries.2 ⟨node, ?_, hleaf, row, hrow, he⟩⟩
    exact nodeAt_eq_ok.2 ⟨page, hpage, hparse⟩

theorem notTruncated_iff (image : Slice T) (root : ℕ) :
    (∀ out, walkDirectory image root = .ok out → NotTruncated image root out) ↔
      BudgetsSuffice image root := by
  constructor
  · intro h vis hvis b hb c hbc
    have hnt := h _ (walkDirectory_eq_ok.2 ⟨vis, hvis, rfl⟩)
    obtain ⟨p, hp, -⟩ := (walkSearch_ok hvis).path b hb
    rw [← visited_of_walkSearch hvis]
    exact hnt.reached c (hp.reachable.tail hbc)
  · intro h out hout
    obtain ⟨vis, hvis, rfl⟩ := walkDirectory_eq_ok.1 hout
    exact notTruncated_of_covers hvis (h.covers hvis)

theorem listDir_eq_ok {image : Slice T} {id : ℕ} {out : List DirEntry} :
    listDir image id = .ok out ↔
      ∃ root, rootBlockOf image id = .ok root ∧ walkDirectory image root = .ok out := by
  unfold listDir
  cases rootBlockOf image id with
  | error e =>
    simp
  | ok root =>
    simp

/-- Within the budgets no child of an entered block is left out. -/
theorem budgetsSuffice_of_within {image : Slice T} {root : ℕ}
    (h : Search.WithinBudgets (blockGraph image) maxVisitedPages maxDescentDepth root) :
    BudgetsSuffice image root := by
  intro vis hvis b hb c hbc
  exact (Search.dfs_firstVisits h hvis).closed b hb (by simp) c hbc

/-- Where the budgets suffice, every reachable block has a short path, and there are few. -/
theorem BudgetsSuffice.bounds {image : Slice T} {root : ℕ} (h : BudgetsSuffice image root)
    (hread : ∀ b, Search.Reachable (blockGraph image) root b →
      Search.Readable (blockGraph image) b) :
    (∀ b, Search.Reachable (blockGraph image) root b → ShortPath image root b) ∧
      ∀ l : List ℕ, l.Nodup → (∀ b ∈ l, Search.Reachable (blockGraph image) root b) →
        l.length ≤ maxVisitedPages := by
  obtain ⟨vis, hvis⟩ := Search.dfs_ok_of_readable maxVisitedPages maxDescentDepth
    hread
  have hent := walkSearch_ok hvis
  have hcov := h.covers hvis
  exact ⟨fun b hb => hent.path b (hcov b hb), fun l hl hr =>
    (List.subperm_of_subset hl fun b hb => hcov b (hr b hb)).length_le.trans hent.length_le⟩

/-- On a tree the budgets suffice exactly when it has at most 4096 blocks and 64 levels. -/
theorem budgetsSuffice_iff_of_uniquePaths {image : Slice T} {root : ℕ}
    (hread : ∀ b, Search.Reachable (blockGraph image) root b →
      Search.Readable (blockGraph image) b)
    (htree : Search.UniquePaths (blockGraph image) root) :
    BudgetsSuffice image root ↔
      (∀ b p, Search.IsPath (blockGraph image) root b p → p.length ≤ maxDescentDepth) ∧
        ∀ l : List ℕ, l.Nodup → (∀ b ∈ l, Search.Reachable (blockGraph image) root b) →
          l.length ≤ maxVisitedPages := by
  constructor
  · intro h
    obtain ⟨hshort, hcount⟩ := h.bounds hread
    refine ⟨fun b p hp => ?_, hcount⟩
    obtain ⟨q, hq, hlen⟩ := hshort b hp.reachable
    rwa [htree b p q hp hq]
  · rintro ⟨hdepth, hcount⟩
    exact budgetsSuffice_of_within ⟨hcount, fun b p hp _ => hdepth b p hp⟩

/-- **When no listing is silently truncated**: a walk from a root block, and the listing of a
directory, are complete whenever they succeed exactly when the budgets suffice from that root. They
do when at most 4096 blocks are reachable and no duplicate-free path has more than 64 blocks; and
where every block can be read, they do only if at most 4096 blocks are reachable, each on some path
of at most 64. On a tree the two conditions are one. -/
theorem listing_complete_iff (image : Slice T) :
    (∀ root, (∀ out, walkDirectory image root = .ok out → NotTruncated image root out) ↔
      BudgetsSuffice image root) ∧
    (∀ id, (∀ out root, listDir image id = .ok out → rootBlockOf image id = .ok root →
        NotTruncated image root out) ↔
      ∀ root, rootBlockOf image id = .ok root → BudgetsSuffice image root) ∧
    (∀ root, Search.WithinBudgets (blockGraph image) maxVisitedPages maxDescentDepth root →
      BudgetsSuffice image root) ∧
    (∀ root, (∀ b, Search.Reachable (blockGraph image) root b →
        Search.Readable (blockGraph image) b) → BudgetsSuffice image root →
      (∀ b, Search.Reachable (blockGraph image) root b → ShortPath image root b) ∧
        ∀ l : List ℕ, l.Nodup → (∀ b ∈ l, Search.Reachable (blockGraph image) root b) →
          l.length ≤ maxVisitedPages) ∧
    (∀ root, (∀ b, Search.Reachable (blockGraph image) root b →
        Search.Readable (blockGraph image) b) → Search.UniquePaths (blockGraph image) root →
      (BudgetsSuffice image root ↔
        (∀ b p, Search.IsPath (blockGraph image) root b p → p.length ≤ maxDescentDepth) ∧
          ∀ l : List ℕ, l.Nodup → (∀ b ∈ l, Search.Reachable (blockGraph image) root b) →
            l.length ≤ maxVisitedPages)) := by
  refine ⟨notTruncated_iff image,
    fun id => ⟨fun h root hroot => ?_, fun h out root hout hroot => ?_⟩,
    fun root => budgetsSuffice_of_within, fun root hread h => h.bounds hread,
    fun root => budgetsSuffice_iff_of_uniquePaths⟩
  · refine (notTruncated_iff image root).1 fun out hout => ?_
    exact h out root (listDir_eq_ok.2 ⟨root, hroot, hout⟩) hroot
  · obtain ⟨root', hroot', hwalk⟩ := listDir_eq_ok.1 hout
    obtain rfl := Except.ok.inj (hroot.symm.trans hroot')
    exact (notTruncated_iff image root).2 (h root hroot) out hwalk

/-! ### A chain of sixty-five blocks -/

/-- The bytes of a page every cluster of `deepChain` starts: a node with one record, whose key is
the entry record of a name `a` and whose value starts with the number of the next cluster. The node
is a branch in the first 64 clusters. -/
def deepChainByte (i : ℕ) : UInt8 :=
  match i % 4096 with
  | 0x00 => 0x4d
  | 0x01 => 0x53
  | 0x02 => 0x42
  | 0x03 => 0x2b
  | 0x20 => UInt8.ofNat (i / 4096)
  | 0x50 => 0xb0
  | 0x10d => if i / 4096 < 64 then 1 else 0
  | 0x111 => 0x01
  | 0x114 => 1
  | 0x124 => 0x10
  | 0x126 => 0x06
  | 0x12a => 0x20
  | 0x12c => 0x08
  | 0x130 => 0x30
  | 0x132 => 0x03
  | 0x134 => 0x61
  | 0x140 => UInt8.ofNat (i / 4096 + 1)
  | 0x200 => 0x20
  | _ => 0

/-- Blocks `0` to `63` are branches, each with the next block as its child; block `64` is a leaf
with one entry. -/
def deepChain : Slice .w64 where
  len := 68 * 4096
  len_le := by decide
  byte i := deepChainByte i

theorem deepChain_blockGraph :
    ∀ b < 65, blockGraph deepChain b = .ok (if b < 64 then [b + 1] else []) := by
  decide +kernel

theorem deepChain_reachable {b : ℕ} (hb : b ≤ 64) :
    Search.Reachable (blockGraph deepChain) 0 b := by
  induction b with
  | zero => exact .refl
  | succ b ih =>
    refine (ih (by omega)).tail ⟨[b + 1], ?_, by simp⟩
    rw [deepChain_blockGraph b (by omega), if_pos (by omega)]

/-- The walk of `deepChain` from block `0` succeeds with an empty listing, while the leaf it has not
reached holds an entry. -/
theorem deepChain_truncated :
    walkDirectory deepChain 0 = .ok [] ∧ leafEntries deepChain 64 ≠ [] ∧
      ¬∀ out, walkDirectory deepChain 0 = .ok out → NotTruncated deepChain 0 out := by
  have hwalk : walkDirectory deepChain 0 = .ok [] := by decide +kernel
  have hleaf : leafEntries deepChain 64 ≠ [] := by decide +kernel
  refine ⟨hwalk, hleaf, fun h => ?_⟩
  obtain ⟨e, he⟩ := List.exists_mem_of_ne_nil _ hleaf
  obtain ⟨node, hnode, hb, row, hrow, hre⟩ := mem_leafEntries.1 he
  obtain ⟨page, hpage, hparse⟩ := nodeAt_eq_ok.1 hnode
  have := (h [] hwalk).listed 64 page node (deepChain_reachable le_rfl) hpage hparse hb row hrow
    e hre
  simp at this

/-! ### A shared child and a cycle -/

/-- The bytes of a page every cluster of `sharedChild` starts: a node with one or two records. In
the first two clusters it is a branch with two children, behind them a leaf with the entry record of
a name `a`. -/
def sharedChildByte (i : ℕ) : UInt8 :=
  match i % 4096 with
  | 0x00 => 0x4d
  | 0x01 => 0x53
  | 0x02 => 0x42
  | 0x03 => 0x2b
  | 0x20 => UInt8.ofNat (i / 4096)
  | 0x50 => 0xb0
  | 0x10d => if i / 4096 < 2 then 1 else 0
  | 0x111 => 0x01
  | 0x114 => if i / 4096 < 2 then 2 else 1
  | 0x124 => 0x10
  | 0x126 => 0x06
  | 0x12a => 0x20
  | 0x12c => 0x08
  | 0x130 => 0x30
  | 0x132 => 0x03
  | 0x134 => 0x61
  | 0x140 => UInt8.ofNat (i / 4096 + 1)
  | 0x154 => 0x10
  | 0x15a => 0x20
  | 0x15c => 0x08
  | 0x170 => if i / 4096 = 0 then 2 else 0
  | 0x200 => 0x20
  | 0x204 => 0x50
  | _ => 0

/-- Branch `0` over blocks `1` and `2`, branch `1` over blocks `2` and `0`, and leaf `2`. -/
def sharedChild : Slice .w64 where
  len := 6 * 4096
  len_le := by decide
  byte i := sharedChildByte i

theorem sharedChild_blockGraph :
    blockGraph sharedChild 0 = .ok [1, 2] ∧ blockGraph sharedChild 1 = .ok [2, 0] ∧
      blockGraph sharedChild 2 = .ok [] := by
  decide +kernel

theorem sharedChild_firstVisits :
    Search.FirstVisits (blockGraph sharedChild) [0] [] [0, 1, 2] := by
  obtain ⟨h0, h1, h2⟩ := sharedChild_blockGraph
  -- block 2 is entered below block 1; it and the root are seen when they are met again
  refine .enter (by simp) h0 (.enter (by simp) h1 ?_ (.seen (by simp) (.done _))) (.done _)
  exact .enter (by simp) h2 (.done _) (.seen (by simp) (.done _))

/-- The leaf that both branches share is listed once, and the way back to the root is not taken. -/
theorem sharedChild_exact :
    leafEntries sharedChild 2 ≠ [] ∧
      walkDirectory sharedChild 0 = .ok (leafEntries sharedChild 2) := by
  obtain ⟨h0, h1, h2⟩ := sharedChild_blockGraph
  have hclosed : ∀ b ∈ [0, 1, 2], ∀ c, Search.Child (blockGraph sharedChild) b c →
      c ∈ [0, 1, 2] := by
    rintro b hb c ⟨cs, hcs, hc⟩
    simp only [List.mem_cons, List.not_mem_nil, or_false] at hb
    rcases hb with rfl | rfl | rfl
    · obtain rfl := Except.ok.inj (h0.symm.trans hcs)
      exact List.mem_cons_of_mem 0 hc
    · obtain rfl := Except.ok.inj (h1.symm.trans hcs)
      simp at hc ⊢
      omega
    · obtain rfl := Except.ok.inj (h2.symm.trans hcs)
      cases hc
  have hread : ∀ b ∈ [0, 1, 2], Search.Readable (blockGraph sharedChild) b := by
    simp only [List.forall_mem_cons]
    exact ⟨⟨_, h0⟩, ⟨_, h1⟩, ⟨_, h2⟩, by simp⟩
  have hresolve : ∀ b, Search.Reachable (blockGraph sharedChild) 0 b →
      ∃ page node, ResolvesTo sharedChild b page ∧ MinstorePage.parse page = .ok node := by
    intro b hr
    obtain ⟨node, hnode⟩ := readable_iff.1 (hread b (hr.mem_of_closed hclosed (by simp)))
    obtain ⟨page, hpage, hparse⟩ := nodeAt_eq_ok.1 hnode
    exact ⟨page, node, hpage, hparse⟩
  obtain ⟨order, hfirst, -, -, hwalk⟩ := walkDirectory_exact sharedChild 0 hresolve
    (fun l hl hr => (Search.length_le_of_closed (by simp) hclosed hl hr).trans (by decide))
    fun b p hp hn =>
      (Search.length_le_of_closed (by simp) hclosed hn hp.mem_reachable).trans (by decide)
  rw [← (hfirst [0, 1, 2]).1 sharedChild_firstVisits] at hwalk
  have hbranches : leafEntries sharedChild 0 = [] ∧ leafEntries sharedChild 1 = [] := by
    decide +kernel
  refine ⟨by decide +kernel, hwalk.trans ?_⟩
  simp [hbranches]

end RefsForensic
