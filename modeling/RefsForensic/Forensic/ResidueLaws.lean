import RefsForensic.Core.Listing
import RefsForensic.Forensic.Residue

/-!
# Residue and live data

The carver takes the one page with the highest number for the whole current directory; a directory
is a tree of pages. `live_not_residue_iff` says exactly when the residue of an image is free of
live names and live pages, and `splitRoot` is a root directory of two leaves, one of which is
surfaced as residue of the other.
-/

namespace RefsForensic.Forensic

open Rust

variable {T : Target}

/-- Page `p` of the root directory table is numbered below the current version `k`. -/
structure Superseded (image : Slice T) (k p : ℕ × Slice T) : Prop where
  current : currentPage image = some k
  rootTable : p ∈ rootTablePages image
  below : selfBlockOf p < selfBlockOf k

/-- The live tree whose walk enters `vis` holds nothing that the current version `k` of the table
lacks and a superseded page has: no name of a live leaf, and no name on a live branch page. -/
structure LiveIsCurrent (image : Slice T) (vis : List ℕ) : Prop where
  leaves : ∀ k p, Superseded image k p → ∀ b ∈ vis, ∀ e ∈ leafEntries image b,
    e.name ∈ carveDirectoryEntries p.2 → e.name ∈ carveDirectoryEntries k.2
  branches : ∀ k p, Superseded image k p → ∀ b ∈ vis,
    resolveBlockOffset image (walkResolver image) b = some p.1 →
    ∀ node, MinstorePage.parse p.2 = .ok node → node.isBranch = true →
    carveDirectoryEntries p.2 ⊆ carveDirectoryEntries k.2

/-- The residue `residue` leaves the live tree alone: no listed name is in it, and no page the walk
from `root` visited. -/
structure SparesLive (image : Slice T) (root : ℕ) (entries : List DirEntry)
    (residue : List StalePage) : Prop where
  names : ∀ e ∈ entries, ∀ s ∈ residue, e.name ∉ s.entries
  pages : ∀ b ∈ (walk image root).1.visited, ∀ off,
    resolveBlockOffset image (walkResolver image) b = some off → ∀ s ∈ residue, s.offset ≠ off

theorem Superseded.mem_recoverResidue {image : Slice T} {k p : ℕ × Slice T}
    (h : Superseded image k p) {name : String} (hp : name ∈ carveDirectoryEntries p.2)
    (hk : name ∉ carveDirectoryEntries k.2) :
    ⟨selfBlockOf p, refsRootDirectoryTableId, p.1, droppedNames k p⟩ ∈ recoverResidue image :=
  Forensic.mem_recoverResidue.2 ⟨k, p, h.current, h.rootTable, h.below,
    List.ne_nil_of_mem (mem_droppedNames.2 ⟨hp, hk⟩), rfl⟩

theorem superseded_of_mem {image : Slice T} {s : StalePage} (hs : s ∈ recoverResidue image) :
    ∃ k p, Superseded image k p ∧ s.offset = p.1 ∧ s.entries = droppedNames k p ∧
      ∃ name, name ∈ droppedNames k p := by
  obtain ⟨k, p, hk, hp, hlt, hne, rfl⟩ := mem_recoverResidue.1 hs
  exact ⟨k, p, ⟨hk, hp, hlt⟩, rfl, rfl, List.exists_mem_of_ne_nil _ hne⟩

/-- The carver and the walk read the same names off a leaf. -/
theorem carveDirectoryEntries_of_leaf {image page : Slice T} {b : ℕ} {node : MinstorePage T}
    (hpage : ResolvesTo image b page) (hnode : MinstorePage.parse page = .ok node)
    (hleaf : node.isBranch = false) :
    carveDirectoryEntries page = (leafEntries image b).map DirEntry.name := by
  have hat : nodeAt image b = .ok node := nodeAt_eq_ok.2 ⟨page, hpage, hnode⟩
  rw [carveDirectoryEntries, parseDirectory_of_parse hnode, leafEntries, hat]
  simp [nodeEntries, hleaf]

/-- A superseded page at the offset of a live block is the page of that block. -/
theorem Superseded.resolvesTo {image : Slice T} {k p : ℕ × Slice T} (h : Superseded image k p)
    {b : ℕ} (hb : resolveBlockOffset image (walkResolver image) b = some p.1) :
    ResolvesTo image b p.2 := by
  obtain ⟨page, hans⟩ := pageAnswersBlock_iff.1 (answers_of_resolve hb)
  obtain ⟨-, hp, -⟩ := mem_residentMsbPages.1 (mem_rootTablePages.1 h.rootTable).1
  obtain rfl := Option.some.inj (hans.inBounds.symm.trans hp)
  exact ⟨p.1, hb, hans⟩

theorem sparesLive_iff {image : Slice T} {root : ℕ} {vis : List ℕ}
    (hvis : walkSearch image root = (vis, .ok ())) :
    SparesLive image root (vis.flatMap (leafEntries image)) (recoverResidue image) ↔
      LiveIsCurrent image vis := by
  constructor
  · intro h
    refine ⟨fun k p hkp b hb e he hp => ?_, fun k p hkp b hb hoff node _ _ name hp => ?_⟩
    · by_contra hk
      exact h.names e (List.mem_flatMap.2 ⟨b, hb, he⟩) _ (hkp.mem_recoverResidue hp hk)
        (mem_droppedNames.2 ⟨hp, hk⟩)
    · by_contra hk
      exact h.pages b (by rwa [visited_of_walkSearch hvis]) p.1 hoff _
        (hkp.mem_recoverResidue hp hk) rfl
  · intro h
    refine ⟨fun e he s hs hmem => ?_, fun b hb off hoff s hs hsoff => ?_⟩
    · obtain ⟨b, hb, he⟩ := List.mem_flatMap.1 he
      obtain ⟨k, p, hkp, -, hent, -⟩ := superseded_of_mem hs
      rw [hent, mem_droppedNames] at hmem
      exact hmem.2 (h.leaves k p hkp b hb e he hmem.1)
    · rw [visited_of_walkSearch hvis] at hb
      obtain ⟨k, p, hkp, hpoff, -, name, hname⟩ := superseded_of_mem hs
      obtain rfl : p.1 = off := hpoff.symm.trans hsoff
      obtain ⟨hp, hk⟩ := mem_droppedNames.1 hname
      have hpage := hkp.resolvesTo hoff
      obtain ⟨node, hat⟩ := readable_iff.1 ((walkSearch_ok hvis).readable b hb)
      obtain ⟨page, hpage', hnode⟩ := nodeAt_eq_ok.1 hat
      obtain rfl := hpage.page_eq hpage'
      cases hbr : node.isBranch with
      | false =>
        -- a leaf: its names are names of the listing
        rw [carveDirectoryEntries_of_leaf hpage hnode hbr] at hp
        obtain ⟨e, he, rfl⟩ := List.mem_map.1 hp
        apply hk
        apply h.leaves k p hkp b hb e he
        rw [carveDirectoryEntries_of_leaf hpage hnode hbr]
        exact List.mem_map_of_mem he
      | true =>
        exact hk (h.branches k p hkp b hb hoff node hnode hbr hp)

/-- **When live data is never residue**: a listing of the root directory and the residue of the
image have no name and no page in common exactly when every name that a superseded page of the
table shares with a live leaf, or holds as a live branch page, is also on the current version. -/
theorem live_not_residue_iff (image : Slice T) :
    (∀ entries root, listDir image refsRootDirectoryId = .ok entries →
      rootBlockOf image refsRootDirectoryId = .ok root →
      SparesLive image root entries (recoverResidue image)) ↔
    ∀ root vis, rootBlockOf image refsRootDirectoryId = .ok root →
      Search.dfs (blockGraph image) maxVisitedPages maxDescentDepth root [] = (vis, .ok ()) →
      LiveIsCurrent image vis := by
  constructor
  · intro h root vis hroot hvis
    refine (sparesLive_iff hvis).1 (h _ root (listDir_eq_ok.2 ⟨root, hroot, ?_⟩) hroot)
    exact walkDirectory_eq_ok.2 ⟨vis, hvis, rfl⟩
  · intro h entries root hlist hroot
    obtain ⟨root', hroot', hwalk⟩ := listDir_eq_ok.1 hlist
    obtain rfl := Except.ok.inj (hroot.symm.trans hroot')
    obtain ⟨vis, hvis, rfl⟩ := walkDirectory_eq_ok.1 hwalk
    exact (sparesLive_iff hvis).2 (h root vis hroot hvis)

/-! ### A root directory of two leaves -/

/-- The byte at `j` of a Minstore page numbered `c` of table `tableId`, with its node header at
`0x100` and `count` records, the first at `0x120` with a key of `keyLen` bytes at `0x130` and a
value of `0x30` bytes at `0x140`, the second at `0x180` with an empty key and a value at `0x1a0`. -/
def tableByte (c tableId flags count keyLen : ℕ) (j : ℕ) : UInt8 :=
  match j with
  | 0x00 => 0x4d
  | 0x01 => 0x53
  | 0x02 => 0x42
  | 0x03 => 0x2b
  | 0x20 => UInt8.ofNat c
  | 0x48 => UInt8.ofNat tableId
  | 0x49 => UInt8.ofNat (tableId / 256)
  | 0x50 => 0xb0
  | 0x10d => UInt8.ofNat flags
  | 0x111 => 0x01
  | 0x114 => UInt8.ofNat count
  | 0x124 => 0x10
  | 0x126 => UInt8.ofNat keyLen
  | 0x12a => 0x20
  | 0x12c => 0x30
  | 0x18a => 0x20
  | 0x18c => 0x08
  | 0x200 => 0x20
  | 0x204 => 0x80
  | _ => 0

/-- Cluster `0` is the branch root of table `0x600`, with the children `4` and `8`; these are leaves
with the entries `a` and `b`; cluster `56` is an object table that maps `0x600` to block `0`. -/
def splitRootByte (i : ℕ) : UInt8 :=
  match i / 4096, i % 4096 with
  | 0, 0x140 => 4
  | 0, 0x1a0 => 8
  | 0, j => tableByte 0 0x600 1 2 0 j
  | 4, 0x130 => 0x30
  | 4, 0x134 => 0x61
  | 4, j => tableByte 4 0x600 0 1 6 j
  | 8, 0x130 => 0x30
  | 8, 0x134 => 0x62
  | 8, j => tableByte 8 0x600 0 1 6 j
  | 56, 0x139 => 0x06
  | 56, j => tableByte 56 2 0 1 16 j
  | _, _ => 0

def splitRoot : Slice .w64 where
  len := 60 * 4096
  len_le := by decide
  byte i := splitRootByte i

/-- The listing of `splitRoot` has the entries `a` and `b`, and its residue is the live page of
`a`. -/
theorem splitRoot_carved :
    (listDir splitRoot refsRootDirectoryId).map (·.map DirEntry.name) = .ok ["a", "b"] ∧
      (walk splitRoot 0).1.visited = [0, 4, 8] ∧
      recoverResidue splitRoot = [⟨4, 0x600, 4 * 4096, ["a"]⟩] ∧
      ¬∀ entries root, listDir splitRoot refsRootDirectoryId = .ok entries →
        rootBlockOf splitRoot refsRootDirectoryId = .ok root →
        SparesLive splitRoot root entries (recoverResidue splitRoot) := by
  have hlist : (listDir splitRoot refsRootDirectoryId).map (·.map DirEntry.name) =
      .ok ["a", "b"] := by decide +kernel
  have hvisited : (walk splitRoot 0).1.visited = [0, 4, 8] := by decide +kernel
  have hresidue : recoverResidue splitRoot = [⟨4, 0x600, 4 * 4096, ["a"]⟩] := by decide +kernel
  have hroot : rootBlockOf splitRoot refsRootDirectoryId = .ok 0 := by decide +kernel
  have hoff : resolveBlockOffset splitRoot (walkResolver splitRoot) 4 = some (4 * 4096) := by
    decide +kernel
  refine ⟨hlist, hvisited, hresidue, fun h => ?_⟩
  obtain ⟨entries, hout, -⟩ := map_eq_ok.1 hlist
  have hmem : ⟨4, 0x600, 4 * 4096, ["a"]⟩ ∈ recoverResidue splitRoot := by
    rw [hresidue]
    exact List.mem_singleton_self _
  exact (h entries 0 hout hroot).pages 4 (by rw [hvisited]; simp) _ hoff _ hmem rfl

end RefsForensic.Forensic
