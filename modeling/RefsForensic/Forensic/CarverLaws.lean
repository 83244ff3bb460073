import RefsForensic.Forensic.ResidueLaws

/-!
# What the carver covers

`recoverResidue_exact` says what `recover_residue` returns without mention of the scan: the residue
of every root-table page against the current version, which is the page with the highest number and,
among several, the one in front. Other tables are left out, so a directory other than the root has
no residue (`carver_covers_iff`).
-/

namespace RefsForensic.Forensic

open Rust

variable {T : Target}

/-! ## The current version -/

/-- `p` is an in-bounds Minstore page of the root directory table on a cluster boundary. -/
structure RootTablePage (image : Slice T) (p : ℕ × Slice T) : Prop where
  aligned : ∃ c, p.1 = c * clusterSize
  inBounds : image.getRange p.1 (p.1 + refsMetadataPageSize) = some p.2
  signature : startsWith p.2 msbSignature
  rootTable : leU64 p.2 tableIdOffset = refsRootDirectoryTableId

/-- `k` has the highest number of all root-table pages, and the lowest offset among those that have
it. -/
structure IsCurrent (image : Slice T) (k : ℕ × Slice T) : Prop where
  page : RootTablePage image k
  highest : ∀ p, RootTablePage image p → selfBlockOf p ≤ selfBlockOf k
  lowest : ∀ p, RootTablePage image p → selfBlockOf p = selfBlockOf k → k.1 ≤ p.1

theorem mem_rootTablePages_iff {image : Slice T} {p : ℕ × Slice T} :
    p ∈ rootTablePages image ↔ RootTablePage image p := by
  obtain ⟨off, page⟩ := p
  rw [mem_rootTablePages, mem_residentMsbPages]
  constructor
  · exact fun ⟨⟨ha, hp, hs⟩, ht⟩ => ⟨ha, hp, hs, ht⟩
  · exact fun ⟨ha, hp, hs, ht⟩ => ⟨⟨ha, hp, hs⟩, ht⟩

/-- The scan meets the pages by ascending offset. -/
theorem pairwise_residentMsbPages (image : Slice T) :
    (residentMsbPages image).Pairwise fun p q => p.1 < q.1 := by
  refine List.Pairwise.filterMap (residentMsbPage image) ?_ List.pairwise_lt_range
  intro c d hcd p hp q hq
  have hoff : ∀ {c : ℕ} {p : ℕ × Slice T}, residentMsbPage image c = some p →
      p.1 = c * clusterSize := by
    intro c p hp
    obtain ⟨page, -, hp⟩ := Option.bind_eq_some_iff.1 hp
    split_ifs at hp
    cases hp
    rfl
  rw [hoff hp, hoff hq]
  exact Nat.mul_lt_mul_of_pos_right hcd (by decide)

theorem pairwise_rootTablePages (image : Slice T) :
    (rootTablePages image).Pairwise fun p q => p.1 < q.1 :=
  (pairwise_residentMsbPages image).filter _

/-- Of several pages with the highest number, the scan keeps the one in front. -/
theorem le_of_argmax {ps : List (ℕ × Slice T)} (hps : ps.Pairwise fun p q => p.1 < q.1)
    {k p : ℕ × Slice T} (hk : ps.argmax selfBlockOf = some k) (hp : p ∈ ps)
    (heq : selfBlockOf p = selfBlockOf k) : k.1 ≤ p.1 := by
  induction ps using List.reverseRecOn generalizing k with
  | nil => cases hp
  | append_singleton ps q ih =>
    obtain ⟨hps, -, hq⟩ := List.pairwise_append.1 hps
    have hq : ∀ p ∈ ps, p.1 < q.1 := fun p hp => hq p hp q (List.mem_singleton_self q)
    rw [argmax_snoc] at hk
    obtain rfl := Option.some.inj hk
    cases hmax : ps.argmax selfBlockOf with
    | none =>
      obtain rfl := List.argmax_eq_none.1 hmax
      obtain rfl : p = q := by simpa using hp
      rfl
    | some k =>
      rw [hmax] at heq
      unfold takeOver at heq ⊢
      simp only at heq ⊢
      split_ifs at heq ⊢ with hlt
      · -- `q` takes over: no page in front of it has its number
        rcases List.mem_append.1 hp with hp | hp
        · have := List.le_of_mem_argmax hp hmax
          omega
        · rw [List.mem_singleton.1 hp]
      · rcases List.mem_append.1 hp with hp | hp
        · exact ih hps hmax hp heq
        · rw [List.mem_singleton.1 hp]
          exact (hq k (List.argmax_mem hmax)).le

theorem isCurrent_of_currentPage {image : Slice T} {k : ℕ × Slice T}
    (h : currentPage image = some k) : IsCurrent image k := by
  refine ⟨mem_rootTablePages_iff.1 (List.argmax_mem h), fun p hp => ?_, fun p hp heq => ?_⟩
  · exact List.le_of_mem_argmax (mem_rootTablePages_iff.2 hp) h
  · exact le_of_argmax (pairwise_rootTablePages image) h (mem_rootTablePages_iff.2 hp) heq

theorem IsCurrent.unique {image : Slice T} {k k' : ℕ × Slice T} (h : IsCurrent image k)
    (h' : IsCurrent image k') : k = k' := by
  have hnum : selfBlockOf k = selfBlockOf k' :=
    le_antisymm (h'.highest k h.page) (h.highest k' h'.page)
  have hoff : k.1 = k'.1 :=
    le_antisymm (h.lowest k' h'.page hnum.symm) (h'.lowest k h.page hnum)
  exact rootTablePages_inj (mem_rootTablePages_iff.2 h.page) (mem_rootTablePages_iff.2 h'.page) hoff

/-- **The current version**, without the scan. -/
theorem currentPage_eq_some {image : Slice T} {k : ℕ × Slice T} :
    currentPage image = some k ↔ IsCurrent image k := by
  refine ⟨isCurrent_of_currentPage, fun h => ?_⟩
  cases hk : currentPage image with
  | none =>
    have hnil : rootTablePages image = [] := List.argmax_eq_none.1 hk
    have hmem := mem_rootTablePages_iff.2 h.page
    rw [hnil] at hmem
    cases hmem
  | some k' =>
    rw [h.unique (isCurrent_of_currentPage hk)]

/-- The residue, given the current version. -/
theorem recoverResidue_of_isCurrent {image : Slice T} {k : ℕ × Slice T} (h : IsCurrent image k) :
    recoverResidue image = (rootTablePages image).filterMap (stalePage k) := by
  rw [recoverResidue_eq, currentPage_eq_some.2 h]

/-- Whatever the order of the scan, pass 1 ends with the page that alone has the highest number. -/
theorem foldl_recordPage_perm {image : Slice T} {k : ℕ × Slice T} (h : IsCurrent image k)
    (hk : ∀ p, RootTablePage image p → selfBlockOf p = selfBlockOf k → p = k)
    {pages : List (ℕ × Slice T)} (hpages : pages.Perm (residentMsbPages image)) :
    pages.foldl (fun current p => recordPage current p.2) [] = [CurrentVersion.ofPage k] := by
  have hperm := hpages.filter fun p => leU64 p.2 tableIdOffset = refsRootDirectoryTableId
  have hmem : ∀ p, p ∈ pages.filter (fun p => leU64 p.2 tableIdOffset =
      refsRootDirectoryTableId) ↔ RootTablePage image p :=
    fun p => hperm.mem_iff.trans mem_rootTablePages_iff
  rw [foldl_recordPage]
  cases hmax : (pages.filter fun p => leU64 p.2 tableIdOffset =
      refsRootDirectoryTableId).argmax selfBlockOf with
  | none =>
    have hpage := (hmem k).2 h.page
    rw [List.argmax_eq_none.1 hmax] at hpage
    cases hpage
  | some m =>
    have hm := (hmem m).1 (List.argmax_mem hmax)
    have hle := List.le_of_mem_argmax ((hmem k).2 h.page) hmax
    rw [hk m hm (le_antisymm (h.highest m hm) hle)]
    rfl

/-- **What the carver returns**: in ascending offset order the residue of each root-table page
against the current version, nothing where there is no such page; and a current version that alone
has the highest number is found in whatever order the pages are scanned. -/
theorem recoverResidue_exact (image : Slice T) :
    (∃ pages : List (ℕ × Slice T), pages.Pairwise (fun p q => p.1 < q.1) ∧
      (∀ p, p ∈ pages ↔ RootTablePage image p) ∧
      (pages = [] → recoverResidue image = []) ∧
      (pages ≠ [] → ∃ k, IsCurrent image k) ∧
      ∀ k, IsCurrent image k → recoverResidue image = pages.filterMap (stalePage k)) ∧
    ∀ k, IsCurrent image k → (∀ p, RootTablePage image p → selfBlockOf p = selfBlockOf k → p = k) →
      ∀ pages : List (ℕ × Slice T), pages.Perm (residentMsbPages image) →
        pages.foldl (fun current p => recordPage current p.2) [] = [CurrentVersion.ofPage k] := by
  refine ⟨⟨rootTablePages image, pairwise_rootTablePages image, fun p => mem_rootTablePages_iff,
    fun hnil => ?_, fun hne => ?_, fun k hk => recoverResidue_of_isCurrent hk⟩, ?_⟩
  · rw [recoverResidue_eq, currentPage, hnil]
    rfl
  · have hmax : currentPage image ≠ none := fun h => hne (List.argmax_eq_none.1 h)
    obtain ⟨k, hk⟩ := Option.ne_none_iff_exists'.1 hmax
    exact ⟨k, isCurrent_of_currentPage hk⟩
  · exact fun k h hk pages hpages => foldl_recordPage_perm h hk hpages

/-! ## Other directories -/

/-- `d` is the root directory or a directory listed there. -/
def TopDirectory (image : Slice T) (d : ℕ) : Prop :=
  d = refsRootDirectoryId ∨
    ∃ entries, listDir image refsRootDirectoryId = .ok entries ∧
      ∃ e ∈ entries, e.isDirectory = true ∧ e.objectId = some d

/-- `p` is a resident leaf page of table `d`. -/
structure LeafOfTable (image : Slice T) (d : ℕ) (p : ℕ × Slice T) : Prop where
  resident : p ∈ residentMsbPages image
  table : leU64 p.2 tableIdOffset = d
  leaf : ∃ node, MinstorePage.parse p.2 = .ok node ∧ node.isLeaf = true

/-- Leaf page `p` of directory `d` holds a name that `q`, the one page of the directory with the
highest number, does not. -/
structure DroppedName (image : Slice T) (d : ℕ) (p q : ℕ × Slice T) (name : String) : Prop where
  directory : TopDirectory image d
  old : LeafOfTable image d p
  new : LeafOfTable image d q
  highest : ∀ r ∈ residentMsbPages image, leU64 r.2 tableIdOffset = d → r ≠ q →
    selfBlockOf r < selfBlockOf q
  below : selfBlockOf p < selfBlockOf q
  held : name ∈ carveDirectoryEntries p.2
  dropped : name ∉ carveDirectoryEntries q.2

theorem LeafOfTable.rootTablePage {image : Slice T} {p : ℕ × Slice T}
    (h : LeafOfTable image refsRootDirectoryTableId p) : RootTablePage image p := by
  obtain ⟨ha, hp, hs⟩ := mem_residentMsbPages.1 h.resident
  exact ⟨ha, hp, hs, h.table⟩

theorem RootTablePage.resident {image : Slice T} {p : ℕ × Slice T} (h : RootTablePage image p) :
    p ∈ residentMsbPages image :=
  mem_residentMsbPages.2 ⟨h.aligned, h.inBounds, h.signature⟩

/-- The page with the highest number of the root directory is the current version. -/
theorem DroppedName.isCurrent {image : Slice T} {p q : ℕ × Slice T} {name : String}
    (h : DroppedName image refsRootDirectoryTableId p q name) : IsCurrent image q := by
  have hlt : ∀ r, RootTablePage image r → r ≠ q → selfBlockOf r < selfBlockOf q :=
    fun r hr => h.highest r hr.resident hr.rootTable
  refine ⟨h.new.rootTablePage, fun r hr => ?_, fun r hr heq => ?_⟩
  · by_cases hrq : r = q
    · rw [hrq]
    · exact (hlt r hr hrq).le
  · by_cases hrq : r = q
    · rw [hrq]
    · exact absurd heq (hlt r hr hrq).ne

/-- **Which directories the carver covers**: a name dropped from a directory is in the residue
exactly when the directory is the root. -/
theorem carver_covers_iff {image : Slice T} {d : ℕ} {p q : ℕ × Slice T} {name : String}
    (h : DroppedName image d p q name) :
    (∃ s ∈ recoverResidue image, s.offset = p.1 ∧ s.tableId = d ∧ name ∈ s.entries) ↔
      d = refsRootDirectoryTableId := by
  constructor
  · rintro ⟨s, hs, -, rfl, -⟩
    obtain ⟨k, p', -, -, -, -, rfl⟩ := mem_recoverResidue.1 hs
    rfl
  · rintro rfl
    have hname : name ∈ droppedNames q p := mem_droppedNames.2 ⟨h.held, h.dropped⟩
    refine ⟨_, mem_recoverResidue.2 ⟨q, p, currentPage_eq_some.2 h.isCurrent,
      mem_rootTablePages_iff.2 h.old.rootTablePage, h.below, List.ne_nil_of_mem hname, rfl⟩,
      rfl, rfl, hname⟩

/-! ### A directory below the root -/

/-- The root directory at cluster `0` lists directory `0x701`; its leaves at the clusters `4` and
`8` hold the entries `a` and `b`; cluster `56` is an object table that maps `0x600` to block `0`. -/
def subdirectoryByte (i : ℕ) : UInt8 :=
  match i / 4096, i % 4096 with
  | 0, 0x130 => 0x30
  | 0, 0x132 => 0x02
  | 0, 0x134 => 0x64
  | 0, 0x140 => 0x01
  | 0, 0x141 => 0x07
  | 0, j => tableByte 0 0x600 0 1 6 j
  | 4, 0x130 => 0x30
  | 4, 0x134 => 0x61
  | 4, j => tableByte 4 0x701 0 1 6 j
  | 8, 0x130 => 0x30
  | 8, 0x134 => 0x62
  | 8, j => tableByte 8 0x701 0 1 6 j
  | 56, 0x139 => 0x06
  | 56, j => tableByte 56 2 0 1 16 j
  | _, _ => 0

/-- An image of the size of `splitRoot`. -/
def subdirectory : Slice .w64 where
  len := splitRoot.len
  len_le := splitRoot.len_le
  byte i := subdirectoryByte i

/-- The page of `subdirectory` at cluster `c`. -/
def subdirectoryPage (c : ℕ) : ℕ × Slice .w64 :=
  (c * 4096, (subdirectory.getRange (c * 4096) (c * 4096 + 16384)).getD Slice.empty)

theorem subdirectoryPage_inBounds {c : ℕ} (hc : c ≤ 56) :
    subdirectory.getRange (c * 4096) (c * 4096 + 16384) = some (subdirectoryPage c).2 := by
  have hlen : subdirectory.len = 60 * 4096 := rfl
  rw [subdirectoryPage, Slice.getRange_of_le ⟨by omega, by omega⟩, Option.getD_some]

theorem subdirectory_pages :
    (residentMsbPages subdirectory).map (fun r => (r.1, leU64 r.2 tableIdOffset, selfBlockOf r)) =
      [(0, 0x600, 0), (4 * 4096, 0x701, 4), (8 * 4096, 0x701, 8), (56 * 4096, 2, 56)] := by
  decide +kernel

theorem subdirectory_listed : TopDirectory subdirectory 0x701 := by
  have hlist : (listDir subdirectory refsRootDirectoryId).map
      (·.map fun e => (e.isDirectory, e.objectId)) = .ok [(true, some 0x701)] := by
    decide +kernel
  obtain ⟨entries, hout, hmap⟩ := map_eq_ok.1 hlist
  have hmem : (true, some 0x701) ∈ entries.map fun e => (e.isDirectory, e.objectId) := by
    rw [hmap]
    exact List.mem_singleton_self _
  obtain ⟨e, he, heq⟩ := List.mem_map.1 hmem
  obtain ⟨hdir, hid⟩ := Prod.mk.inj heq
  exact .inr ⟨entries, hout, e, he, hdir, hid⟩

theorem subdirectory_leaf {c : ℕ} (hc : c = 4 ∨ c = 8) :
    LeafOfTable subdirectory 0x701 (subdirectoryPage c) := by
  have hpage : startsWith (subdirectoryPage c).2 msbSignature ∧
      leU64 (subdirectoryPage c).2 tableIdOffset = 0x701 ∧
      (MinstorePage.parse (subdirectoryPage c).2).map MinstorePage.isLeaf = .ok true := by
    rcases hc with rfl | rfl
    · decide +kernel
    · decide +kernel
  obtain ⟨hsig, htable, hleaf⟩ := hpage
  obtain ⟨node, hnode, hleaf⟩ := map_eq_ok.1 hleaf
  exact ⟨mem_residentMsbPages.2 ⟨⟨c, rfl⟩, subdirectoryPage_inBounds (by omega), hsig⟩, htable,
    node, hnode, hleaf⟩

/-- Of the pages of table `0x701` the one at cluster 8 has the highest number. -/
theorem subdirectory_highest {r : ℕ × Slice .w64} (hr : r ∈ residentMsbPages subdirectory)
    (ht : leU64 r.2 tableIdOffset = 0x701) (hne : r ≠ subdirectoryPage 8) :
    selfBlockOf r < selfBlockOf (subdirectoryPage 8) := by
  have h8 : selfBlockOf (subdirectoryPage 8) = 8 := by decide +kernel
  have hmem := List.mem_map_of_mem
    (f := fun r => (r.1, leU64 r.2 tableIdOffset, selfBlockOf r)) hr
  simp only [subdirectory_pages, List.mem_cons, Prod.mk.injEq, List.not_mem_nil, or_false] at hmem
  rcases hmem with ⟨-, ht', -⟩ | ⟨-, -, h4⟩ | ⟨hoff, -, -⟩ | ⟨-, ht', -⟩
  · omega
  · omega
  · exact absurd (residentMsbPages_inj hr (subdirectory_leaf (.inr rfl)).resident hoff) hne
  · omega

theorem subdirectory_dropped :
    DroppedName subdirectory 0x701 (subdirectoryPage 4) (subdirectoryPage 8) "a" where
  directory := subdirectory_listed
  old := subdirectory_leaf (.inl rfl)
  new := subdirectory_leaf (.inr rfl)
  highest _ := subdirectory_highest
  below := by decide +kernel
  held := by decide +kernel
  dropped := by decide +kernel

/-- Name `a` was dropped from directory `0x701`, and the residue is empty. -/
theorem subdirectory_not_carved :
    DroppedName subdirectory 0x701 (subdirectoryPage 4) (subdirectoryPage 8) "a" ∧
      recoverResidue subdirectory = [] ∧
      ¬∃ s ∈ recoverResidue subdirectory, s.offset = (subdirectoryPage 4).1 ∧ s.tableId = 0x701 ∧
        "a" ∈ s.entries := by
  have hnil : recoverResidue subdirectory = [] := by decide +kernel
  refine ⟨subdirectory_dropped, hnil, ?_⟩
  rw [hnil]
  rintro ⟨s, hs, -⟩
  cases hs

/-- The root directory is not the directory that lost its name. -/
theorem subdirectory_covers :
    DroppedName subdirectory 0x701 (subdirectoryPage 4) (subdirectoryPage 8) "a" ∧
      ((∃ s ∈ recoverResidue subdirectory, s.offset = 4 * 4096 ∧ s.tableId = 0x701 ∧
        "a" ∈ s.entries) ↔ 0x701 = refsRootDirectoryTableId) :=
  ⟨subdirectory_dropped, carver_covers_iff subdirectory_dropped⟩

end RefsForensic.Forensic
