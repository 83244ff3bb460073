import RefsForensic.Rust.Trace
import RefsForensic.Core.Entries
import RefsForensic.Forensic.AuditLaws
import RefsForensic.Forensic.Unreadable

/-!
# Branches declared unreachable

The source marks five branches as unreachable. The functions that have them are run here with these
branches as marks: the sweep of `audit_image`, the two passes of `recover_residue` and
`find_by_path`. `branches_taken_iff` says which marks a run passes: the end of the image cuts off
the last pages of every image with small clusters, and the carver parses pages nobody has parsed
before; the other three branches are never taken.
-/

namespace RefsForensic.Forensic

open Rust

variable {T : Target}

/-- A branch annotated as unreachable. -/
inductive Branch
  | zeroClusterSize
  | pageDoesNotFit
  | currentMissing
  | parseFailure
  | fallThrough
  deriving DecidableEq, Repr

/-! ## The marked functions -/

/-- `sweepClusters`; the `break` is marked. -/
def sweepClustersTraced (image : Slice T) (clusterSize residentCeiling : ℕ) :
    List ℕ → List Anomaly → Traced Branch (List Anomaly)
  | [], out => pure out
  | c :: cs, out =>
    let off := c * clusterSize
    match blockAt image off with
    | none => .passing .pageDoesNotFit out
    | some page =>
      if ¬startsWith page msbSignature then
        sweepClustersTraced image clusterSize residentCeiling cs out
      else
        let selfBlock := leU64 page selfBlockOffset
        if selfBlock < residentCeiling ∧ selfBlock ≠ c then
          sweepClustersTraced image clusterSize residentCeiling cs
            (out ++ [Anomaly.new (.selfBlockMismatch "MSB+" selfBlock c off)])
        else sweepClustersTraced image clusterSize residentCeiling cs out

/-- `sweepResidentSelfBlocks`; the return at cluster size 0 is marked. -/
def sweepResidentSelfBlocksTraced (out : List Anomaly) (image : Slice T) (clusterSize : ℕ) :
    Traced Branch (List Anomaly) :=
  if clusterSize = 0 then .passing .zeroClusterSize out
  else
    let clusters := image.len / clusterSize
    sweepClustersTraced image clusterSize clusters (List.range clusters) out

def auditImageTraced (image : Slice T) : Traced Branch (List Anomaly) :=
  match BootSector.parse image with
  | .error _ =>
    let found := bytesAt 8 image 3
    pure (if found ≠ refsSignature then [Anomaly.new (.bootSignatureInvalid found)] else [])
  | .ok boot =>
    let cluster := boot.clusterSize
    if cluster = 0 ∨ maxSaneClusterSize < cluster then
      pure [Anomaly.new (.impossibleGeometry "cluster_size" cluster maxSaneClusterSize)]
    else
      sweepResidentSelfBlocksTraced (checkSuperblock [] image boot.superblockOffset) image cluster

/-- `carveDirectoryEntries`; the return at a page that does not parse is marked. -/
def carveDirectoryEntriesTraced (page : Slice T) : Traced Branch (List String) :=
  match parseDirectory page with
  | .error _ => .passing .parseFailure []
  | .ok node => pure (node.map DirEntry.name)

def recordVersionTraced (tableId selfBlock : ℕ) (page : Slice T) :
    List CurrentVersion → Traced Branch (List CurrentVersion)
  | [] => do
    let entries ← carveDirectoryEntriesTraced page
    pure [{ tableId, selfBlock, entries }]
  | entry :: current =>
    if entry.tableId = tableId then
      if entry.selfBlock < selfBlock then do
        let entries ← carveDirectoryEntriesTraced page
        pure ({ entry with selfBlock, entries } :: current)
      else pure (entry :: current)
    else do
      let current ← recordVersionTraced tableId selfBlock page current
      pure (entry :: current)

def recordPageTraced (current : List CurrentVersion) (page : Slice T) :
    Traced Branch (List CurrentVersion) :=
  let tableId := leU64 page tableIdOffset
  if tableId ≠ refsRootDirectoryTableId then pure current
  else recordVersionTraced tableId (leU64 page selfBlockOffset) page current

def currentVersionsTraced (image : Slice T) : Traced Branch (List CurrentVersion) :=
  (residentMsbPages image).foldlM (fun current p => recordPageTraced current p.2) []

/-- `surfacePage`; the `continue` at a table without a current version is marked. -/
def surfacePageTraced (current : List CurrentVersion) (off : ℕ) (page : Slice T) :
    Traced Branch (Option StalePage) :=
  let tableId := leU64 page tableIdOffset
  if tableId ≠ refsRootDirectoryTableId then pure none
  else
    let selfBlock := leU64 page selfBlockOffset
    match current.find? (·.tableId = tableId) with
    | none => .passing .currentMissing none
    | some cur =>
      if cur.selfBlock ≤ selfBlock then pure none
      else do
        let entries ← carveDirectoryEntriesTraced page
        let dropped := entries.filter (· ∉ cur.entries)
        if dropped = [] then pure none
        else pure (some { selfBlock, tableId, offset := off, entries := dropped })

/-- The loop of pass 2. -/
def surfacePagesTraced (current : List CurrentVersion) :
    List (ℕ × Slice T) → Traced Branch (List StalePage)
  | [] => pure []
  | p :: ps => do
    let stale ← surfacePageTraced current p.1 p.2
    let out ← surfacePagesTraced current ps
    pure (stale.toList ++ out)

def recoverResidueTraced (image : Slice T) : Traced Branch (List StalePage) := do
  let current ← currentVersionsTraced image
  surfacePagesTraced current (residentMsbPages image)

/-- The loop of `find_by_path` from its component `i` on, of `len` components; the end of the loop
is marked. -/
def findFromTraced (image : Slice T) (len : ℕ) :
    ℕ → ℕ → List String → Traced Branch (Option (ℕ × FileMetadata))
  | _, _, [] => .passing .fallThrough none
  | i, dirId, component :: rest =>
    match (listDir image dirId).toOption.bind (·.find? fun e => e.name = component) with
    | none => pure none
    | some entry =>
      if i + 1 = len then pure (entry.metadata.map fun md => (dirId, md))
      else
        match entry.objectId with
        | none => pure none
        | some id => findFromTraced image len (i + 1) id rest

def findByPathTraced (image : Slice T) (path : String) :
    Traced Branch (Option (ℕ × FileMetadata)) :=
  let components := components path
  if components = [] then pure none
  else findFromTraced image components.length 0 refsRootDirectoryId components

/-- The marked branches that the three programs take on an image and a path. -/
def branchesTaken (image : Slice T) (path : String) : List Branch :=
  (auditImageTraced image).marks ++ (recoverResidueTraced image).marks ++
    (findByPathTraced image path).marks

/-! ## The audit -/

theorem value_sweepClustersTraced (image : Slice T) (clusterSize ceiling : ℕ) (cs : List ℕ)
    (out : List Anomaly) :
    (sweepClustersTraced image clusterSize ceiling cs out).value =
      sweepClusters image clusterSize ceiling cs out := by
  induction cs generalizing out with
  | nil => rfl
  | cons c cs ih =>
    unfold sweepClustersTraced sweepClusters
    cases hpage : blockAt image (c * clusterSize) with
    | none =>
      simp [hpage]
    | some page =>
      simp only [hpage]
      split_ifs <;> exact ih _

theorem value_auditImageTraced (image : Slice T) :
    (auditImageTraced image).value = auditImage image := by
  unfold auditImageTraced auditImage sweepResidentSelfBlocksTraced sweepResidentSelfBlocks
  cases BootSector.parse image with
  | error e =>
    rfl
  | ok boot =>
    simp only
    split_ifs with hsane hzero
    · rfl
    · rfl
    · exact value_sweepClustersTraced ..

/-- The sweep takes the `break` when a page of the clusters ahead does not fit, and no other marked
branch. -/
theorem marks_sweepClustersTraced (image : Slice T) (clusterSize ceiling : ℕ) (cs : List ℕ)
    (out : List Anomaly) :
    (sweepClustersTraced image clusterSize ceiling cs out).marks =
      if ∃ c ∈ cs, image.len < c * clusterSize + refsMetadataPageSize then [.pageDoesNotFit]
      else [] := by
  induction cs generalizing out with
  | nil => simp [sweepClustersTraced]
  | cons c cs ih =>
    unfold sweepClustersTraced
    cases hpage : blockAt image (c * clusterSize) with
    | none =>
      have hout := Slice.getRange_eq_none.1 ((blockAt_eq ..).symm.trans hpage)
      rw [if_pos ⟨c, List.mem_cons_self, by omega⟩]
      simp only [hpage, Traced.marks_passing]
    | some page =>
      have hfits := (Slice.getRange_eq_some.1 ((blockAt_eq ..).symm.trans hpage)).choose.2
      have hcons : (∃ d ∈ c :: cs, image.len < d * clusterSize + refsMetadataPageSize) ↔
          ∃ d ∈ cs, image.len < d * clusterSize + refsMetadataPageSize := by
        rw [List.exists_mem_cons_iff, or_iff_right (not_lt.2 hfits)]
      simp only [hpage, hcons, apply_ite Traced.marks, ih, ite_self]

/-- The image ends within the page of one of the clusters that the sweep of `audit_image` goes
through. -/
structure CutsPage (image : Slice T) (boot : BootSector) : Prop where
  parses : BootSector.parse image = .ok boot
  sane : boot.clusterSize ≠ 0 ∧ boot.clusterSize ≤ maxSaneClusterSize
  cut : ∃ c < image.len / boot.clusterSize,
    image.len < c * boot.clusterSize + refsMetadataPageSize

theorem marks_auditImageTraced (image : Slice T) :
    (auditImageTraced image).marks = [] ∧ (¬∃ boot, CutsPage image boot) ∨
      (auditImageTraced image).marks = [.pageDoesNotFit] ∧ ∃ boot, CutsPage image boot := by
  unfold auditImageTraced
  cases hboot : BootSector.parse image with
  | error e =>
    refine .inl ⟨rfl, ?_⟩
    rintro ⟨boot, h⟩
    cases hboot.symm.trans h.parses
  | ok boot =>
    simp only
    by_cases hsane : boot.clusterSize = 0 ∨ maxSaneClusterSize < boot.clusterSize
    · refine .inl ⟨by rw [if_pos hsane]; rfl, ?_⟩
      rintro ⟨boot', h⟩
      obtain rfl := Except.ok.inj (hboot.symm.trans h.parses)
      rcases hsane with hzero | hbig
      · exact h.sane.1 hzero
      · exact absurd h.sane.2 (not_le.2 hbig)
    · -- the geometry check keeps the sweep from a cluster size of 0
      rw [if_neg hsane]
      rw [not_or, not_lt] at hsane
      rw [sweepResidentSelfBlocksTraced, if_neg hsane.1]
      simp only [marks_sweepClustersTraced, List.mem_range]
      split_ifs with hcut
      · exact .inr ⟨rfl, boot, hboot, hsane, hcut⟩
      · refine .inl ⟨rfl, ?_⟩
        rintro ⟨boot', h⟩
        obtain rfl := Except.ok.inj (hboot.symm.trans h.parses)
        exact hcut h.cut

/-! ## The carver -/

theorem value_carveDirectoryEntriesTraced (page : Slice T) :
    (carveDirectoryEntriesTraced page).value = carveDirectoryEntries page := by
  unfold carveDirectoryEntriesTraced carveDirectoryEntries
  cases parseDirectory page with
  | error e => rfl
  | ok entries => rfl

theorem marks_carveDirectoryEntriesTraced (page : Slice T) :
    (carveDirectoryEntriesTraced page).marks =
      if nodeParses page then [] else [.parseFailure] := by
  unfold carveDirectoryEntriesTraced nodeParses
  cases hparse : MinstorePage.parse page with
  | error e =>
    rw [parseDirectory_of_error hparse]
    rfl
  | ok node =>
    rw [parseDirectory_of_parse hparse]
    rfl

theorem value_recordVersionTraced (tableId selfBlock : ℕ) (page : Slice T)
    (current : List CurrentVersion) :
    (recordVersionTraced tableId selfBlock page current).value =
      recordVersion tableId selfBlock page current := by
  induction current with
  | nil => simp [recordVersionTraced, recordVersion, value_carveDirectoryEntriesTraced]
  | cons entry current ih =>
    unfold recordVersionTraced recordVersion
    split_ifs
    · simp [value_carveDirectoryEntriesTraced]
    · simp
    · simp [ih]

theorem value_recordPageTraced (current : List CurrentVersion) (page : Slice T) :
    (recordPageTraced current page).value = recordPage current page := by
  unfold recordPageTraced recordPage
  simp only
  split_ifs
  · rfl
  · exact value_recordVersionTraced ..

theorem value_currentVersionsTraced (image : Slice T) :
    (currentVersionsTraced image).value = currentVersions image := by
  unfold currentVersionsTraced currentVersions
  refine Traced.value_foldlM (fun current (p : ℕ × Slice T) => ?_) _ _
  exact value_recordPageTraced current p.2

theorem value_surfacePageTraced (current : List CurrentVersion) (off : ℕ) (page : Slice T) :
    (surfacePageTraced current off page).value = surfacePage current off page := by
  unfold surfacePageTraced surfacePage
  simp only
  split_ifs
  · rfl
  · cases current.find? (·.tableId = leU64 page tableIdOffset) with
    | none => rfl
    | some cur =>
      by_cases hle : cur.selfBlock ≤ leU64 page selfBlockOffset
      · simp only [hle, if_true, Traced.value_pure]
      · simp only [hle, if_false, Traced.value_bind, value_carveDirectoryEntriesTraced]
        split_ifs
        · rfl
        · rfl

theorem value_surfacePagesTraced (current : List CurrentVersion) (ps : List (ℕ × Slice T)) :
    (surfacePagesTraced current ps).value =
      ps.filterMap fun p => surfacePage current p.1 p.2 := by
  induction ps with
  | nil => rfl
  | cons p ps ih =>
    simp only [surfacePagesTraced, Traced.value_bind, Traced.value_pure, ih,
      value_surfacePageTraced]
    rw [List.filterMap_cons]
    cases surfacePage current p.1 p.2 with
    | none => rfl
    | some stale => rfl

theorem value_recoverResidueTraced (image : Slice T) :
    (recoverResidueTraced image).value = recoverResidue image := by
  rw [recoverResidueTraced, Traced.value_bind, value_surfacePagesTraced,
    value_currentVersionsTraced, recoverResidue]

/-- Of the root-table pages `ps` the carver parses one that does not parse: the current version, or
one numbered below it. -/
def CarvesUnreadable (ps : List (ℕ × Slice T)) : Prop :=
  ∃ k, ps.argmax selfBlockOf = some k ∧
    ∃ p ∈ ps, nodeParses p.2 = false ∧ (p = k ∨ selfBlockOf p < selfBlockOf k)

/-- The root-table pages among `ps`. -/
def rootTableOf (ps : List (ℕ × Slice T)) : List (ℕ × Slice T) :=
  ps.filter fun p => leU64 p.2 tableIdOffset = refsRootDirectoryTableId

theorem mem_marks_carveDirectoryEntriesTraced {page : Slice T} {b : Branch} :
    b ∈ (carveDirectoryEntriesTraced page).marks ↔
      b = .parseFailure ∧ nodeParses page = false := by
  rw [marks_carveDirectoryEntriesTraced]
  cases nodeParses page with
  | false => simp
  | true => simp

/-- Pass 1 parses a root-table page that takes over. -/
theorem marks_recordPageTraced_of_rootTable (k : Option (ℕ × Slice T)) {p : ℕ × Slice T}
    (ht : leU64 p.2 tableIdOffset = refsRootDirectoryTableId) :
    (recordPageTraced (k.map .ofPage).toList p.2).marks =
      if ∀ k₀ ∈ k, selfBlockOf k₀ < selfBlockOf p then (carveDirectoryEntriesTraced p.2).marks
      else [] := by
  unfold recordPageTraced
  simp only [ht, ne_eq, not_true_eq_false, if_false]
  cases k with
  | none =>
    simp [recordVersionTraced]
  | some k =>
    change (recordVersionTraced refsRootDirectoryTableId (selfBlockOf p) p.2 [.ofPage k]).marks = _
    unfold recordVersionTraced
    by_cases hlt : selfBlockOf k < selfBlockOf p
    · simp [CurrentVersion.ofPage, hlt]
    · simp [CurrentVersion.ofPage, hlt]

theorem marks_recordPageTraced_of_ne (current : List CurrentVersion) {p : ℕ × Slice T}
    (ht : leU64 p.2 tableIdOffset ≠ refsRootDirectoryTableId) :
    (recordPageTraced current p.2).marks = [] := by
  rw [recordPageTraced, if_pos ht, Traced.marks_pure]

theorem value_foldlM_recordPageTraced (ps : List (ℕ × Slice T)) :
    (ps.foldlM (fun current p => recordPageTraced current p.2) []).value =
      (((rootTableOf ps).argmax selfBlockOf).map .ofPage).toList := by
  rw [Traced.value_foldlM fun current (p : ℕ × Slice T) => value_recordPageTraced current p.2]
  exact foldl_recordPage ps

theorem rootTableOf_snoc (ps : List (ℕ × Slice T)) (p : ℕ × Slice T) :
    rootTableOf (ps ++ [p]) = if leU64 p.2 tableIdOffset = refsRootDirectoryTableId
      then rootTableOf ps ++ [p] else rootTableOf ps := by
  unfold rootTableOf
  rw [List.filter_append]
  split_ifs with ht
  · rw [List.filter_cons_of_pos (by simpa using ht), List.filter_nil]
  · rw [List.filter_cons_of_neg (by simpa using ht), List.filter_nil, List.append_nil]

theorem CarvesUnreadable.snoc {ps : List (ℕ × Slice T)} (h : CarvesUnreadable ps)
    (p : ℕ × Slice T) : CarvesUnreadable (ps ++ [p]) := by
  obtain ⟨k, hk, q, hq, hparses, hle⟩ := h
  have hqk := List.le_of_mem_argmax hq hk
  refine ⟨takeOver (some k) p, by rw [argmax_snoc, hk], q, List.mem_append_left _ hq, hparses, ?_⟩
  unfold takeOver
  by_cases hlt : selfBlockOf k < selfBlockOf p
  · simp only [hlt, if_true]
    exact .inr (by omega)
  · simp only [hlt, if_false]
    exact hle

/-- Pass 1 takes no marked branch but the one of the carver. -/
theorem carvesUnreadable_of_mem_marks {ps : List (ℕ × Slice T)} {b : Branch}
    (hb : b ∈ (ps.foldlM (fun current p => recordPageTraced current p.2) []).marks) :
    b = .parseFailure ∧ CarvesUnreadable (rootTableOf ps) := by
  induction ps using List.reverseRecOn with
  | nil => cases hb
  | append_singleton ps p ih =>
    rw [Traced.marks_foldlM_snoc, value_foldlM_recordPageTraced, List.mem_append] at hb
    rw [rootTableOf_snoc]
    by_cases ht : leU64 p.2 tableIdOffset = refsRootDirectoryTableId
    · rw [if_pos ht]
      rcases hb with hb | hb
      · exact ⟨(ih hb).1, (ih hb).2.snoc p⟩
      · -- the page takes over and does not parse
        rw [marks_recordPageTraced_of_rootTable _ ht] at hb
        split_ifs at hb with htakes
        · obtain ⟨rfl, hparses⟩ := mem_marks_carveDirectoryEntriesTraced.1 hb
          refine ⟨rfl, p, ?_, p, by simp, hparses, .inl rfl⟩
          rw [argmax_snoc]
          cases hk : (rootTableOf ps).argmax selfBlockOf with
          | none =>
            rfl
          | some k =>
            rw [takeOver, if_pos (htakes k hk)]
        · cases hb
    · rw [if_neg ht]
      rw [marks_recordPageTraced_of_ne _ ht] at hb
      exact ih (hb.resolve_right List.not_mem_nil)

/-- Pass 1 has parsed the current version. -/
theorem mem_marks_of_current {ps : List (ℕ × Slice T)} {k : ℕ × Slice T}
    (hk : (rootTableOf ps).argmax selfBlockOf = some k) (hparses : nodeParses k.2 = false) :
    .parseFailure ∈ (ps.foldlM (fun current p => recordPageTraced current p.2) []).marks := by
  induction ps using List.reverseRecOn generalizing k with
  | nil => cases hk
  | append_singleton ps p ih =>
    rw [Traced.marks_foldlM_snoc, value_foldlM_recordPageTraced, List.mem_append]
    rw [rootTableOf_snoc] at hk
    by_cases ht : leU64 p.2 tableIdOffset = refsRootDirectoryTableId
    · rw [if_pos ht, argmax_snoc] at hk
      obtain rfl := Option.some.inj hk
      rw [marks_recordPageTraced_of_rootTable _ ht]
      cases hmax : (rootTableOf ps).argmax selfBlockOf with
      | none =>
        rw [hmax] at hparses
        rw [if_pos (by simp)]
        exact .inr (mem_marks_carveDirectoryEntriesTraced.2 ⟨rfl, hparses⟩)
      | some k₀ =>
        rw [hmax] at hparses
        unfold takeOver at hparses
        by_cases hlt : selfBlockOf k₀ < selfBlockOf p
        · simp only [hlt, if_true] at hparses
          rw [if_pos (by simpa using hlt)]
          exact .inr (mem_marks_carveDirectoryEntriesTraced.2 ⟨rfl, hparses⟩)
        · simp only [hlt, if_false] at hparses
          exact .inl (ih hmax hparses)
    · rw [if_neg ht] at hk
      exact .inl (ih hk hparses)

/-- Pass 2 parses the root-table pages numbered below the current version. -/
theorem mem_marks_surfacePageTraced {k p : ℕ × Slice T} {b : Branch} :
    b ∈ (surfacePageTraced [.ofPage k] p.1 p.2).marks ↔
      b = .parseFailure ∧ leU64 p.2 tableIdOffset = refsRootDirectoryTableId ∧
        selfBlockOf p < selfBlockOf k ∧ nodeParses p.2 = false := by
  unfold surfacePageTraced
  by_cases ht : leU64 p.2 tableIdOffset = refsRootDirectoryTableId
  · have hpage : leU64 p.2 selfBlockOffset = selfBlockOf p := rfl
    have hblock : (CurrentVersion.ofPage k).selfBlock = selfBlockOf k := rfl
    simp only [ht, ne_eq, not_true_eq_false, if_false, find?_ofPage, hpage, hblock, true_and]
    by_cases hle : selfBlockOf k ≤ selfBlockOf p
    · simp [hle, not_lt.2 hle]
    · have hmarks : ∀ entries : List String, (if entries.filter (· ∉ (CurrentVersion.ofPage
          k).entries) = [] then (pure none : Traced Branch (Option StalePage)) else
          pure (some ⟨selfBlockOf p, refsRootDirectoryTableId, p.1,
            entries.filter (· ∉ (CurrentVersion.ofPage k).entries)⟩)).marks = [] := by
        intro entries
        split_ifs
        · rfl
        · rfl
      simp only [hle, if_false, Traced.marks_bind, hmarks, List.append_nil,
        mem_marks_carveDirectoryEntriesTraced, not_le.1 hle, true_and]
  · simp [ht]

theorem mem_marks_surfacePagesTraced {current : List CurrentVersion} {ps : List (ℕ × Slice T)}
    {b : Branch} :
    b ∈ (surfacePagesTraced current ps).marks ↔
      ∃ p ∈ ps, b ∈ (surfacePageTraced current p.1 p.2).marks := by
  induction ps with
  | nil => simp [surfacePagesTraced]
  | cons p ps ih =>
    simp only [surfacePagesTraced, Traced.marks_bind, Traced.marks_pure, List.append_nil,
      List.mem_append, ih, List.exists_mem_cons_iff]

/-- The carver takes the return of a page that does not parse for the pages it carves, and no other
marked branch: pass 2 finds the current version of every table it sees. -/
theorem mem_marks_recoverResidueTraced {image : Slice T} {b : Branch} :
    b ∈ (recoverResidueTraced image).marks ↔
      b = .parseFailure ∧ CarvesUnreadable (rootTablePages image) := by
  rw [recoverResidueTraced, Traced.marks_bind, List.mem_append, value_currentVersionsTraced,
    currentVersions_eq, mem_marks_surfacePagesTraced]
  cases hk : currentPage image with
  | none =>
    have hnil : rootTablePages image = [] := List.argmax_eq_none.1 hk
    constructor
    · rintro (hb | ⟨p, hp, hb⟩)
      · exact carvesUnreadable_of_mem_marks hb
      · -- no page of the table, so pass 2 has nothing to look up
        have ht : ¬leU64 p.2 tableIdOffset = refsRootDirectoryTableId := by
          simpa using List.filter_eq_nil_iff.1 hnil p hp
        rw [surfacePageTraced, if_pos ht] at hb
        cases hb
    · rintro ⟨-, k, hk', -⟩
      cases hk.symm.trans hk'
  | some k =>
    simp only [Option.map_some, Option.toList_some, mem_marks_surfacePageTraced]
    constructor
    · rintro (hb | ⟨p, hp, rfl, ht, hlt, hparses⟩)
      · exact carvesUnreadable_of_mem_marks hb
      · exact ⟨rfl, k, hk, p, mem_rootTablePages.2 ⟨hp, ht⟩, hparses, .inr hlt⟩
    · rintro ⟨rfl, k', hk', p, hp, hparses, hle⟩
      obtain rfl := Option.some.inj (hk.symm.trans hk')
      rcases hle with rfl | hlt
      · exact .inl (mem_marks_of_current hk hparses)
      · obtain ⟨hp, ht⟩ := mem_rootTablePages.1 hp
        exact .inr ⟨p, hp, rfl, ht, hlt, hparses⟩

/-! ## Paths -/

/-- The last component ends the loop, so its end is not reached. -/
theorem findFromTraced_eq (image : Slice T) {len i : ℕ} (dirId : ℕ) {pieces : List String}
    (hlen : i + pieces.length = len) (hne : pieces ≠ []) :
    (findFromTraced image len i dirId pieces).value = findFrom image dirId pieces ∧
      (findFromTraced image len i dirId pieces).marks = [] := by
  induction pieces generalizing i dirId with
  | nil => exact absurd rfl hne
  | cons component rest ih =>
    rw [List.length_cons] at hlen
    have hlast : i + 1 = len ↔ rest = [] := by
      rw [← List.length_eq_zero_iff]
      omega
    unfold findFromTraced findFrom
    rw [Option.bind_eq_bind, Option.bind_eq_bind, ← Option.bind_assoc]
    cases (listDir image dirId).toOption.bind (·.find? fun e => e.name = component) with
    | none => exact ⟨rfl, rfl⟩
    | some entry =>
      simp only [Option.bind_some, hlast]
      by_cases hrest : rest = []
      · simp [hrest]
      · simp only [hrest, if_false]
        cases entry.objectId with
        | none => exact ⟨rfl, rfl⟩
        | some id => exact ih id (by omega) hrest

theorem findByPathTraced_eq (image : Slice T) (path : String) :
    (findByPathTraced image path).value = findByPath image path ∧
      (findByPathTraced image path).marks = [] := by
  unfold findByPathTraced findByPath
  simp only
  split_ifs with hnil
  · exact ⟨rfl, rfl⟩
  · exact findFromTraced_eq image _ (Nat.zero_add _) hnil

/-! ## All branches -/

/-- **When no branch declared unreachable is taken**: the marked programs return what the programs
return. The `break` of the sweep is taken when the image ends within the page of a cluster, the
return of the carver when a page it parses is malformed, and the other three never. -/
theorem branches_taken_iff (image : Slice T) (path : String) :
    ((auditImageTraced image).value = auditImage image ∧
      (recoverResidueTraced image).value = recoverResidue image ∧
      (findByPathTraced image path).value = findByPath image path) ∧
    (∀ b, b ∈ branchesTaken image path ↔
      b = .pageDoesNotFit ∧ (∃ boot, CutsPage image boot) ∨
        b = .parseFailure ∧ CarvesUnreadable (rootTablePages image)) ∧
    (branchesTaken image path = [] ↔
      (¬∃ boot, CutsPage image boot) ∧ ¬CarvesUnreadable (rootTablePages image)) := by
  have hpath := findByPathTraced_eq image path
  have hmem : ∀ b, b ∈ branchesTaken image path ↔
      b = .pageDoesNotFit ∧ (∃ boot, CutsPage image boot) ∨
        b = .parseFailure ∧ CarvesUnreadable (rootTablePages image) := by
    intro b
    rw [branchesTaken, hpath.2, List.append_nil, List.mem_append, mem_marks_recoverResidueTraced]
    rcases marks_auditImageTraced image with ⟨hmarks, hcut⟩ | ⟨hmarks, hcut⟩
    · simp [hmarks, hcut]
    · simp [hmarks, hcut]
  refine ⟨⟨value_auditImageTraced image, value_recoverResidueTraced image, hpath.1⟩, hmem, ?_⟩
  rw [List.eq_nil_iff_forall_not_mem]
  constructor
  · intro h
    exact ⟨fun hcut => h _ ((hmem .pageDoesNotFit).2 (.inl ⟨rfl, hcut⟩)),
      fun hcarves => h _ ((hmem .parseFailure).2 (.inr ⟨rfl, hcarves⟩))⟩
  · rintro ⟨hcut, hcarves⟩ b hb
    rcases (hmem b).1 hb with ⟨-, h⟩ | ⟨-, h⟩
    · exact hcut h
    · exact hcarves h

/-- The audit of `plainVolume` ends with the `break`, and the carver takes its return at the page
planted in `plantedPage`. -/
theorem plainVolume_branches :
    .pageDoesNotFit ∈ branchesTaken plainVolume "/" ∧
      .parseFailure ∈ branchesTaken plantedPage "/" ∧
      ¬∀ (image : Slice .w64) path, branchesTaken image path = [] := by
  have hcut : .pageDoesNotFit ∈ (auditImageTraced plainVolume).marks := by decide +kernel
  have hcarve : .parseFailure ∈ (recoverResidueTraced plantedPage).marks := by decide +kernel
  have htaken : .pageDoesNotFit ∈ branchesTaken plainVolume "/" :=
    List.mem_append_left _ (List.mem_append_left _ hcut)
  refine ⟨htaken, List.mem_append_left _ (List.mem_append_right _ hcarve), fun h => ?_⟩
  rw [h] at htaken
  exact List.not_mem_nil htaken

end RefsForensic.Forensic
