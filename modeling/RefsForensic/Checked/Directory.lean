import RefsForensic.Checked.Tables
import RefsForensic.Core.Resolution

/-!
# Directories, with overflow checks

`core/src/directory.rs` as computations that may panic. The offset a resolver returns need not lie
in the image, but with the bands of a walk it lies at most a band beyond it (`Near`), which leaves
room for a page on both pointer widths. `descend` is given its stack frames and has 65 to spend:
one for each of the 64 levels and one for the call that finds the levels used up.
-/

namespace RefsForensic.Checked

open Rust Exec

variable {T : Target}

/-! ## Entries -/

/-- The unit of a two-byte chunk. -/
def utf16Unit (chunk : List UInt8) : Exec ℕ := do
  let lo ← index chunk 0
  let hi ← index chunk 1
  .ok (lo.toNat + 256 * hi.toNat)

/-- `decode_utf16le`. -/
def decodeUtf16le (bytes : Slice T) : Exec String := do
  let units ← (chunksExact2 bytes.toList).mapM utf16Unit
  .ok (String.ofList ((decodeUtf16 units).map (·.getD replacementCharacter)))

/-- `parse_metadata`. -/
def parseMetadata (value : Slice T) (isDirectory : Bool) : Exec FileMetadata :=
  if isDirectory then do
    let created ← leU64 value 16
    let modified ← leU64 value 24
    let changed ← leU64 value 32
    let accessed ← leU64 value 40
    let attributes ← leU32 value 64
    .ok {
      size := 0
      allocated := 0
      created := created.1
      modified := modified.1
      accessed := accessed.1
      changed := changed.1
      attributes := attributes.1
      isDirectory := true }
  else do
    let size ← leU64 value 64
    let allocated ← leU64 value 72
    let created ← leU64 value 0
    let modified ← leU64 value 8
    let changed ← leU64 value 16
    let accessed ← leU64 value 24
    let attributes ← leU32 value 32
    .ok {
      size := size.1
      allocated := allocated.1
      created := created.1
      modified := modified.1
      accessed := accessed.1
      changed := changed.1
      attributes := attributes.1
      isDirectory := false }

/-- The object id and the metadata of an entry, by its type. -/
def entryValue (entryType : ℕ) (value : Slice T) : Exec (Option ℕ × Option FileMetadata) :=
  if entryType = entryTypeDirectory then do
    let objectId ← leU64 value 0
    let metadata ← parseMetadata value true
    .ok (some objectId.1, some metadata)
  else if entryType = entryTypeFile then do
    let metadata ← parseMetadata value false
    .ok (none, some metadata)
  else .ok (none, none)

/-- One row of the loop of `collect_entries`. -/
def entryOfRow (row : MinstoreRow T) : Exec (Option DirEntry) := do
  let recordType ← leU16 row.key 0
  if recordType.1 ≠ recordTypeEntry then .ok none
  else
    let entryType ← leU16 row.key 2
    let name ← decodeUtf16le ((row.key.getFrom 4).getD Slice.empty)
    let (objectId, metadata) ← entryValue entryType.1 row.value
    .ok (some { name, isDirectory := entryType.1 = entryTypeDirectory, objectId, metadata })

/-- `collect_entries`. -/
def collectEntries (node : MinstorePage T) (out : List DirEntry) : Exec (List DirEntry) := do
  let entries ← (← MinstorePage.rows node).filterMapM entryOfRow
  .ok (out ++ entries)

/-- `parse_directory`. -/
def parseDirectory (page : Slice T) : Exec (Except RefsError (List DirEntry)) := do
  tryResult (← MinstorePage.parse page) fun node => do
  let out ← collectEntries node []
  .ok (.ok out)

/-- A chunk of `chunks_exact(2)` has both its bytes. -/
theorem utf16Units_ok : ∀ l : List UInt8, (chunksExact2 l).mapM utf16Unit = .ok (utf16Units l)
  | [] => rfl
  | [_] => rfl
  | lo :: hi :: l => by
    rw [chunksExact2, List.mapM_cons]
    exact bind_ok rfl (bind_ok (utf16Units_ok l) rfl)

theorem decodeUtf16le_ok (bytes : Slice T) :
    decodeUtf16le bytes = .ok (RefsForensic.decodeUtf16le bytes) :=
  bind_ok (utf16Units_ok _) rfl

theorem parseMetadata_ok (value : Slice T) (isDirectory : Bool) :
    parseMetadata value isDirectory = .ok (RefsForensic.parseMetadata value isDirectory) := by
  have hT := T.le_usizeMax
  refine ite_ok (fun _ => ?_) fun _ => ?_
  · exact bind_ok (leU64_ok (by omega)) <| bind_ok (leU64_ok (by omega)) <|
      bind_ok (leU64_ok (by omega)) <| bind_ok (leU64_ok (by omega)) <|
      bind_ok (leU32_ok (by omega)) rfl
  · exact bind_ok (leU64_ok (by omega)) <| bind_ok (leU64_ok (by omega)) <|
      bind_ok (leU64_ok (by omega)) <| bind_ok (leU64_ok (by omega)) <|
      bind_ok (leU64_ok (by omega)) <| bind_ok (leU64_ok (by omega)) <|
      bind_ok (leU32_ok (by omega)) rfl

theorem entryOfRow_ok (row : MinstoreRow T) :
    entryOfRow row = .ok (RefsForensic.entryOfRow row) := by
  have hT := T.le_usizeMax
  unfold entryOfRow RefsForensic.entryOfRow
  refine bind_ok (leU16_ok (by omega)) (ite_ok (fun _ => rfl) fun _ => ?_)
  refine bind_ok (leU16_ok (by omega)) (bind_ok (decodeUtf16le_ok _) ?_)
  refine bind_ok (ite_ok (fun _ => ?_) fun _ => ite_ok (fun _ => ?_) fun _ => rfl) rfl
  · exact bind_ok (leU64_ok (by omega)) (bind_ok (parseMetadata_ok ..) rfl)
  · exact bind_ok (parseMetadata_ok ..) rfl

theorem collectEntries_ok (node : MinstorePage T) (out : List DirEntry) :
    collectEntries node out = .ok (RefsForensic.collectEntries node out) :=
  bind_ok (MinstorePage.rows_ok node) <| bind_ok (filterMapM_ok fun row _ => entryOfRow_ok row) rfl

theorem parseDirectory_ok (page : Slice T) :
    parseDirectory page = .ok (RefsForensic.parseDirectory page) := by
  apply bind_ok (MinstorePage.parse_ok page)
  unfold RefsForensic.parseDirectory
  apply tryResult_ok
  · intro e he
    rw [he]
    rfl
  · intro node hnode
    rw [hnode]
    exact bind_ok (collectEntries_ok node []) rfl

/-! ## Block resolution -/

/-- `resident_block_offset`. -/
def residentBlockOffset (T : Target) (block imageLen : ℕ) : Exec (Option ℕ) :=
  if residentVirtualBase ≤ block then do
    let low ← sub block residentVirtualBase
    .ok (firstFitting T imageLen [low, block])
  else .ok (firstFitting T imageLen [block])

/-- `object_table`. -/
def objectTable (image : Slice T) : Exec (Except RefsError (ObjectTable T)) :=
  match (T.tryFrom objectTableCluster).bind fun c => checkedMul T.usizeMax c refsClusterSize with
  | none => .ok (.error (.truncated "object table (offset overflow)" T.usizeMax image.len))
  | some off =>
    match image.getFrom off with
    | none => .ok (.error (.truncated "object table page" off image.len))
    | some page => ObjectTable.parse page

/-- `page_answers_block`. -/
def pageAnswersBlock (image : Slice T) (off block : ℕ) : Exec Bool := do
  let stop ← add T.usizeMax off refsMetadataPageSize
  match image.getRange off stop with
  | none => .ok false
  | some page =>
    if startsWith page msbSignature then do
      let selfBlock ← leU64 page selfBlockOffset
      .ok (selfBlock.1 = block)
    else .ok false

/-- One strategy of `resolve_block_offset`: its candidate, if the page there answers. -/
def answering (image : Slice T) (block : ℕ) : Option ℕ → Exec (Option ℕ)
  | none => .ok none
  | some off => do
    if ← pageAnswersBlock image off block then .ok (some off) else .ok none

/-- `resolve_block_offset`. -/
def resolveBlockOffset (image : Slice T) (resolver : ContainerResolver) (block : ℕ) :
    Exec (Option ℕ) := do
  let resolved ← ContainerResolver.resolveVirtual resolver block
  match ← answering image block (resolved.bind T.tryFrom) with
  | some off => .ok (some off)
  | none => do answering image block (← residentBlockOffset T block image.len)

/-- `read_page`. -/
def readPage (image : Slice T) (resolver : ContainerResolver) (block : ℕ) :
    Exec (Except RefsError (Slice T)) := do
  match ← resolveBlockOffset image resolver block with
  | none => .ok (.error (.unresolvedVirtualBlock block))
  | some off =>
    let stop ← add T.usizeMax off refsMetadataPageSize
    let need ← add T.usizeMax off refsMetadataPageSize
    match image.getRange off stop with
    | none => .ok (.error (.truncated "directory page" need image.len))
    | some page => .ok (.ok page)

theorem residentBlockOffset_ok (T : Target) (block imageLen : ℕ) :
    residentBlockOffset T block imageLen =
      .ok (RefsForensic.residentBlockOffset T block imageLen) := by
  unfold residentBlockOffset RefsForensic.residentBlockOffset
  split_ifs with h
  · exact bind_ok (sub_ok h) rfl
  · rfl

theorem objectTable_ok (image : Slice T) :
    objectTable image = .ok (RefsForensic.objectTable image) := by
  unfold objectTable RefsForensic.objectTable
  rcases (T.tryFrom objectTableCluster).bind fun c => checkedMul T.usizeMax c refsClusterSize with
    _ | off
  · rfl
  dsimp only
  cases image.getFrom off with
  | none =>
    rfl
  | some page =>
    exact ObjectTable.parse_ok page

theorem pageAnswersBlock_ok {image : Slice T} {off : ℕ} (block : ℕ)
    (h : off + refsMetadataPageSize ≤ T.usizeMax) :
    pageAnswersBlock image off block = .ok (RefsForensic.pageAnswersBlock image off block) := by
  have hT := T.le_usizeMax
  unfold pageAnswersBlock RefsForensic.pageAnswersBlock
  apply bind_ok (add_ok h)
  rcases image.getRange off (off + refsMetadataPageSize) with _ | page
  · rfl
  dsimp only
  split_ifs with hs
  · apply bind_ok (leU64_ok (by unfold selfBlockOffset; omega))
    simp [hs]
  · simp [hs]

theorem answering_ok {image : Slice T} (block : ℕ) {o : Option ℕ}
    (h : ∀ off, o = some off → off + refsMetadataPageSize ≤ T.usizeMax) :
    answering image block o = .ok (o.filter (RefsForensic.pageAnswersBlock image · block)) := by
  cases o with
  | none =>
    rfl
  | some off =>
    apply bind_ok (pageAnswersBlock_ok block (h off rfl))
    simp only [Option.filter]
    split_ifs <;> rfl

/-- A page at any offset `resolver` computes ends within `usize`. -/
def Near (T : Target) (resolver : ContainerResolver) : Prop :=
  ∀ block off, resolver.resolveVirtual block = some off → off + refsMetadataPageSize ≤ T.usizeMax

/-- The resolver of a walk computes offsets at most a band beyond the page that witnessed the
container. -/
theorem near_fromResidentImage (image : Slice T) :
    Near T (RefsForensic.ContainerResolver.fromResidentImage image defaultBandClusters) := by
  intro block off h
  obtain ⟨c, s, hw, rfl, -⟩ := (resolveVirtual_eq_some (by decide)).1 h
  obtain ⟨page, hpage⟩ := hw.page
  have hle := hpage.le
  have hlen := image.len_le
  have hroom := T.isizeMax_add_le
  have hband : block % defaultBandClusters < 16384 := Nat.mod_lt _ (by decide)
  have hbase := Nat.sub_le c (s % defaultBandClusters)
  generalize c - s % defaultBandClusters = base at hbase ⊢
  generalize block % defaultBandClusters = offInBand at hband ⊢
  have hcluster : refsClusterSize = 4096 := rfl
  rw [hcluster] at hle ⊢
  linarith

theorem resolveBlockOffset_ok (image : Slice T) {resolver : ContainerResolver}
    (hnear : Near T resolver) (block : ℕ) :
    resolveBlockOffset image resolver block =
      .ok (RefsForensic.resolveBlockOffset image resolver block) := by
  have hlen := image.len_le
  have hroom := T.isizeMax_add_le
  unfold resolveBlockOffset RefsForensic.resolveBlockOffset
  apply bind_ok (ContainerResolver.resolveVirtual_ok ..)
  refine bind_ok (answering_ok block fun off hoff => ?_) ?_
  · obtain ⟨off', hoff', ht⟩ := Option.bind_eq_some_iff.1 hoff
    obtain ⟨-, rfl⟩ := Target.tryFrom_eq_some.1 ht
    exact hnear block off hoff'
  · cases ((resolver.resolveVirtual block).bind T.tryFrom).filter
      (RefsForensic.pageAnswersBlock image · block) with
    | none =>
      refine bind_ok (residentBlockOffset_ok ..) (answering_ok block fun off hoff => ?_)
      have := ((residentBlockOffset_eq_some hlen).1 hoff).2
      omega
    | some off =>
      rfl

theorem readPage_ok (image : Slice T) {resolver : ContainerResolver} (hnear : Near T resolver)
    (block : ℕ) :
    readPage image resolver block = .ok (RefsForensic.readPage image resolver block) := by
  have hlen := image.len_le
  have hroom := T.isizeMax_add_le
  unfold readPage RefsForensic.readPage
  apply bind_ok (resolveBlockOffset_ok image hnear block)
  rcases hr : RefsForensic.resolveBlockOffset image resolver block with _ | off
  · rfl
  obtain ⟨page, hp⟩ := pageAnswersBlock_iff.1 (answers_of_resolve hr)
  have := (Slice.getRange_eq_some.1 hp.inBounds).choose
  refine bind_ok (add_ok (by omega)) (bind_ok (add_ok (by omega)) ?_)
  dsimp only
  rw [hp.inBounds]

/-! ## Descent -/

/-- The rows of a branch node, given the call for one child. -/
def descendRows (visit : ℕ → Descent → Exec (Descent × Except RefsError Unit)) :
    List (MinstoreRow T) → Descent → Exec (Descent × Except RefsError Unit)
  | [], s => .ok (s, .ok ())
  | row :: rows, s =>
    match row.value.getRange 0 8 with
    | none => descendRows visit rows s
    | some childBytes => do
      let child ← leU64 childBytes 0
      match ← visit child.1 s with
      | (s, .ok ()) => descendRows visit rows s
      | (s, .error e) => .ok (s, .error e)

/-- `descend` with the stack frames it may use. -/
def descend (image : Slice T) (resolver : ContainerResolver) :
    ℕ → ℕ → ℕ → Descent → Exec (Descent × Except RefsError Unit)
  | 0, _, _, _ => .error .stackOverflow
  | frames + 1, block, depth, s =>
    if maxDescentDepth ≤ depth ∨ maxVisitedPages ≤ s.visited.length then .ok (s, .ok ())
    else if block ∈ s.visited then .ok (s, .ok ())
    else do
      let s := { s with visited := s.visited ++ [block] }
      match ← readPage image resolver block with
      | .error e => .ok (s, .error e)
      | .ok page => do
        match ← MinstorePage.parse page with
        | .error e => .ok (s, .error e)
        | .ok node =>
          if node.isBranch then do
            let rows ← MinstorePage.rows node
            descendRows (fun child s => do
              let depth ← add T.usizeMax depth 1
              descend image resolver frames child depth s) rows s
          else do
            let out ← collectEntries node s.out
            .ok ({ s with out }, .ok ())

/-- The frames a walk may use. -/
def descendFrames : ℕ := maxDescentDepth + 1

/-- `walk_directory` up to the accumulators. -/
def walk (image : Slice T) (rootBlock : ℕ) : Exec (Descent × Except RefsError Unit) := do
  let resolver ← ContainerResolver.fromResidentImage image defaultBandClusters
  descend image resolver descendFrames rootBlock 0 { visited := [], out := [] }

/-- `walk_directory`. -/
def walkDirectory (image : Slice T) (rootBlock : ℕ) :
    Exec (Except RefsError (List DirEntry)) := do
  match ← walk image rootBlock with
  | (s, .ok ()) => .ok (.ok s.out)
  | (_, .error e) => .ok (.error e)

/-- `list_dir`. -/
def listDir (image : Slice T) (dirObjectId : ℕ) : Exec (Except RefsError (List DirEntry)) := do
  tryResult (← objectTable image) fun ot => do
  match ← ObjectTable.lookup ot dirObjectId with
  | none => .ok (.error (.objectIdNotFound dirObjectId))
  | some r => walkDirectory image r.blockNumber

theorem descendRows_ok {visit : ℕ → Descent → Exec (Descent × Except RefsError Unit)}
    {visit' : ℕ → Descent → Descent × Except RefsError Unit}
    (h : ∀ child s, visit child s = .ok (visit' child s)) (rows : List (MinstoreRow T))
    (s : Descent) :
    descendRows visit rows s = .ok (RefsForensic.descendRows visit' rows s) := by
  induction rows generalizing s with
  | nil => rfl
  | cons row rows ih =>
    have hT := T.le_usizeMax
    unfold descendRows RefsForensic.descendRows
    cases row.value.getRange 0 8 with
    | none =>
      exact ih s
    | some childBytes =>
      refine bind_ok (leU64_ok (by omega)) (bind_ok (h ..) ?_)
      dsimp only
      rcases visit' (RefsForensic.leU64 childBytes 0) s with ⟨s, e | ⟨⟩⟩
      · rfl
      · exact ih s

/-- At `depth` a call needs the frames of the levels left and its own. -/
theorem descend_ok (image : Slice T) {resolver : ContainerResolver} (hnear : Near T resolver)
    (frames block depth : ℕ) (s : Descent) (hd : depth ≤ maxDescentDepth)
    (hf : maxDescentDepth < frames + depth) :
    descend image resolver frames block depth s =
      .ok (RefsForensic.descend image resolver (maxDescentDepth - depth) block s) := by
  induction frames generalizing block depth s with
  | zero => exact absurd hf (by omega)
  | succ frames ih =>
    unfold descend
    rcases hl : maxDescentDepth - depth with _ | levels
    · rw [if_pos (.inl (by omega))]
      rfl
    have hdepth : ¬maxDescentDepth ≤ depth := by omega
    rw [RefsForensic.descend]
    simp only [hdepth, false_or]
    refine ite_ok (fun _ => rfl) fun _ => ite_ok (fun _ => rfl) fun _ => ?_
    apply bind_ok (readPage_ok image hnear block)
    rcases RefsForensic.readPage image resolver block with e | page
    · rfl
    apply bind_ok (MinstorePage.parse_ok page)
    dsimp only
    rcases RefsForensic.MinstorePage.parse page with e | node
    · rfl
    refine ite_ok (fun _ => ?_) fun _ => bind_ok (collectEntries_ok ..) rfl
    refine bind_ok (MinstorePage.rows_ok node) (descendRows_ok (fun child s => ?_) node.rows _)
    have hmax : maxDescentDepth + 1 ≤ T.usizeMax := by
      have := T.le_usizeMax
      unfold maxDescentDepth
      omega
    apply bind_ok (add_ok (by omega))
    rw [ih child (depth + 1) s (by omega) (by omega),
      show maxDescentDepth - (depth + 1) = levels by omega]

theorem walk_ok (image : Slice T) (rootBlock : ℕ) :
    walk image rootBlock = .ok (RefsForensic.walk image rootBlock) :=
  bind_ok (ContainerResolver.fromResidentImage_ok ..) <|
    descend_ok image (near_fromResidentImage image) _ _ 0 _ (Nat.zero_le _) (by decide)

theorem walkDirectory_ok (image : Slice T) (rootBlock : ℕ) :
    walkDirectory image rootBlock = .ok (RefsForensic.walkDirectory image rootBlock) := by
  apply bind_ok (walk_ok image rootBlock)
  unfold RefsForensic.walkDirectory
  rcases RefsForensic.walk image rootBlock with ⟨s, e | ⟨⟩⟩ <;> rfl

theorem listDir_ok (image : Slice T) (dirObjectId : ℕ) :
    listDir image dirObjectId = .ok (RefsForensic.listDir image dirObjectId) := by
  apply bind_ok (objectTable_ok image)
  unfold RefsForensic.listDir rootBlockOf
  apply tryResult_ok
  · intro e he
    rw [he]
  · intro ot hot
    rw [hot]
    apply bind_ok (ObjectTable.lookup_ok ot dirObjectId)
    dsimp only
    cases ot.lookup dirObjectId with
    | none =>
      rfl
    | some r =>
      exact walkDirectory_ok image r.blockNumber

/-! ## Paths -/

/-- The loop of `find_by_path` over the components still ahead, of `count` in all. -/
def findFrom (image : Slice T) (count : ℕ) :
    ℕ → ℕ → List String → Exec (Option (ℕ × FileMetadata))
  | _, _, [] => .ok none
  | i, dirId, component :: rest => do
    let entries ← listDir image dirId
    tryOption entries.toOption fun entries =>
    tryOption (entries.find? fun e => e.name = component) fun entry => do
    let next ← add T.usizeMax i 1
    if next = count then .ok (entry.metadata.map fun md => (dirId, md))
    else tryOption entry.objectId fun id => findFrom image count (i + 1) id rest

/-- `find_by_path`. -/
def findByPath (image : Slice T) (path : Str T) : Exec (Option (ℕ × FileMetadata)) :=
  if components path.val = [] then .ok none
  else findFrom image (components path.val).length 0 refsRootDirectoryId (components path.val)

theorem findFrom_ok (image : Slice T) {count : ℕ} (hcount : count ≤ T.usizeMax) {i : ℕ}
    (dirId : ℕ) {ahead : List String} (h : i + ahead.length = count) :
    findFrom image count i dirId ahead = .ok (RefsForensic.findFrom image dirId ahead) := by
  induction ahead generalizing i dirId with
  | nil => rfl
  | cons component rest ih =>
    rw [List.length_cons] at h
    apply bind_ok (listDir_ok image dirId)
    refine tryOption_ok fun entries _ => tryOption_ok fun entry _ => ?_
    apply bind_ok (add_ok (by omega))
    have hlast : i + 1 = count ↔ rest = [] := by
      rw [← List.length_eq_zero_iff]
      omega
    simp only [hlast]
    refine ite_ok (fun _ => rfl) fun _ => tryOption_ok fun id _ => ?_
    exact ih id (by omega)

theorem length_splitOn_le (a : Char) (l : List Char) :
    (l.splitOn a).length ≤ l.length + 1 := by
  induction l with
  | nil => simp
  | cons c l ih =>
    unfold List.splitOn at ih ⊢
    rw [List.splitOnP_cons_eq_if_modifyHead]
    split_ifs
    · simpa using ih
    · rw [List.length_modifyHead, List.length_cons]
      omega

theorem length_le_utf8ByteSize (s : String) : s.length ≤ s.utf8ByteSize := by
  induction s using String.push_induction with
  | empty => simp
  | push s c ih =>
    have := c.utf8Size_pos
    rw [String.length_push, String.utf8ByteSize_push]
    omega

/-- A path has at most one component more than it has bytes. -/
theorem length_components_le (path : Str T) : (components path.val).length ≤ T.usizeMax := by
  have hsplit := length_splitOn_le '/' path.val.toList
  have hbytes := length_le_utf8ByteSize path.val
  have hsize := path.size_le
  have hroom := T.isizeMax_add_le
  have hfilter := List.length_filter_le (fun c => decide (c ≠ [])) (path.val.toList.splitOn '/')
  rw [String.length_toList] at hsplit
  unfold components
  rw [List.length_map]
  omega

theorem findByPath_ok (image : Slice T) (path : Str T) :
    findByPath image path = .ok (RefsForensic.findByPath image path.val) :=
  ite_ok (fun _ => rfl) fun _ =>
    findFrom_ok image (length_components_le path) _ (Nat.zero_add _)

end RefsForensic.Checked
