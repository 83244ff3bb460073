import RefsForensic.Core.Container
import RefsForensic.Rust.Utf16

/-!
# Directories

`core/src/directory.rs`: directory records and their metadata, block resolution, the descent of a
directory B+-tree from its root block, and path resolution over the object table.

A block is resolved by trying the container resolver and then the resident heuristic, and either
offset is accepted only if the page there carries the requested block as its own number. The
descent is cut off at `maxDescentDepth` levels and `maxVisitedPages` pages.
-/

namespace RefsForensic

open Rust

variable {T : Target}

/-- Directory record key type of an entry record. -/
def recordTypeEntry : ℕ := 0x0030

/-- Band size used by the walk. -/
def defaultBandClusters : ℕ := 16384

def maxDescentDepth : ℕ := 64

def maxVisitedPages : ℕ := 4096

/-- Directory entry type of a file. -/
def entryTypeFile : ℕ := 1

/-- Directory entry type of a directory. -/
def entryTypeDirectory : ℕ := 2

/-- Blocks from here on map to `cluster = block - residentVirtualBase`. -/
def residentVirtualBase : ℕ := 65536

/-- The cluster of the object table page. -/
def objectTableCluster : ℕ := 56

/-- Metadata carried by a directory entry value. FILETIMEs are raw ticks. -/
structure FileMetadata where
  size : ℕ
  allocated : ℕ
  created : ℕ
  modified : ℕ
  accessed : ℕ
  changed : ℕ
  attributes : ℕ
  isDirectory : Bool
  deriving DecidableEq, Repr

/-- One directory entry. -/
structure DirEntry where
  name : String
  isDirectory : Bool
  objectId : Option ℕ
  metadata : Option FileMetadata
  deriving DecidableEq, Repr

/-! ## Entries -/

def decodeUtf16le (bytes : Slice T) : String := decodeUtf16Lossy bytes.toList

/-- Directories and files order their fields differently. -/
def parseMetadata (value : Slice T) (isDirectory : Bool) : FileMetadata :=
  if isDirectory then {
    size := 0
    allocated := 0
    created := leU64 value 16
    modified := leU64 value 24
    changed := leU64 value 32
    accessed := leU64 value 40
    attributes := leU32 value 64
    isDirectory := true }
  else {
    size := leU64 value 64
    allocated := leU64 value 72
    created := leU64 value 0
    modified := leU64 value 8
    changed := leU64 value 16
    accessed := leU64 value 24
    attributes := leU32 value 32
    isDirectory := false }

/-- The entry of a row, `none` for a record that is not an entry record. -/
def entryOfRow (row : MinstoreRow T) : Option DirEntry :=
  if leU16 row.key 0 ≠ recordTypeEntry then none
  else
    let entryType := leU16 row.key 2
    let name := decodeUtf16le ((row.key.getFrom 4).getD Slice.empty)
    let isDirectory : Bool := entryType = entryTypeDirectory
    let (objectId, metadata) :=
      if entryType = entryTypeDirectory then
        (some (leU64 row.value 0), some (parseMetadata row.value true))
      else if entryType = entryTypeFile then (none, some (parseMetadata row.value false))
      else (none, none)
    some { name, isDirectory, objectId, metadata }

/-- Append the entries of a node to `out`. -/
def collectEntries (node : MinstorePage T) (out : List DirEntry) : List DirEntry :=
  out ++ node.rows.filterMap entryOfRow

def parseDirectory (page : Slice T) : Except RefsError (List DirEntry) :=
  (MinstorePage.parse page).map fun node => collectEntries node []

theorem parseDirectory_of_parse {page : Slice T} {node : MinstorePage T}
    (h : MinstorePage.parse page = .ok node) :
    parseDirectory page = .ok (node.rows.filterMap entryOfRow) :=
  map_eq_ok.2 ⟨node, h, rfl⟩

theorem parseDirectory_of_error {page : Slice T} {e : RefsError}
    (h : MinstorePage.parse page = .error e) : parseDirectory page = .error e :=
  map_eq_error.2 h

/-! ## Block resolution -/

/-- The first cluster whose page fits the image; an overflowing one ends the search. -/
def firstFitting (T : Target) (imageLen : ℕ) : List ℕ → Option ℕ
  | [] => none
  | cluster :: clusters => do
    let cluster ← T.tryFrom cluster
    let off ← checkedMul T.usizeMax cluster refsClusterSize
    let pageEnd ← checkedAdd T.usizeMax off refsMetadataPageSize
    if pageEnd ≤ imageLen then some off else firstFitting T imageLen clusters

/-- The resident heuristic. -/
def residentBlockOffset (T : Target) (block imageLen : ℕ) : Option ℕ :=
  firstFitting T imageLen <|
    if residentVirtualBase ≤ block then [block - residentVirtualBase, block] else [block]

/-- Read and parse the object table page. The slice runs to the end of the image. -/
def objectTable (image : Slice T) : Except RefsError (ObjectTable T) :=
  match (T.tryFrom objectTableCluster).bind fun c => checkedMul T.usizeMax c refsClusterSize with
  | none => .error (.truncated "object table (offset overflow)" T.usizeMax image.len)
  | some off =>
    match image.getFrom off with
    | none => .error (.truncated "object table page" off image.len)
    | some page => ObjectTable.parse page

/-- The page at `off` is a Minstore page whose own number is `block`. -/
def pageAnswersBlock (image : Slice T) (off block : ℕ) : Bool :=
  match image.getRange off (off + refsMetadataPageSize) with
  | none => false
  | some page => startsWith page msbSignature ∧ leU64 page selfBlockOffset = block

/-- Resolve a directory-tree block: the container resolver first, then the resident heuristic. -/
def resolveBlockOffset (image : Slice T) (resolver : ContainerResolver) (block : ℕ) : Option ℕ :=
  (((resolver.resolveVirtual block).bind T.tryFrom).filter (pageAnswersBlock image · block)).or
    ((residentBlockOffset T block image.len).filter (pageAnswersBlock image · block))

/-- The whole page of `block`. -/
def readPage (image : Slice T) (resolver : ContainerResolver) (block : ℕ) :
    Except RefsError (Slice T) :=
  match resolveBlockOffset image resolver block with
  | none => .error (.unresolvedVirtualBlock block)
  | some off =>
    match image.getRange off (off + refsMetadataPageSize) with
    | none => .error (.truncated "directory page" (off + refsMetadataPageSize) image.len)
    | some page => .ok page

/-! ## Descent -/

/-- The accumulators of a descent. -/
structure Descent where
  visited : List ℕ
  out : List DirEntry
  deriving DecidableEq

/-- The rows of a branch node: a row with at least 8 value bytes names a child block. -/
def descendRows (visit : ℕ → Descent → Descent × Except RefsError Unit) :
    List (MinstoreRow T) → Descent → Descent × Except RefsError Unit
  | [], s => (s, .ok ())
  | row :: rows, s =>
    match row.value.getRange 0 8 with
    | none => descendRows visit rows s
    | some childBytes =>
      match visit (leU64 childBytes 0) s with
      | (s, .ok ()) => descendRows visit rows s
      | (s, .error e) => (s, .error e)

/-- Descend the tree rooted at `block`. The first argument is `MAX_DESCENT_DEPTH - depth`: the
levels left. The accumulators are returned on an error too, as the `&mut` references leave them. -/
def descend (image : Slice T) (resolver : ContainerResolver) :
    ℕ → ℕ → Descent → Descent × Except RefsError Unit
  | 0, _, s => (s, .ok ())
  | levels + 1, block, s =>
    if maxVisitedPages ≤ s.visited.length then (s, .ok ())
    else if block ∈ s.visited then (s, .ok ())
    else
      let s := { s with visited := s.visited ++ [block] }
      match readPage image resolver block with
      | .error e => (s, .error e)
      | .ok page =>
        match MinstorePage.parse page with
        | .error e => (s, .error e)
        | .ok node =>
          if node.isBranch then descendRows (descend image resolver levels) node.rows s
          else ({ s with out := collectEntries node s.out }, .ok ())

/-- The resolver a walk of `image` uses. -/
def walkResolver (image : Slice T) : ContainerResolver :=
  ContainerResolver.fromResidentImage image defaultBandClusters

/-- The whole descent from `rootBlock`. -/
def walk (image : Slice T) (rootBlock : ℕ) : Descent × Except RefsError Unit :=
  descend image (walkResolver image) maxDescentDepth rootBlock { visited := [], out := [] }

/-- `walk_directory`. -/
def walkDirectory (image : Slice T) (rootBlock : ℕ) : Except RefsError (List DirEntry) :=
  match walk image rootBlock with
  | (s, .ok ()) => .ok s.out
  | (_, .error e) => .error e

/-- The tree-root block of a directory, by the object table. -/
def rootBlockOf (image : Slice T) (dirObjectId : ℕ) : Except RefsError ℕ :=
  match objectTable image with
  | .error e => .error e
  | .ok ot =>
    match ot.lookup dirObjectId with
    | none => .error (.objectIdNotFound dirObjectId)
    | some r => .ok r.blockNumber

/-- `list_dir`. -/
def listDir (image : Slice T) (dirObjectId : ℕ) : Except RefsError (List DirEntry) :=
  match rootBlockOf image dirObjectId with
  | .error e => .error e
  | .ok rootBlock => walkDirectory image rootBlock

/-! ## Paths -/

/-- The non-empty `/`-separated pieces of a path. -/
def components (path : String) : List String :=
  ((path.toList.splitOn '/').filter (· ≠ [])).map String.ofList

/-- Follow the components still ahead from directory `dirId`. -/
def findFrom (image : Slice T) : ℕ → List String → Option (ℕ × FileMetadata)
  | _, [] => none
  | dirId, component :: rest => do
    let entries ← (listDir image dirId).toOption
    let entry ← entries.find? fun e => e.name = component
    if rest = [] then entry.metadata.map fun md => (dirId, md)
    else findFrom image (← entry.objectId) rest

/-- `find_by_path`: the directory that contains the last component, and its metadata. -/
def findByPath (image : Slice T) (path : String) : Option (ℕ × FileMetadata) :=
  if components path = [] then none
  else findFrom image refsRootDirectoryId (components path)

end RefsForensic
