import RefsForensic.Core.Paths
import RefsForensic.Core.TableFormat
import RefsForensic.Core.TreeWrites

/-!
# Directory hierarchies

A volume's directories as one abstract object: the rows of the object table and, for each tree-root
block they name, the tree of the directory. On an image that holds a hierarchy `list_dir` lists its
directories (`listDir_stored`) and `find_by_path` resolves exactly the paths of its entries
(`findByPath_stored`); an entry with a chain of directories to it is found by the path that joins
their names (`findByPath_joinPath`). A run of writes that leaves the pages of the hierarchy in place
makes such an image (`listDir_written`).
-/

namespace RefsForensic

open Rust

variable {T : Target}

/-- The directories of a volume: the rows of the object table, and a tree within the budgets of the
walk for each tree-root block they name. -/
structure Hierarchy where
  table : List ObjectRow
  tree : ℕ → DirTree
  block_eq : ∀ id b, rootOf table id = some b → (tree b).block = b
  budgets : ∀ id b, rootOf table id = some b → (tree b).WithinBudgets

namespace Hierarchy

/-- What listing a directory returns. -/
def listing (h : Hierarchy) (id : ℕ) : Except RefsError (List DirEntry) :=
  match rootOf h.table id with
  | some b => (h.tree b).listing
  | none => .error (.objectIdNotFound id)

/-- The first entry of a name in a directory. -/
def entry? (h : Hierarchy) (d : ℕ) (name : String) : Option DirEntry :=
  (h.listing d).toOption.bind fun entries => entries.find? fun e => e.name = name

/-- `h.Chain d names d'`: the names lead from directory `d` through directories to `d'`. -/
inductive Chain (h : Hierarchy) : ℕ → List String → ℕ → Prop
  | nil (d : ℕ) : Chain h d [] d
  | cons {d d' d'' : ℕ} {name : String} {names : List String} {e : DirEntry}
      (he : h.entry? d name = some e) (hid : e.objectId = some d') (hrest : Chain h d' names d'') :
      Chain h d (name :: names) d''

/-- The image holds the object table and the trees of the directories. -/
structure Stored (image : Slice T) (h : Hierarchy) : Prop where
  table : TableStored image h.table
  trees : ∀ id b, rootOf h.table id = some b → (h.tree b).Stored image

/-- The store has the object-table page at its cluster and the pages of the trees at theirs. -/
structure Written (st : Store T) (place : ℕ → ℕ) (h : Hierarchy) : Prop where
  table : TableWritten st h.table
  trees : ∀ id b, rootOf h.table id = some b → (h.tree b).Written st place

end Hierarchy

variable {image image' : Slice T} {h : Hierarchy}

/-! ## Listings -/

/-- **Listing a stored directory**: the entries of its tree in order, the first page of it that is
not resident, or that the table does not name the directory. -/
theorem listDir_stored (hs : h.Stored image) (id : ℕ) : listDir image id = h.listing id := by
  unfold listDir Hierarchy.listing
  rw [rootBlockOf_stored hs.table]
  cases hroot : rootOf h.table id with
  | none => rfl
  | some b =>
    have hwalk := walkDirectory_stored (hs.trees id b hroot) (h.budgets id b hroot)
    rwa [h.block_eq id b hroot] at hwalk

theorem Hierarchy.Written.stored {place : ℕ → ℕ}
    (hbanded : (residentPage image).Banded defaultBandClusters place)
    (hw : h.Written (residentPage image) place) : h.Stored image :=
  ⟨hw.table.stored, fun id b hroot => DirTree.Written.stored hbanded _ (hw.trees id b hroot)⟩

/-- On a banded volume with a laid-out object-table page, a run of page writes to their bands and of
data writes that writes neither that page nor a page that the listing of a directory visits leaves
the listing as it was. -/
theorem listDir_spared {ws : List (Write T)} {place : ℕ → ℕ} (hrun : Run image ws image')
    (hbands : KeepsBands place ws)
    (hstart : (residentPage image).Banded defaultBandClusters place) {rs : List ObjectRow}
    {p : MetaPage T} (hpage : residentPage image objectTableCluster = some p)
    (hrows : RowsWritten p.data (rs.map ObjectRow.keyValue))
    (htable : ∀ q, Write.page objectTableCluster q ∉ ws) {id : ℕ}
    (hspares : ∀ root, rootBlockOf image id = .ok root → ∀ b ∈ (walk image root).1.visited, ∀ q,
      Write.page (bandCluster defaultBandClusters place b) q ∉ ws) :
    listDir image' id = listDir image id := by
  have hpage' : residentPage image' objectTableCluster = some p := by
    rw [hrun.residentPage_eq htable, hpage]
  have hroot : rootBlockOf image' id = rootBlockOf image id := by
    rw [rootBlockOf_stored ⟨_, residentPage_eq_some.1 hpage, hrows⟩,
      rootBlockOf_stored ⟨_, residentPage_eq_some.1 hpage', hrows⟩]
  rw [listDir, hroot, listDir]
  cases hb : rootBlockOf image id with
  | error e => rfl
  | ok root => exact snapshot_readable hrun hbands hstart root (hspares root hb)

/-! ### A hierarchy of two directories -/

/-- A directory of this name and object id. -/
def dirRecord (name : String) (id : UInt64) : DirRecord :=
  .entry name (.directory {
    objectId := id
    reserved8 := Vector.replicate 8 0
    created := 1
    modified := 2
    changed := 3
    accessed := 4
    reserved48 := Vector.replicate 16 0
    attributes := 0x10
    reserved68 := Vector.replicate 4 0 })

/-- What a table of two rows may answer. -/
theorem rootOf_pair {id₁ b₁ id₂ b₂ : UInt64} {id b : ℕ}
    (h : rootOf [plainRow id₁ b₁, plainRow id₂ b₂] id = some b) : b = b₁.toNat ∨ b = b₂.toNat := by
  rw [rootOf, List.findSome?_eq_some_iff] at h
  obtain ⟨before, r, after, hsplit, hr, -⟩ := h
  have hmem : r ∈ [plainRow id₁ b₁, plainRow id₂ b₂] := by simp [hsplit]
  rcases List.mem_pair.1 hmem with rfl | rfl
  · rw [plainRow, ObjectRow.blockOf] at hr
    split_ifs at hr
    exact .inl (Option.some.inj hr).symm
  · rw [plainRow, ObjectRow.blockOf] at hr
    split_ifs at hr
    exact .inr (Option.some.inj hr).symm

def twoRows : List ObjectRow := [plainRow 0x600 8, plainRow 0x701 12]

theorem rootOf_twoRows {id b : ℕ} (h : rootOf twoRows id = some b) : b = 8 ∨ b = 12 :=
  rootOf_pair h

/-- The root directory with the directory `d`, and `d` with the file `a`. -/
def twoDirectories : Hierarchy where
  table := twoRows
  tree b := if b = 8 then .leaf 8 [dirRecord "d" 0x701] else .leaf 12 [fileRecord "a"]
  block_eq id b h := by
    rcases rootOf_twoRows h with rfl | rfl
    · rfl
    · rfl
  budgets id b h := by
    rcases rootOf_twoRows h with rfl | rfl
    · exact ⟨by decide, by decide, by decide⟩
    · exact ⟨by decide, by decide, by decide⟩

def rootLeaf : MetaPage .w64 := leafPage 8 [dirRecord "d" 0x701] (by decide +kernel)

def subLeaf : MetaPage .w64 := leafPage 12 [fileRecord "a"] fileA_fits

def twoRowsTable : MetaPage .w64 := tablePage twoRows (by decide)

theorem rootLeaf_number : rootLeaf.number = 8 := leafPage_number 8 (by decide +kernel)

theorem subLeaf_number : subLeaf.number = 12 := leafPage_number 12 fileA_fits

theorem twoRowsTable_number : twoRowsTable.number = 56 := tablePage_number (by decide)

/-- The pages of the two directories and of the object table. -/
def twoDirectoryPages : List (MetaPage .w64) := [rootLeaf, subLeaf, twoRowsTable]

theorem twoDirectoryPages_number : twoDirectoryPages.map MetaPage.number = [8, 12, 56] := by
  simp [twoDirectoryPages, rootLeaf_number, subLeaf_number, twoRowsTable_number]

theorem exists_run_twoDirectories : ∃ image, Run blankVolume (ownWrites twoDirectoryPages) image ∧
    (residentPage image).Aligned := by
  have hroot : rootLeaf.Writable blankVolume.len :=
    leafPage_writable 8 (by decide +kernel) (by decide +kernel) (by decide)
  have hsub : subLeaf.Writable blankVolume.len :=
    leafPage_writable 12 fileA_fits (by decide +kernel) (by decide)
  have htable : twoRowsTable.Writable blankVolume.len :=
    tablePage_writable (by decide) (by decide)
  refine exists_run_own blankVolume_aligned ?_
  simp [twoDirectoryPages, hroot, hsub, htable]

theorem putAll_twoDirectoryPages {c : ℕ} {p : MetaPage .w64} (hp : p ∈ twoDirectoryPages)
    (hc : p.number = c) :
    (residentPage blankVolume).putAll (ownWrites twoDirectoryPages) c = some p :=
  Store.putAll_own (by rw [twoDirectoryPages_number]; decide) hp hc

theorem twoDirectories_written :
    twoDirectories.Written ((residentPage blankVolume).putAll (ownWrites twoDirectoryPages))
      fun idx => idx * defaultBandClusters := by
  have htable := putAll_twoDirectoryPages (by simp [twoDirectoryPages]) twoRowsTable_number
  refine ⟨tablePage_written htable, fun id b h => ?_⟩
  rcases rootOf_twoRows h with rfl | rfl
  · have hpage := putAll_twoDirectoryPages (by simp [twoDirectoryPages]) rootLeaf_number
    exact leafPage_written hpage
  · have hpage := putAll_twoDirectoryPages (by simp [twoDirectoryPages]) subLeaf_number
    exact leafPage_written hpage

/-- The listings of the two directories visit their pages only. -/
theorem visited_twoDirectories {image : Slice .w64} (hs : twoDirectories.Stored image)
    {d root b : ℕ} (hroot : rootBlockOf image d = .ok root)
    (hb : b ∈ (walk image root).1.visited) : b = 8 ∨ b = 12 := by
  have hroot : rootOf twoDirectories.table d = some root := rootOf_eq_some hs.table hroot
  have hvisited := visited_stored (hs.trees d root hroot) (twoDirectories.budgets d root hroot)
  rw [twoDirectories.block_eq d root hroot] at hvisited
  rw [hvisited] at hb
  rcases rootOf_twoRows hroot with rfl | rfl
  · exact .inl (List.mem_singleton.1 hb)
  · exact .inr (List.mem_singleton.1 hb)

/-- The entry of the directory `d`. -/
def entryD : DirEntry := ⟨"d", true, some 0x701, some ⟨0, 0, 1, 2, 4, 3, 0x10, true⟩⟩

/-- The entry of the file `a`. -/
def entryA : DirEntry := ⟨"a", false, none, some ⟨9, 4096, 5, 6, 8, 7, 0x20, false⟩⟩

theorem exists_twoDirectories : ∃ image, Run blankVolume (ownWrites twoDirectoryPages) image ∧
    (residentPage image).Aligned ∧ twoDirectories.Stored image := by
  obtain ⟨image, hrun, haligned⟩ := exists_run_twoDirectories
  have hwritten := twoDirectories_written
  rw [← hrun.store] at hwritten
  exact ⟨image, hrun, haligned,
    hwritten.stored (hrun.banded (keepsBands_own _) (blankVolume_banded _ _))⟩

/-- **The volume round trip**: on a volume that is banded at the start, after any run of page writes
to their bands and of data writes that leaves the object table and the trees of a hierarchy in
place, each within the budgets of the walk, every directory is listed as the hierarchy has it. -/
theorem listDir_written {ws : List (Write T)} {place : ℕ → ℕ} (hrun : Run image ws image')
    (hbands : KeepsBands place ws)
    (hstart : (residentPage image).Banded defaultBandClusters place)
    (hw : h.Written ((residentPage image).putAll ws) place) (id : ℕ) :
    listDir image' id = h.listing id := by
  rw [← hrun.store] at hw
  exact listDir_stored (hw.stored (hrun.banded hbands hstart)) id

/-- The directory `d` is listed once the two directories are written. -/
theorem twoDirectories_listed : ∃ image, Run blankVolume (ownWrites twoDirectoryPages) image ∧
    listDir image 0x701 = .ok [entryA] := by
  obtain ⟨image, hrun, -⟩ := exists_run_twoDirectories
  exact ⟨image, hrun, (listDir_written hrun (keepsBands_own _) (blankVolume_banded _ _)
    twoDirectories_written 0x701).trans rfl⟩

/-! ## Paths -/

theorem firstNamed_stored (hs : h.Stored image) {d : ℕ} {name : String} {e : DirEntry} :
    FirstNamed image d name e ↔ h.entry? d name = some e := by
  rw [← find?_listDir, listDir_stored hs, Hierarchy.entry?]

theorem findFrom_stored (hs : h.Stored image) {start d : ℕ} {pieces : List String}
    {md : FileMetadata} :
    findFrom image start pieces = some (d, md) ↔
      ∃ names name e, pieces = names ++ [name] ∧ h.Chain start names d ∧
        h.entry? d name = some e ∧ e.metadata = some md := by
  induction pieces generalizing start with
  | nil => simp [findFrom]
  | cons piece rest ih =>
    rw [findFrom_cons]
    simp only [firstNamed_stored hs]
    constructor
    · rintro ⟨e, he, hnext⟩
      split_ifs at hnext with hrest
      · obtain ⟨md', hmd, heq⟩ := hnext
        obtain ⟨rfl, rfl⟩ := Prod.mk.inj heq
        exact ⟨[], piece, e, by rw [hrest, List.nil_append], .nil d, he, hmd⟩
      · obtain ⟨d', hid, hfind⟩ := hnext
        obtain ⟨names, name, e', rfl, hchain, he', hmd⟩ := ih.1 hfind
        exact ⟨piece :: names, name, e', rfl, .cons he hid hchain, he', hmd⟩
    · rintro ⟨names, name, e, hpieces, hchain, he, hmd⟩
      cases hchain with
      | nil =>
        rw [List.nil_append, List.cons.injEq] at hpieces
        obtain ⟨rfl, rfl⟩ := hpieces
        exact ⟨e, he, by rw [if_pos rfl]; exact ⟨md, hmd, rfl⟩⟩
      | @cons _ d' _ first names e' he' hid hrest =>
        rw [List.cons_append, List.cons.injEq] at hpieces
        obtain ⟨rfl, rfl⟩ := hpieces
        refine ⟨e', he', ?_⟩
        rw [if_neg (by simp)]
        exact ⟨d', hid, ih.2 ⟨names, name, e, rfl, hrest, he, hmd⟩⟩

/-- A name that may stand in a path. -/
def IsPathName (name : String) : Prop := name ≠ "" ∧ '/' ∉ name.toList

/-- `/` and the names, joined by slashes. -/
def joinPath : List String → String
  | [] => ""
  | name :: names => "/" ++ name ++ joinPath names

theorem components_of_isPathName {name : String} (hname : IsPathName name) :
    components name = [name] := by
  obtain ⟨hne, hslash⟩ := hname
  have hsplit : name.toList.splitOn '/' = [name.toList] :=
    List.splitOnP_eq_singleton fun c hc => by
      rw [beq_eq_false_iff_ne]
      exact fun heq => hslash (heq ▸ hc)
  have hnil : name.toList ≠ [] := by
    rwa [ne_eq, String.toList_eq_nil_iff]
  rw [components, hsplit, List.filter_cons_of_pos (by simpa using hnil), List.filter_nil,
    List.map_singleton, String.ofList_toList]

theorem components_joinPath {names : List String} (hnames : ∀ name ∈ names, IsPathName name) :
    components (joinPath names) = names := by
  induction names with
  | nil => exact components_empty
  | cons name names ih =>
    have ih := ih fun n hn => hnames n (List.mem_cons_of_mem _ hn)
    have hname := components_of_isPathName (hnames name List.mem_cons_self)
    cases names with
    | nil =>
      rw [joinPath, joinPath, String.append_empty, (components_slashes name "").1, hname]
    | cons next rest =>
      have hsplit : joinPath (name :: next :: rest) =
          "/" ++ (name ++ "/" ++ (next ++ joinPath rest)) := by
        simp only [joinPath, String.append_assoc]
      rw [joinPath, String.append_assoc, (components_slashes _ "").1] at ih
      rw [hsplit, (components_slashes _ "").1, components_append_slash, hname, ih]
      rfl

/-- **Paths of a stored hierarchy**, of trees within the budgets of the walk: a path is found exactly
when its pieces but the last lead from the root directory to a directory, and the first entry of the
last name in it has metadata. -/
theorem findByPath_stored (hs : h.Stored image) (path : String) (d : ℕ) (md : FileMetadata) :
    findByPath image path = some (d, md) ↔
      ∃ names name e, components path = names ++ [name] ∧
        h.Chain refsRootDirectoryId names d ∧ h.entry? d name = some e ∧ e.metadata = some md := by
  rw [findByPath]
  split_ifs with hempty
  · rw [hempty]
    simp
  · exact findFrom_stored hs

theorem isPathName_d : IsPathName "d" := ⟨by decide, by decide⟩

theorem isPathName_a : IsPathName "a" := ⟨by decide, by decide⟩

/-- The directory `d` is found in the root directory. -/
theorem directoryD_found : ∃ image, Run blankVolume (ownWrites twoDirectoryPages) image ∧
    findByPath image (joinPath ["d"]) = some (0x600, ⟨0, 0, 1, 2, 4, 3, 0x10, true⟩) := by
  obtain ⟨image, hrun, -, hstored⟩ := exists_twoDirectories
  have hpieces : components (joinPath ["d"]) = [] ++ ["d"] :=
    components_joinPath fun name hname => List.mem_singleton.1 hname ▸ isPathName_d
  exact ⟨image, hrun, (findByPath_stored hstored _ _ _).2
    ⟨[], "d", entryD, hpieces, .nil 0x600, by rfl, rfl⟩⟩

/-- **Every entry has its path**: on an image that holds a hierarchy, an entry with metadata that is
the first of its name in a directory, and to whose directory names lead from the root, is found by
the path of those names and its own. -/
theorem findByPath_joinPath (hs : h.Stored image) {names : List String} {d : ℕ} {e : DirEntry}
    {md : FileMetadata} (hchain : h.Chain refsRootDirectoryId names d)
    (he : h.entry? d e.name = some e) (hmd : e.metadata = some md)
    (hnames : ∀ name ∈ names ++ [e.name], IsPathName name) :
    findByPath image (joinPath (names ++ [e.name])) = some (d, md) := by
  rw [findByPath, components_joinPath hnames, if_neg (by simp)]
  exact (findFrom_stored hs).2 ⟨names, e.name, e, rfl, hchain, he, hmd⟩

/-- The file `a` is found by the path of its directory and its name. -/
theorem fileA_found : ∃ image, Run blankVolume (ownWrites twoDirectoryPages) image ∧
    findByPath image (joinPath ["d", "a"]) =
      some (0x701, ⟨9, 4096, 5, 6, 8, 7, 0x20, false⟩) := by
  obtain ⟨image, hrun, -, hstored⟩ := exists_twoDirectories
  have hchain : twoDirectories.Chain refsRootDirectoryId ["d"] 0x701 :=
    .cons (e := entryD) (by rfl) rfl (.nil _)
  have hnames : ∀ name ∈ ["d"] ++ [entryA.name], IsPathName name := fun name hname => by
    rcases List.mem_pair.1 hname with rfl | rfl
    · exact isPathName_d
    · exact isPathName_a
  exact ⟨image, hrun, findByPath_joinPath (e := entryA) hstored hchain (by rfl) rfl hnames⟩

/-! ## Paths over time -/

/-- Directory `d` lies on the path: some of its first pieces lead from the root directory to it. -/
def OnPath (image : Slice T) (path : String) (d : ℕ) : Prop :=
  ∃ n ids, Leads image (components path) ids n ∧ ids 0 = refsRootDirectoryId ∧ ids n = d

theorem findFrom_local {start : ℕ} {pieces : List String}
    (hsame : ∀ n ids, Leads image pieces ids n → ids 0 = start →
      listDir image' (ids n) = listDir image (ids n)) :
    findFrom image' start pieces = findFrom image start pieces := by
  induction pieces generalizing start with
  | nil => rfl
  | cons name rest ih =>
    have hstart := hsame 0 (fun _ => start) ⟨Nat.zero_le _, fun i hi => absurd hi (by omega)⟩ rfl
    have hfirst : ∀ e, FirstNamed image' start name e ↔ FirstNamed image start name e := fun e => by
      rw [← find?_listDir, hstart, find?_listDir]
    refine Option.ext fun r => ?_
    rw [findFrom_cons, findFrom_cons]
    simp only [hfirst]
    refine exists_congr fun e => and_congr_right fun he => ?_
    split_ifs with hrest
    · rfl
    refine exists_congr fun d' => and_congr_right fun hid => ?_
    rw [ih fun n ids hleads h0 => ?_]
    -- the chain of the rest, one directory further
    refine hsame (n + 1) (fun i => if i = 0 then start else ids (i - 1)) ⟨?_, fun i hi => ?_⟩ rfl
    · simpa using hleads.len
    · cases i with
      | zero => exact ⟨name, e, rfl, he, by simpa [h0] using hid⟩
      | succ i =>
        obtain ⟨name', e', hname', hfirst', hid'⟩ := hleads.step i (by omega)
        exact ⟨name', e', by simpa using hname', by simpa using hfirst', by simpa using hid'⟩

/-- **A path reads the directories on it**: where these list as before, it resolves as before. -/
theorem findByPath_local {path : String}
    (hsame : ∀ d, OnPath image path d → listDir image' d = listDir image d) :
    findByPath image' path = findByPath image path := by
  rw [findByPath, findByPath]
  split_ifs with hempty
  · rfl
  · exact findFrom_local fun n ids hleads h0 => hsame _ ⟨n, ids, hleads, h0, rfl⟩

/-- **A path is stable**: on a banded volume with an object-table page on which rows are laid out, a
run of page writes to their bands and of data writes that writes neither that page nor a page the
listings of the directories on a path visit leaves the path as it was. -/
theorem findByPath_stable {ws : List (Write T)} {place : ℕ → ℕ} (hrun : Run image ws image')
    (hbands : KeepsBands place ws)
    (hstart : (residentPage image).Banded defaultBandClusters place) {rs : List ObjectRow}
    {p : MetaPage T} (hpage : residentPage image objectTableCluster = some p)
    (hrows : RowsWritten p.data (rs.map ObjectRow.keyValue))
    (htable : ∀ q, Write.page objectTableCluster q ∉ ws) {path : String}
    (hspares : ∀ d root, OnPath image path d → rootBlockOf image d = .ok root →
      ∀ b ∈ (walk image root).1.visited, ∀ q,
        Write.page (bandCluster defaultBandClusters place b) q ∉ ws) :
    findByPath image' path = findByPath image path :=
  findByPath_local fun d hd =>
    listDir_spared hrun hbands hstart hpage hrows htable fun root => hspares d root hd

/-- A further page leaves the path of the file as it was. -/
theorem fileA_stable : ∃ image image', Run blankVolume (ownWrites twoDirectoryPages) image ∧
    Run image (ownWrites [emptyLeaf 20]) image' ∧
      findByPath image' (joinPath ["d", "a"]) = findByPath image (joinPath ["d", "a"]) := by
  obtain ⟨image, hrun, haligned, hstored⟩ := exists_twoDirectories
  have hleaf : (emptyLeaf 20).Writable image.len :=
    emptyLeaf_writable (by decide) (by rw [hrun.len]; decide)
  have hwritable : ∀ p ∈ [emptyLeaf 20], p.Writable image.len := by simpa using hleaf
  obtain ⟨image', hrun', -⟩ := exists_run_own haligned hwritable
  have hnumber : (emptyLeaf 20).number = 20 := emptyLeaf_number 20
  have hother : ∀ c, c ≠ 20 → ∀ q, Write.page c q ∉ ownWrites [emptyLeaf 20] := fun c hne =>
    page_not_mem_ownWrites (by simpa [hnumber] using hne.symm)
  have hpage : residentPage image objectTableCluster = some twoRowsTable := by
    rw [hrun.store]
    exact putAll_twoDirectoryPages (by simp [twoDirectoryPages]) twoRowsTable_number
  have hspares : ∀ d root, OnPath image (joinPath ["d", "a"]) d →
      rootBlockOf image d = .ok root → ∀ b ∈ (walk image root).1.visited, ∀ q,
        Write.page (bandCluster defaultBandClusters (fun idx => idx * defaultBandClusters) b) q ∉
          ownWrites [emptyLeaf 20] := by
    intro d root _ hroot b hb
    have hb := visited_twoDirectories hstored hroot hb
    rw [bandCluster_self]
    exact hother b (by omega)
  exact ⟨image, image', hrun, hrun', findByPath_stable hrun' (keepsBands_own _)
    (hrun.banded (keepsBands_own _) (blankVolume_banded _ _)) hpage (tablePage_rows (by decide))
    (hother _ (by decide)) hspares⟩

end RefsForensic
