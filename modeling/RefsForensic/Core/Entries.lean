import RefsForensic.Core.Walk

/-!
# What an entry is

The page parser and the walk read entries off a page. They share the row collector, but only the
walk asks whether the page is a leaf (`page_entries_agree_iff`); and neither asks whether the value
of a record is as long as the fields of its entry type (`entries_backed_iff`).
-/

namespace RefsForensic

open Rust

variable {T : Target}

/-- A row is an entry unless its key has another record type. -/
theorem entryOfRow_eq_none {row : MinstoreRow T} :
    entryOfRow row = none ↔ leU16 row.key 0 ≠ recordTypeEntry := by
  unfold entryOfRow
  split_ifs with h
  · simp [h]
  · simp only [h]

/-! ## Leaves and branches -/

/-- A descent of `image` at `block` visits `page`: there is room for another page, the block is a
new one, and its page is read. -/
structure Visits (image : Slice T) (resolver : ContainerResolver) (block : ℕ) (s : Descent)
    (page : Slice T) : Prop where
  room : s.visited.length < maxVisitedPages
  unseen : block ∉ s.visited
  read : readPage image resolver block = .ok page

/-- The rows a descent follows from a node. -/
def childRows (node : MinstorePage T) : List (MinstoreRow T) :=
  if node.isBranch then node.rows else []

/-- The entries a descent appends from a page itself. -/
def descendEntries (page : Slice T) : Except RefsError (List DirEntry) :=
  (MinstorePage.parse page).map nodeEntries

/-- A branch page with an entry record among its rows. -/
def HasSeparatorEntry (page : Slice T) : Prop :=
  ∃ node, MinstorePage.parse page = .ok node ∧ node.isBranch = true ∧
    ∃ row ∈ node.rows, leU16 row.key 0 = recordTypeEntry

theorem descendEntries_of_parse {page : Slice T} {node : MinstorePage T}
    (h : MinstorePage.parse page = .ok node) : descendEntries page = .ok (nodeEntries node) :=
  map_eq_ok.2 ⟨node, h, rfl⟩

/-- A visit of a page that does not parse ends the descent with the error. -/
theorem Visits.descend_error {image page : Slice T} {resolver : ContainerResolver} {block : ℕ}
    {s : Descent} (h : Visits image resolver block s page) {e : RefsError}
    (hpage : descendEntries page = .error e) (levels : ℕ) :
    descend image resolver (levels + 1) block s =
      ({ s with visited := s.visited ++ [block] }, .error e) := by
  have hparse : MinstorePage.parse page = .error e := map_eq_error.1 hpage
  rw [descend_enter (not_le.2 h.room) h.unseen, nodeUnder, h.read]
  simp only [Except.bind, hparse]

/-- A visit of a page that parses appends the page's own entries, and then follows its child
rows. -/
theorem Visits.descend_ok {image page : Slice T} {resolver : ContainerResolver} {block : ℕ}
    {s : Descent} (h : Visits image resolver block s page) {node : MinstorePage T}
    (hparse : MinstorePage.parse page = .ok node) (levels : ℕ) :
    descend image resolver (levels + 1) block s =
      descendRows (descend image resolver levels) (childRows node)
        { visited := s.visited ++ [block], out := s.out ++ nodeEntries node } := by
  rw [descend_enter (not_le.2 h.room) h.unseen, nodeUnder, h.read]
  simp only [Except.bind, hparse]
  cases hb : node.isBranch with
  | false =>
    simp [childRows, nodeEntries, collectEntries, hb, descendRows]
  | true =>
    simp [childRows, nodeEntries, hb]

theorem filterMap_entryOfRow_eq_nil {rows : List (MinstoreRow T)} :
    rows.filterMap entryOfRow = [] ↔ ¬∃ row ∈ rows, leU16 row.key 0 = recordTypeEntry := by
  rw [List.filterMap_eq_nil_iff]
  simp only [entryOfRow_eq_none, not_exists, not_and, ne_eq]

theorem hasSeparatorEntry_iff {page : Slice T} {node : MinstorePage T}
    (h : MinstorePage.parse page = .ok node) (hb : node.isBranch = true) :
    HasSeparatorEntry page ↔ ∃ row ∈ node.rows, leU16 row.key 0 = recordTypeEntry := by
  constructor
  · rintro ⟨node', h', -, hrow⟩
    obtain rfl := Except.ok.inj (h.symm.trans h')
    exact hrow
  · rintro hrow
    exact ⟨node, h, hb, hrow⟩

/-- A branch page parses to no entry exactly when it has no entry record. -/
theorem parseDirectory_branch_iff {page : Slice T} {node : MinstorePage T}
    (h : MinstorePage.parse page = .ok node) (hb : node.isBranch = true) :
    parseDirectory page = .ok [] ↔ ¬HasSeparatorEntry page := by
  rw [parseDirectory_of_parse h, Except.ok.injEq, filterMap_entryOfRow_eq_nil,
    hasSeparatorEntry_iff h hb]

theorem parseDirectory_eq_descendEntries_iff (page : Slice T) :
    parseDirectory page = descendEntries page ↔ ¬HasSeparatorEntry page := by
  cases h : MinstorePage.parse page with
  | error e =>
    refine iff_of_true ((parseDirectory_of_error h).trans (map_eq_error.2 h).symm) ?_
    rintro ⟨node, hnode, -⟩
    rw [h] at hnode
    cases hnode
  | ok node =>
    cases hb : node.isBranch with
    | false =>
      rw [parseDirectory_of_parse h, descendEntries_of_parse h, nodeEntries, if_neg (by simp [hb])]
      refine iff_of_true rfl ?_
      rintro ⟨node', hnode', hb', -⟩
      obtain rfl := Except.ok.inj (h.symm.trans hnode')
      rw [hb] at hb'
      cases hb'
    | true =>
      rw [descendEntries_of_parse h, nodeEntries, if_pos hb]
      exact parseDirectory_branch_iff h hb

/-- **When the page parser and the walk agree**: `descendEntries` is what a visit of the page
appends from the page itself, and the page parser returns the same exactly when the page is no
branch with an entry record; a branch page parses to no entry under the same condition. -/
theorem page_entries_agree_iff (page : Slice T) :
    (∀ image resolver block s levels, Visits image resolver block s page →
      (∀ e, descendEntries page = .error e → descend image resolver (levels + 1) block s =
        ({ s with visited := s.visited ++ [block] }, .error e)) ∧
      ∀ node, MinstorePage.parse page = .ok node →
        descendEntries page = .ok (nodeEntries node) ∧
        descend image resolver (levels + 1) block s =
          descendRows (descend image resolver levels) (childRows node)
            { visited := s.visited ++ [block], out := s.out ++ nodeEntries node }) ∧
    (parseDirectory page = descendEntries page ↔ ¬HasSeparatorEntry page) ∧
    ∀ node, MinstorePage.parse page = .ok node → node.isBranch = true →
      (parseDirectory page = .ok [] ↔ ¬HasSeparatorEntry page) := by
  refine ⟨fun image resolver block s levels hvisit => ⟨fun e he => ?_, fun node hnode => ?_⟩,
    parseDirectory_eq_descendEntries_iff page, fun node => parseDirectory_branch_iff⟩
  · exact hvisit.descend_error he levels
  · exact ⟨descendEntries_of_parse hnode, hvisit.descend_ok hnode levels⟩

/-- A page of one entry record of a directory `a`, with a value of `valLen` bytes that starts with
the number 4; `flags` are the flags of the node. -/
def entryPage (flags valLen : ℕ) : Slice .w64 where
  len := refsMetadataPageSize
  len_le := by decide
  byte i :=
    match (i : ℕ) with
    | 0x00 => 0x4d
    | 0x01 => 0x53
    | 0x02 => 0x42
    | 0x03 => 0x2b
    | 0x50 => 0xb0
    | 0x10d => UInt8.ofNat flags
    | 0x111 => 0x01
    | 0x114 => 0x01
    | 0x124 => 0x10
    | 0x126 => 0x06
    | 0x12a => 0x20
    | 0x12c => UInt8.ofNat valLen
    | 0x130 => 0x30
    | 0x132 => 0x02
    | 0x134 => 0x61
    | 0x140 => 0x04
    | 0x200 => 0x20
    | _ => 0

/-- The branch page presents its separator as a directory whose object id is the child block; the
walk that visits it appends nothing. -/
theorem entryPage_branch :
    (MinstorePage.parse (entryPage 1 0x30)).map (fun node => (node.isBranch, childBlocks node)) =
      .ok (true, [4]) ∧
    (walk (entryPage 1 0x30) 0).1 = { visited := [0, 4], out := [] } ∧
    (parseDirectory (entryPage 1 0x30)).map
      (·.map fun e => (e.name, e.isDirectory, e.objectId)) = .ok [("a", true, some 4)] ∧
    parseDirectory (entryPage 1 0x30) ≠ descendEntries (entryPage 1 0x30) := by
  have hown : descendEntries (entryPage 1 0x30) = .ok [] := by decide +kernel
  have hentries : (parseDirectory (entryPage 1 0x30)).map
      (·.map fun e => (e.name, e.isDirectory, e.objectId)) = .ok [("a", true, some 4)] := by
    decide +kernel
  refine ⟨by decide +kernel, by decide +kernel, hentries, fun h => ?_⟩
  rw [h, hown] at hentries
  cases hentries

/-! ## The length of a value -/

/-- The bytes that the fields of an entry are read from, as offsets and widths in the value. -/
def fieldSpans (isDirectory : Bool) : List (ℕ × ℕ) :=
  if isDirectory then [(0, 8), (16, 8), (24, 8), (32, 8), (40, 8), (64, 4)]
  else [(64, 8), (72, 8), (0, 8), (8, 8), (16, 8), (24, 8), (32, 4)]

/-- An entry with an object id or metadata has them from bytes of the row's value. -/
def Backed (row : MinstoreRow T) (e : DirEntry) : Prop :=
  e.objectId.isSome ∨ e.metadata.isSome →
    ∀ span ∈ fieldSpans e.isDirectory, span.1 + span.2 ≤ row.value.len

/-- The length of the fields of an entry. -/
def fieldsLen (isDirectory : Bool) : ℕ := if isDirectory then 68 else 80

/-- An entry record whose value is shorter than the fields of its entry type. -/
def ShortRecord (row : MinstoreRow T) : Prop :=
  leU16 row.key 0 = recordTypeEntry ∧
    (leU16 row.key 2 = entryTypeDirectory ∧ row.value.len < fieldsLen true ∨
      leU16 row.key 2 = entryTypeFile ∧ row.value.len < fieldsLen false)

/-- A row of one of the leaves among the blocks `vis`. -/
def LeafRow (image : Slice T) (vis : List ℕ) (row : MinstoreRow T) : Prop :=
  ∃ b ∈ vis, ∃ node, nodeAt image b = .ok node ∧ node.isBranch = false ∧ row ∈ node.rows

theorem fieldSpans_le_iff (isDirectory : Bool) (len : ℕ) :
    (∀ span ∈ fieldSpans isDirectory, span.1 + span.2 ≤ len) ↔ fieldsLen isDirectory ≤ len := by
  cases isDirectory with
  | false =>
    simp only [fieldSpans, fieldsLen, Bool.false_eq_true, if_false, List.forall_mem_cons,
      List.not_mem_nil, false_imp_iff, implies_true, and_true]
    omega
  | true =>
    simp only [fieldSpans, fieldsLen, if_true, List.forall_mem_cons, List.not_mem_nil,
      false_imp_iff, implies_true, and_true]
    omega

/-- What an entry record yields, by its entry type: only the directory and the file type read the
value. -/
theorem entryOfRow_fields {row : MinstoreRow T} {e : DirEntry} (h : entryOfRow row = some e) :
    leU16 row.key 0 = recordTypeEntry ∧
      (e.isDirectory = true ↔ leU16 row.key 2 = entryTypeDirectory) ∧
      (e.objectId.isSome ∨ e.metadata.isSome ↔
        leU16 row.key 2 = entryTypeDirectory ∨ leU16 row.key 2 = entryTypeFile) := by
  unfold entryOfRow at h
  split_ifs at h with hrecord
  rw [not_ne_iff] at hrecord
  refine ⟨hrecord, ?_⟩
  by_cases hdir : leU16 row.key 2 = entryTypeDirectory
  · simp only [hdir, decide_true, if_true, Option.some.injEq] at h
    subst h
    simp [hdir]
  by_cases hfile : leU16 row.key 2 = entryTypeFile
  · simp only [hfile, if_true, Option.some.injEq] at h
    subst h
    simp [hfile, entryTypeFile, entryTypeDirectory]
  · simp only [hdir, hfile, decide_false, if_false, Option.some.injEq] at h
    subst h
    simp [hdir, hfile]

/-- The entry of a row is backed by its value unless the record is a short one. -/
theorem backed_iff {row : MinstoreRow T} {e : DirEntry} (h : entryOfRow row = some e) :
    Backed row e ↔ ¬ShortRecord row := by
  obtain ⟨hrecord, hdir, hread⟩ := entryOfRow_fields h
  have htypes : entryTypeDirectory ≠ entryTypeFile := by decide
  unfold Backed ShortRecord
  rw [hread, fieldSpans_le_iff]
  by_cases hd : leU16 row.key 2 = entryTypeDirectory
  · have hisDir := hdir.2 hd
    simp only [hrecord, hd, hisDir, htypes, true_imp_iff, true_and, false_and, or_false,
      not_lt]
  · have hisFile : e.isDirectory = false := by simpa using mt hdir.1 hd
    simp only [hrecord, hd, hisFile, false_or, false_and, true_and, not_and, not_lt]

/-- Over any rows, every entry is backed unless one of the records is short. -/
theorem entries_backed_of_rows (rows : MinstoreRow T → Prop) :
    (∀ row, rows row → ∀ e, entryOfRow row = some e → Backed row e) ↔
      ∀ row, rows row → ¬ShortRecord row := by
  constructor
  · intro h row hrow hshort
    cases he : entryOfRow row with
    | none =>
      exact entryOfRow_eq_none.1 he hshort.1
    | some e =>
      exact (backed_iff he).1 (h row hrow e he) hshort
  · intro h row hrow e he
    exact (backed_iff he).2 (h row hrow)

theorem mem_flatMap_leafEntries {image : Slice T} {vis : List ℕ} {e : DirEntry} :
    e ∈ vis.flatMap (leafEntries image) ↔
      ∃ row, LeafRow image vis row ∧ entryOfRow row = some e := by
  simp only [List.mem_flatMap, mem_leafEntries, LeafRow]
  constructor
  · rintro ⟨b, hb, node, hnode, hleaf, row, hrow, he⟩
    exact ⟨row, ⟨b, hb, node, hnode, hleaf, hrow⟩, he⟩
  · rintro ⟨row, ⟨b, hb, node, hnode, hleaf, hrow⟩, he⟩
    exact ⟨b, hb, node, hnode, hleaf, row, hrow, he⟩

/-- **When no metadata is fabricated**: the entries of a page and of a walk come from the entry
records of the page and of the visited leaves, and each object id and each metadata is read from
bytes that are there exactly when none of these records is a directory with a value of less than 68
bytes or a file with one of less than 80. -/
theorem entries_backed_iff :
    (∀ (page : Slice T) node, MinstorePage.parse page = .ok node →
      parseDirectory page = .ok (node.rows.filterMap entryOfRow) ∧
        ((∀ row ∈ node.rows, ∀ e, entryOfRow row = some e → Backed row e) ↔
          ∀ row ∈ node.rows, ¬ShortRecord row)) ∧
    ∀ (image : Slice T) root out, walkDirectory image root = .ok out →
      ∃ vis, walkSearch image root = (vis, .ok ()) ∧
        (∀ e, e ∈ out ↔ ∃ row, LeafRow image vis row ∧ entryOfRow row = some e) ∧
        ((∀ row, LeafRow image vis row → ∀ e, entryOfRow row = some e → Backed row e) ↔
          ∀ row, LeafRow image vis row → ¬ShortRecord row) := by
  constructor
  · intro page node hnode
    exact ⟨parseDirectory_of_parse hnode, entries_backed_of_rows (· ∈ node.rows)⟩
  · intro image root out hwalk
    obtain ⟨vis, hvis, rfl⟩ := walkDirectory_eq_ok.1 hwalk
    exact ⟨vis, hvis, fun e => mem_flatMap_leafEntries, entries_backed_of_rows (LeafRow image vis)⟩

/-- A directory record with an empty value is presented with object id 0 and metadata of zeros, by
the page parser and by the walk. -/
theorem entryPage_empty :
    walkDirectory (entryPage 0 0) 0 = parseDirectory (entryPage 0 0) ∧
    (parseDirectory (entryPage 0 0)).map (·.map fun e => (e.name, e.objectId, e.metadata)) =
      .ok [("a", some 0, some ⟨0, 0, 0, 0, 0, 0, 0, true⟩)] ∧
    ∃ node, MinstorePage.parse (entryPage 0 0) = .ok node ∧
      ¬∀ row ∈ node.rows, ∀ e, entryOfRow row = some e → Backed row e := by
  refine ⟨by decide +kernel, by decide +kernel, ?_⟩
  have hrows : (MinstorePage.parse (entryPage 0 0)).map
      (·.rows.map fun row => (leU16 row.key 0, leU16 row.key 2, row.value.len)) =
        .ok [(recordTypeEntry, entryTypeDirectory, 0)] := by decide +kernel
  obtain ⟨node, hnode, hrows⟩ := map_eq_ok.1 hrows
  refine ⟨node, hnode, fun hbacked => ?_⟩
  obtain ⟨row, hrow, hfields⟩ := List.mem_map.1 (hrows.symm ▸ List.mem_singleton_self _)
  obtain ⟨hrecord, hfields⟩ := Prod.mk.inj hfields
  obtain ⟨htype, hlen⟩ := Prod.mk.inj hfields
  have hshort : ShortRecord row := ⟨hrecord, .inl ⟨htype, by rw [hlen]; decide⟩⟩
  exact (entries_backed_of_rows (· ∈ node.rows)).1 hbacked row hrow hshort

end RefsForensic
