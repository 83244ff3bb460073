import RefsForensic.Core.Resolution
import RefsForensic.Core.Rows

/-!
# The object table and its page

`object_table` parses the image from the object-table cluster to its end, not the 16 KiB page there.
So a lookup is a matter of that page only where the records that decide it lie in the page
(`object_table_local_iff`), and `ObjectTable::lookup` reads the rows of a branch node as those of a
leaf (`branch_lookup_iff`).
-/

namespace RefsForensic

open Rust

variable {T : Target}

/-! ## The lookup -/

/-- Byte offset of the object table page. -/
def objectTableStart : ℕ := objectTableCluster * refsClusterSize

/-- Byte offset of the end of the object table page. -/
def objectTableEnd : ℕ := objectTableStart + refsMetadataPageSize

/-- The tree-root block of an object by the table in `data`. -/
def rootBlockIn (data : Slice T) (id : ℕ) : Except RefsError ℕ :=
  match ObjectTable.parse data with
  | .error e => .error e
  | .ok table =>
    match table.lookup id with
    | none => .error (.objectIdNotFound id)
    | some r => .ok r.blockNumber

/-- The object-table step reads the image from the table on. -/
theorem rootBlockOf_eq (image : Slice T) (id : ℕ) :
    rootBlockOf image id =
      match image.getFrom objectTableStart with
      | none => .error (.truncated "object table page" objectTableStart image.len)
      | some data => rootBlockIn data id := by
  have hmax := T.le_usizeMax
  have hoff : ((T.tryFrom objectTableCluster).bind fun c =>
      checkedMul T.usizeMax c refsClusterSize) = some objectTableStart := by
    unfold objectTableStart objectTableCluster refsClusterSize
    rw [Target.tryFrom_of_le (by omega), Option.bind_some, checkedMul_of_le (by omega)]
  unfold rootBlockOf objectTable
  rw [hoff]
  dsimp only
  cases image.getFrom objectTableStart with
  | none => rfl
  | some data => rfl

/-- Record `i` is the first one of those with `p` that answers `id`, and names block `b`. -/
structure FirstAnswer (node : MinstorePage T) (id : ℕ) (p : ℕ → Prop) (i b : ℕ) : Prop where
  lt : i < node.recordCount
  mem : p i
  answers : ∃ r, node.row i = some r ∧ ObjectTable.lookupRow id r = some ⟨b⟩
  first : ∀ j < i, p j → ∀ r, node.row j = some r → ObjectTable.lookupRow id r = none

/-- A lookup answers with the first record that answers. -/
theorem lookup_eq_some {node : MinstorePage T} {id b : ℕ} :
    (ObjectTable.mk node).lookup id = some ⟨b⟩ ↔ ∃ i, FirstAnswer node id (fun _ => True) i b := by
  unfold ObjectTable.lookup MinstorePage.rows
  rw [← List.head?_filterMap, List.filterMap_filterMap, List.head?_filterMap,
    findSome?_range_eq_some]
  simp only [Option.bind_eq_some_iff, Option.bind_eq_none_iff]
  constructor
  · rintro ⟨i, hi, hans, hfirst⟩
    exact ⟨i, hi, trivial, hans, fun j hj _ => hfirst j hj⟩
  · rintro ⟨i, hi, -, hans, hfirst⟩
    exact ⟨i, hi, hans, fun j hj => hfirst j hj trivial⟩

/-- In a cut page only the records in the cut answer. -/
theorem lookup_cut_eq_some {cut node : MinstorePage T} {n id b : ℕ}
    (h : MinstorePage.IsCut cut node n) (hn : n ≤ node.page.len) :
    (ObjectTable.mk cut).lookup id = some ⟨b⟩ ↔
      ∃ i, FirstAnswer node id (node.RowWithin n) i b := by
  have hrow {i : ℕ} {r : MinstoreRow T} := h.row_eq_some hn (i := i) (r := r)
  rw [lookup_eq_some]
  constructor
  · rintro ⟨i, hi, -, ⟨r, hr, hb⟩, hfirst⟩
    obtain ⟨hi', hwithin, hr'⟩ := hrow.1 ⟨hi, hr⟩
    refine ⟨i, hi', hwithin, ⟨r, hr', hb⟩, fun j hj hjw r' hr' => ?_⟩
    exact hfirst j hj trivial r' (hrow.2 ⟨hj.trans hi', hjw, hr'⟩).2
  · rintro ⟨i, hi, hwithin, ⟨r, hr, hb⟩, hfirst⟩
    obtain ⟨hi', hr'⟩ := hrow.2 ⟨hi, hwithin, hr⟩
    refine ⟨i, hi', trivial, ⟨r, hr', hb⟩, fun j hj _ r' hr' => ?_⟩
    obtain ⟨-, hjw, hr'⟩ := hrow.1 ⟨hj.trans hi', hr'⟩
    exact hfirst j hj hjw r' hr'

theorem lookup_eq_none {node : MinstorePage T} {id : ℕ} :
    (ObjectTable.mk node).lookup id = none ↔
      ∀ i < node.recordCount, ∀ r, node.row i = some r → ObjectTable.lookupRow id r = none := by
  unfold ObjectTable.lookup MinstorePage.rows
  simp only [List.findSome?_eq_none_iff, List.mem_filterMap, List.mem_range]
  constructor
  · exact fun h i hi r hr => h r ⟨i, hi, hr⟩
  · rintro h r ⟨i, hi, hr⟩
    exact h i hi r hr

theorem rootBlockIn_of_parse {data : Slice T} {node : MinstorePage T}
    (h : MinstorePage.parse data = .ok node) (id : ℕ) :
    rootBlockIn data id =
      match (ObjectTable.mk node).lookup id with
      | none => .error (.objectIdNotFound id)
      | some r => .ok r.blockNumber := by
  rw [rootBlockIn, ObjectTable.parse, h]
  rfl

theorem rootBlockIn_of_error {data : Slice T} {e : RefsError}
    (h : MinstorePage.parse data = .error e) (id : ℕ) : rootBlockIn data id = .error e := by
  rw [rootBlockIn, ObjectTable.parse, h]
  rfl

/-- A lookup reports a truncation exactly where the table does not parse. -/
theorem rootBlockIn_truncated_iff {data : Slice T} {id : ℕ} :
    (∃ structureName need have_,
      rootBlockIn data id = .error (.truncated structureName need have_)) ↔
      ¬∃ node, MinstorePage.parse data = .ok node := by
  cases h : MinstorePage.parse data with
  | error e =>
    obtain ⟨structureName, need, rfl⟩ := MinstorePage.parse_error_spec h
    exact iff_of_true ⟨_, _, _, rootBlockIn_of_error h id⟩ (by simp)
  | ok node =>
    rw [rootBlockIn_of_parse h]
    cases (ObjectTable.mk node).lookup id with
    | none =>
      simp
    | some r =>
      simp

/-! ## Locality -/

/-- The lookup of `id` in `data` stays in the first `n` bytes: they hold the node header, and the
first record that answers `id` lies in them, or the first one that does names the same block. -/
structure StaysWithin (data : Slice T) (n id : ℕ) : Prop where
  header : MinstorePage.headerAt data + nodeHeaderLen ≤ n
  answer : ∀ node, MinstorePage.parse data = .ok node →
    ∀ i b, FirstAnswer node id (fun _ => True) i b →
      node.RowWithin n i ∨ ∃ j, FirstAnswer node id (node.RowWithin n) j b

/-- Two lookups agree when the first answer of the longer one lies in the cut, or is repeated
there. -/
theorem lookup_cut_iff {cut node : MinstorePage T} {n id : ℕ} (h : MinstorePage.IsCut cut node n)
    (hn : n ≤ node.page.len) :
    (ObjectTable.mk node).lookup id = (ObjectTable.mk cut).lookup id ↔
      ∀ i b, FirstAnswer node id (fun _ => True) i b →
        node.RowWithin n i ∨ ∃ j, FirstAnswer node id (node.RowWithin n) j b := by
  constructor
  · intro heq i b hfirst
    have hcut := heq.symm.trans (lookup_eq_some.2 ⟨i, hfirst⟩)
    exact .inr ((lookup_cut_eq_some h hn).1 hcut)
  · intro hans
    cases hlookup : (ObjectTable.mk node).lookup id with
    | none =>
      cases hcut : (ObjectTable.mk cut).lookup id with
      | none => rfl
      | some r =>
        obtain ⟨i, hi, -, ⟨row, hrow, hb⟩, -⟩ := (lookup_cut_eq_some h hn).1 hcut
        cases (lookup_eq_none.1 hlookup i hi row hrow).symm.trans hb
    | some r =>
      obtain ⟨i, hfirst⟩ := lookup_eq_some.1 hlookup
      refine ((lookup_cut_eq_some h hn).2 ?_).symm
      rcases hans i _ hfirst with hwithin | hans
      · exact ⟨i, hfirst.lt, hwithin, hfirst.answers, fun j hj _ => hfirst.first j hj trivial⟩
      · exact hans

theorem rootBlockIn_eq_iff {data data' : Slice T} {node node' : MinstorePage T} {id : ℕ}
    (h : MinstorePage.parse data = .ok node) (h' : MinstorePage.parse data' = .ok node') :
    rootBlockIn data id = rootBlockIn data' id ↔
      (ObjectTable.mk node).lookup id = (ObjectTable.mk node').lookup id := by
  rw [rootBlockIn_of_parse h, rootBlockIn_of_parse h']
  cases (ObjectTable.mk node).lookup id with
  | none =>
    cases (ObjectTable.mk node').lookup id with
    | none => simp
    | some r => simp
  | some r =>
    cases (ObjectTable.mk node').lookup id with
    | none => simp
    | some r' =>
      obtain ⟨b⟩ := r
      obtain ⟨b'⟩ := r'
      simp

/-- A truncated table says so with its own length. -/
theorem len_eq_of_rootBlockIn_eq {data data' : Slice T} {e : RefsError} {id : ℕ}
    (h : MinstorePage.parse data' = .error e) (heq : rootBlockIn data id = rootBlockIn data' id) :
    data.len = data'.len := by
  obtain ⟨name', need', rfl⟩ := MinstorePage.parse_error_spec h
  rw [rootBlockIn_of_error h] at heq
  cases hnode : MinstorePage.parse data with
  | ok node =>
    exact absurd ⟨node, hnode⟩ (rootBlockIn_truncated_iff.1 ⟨_, _, _, heq⟩)
  | error e =>
    obtain ⟨name, need, rfl⟩ := MinstorePage.parse_error_spec hnode
    rw [rootBlockIn_of_error hnode] at heq
    simp only [Except.error.injEq, RefsError.truncated.injEq] at heq
    exact heq.2.2

theorem rootBlockIn_take_iff {data : Slice T} {n id : ℕ} (hfield : nodeHeaderOffsetField + 4 ≤ n)
    (hn : n ≤ data.len) :
    rootBlockIn data id = rootBlockIn (data.take n) id ↔
      data.len = n ∨ StaysWithin data n id := by
  by_cases hlen : data.len = n
  · rw [Slice.take_of_len_le hlen.le]
    exact iff_of_true rfl (.inl hlen)
  rw [or_iff_right hlen]
  have htake : (data.take n).len = n := by rw [Slice.take_len, min_eq_left hn]
  by_cases hheader : MinstorePage.headerAt data + nodeHeaderLen ≤ n
  · -- both tables parse, and the lookups are compared
    obtain ⟨node, hnode⟩ := MinstorePage.exists_parse_iff.2
      ⟨hfield.trans hn, hheader.trans hn⟩
    have hspec := MinstorePage.parse_spec hnode
    obtain ⟨cut, hcut, hisCut⟩ := MinstorePage.parse_take hn hfield hnode
      (by rw [hspec.nodeHeader]; exact hheader)
    rw [rootBlockIn_eq_iff hnode hcut, lookup_cut_iff hisCut (by rw [hspec.page]; exact hn)]
    constructor
    · refine fun h => ⟨hheader, fun node' hnode' => ?_⟩
      obtain rfl := Except.ok.inj (hnode.symm.trans hnode')
      exact h
    · exact fun h => h.answer node hnode
  · -- the cut table is a truncated one
    refine iff_of_false (fun heq => hlen ?_) (fun h => hheader h.header)
    cases hcut : MinstorePage.parse (data.take n) with
    | ok cut =>
      have hfits := (MinstorePage.exists_parse_iff.1 ⟨cut, hcut⟩).2
      rw [MinstorePage.headerAt_take hfield, htake] at hfits
      exact absurd hfits hheader
    | error e =>
      rw [len_eq_of_rootBlockIn_eq hcut heq, htake]

/-! ### Images -/

/-- The object-table step of `image` stays in the table's page: the image ends with the page, or the
lookup stays in it. -/
def TableInPage (image : Slice T) (id : ℕ) : Prop :=
  ∀ data, image.getFrom objectTableStart = some data →
    data.len = refsMetadataPageSize ∨ StaysWithin data refsMetadataPageSize id

/-- The image holds the offset field and the node header of its object table. -/
def HoldsTableHeader (image : Slice T) : Prop :=
  ∃ data, image.getFrom objectTableStart = some data ∧
    nodeHeaderOffsetField + 4 ≤ data.len ∧ MinstorePage.headerAt data + nodeHeaderLen ≤ data.len

theorem rootBlockOf_take {image page : Slice T}
    (h : image.getRange objectTableStart objectTableEnd = some page) (id : ℕ) :
    rootBlockOf (image.take objectTableEnd) id = rootBlockIn page id := by
  obtain ⟨⟨-, hle⟩, -⟩ := Slice.getRange_eq_some.1 h
  rw [rootBlockOf_eq, Slice.getFrom_take hle, h]

/-- **The page alone** answers as the image does exactly when the lookup stays in it. -/
theorem rootBlockOf_take_iff {image : Slice T} (hlong : objectTableEnd ≤ image.len) (id : ℕ) :
    rootBlockOf image id = rootBlockOf (image.take objectTableEnd) id ↔ TableInPage image id := by
  have hdata : image.getFrom objectTableStart = some (image.range objectTableStart image.len
      ⟨by unfold objectTableEnd at hlong; omega, le_rfl⟩) := Slice.getRange_of_le _
  have hlen := Slice.len_of_getRange hdata
  have hpage := Slice.getRange_of_getFrom (n := refsMetadataPageSize) hdata
    (by unfold objectTableEnd at hlong; omega)
  rw [rootBlockOf_take hpage, rootBlockOf_eq, hdata]
  dsimp only
  rw [rootBlockIn_take_iff (by decide) (by unfold objectTableEnd at hlong; omega), TableInPage,
    hdata]
  simp

/-- `image'` has the object table page of `image`. -/
def SameTablePage (image image' : Slice T) : Prop :=
  image'.getRange objectTableStart objectTableEnd = image.getRange objectTableStart objectTableEnd

theorem SameTablePage.take (image : Slice T) :
    SameTablePage image (image.take objectTableEnd) :=
  Slice.getRange_take image le_rfl

/-- The page fixes what the page alone answers. -/
theorem SameTablePage.rootBlockOf_take {image image' : Slice T} (h : SameTablePage image image')
    (hlong : objectTableEnd ≤ image.len) (id : ℕ) :
    rootBlockOf (image'.take objectTableEnd) id = rootBlockOf (image.take objectTableEnd) id := by
  have hpage := Slice.getRange_of_le (d := image) (a := objectTableStart) (b := objectTableEnd)
    ⟨by unfold objectTableEnd; omega, hlong⟩
  rw [RefsForensic.rootBlockOf_take (h.trans hpage), RefsForensic.rootBlockOf_take hpage]

theorem SameTablePage.le_len {image image' : Slice T} (h : SameTablePage image image')
    (hlong : objectTableEnd ≤ image.len) : objectTableEnd ≤ image'.len := by
  have hpage := Slice.getRange_of_le (d := image) (a := objectTableStart) (b := objectTableEnd)
    ⟨by unfold objectTableEnd; omega, hlong⟩
  exact (Slice.getRange_eq_some.1 (h.trans hpage)).choose.2

/-- All images with one table page agree exactly when in each of them the lookup stays in it. -/
theorem sameTablePage_agree_iff {image : Slice T} (hlong : objectTableEnd ≤ image.len) (id : ℕ) :
    (∀ image' : Slice T, SameTablePage image image' →
      rootBlockOf image' id = rootBlockOf image id) ↔
    ∀ image' : Slice T, SameTablePage image image' → TableInPage image' id := by
  constructor
  · intro h image' hsame
    refine (rootBlockOf_take_iff (hsame.le_len hlong) id).1 ?_
    rw [hsame.rootBlockOf_take hlong, h image' hsame, h _ (SameTablePage.take image)]
  · intro h image' hsame
    have hself := (rootBlockOf_take_iff hlong id).2 (h image rfl)
    have hother := (rootBlockOf_take_iff (hsame.le_len hlong) id).2 (h image' hsame)
    rw [hother, hsame.rootBlockOf_take hlong, hself]

theorem rootBlockOf_truncated_iff {image : Slice T} {id : ℕ} :
    (∃ structureName need have_,
      rootBlockOf image id = .error (.truncated structureName need have_)) ↔
      ¬HoldsTableHeader image := by
  unfold HoldsTableHeader
  rw [rootBlockOf_eq]
  cases hdata : image.getFrom objectTableStart with
  | none =>
    simp
  | some data =>
    simp only [rootBlockIn_truncated_iff, MinstorePage.exists_parse_iff, Option.some.injEq,
      exists_eq_left']

/-- **When the object-table step is local to its page**: an image answers as its table page alone
does exactly when the lookup stays in the page; all images with one table page agree exactly when
that holds of each of them; and an image that ends in the page is reported as truncated exactly when
it ends in front of the end of the node header. -/
theorem object_table_local_iff (image : Slice T) (id : ℕ) :
    (objectTableEnd ≤ image.len →
      (rootBlockOf image id = rootBlockOf (image.take objectTableEnd) id ↔
        TableInPage image id)) ∧
    (objectTableEnd ≤ image.len →
      ((∀ image' : Slice T, SameTablePage image image' →
        rootBlockOf image' id = rootBlockOf image id) ↔
      ∀ image' : Slice T, SameTablePage image image' → TableInPage image' id)) ∧
    (image.len < objectTableEnd →
      ((∃ structureName need have_,
        rootBlockOf image id = .error (.truncated structureName need have_)) ↔
      ¬HoldsTableHeader image)) :=
  ⟨fun hlong => rootBlockOf_take_iff hlong id, fun hlong => sameTablePage_agree_iff hlong id,
    fun _ => rootBlockOf_truncated_iff⟩

/-! ### A record behind the page -/

/-- The byte at `j` of an object table page with its node header at `0x100`, its offset array at
`0x100 + 0x100 * slots` and one record at `0x120`, whose key has the id `0x600`. -/
def tablePageByte (flags slots : UInt8) (j : ℕ) : UInt8 :=
  match j with
  | 0x50 => 0xb0
  | 0x10d => flags
  | 0x111 => slots
  | 0x114 => 0x01
  | 0x124 => 0x10
  | 0x126 => 0x10
  | 0x12a => 0x20
  | 0x12c => 0x30
  | 0x139 => 0x06
  | _ => 0

/-- An image whose object table has its offset array behind the table's page. -/
def straySlot : Slice .w64 where
  len := 61 * 4096
  len_le := by decide
  byte i :=
    if i.1 = objectTableEnd then 0x20
    else if i.1 / 4096 = 56 then tablePageByte 0 0x3f (i % 4096)
    else 0

/-- The byte behind the page decides the lookup, and an image that ends in the page has no object
`0x600`. -/
theorem straySlot_not_local :
    (¬∀ (image image' : Slice .w64) (id : ℕ), objectTableEnd ≤ image.len →
      objectTableEnd ≤ image'.len → SameTablePage image image' →
      rootBlockOf image' id = rootBlockOf image id) ∧
    ¬∀ (image : Slice .w64) (id : ℕ), image.len < objectTableEnd →
      ∃ structureName need have_,
        rootBlockOf image id = .error (.truncated structureName need have_) := by
  have hwhole : rootBlockOf straySlot 0x600 = .ok 0 := by decide +kernel
  have hpage : rootBlockOf (straySlot.take objectTableEnd) 0x600 =
      .error (.objectIdNotFound 0x600) := by decide +kernel
  have hshort : rootBlockOf (straySlot.take (objectTableEnd - 1)) 0x600 =
      .error (.objectIdNotFound 0x600) := by decide +kernel
  refine ⟨fun h => ?_, fun h => ?_⟩
  · have heq := h straySlot (straySlot.take objectTableEnd) 0x600 (by decide) (by decide)
      (SameTablePage.take straySlot)
    rw [hwhole, hpage] at heq
    cases heq
  · obtain ⟨name, need, have_, heq⟩ := h (straySlot.take (objectTableEnd - 1)) 0x600 (by decide)
    rw [hshort] at heq
    cases heq

/-! ## Branch nodes -/

/-- A row carries the object id in its key and has a value long enough for the block reference. -/
def CarriesId (id : ℕ) (row : MinstoreRow T) : Prop :=
  ObjectTable.keyIdOffset + 8 ≤ row.key.len ∧ leU64 row.key ObjectTable.keyIdOffset = id ∧
    ObjectTable.valueBlockRefOffset + 8 ≤ row.value.len

theorem exists_getRange_leU64 {d : Slice T} {off : ℕ} (h : off + 8 ≤ d.len) :
    ∃ s, d.getRange off (off + 8) = some s ∧ leU64 s 0 = leU64 d off := by
  have hs := Slice.getRange_of_le (d := d) (a := off) (b := off + 8) ⟨by omega, h⟩
  refine ⟨_, hs, ?_⟩
  rw [leU64, leField_getRange hs (by simp), Nat.add_zero, leU64]

/-- A row that carries the id answers with the number at value `+0x20`, whatever it is there. -/
theorem lookupRow_eq_some {id b : ℕ} {row : MinstoreRow T} :
    ObjectTable.lookupRow id row = some ⟨b⟩ ↔
      CarriesId id row ∧ b = leU64 row.value ObjectTable.valueBlockRefOffset := by
  unfold ObjectTable.lookupRow CarriesId
  by_cases hkey : ObjectTable.keyIdOffset + 8 ≤ row.key.len
  · obtain ⟨idBytes, hid, hread⟩ := exists_getRange_leU64 hkey
    by_cases hvalue : ObjectTable.valueBlockRefOffset + 8 ≤ row.value.len
    · obtain ⟨block, hblock, hnumber⟩ := exists_getRange_leU64 hvalue
      simp [hid, hread, hblock, hnumber, hkey, hvalue, eq_comm]
    · rw [Slice.getRange_of_not_le (a := ObjectTable.valueBlockRefOffset) (by omega)]
      simp [hid, hvalue]
  · rw [Slice.getRange_of_not_le (by omega)]
    simp [hkey]

theorem lookup_eq_none_iff {table : ObjectTable T} {id : ℕ} :
    table.lookup id = none ↔ ¬∃ row ∈ table.node.rows, CarriesId id row := by
  unfold ObjectTable.lookup
  rw [List.findSome?_eq_none_iff, not_exists]
  refine forall_congr' fun row => ?_
  rw [not_and]
  refine imp_congr_right fun _ => ?_
  constructor
  · intro hnone hcarries
    cases hnone.symm.trans (lookupRow_eq_some.2 ⟨hcarries, rfl⟩)
  · intro hnot
    rw [Option.eq_none_iff_forall_ne_some]
    rintro ⟨b⟩ hsome
    exact hnot (lookupRow_eq_some.1 hsome).1

theorem rootBlockOf_notFound_iff {image : Slice T} {table : ObjectTable T} {id : ℕ}
    (h : objectTable image = .ok table) :
    rootBlockOf image id = .error (.objectIdNotFound id) ↔ table.lookup id = none := by
  unfold rootBlockOf
  rw [h]
  cases hlookup : table.lookup id with
  | none => simp [hlookup]
  | some r => simp [hlookup]

/-- **When a branch node answers no lookup**: no row of it carries the id. The object-table step of
a listing finds nothing in a branch exactly under the same condition. -/
theorem branch_lookup_iff :
    (∀ (table : ObjectTable T) (id : ℕ),
      (table.node.isBranch = true → table.lookup id = none) ↔
        ¬(table.node.isBranch = true ∧ ∃ row ∈ table.node.rows, CarriesId id row)) ∧
    ∀ (image : Slice T) (id : ℕ),
      (∀ table, objectTable image = .ok table → table.node.isBranch = true →
        rootBlockOf image id = .error (.objectIdNotFound id)) ↔
      ¬∃ table, objectTable image = .ok table ∧ table.node.isBranch = true ∧
        ∃ row ∈ table.node.rows, CarriesId id row := by
  refine ⟨fun table id => ?_, fun image id => ?_⟩
  · rw [not_and, lookup_eq_none_iff]
  · constructor
    · rintro h ⟨table, htable, hbranch, hrow⟩
      have hnone := (rootBlockOf_notFound_iff htable).1 (h table htable hbranch)
      exact lookup_eq_none_iff.1 hnone hrow
    · intro h table htable hbranch
      refine (rootBlockOf_notFound_iff htable).2 (lookup_eq_none_iff.2 fun hrow => ?_)
      exact h ⟨table, htable, hbranch, hrow⟩

/-- An image whose object table page is a branch with the separator key `0x600` and, behind the
child block, the checksum descriptor `00 00 02 08 08 00 00 00`. -/
def branchTable : Slice .w64 where
  len := 61 * 4096
  len_le := by decide
  byte i :=
    match i.1 / 4096, i.1 % 4096 with
    | 56, 0x140 => 0x04
    | 56, 0x162 => 0x02
    | 56, 0x163 => 0x08
    | 56, 0x164 => 0x08
    | 56, 0x200 => 0x20
    | 56, j => tablePageByte 1 0x01 j
    | _, _ => 0

/-- The checksum descriptor is taken for the tree-root block. -/
theorem branchTable_answers :
    rootBlockOf branchTable 0x600 = .ok 34494087168 ∧
      ¬∀ (image : Slice .w64) (id : ℕ) (table : ObjectTable .w64),
        objectTable image = .ok table → table.node.isBranch = true → table.lookup id = none := by
  have hroot : rootBlockOf branchTable 0x600 = .ok 34494087168 := by decide +kernel
  have hbranch : (objectTable branchTable).map (·.node.isBranch) = .ok true := by decide +kernel
  obtain ⟨table, htable, hbranch⟩ := map_eq_ok.1 hbranch
  refine ⟨hroot, fun h => ?_⟩
  have hnone := h branchTable 0x600 table htable hbranch
  rw [(rootBlockOf_notFound_iff htable).2 hnone] at hroot
  cases hroot

end RefsForensic
