import RefsForensic.Core.Minstore

/-!
# Records of a page

`MinstorePage::row` as four spans of the page: the slot of a record, its header, its key and its
value. A record is a row exactly when the last three lie in the page (`row_eq_some`), and the node
of a cut page has the rows that lie in the cut (`IsCut.row_eq_some`).
-/

namespace RefsForensic

open Rust

variable {T : Target}

namespace MinstorePage

/-! ## Spans -/

/-- Where record `i` starts, by its slot. -/
def recordAt (node : MinstorePage T) (i : ℕ) : ℕ :=
  node.nodeHeader + (leU32 node.page (node.recordOffsets + i * 4) &&& 0xffff)

def keyStart (node : MinstorePage T) (i : ℕ) : ℕ :=
  node.recordAt i + leU16 node.page (node.recordAt i + 4)

def keyEnd (node : MinstorePage T) (i : ℕ) : ℕ :=
  node.keyStart i + leU16 node.page (node.recordAt i + 6)

def valStart (node : MinstorePage T) (i : ℕ) : ℕ :=
  node.recordAt i + leU16 node.page (node.recordAt i + 10)

def valEnd (node : MinstorePage T) (i : ℕ) : ℕ :=
  node.valStart i + leU16 node.page (node.recordAt i + 12)

/-- The slot of a record lies in the page. -/
theorem slot_le (node : MinstorePage T) {i : ℕ} (hi : i < node.recordCount) :
    node.recordOffsets + i * 4 + 4 ≤ node.page.len := by
  have := node.recordCount_le
  omega

theorem recordAt_le (node : MinstorePage T) (i : ℕ) : node.recordAt i ≤ node.page.len + 0xffff := by
  have hand : leU32 node.page (node.recordOffsets + i * 4) &&& 0xffff ≤ 0xffff := Nat.and_le_right
  have := node.nodeHeader_le
  unfold recordAt nodeHeaderLen at *
  omega

/-- **A record is a row** when its header, its key and its value lie in the page. -/
theorem row_eq_some {node : MinstorePage T} {i : ℕ} (hi : i < node.recordCount)
    {r : MinstoreRow T} :
    node.row i = some r ↔ node.recordAt i + 14 ≤ node.page.len ∧
      node.page.getRange (node.keyStart i) (node.keyEnd i) = some r.key ∧
      node.page.getRange (node.valStart i) (node.valEnd i) = some r.value ∧
      r.flags = leU16 node.page (node.recordAt i + 8) := by
  have hlen := node.page.len_le
  have hmax := T.isizeMax_add_le
  have hslot := node.slot_le hi
  have hrecord := node.recordAt_le i
  simp only [row, Option.bind_eq_bind, Option.bind_eq_some_iff, checkedMul_eq_some,
    checkedAdd_eq_some]
  constructor
  · rintro ⟨_, ⟨-, rfl⟩, _, ⟨-, rfl⟩, _, ⟨-, rfl⟩, _, ⟨-, rfl⟩, h⟩
    split_ifs at h with hlt
    simp only [Option.bind_eq_some_iff, checkedAdd_eq_some] at h
    obtain ⟨_, ⟨-, rfl⟩, _, ⟨-, rfl⟩, _, ⟨-, rfl⟩, _, ⟨-, rfl⟩, key, hkey, value, hvalue, hr⟩ := h
    cases hr
    exact ⟨not_lt.1 hlt, hkey, hvalue, rfl⟩
  · rintro ⟨hheader, hkey, hvalue, hflags⟩
    have hkeyLe := (Slice.getRange_eq_some.1 hkey).choose
    have hvalLe := (Slice.getRange_eq_some.1 hvalue).choose
    unfold keyEnd keyStart valEnd valStart at *
    refine ⟨_, ⟨by omega, rfl⟩, _, ⟨by omega, rfl⟩, node.recordAt i, ⟨?_, rfl⟩, _,
      ⟨by omega, rfl⟩, ?_⟩
    · exact show node.recordAt i ≤ _ by omega
    rw [if_neg (not_lt.2 hheader)]
    simp only [Option.bind_eq_some_iff, checkedAdd_eq_some]
    refine ⟨_, ⟨by omega, rfl⟩, _, ⟨by omega, rfl⟩, _, ⟨by omega, rfl⟩, _, ⟨by omega, rfl⟩,
      r.key, hkey, r.value, hvalue, ?_⟩
    rw [← hflags]

/-! ## Parsed pages -/

/-- Where the node header of a page starts. -/
def headerAt (data : Slice T) : ℕ :=
  saturatingAdd T.usizeMax nodeHeaderOffsetField (leU32 data nodeHeaderOffsetField)

/-- `node` is the node of `data`, field by field. -/
structure ParsesTo (data : Slice T) (node : MinstorePage T) : Prop where
  field : nodeHeaderOffsetField + 4 ≤ data.len
  page : node.page = data
  nodeHeader : node.nodeHeader = headerAt data
  level : node.level = u8At data (headerAt data + 12)
  flags : node.flags = u8At data (headerAt data + 13)
  recordOffsets : node.recordOffsets =
    saturatingAdd T.usizeMax (headerAt data) (leU32 data (headerAt data + 16))
  recordCount : node.recordCount =
    min (min (leU32 data (headerAt data + 20)) ((data.len - node.recordOffsets) / 4)) maxRecords

theorem parse_spec {data : Slice T} {node : MinstorePage T} (h : parse data = .ok node) :
    ParsesTo data node := by
  unfold parse at h
  dsimp only at h
  split_ifs at h with hshort
  cases h
  exact ⟨not_lt.1 hshort, rfl, rfl, rfl, rfl, rfl, rfl⟩

/-- **Which pages parse**: those that hold the offset field and the node header. -/
theorem exists_parse_iff {data : Slice T} :
    (∃ node, parse data = .ok node) ↔
      nodeHeaderOffsetField + 4 ≤ data.len ∧ headerAt data + nodeHeaderLen ≤ data.len := by
  have hlen := data.len_le
  have hmax := T.isizeMax_lt_usizeMax
  constructor
  · rintro ⟨node, h⟩
    have hspec := parse_spec h
    have hle := node.nodeHeader_le
    rw [hspec.nodeHeader, hspec.page] at hle
    exact ⟨hspec.field, hle⟩
  · rintro ⟨hfield, hheader⟩
    unfold headerAt at hheader
    unfold parse
    rw [if_neg (not_lt.2 hfield)]
    dsimp only
    rw [dif_pos ⟨by omega, hheader⟩]
    exact ⟨_, rfl⟩

/-- A page that does not parse is too short, and the error says how long it is. -/
theorem parse_error_spec {data : Slice T} {e : RefsError} (h : parse data = .error e) :
    ∃ structureName need, e = .truncated structureName need data.len := by
  unfold parse at h
  dsimp only at h
  split_ifs at h
  · cases h
    exact ⟨_, _, rfl⟩
  · cases h
    exact ⟨_, _, rfl⟩

/-! ## Cut pages -/

/-- Record `i` lies in the first `n` bytes of the page: its slot, its header, its key and its
value. -/
structure RowWithin (node : MinstorePage T) (n i : ℕ) : Prop where
  slot : node.recordOffsets + i * 4 + 4 ≤ n
  header : node.recordAt i + 14 ≤ n
  key : node.keyEnd i ≤ n
  value : node.valEnd i ≤ n

/-- `cut` is the node of the first `n` bytes of the page of `node`. -/
structure IsCut (cut node : MinstorePage T) (n : ℕ) : Prop where
  page : cut.page = node.page.take n
  nodeHeader : cut.nodeHeader = node.nodeHeader
  flags : cut.flags = node.flags
  recordOffsets : cut.recordOffsets = node.recordOffsets
  recordCount : cut.recordCount = min node.recordCount ((n - node.recordOffsets) / 4)

theorem headerAt_take {data : Slice T} {n : ℕ} (hn : nodeHeaderOffsetField + 4 ≤ n) :
    headerAt (data.take n) = headerAt data := by
  rw [headerAt, headerAt, leU32, leU32, leField_take data hn]

/-- A page may be cut anywhere behind its node header. -/
theorem parse_take {data : Slice T} {node : MinstorePage T} {n : ℕ} (hn : n ≤ data.len)
    (hfield : nodeHeaderOffsetField + 4 ≤ n) (h : parse data = .ok node)
    (hheader : node.nodeHeader + nodeHeaderLen ≤ n) :
    ∃ cut, parse (data.take n) = .ok cut ∧ IsCut cut node n := by
  have hspec := parse_spec h
  have hat : headerAt (data.take n) = headerAt data := headerAt_take hfield
  have hlen : (data.take n).len = n := by rw [Slice.take_len, min_eq_left hn]
  rw [hspec.nodeHeader] at hheader
  obtain ⟨cut, hcut⟩ : ∃ cut, parse (data.take n) = .ok cut := by
    rw [exists_parse_iff, hat, hlen]
    exact ⟨hfield, hheader⟩
  have hcutSpec := parse_spec hcut
  unfold nodeHeaderLen at hheader
  have hroff : leU32 (data.take n) (headerAt data + 16) = leU32 data (headerAt data + 16) :=
    leField_take data (by omega)
  have hclaimed : leU32 (data.take n) (headerAt data + 20) = leU32 data (headerAt data + 20) :=
    leField_take data (by omega)
  have hoffsets : cut.recordOffsets = node.recordOffsets := by
    rw [hcutSpec.recordOffsets, hspec.recordOffsets, hat, hroff]
  refine ⟨cut, hcut, ?_, ?_, ?_, hoffsets, ?_⟩
  · rw [hcutSpec.page, hspec.page]
  · rw [hcutSpec.nodeHeader, hspec.nodeHeader, hat]
  · rw [hcutSpec.flags, hspec.flags, hat, u8At_take data (by omega)]
  · rw [hcutSpec.recordCount, hspec.recordCount, hoffsets, hat, hclaimed, hlen]
    omega

theorem IsCut.lt_recordCount {cut node : MinstorePage T} {n i : ℕ} (h : IsCut cut node n) :
    i < cut.recordCount ↔ i < node.recordCount ∧ node.recordOffsets + i * 4 + 4 ≤ n := by
  rw [h.recordCount]
  omega

theorem IsCut.recordAt {cut node : MinstorePage T} {n i : ℕ} (h : IsCut cut node n)
    (hslot : node.recordOffsets + i * 4 + 4 ≤ n) : cut.recordAt i = node.recordAt i := by
  rw [MinstorePage.recordAt, MinstorePage.recordAt, h.nodeHeader, h.page, h.recordOffsets, leU32,
    leU32, leField_take _ hslot]

/-- The header of a record in the cut. -/
theorem IsCut.leU16 {cut node : MinstorePage T} {n i : ℕ} (h : IsCut cut node n)
    (hslot : node.recordOffsets + i * 4 + 4 ≤ n) (hheader : node.recordAt i + 14 ≤ n)
    (off : ℕ) (hoff : off + 2 ≤ 14) :
    RefsForensic.leU16 cut.page (cut.recordAt i + off) =
      RefsForensic.leU16 node.page (node.recordAt i + off) := by
  rw [h.recordAt hslot, h.page]
  exact leField_take _ (by omega)

/-- A record whose slot and header lie in the cut has its spans. -/
theorem IsCut.spans {cut node : MinstorePage T} {n i : ℕ} (h : IsCut cut node n)
    (hslot : node.recordOffsets + i * 4 + 4 ≤ n) (hheader : node.recordAt i + 14 ≤ n) :
    cut.keyStart i = node.keyStart i ∧ cut.keyEnd i = node.keyEnd i ∧
      cut.valStart i = node.valStart i ∧ cut.valEnd i = node.valEnd i := by
  have hkey := h.leU16 hslot hheader 4 (by decide)
  have hkeyLen := h.leU16 hslot hheader 6 (by decide)
  have hval := h.leU16 hslot hheader 10 (by decide)
  have hvalLen := h.leU16 hslot hheader 12 (by decide)
  unfold keyEnd keyStart valEnd valStart
  rw [hkey, hkeyLen, hval, hvalLen, h.recordAt hslot]
  exact ⟨rfl, rfl, rfl, rfl⟩

/-- **The rows of a cut page** are the rows that lie in the cut. -/
theorem IsCut.row_eq_some {cut node : MinstorePage T} {n : ℕ} (h : IsCut cut node n)
    (hn : n ≤ node.page.len) {i : ℕ} {r : MinstoreRow T} :
    (i < cut.recordCount ∧ cut.row i = some r) ↔
      i < node.recordCount ∧ RowWithin node n i ∧ node.row i = some r := by
  have hlen : cut.page.len = n := by rw [h.page, Slice.take_len, min_eq_left hn]
  constructor
  · rintro ⟨hi, hrow⟩
    obtain ⟨hi', hslot⟩ := h.lt_recordCount.1 hi
    obtain ⟨hheader, hkey, hvalue, hflags⟩ := (MinstorePage.row_eq_some hi).1 hrow
    rw [hlen, h.recordAt hslot] at hheader
    obtain ⟨hks, hke, hvs, hve⟩ := h.spans hslot hheader
    have hkeyLe := (Slice.getRange_eq_some.1 hkey).choose.2
    have hvalLe := (Slice.getRange_eq_some.1 hvalue).choose.2
    rw [hlen, hke] at hkeyLe
    rw [hlen, hve] at hvalLe
    rw [hks, hke, h.page, Slice.getRange_take _ hkeyLe] at hkey
    rw [hvs, hve, h.page, Slice.getRange_take _ hvalLe] at hvalue
    rw [h.leU16 hslot hheader 8 (by decide)] at hflags
    refine ⟨hi', ⟨hslot, hheader, hkeyLe, hvalLe⟩, (MinstorePage.row_eq_some hi').2 ?_⟩
    exact ⟨hheader.trans hn, hkey, hvalue, hflags⟩
  · rintro ⟨hi, hwithin, hrow⟩
    have hi' := h.lt_recordCount.2 ⟨hi, hwithin.slot⟩
    obtain ⟨-, hkey, hvalue, hflags⟩ := (MinstorePage.row_eq_some hi).1 hrow
    obtain ⟨hks, hke, hvs, hve⟩ := h.spans hwithin.slot hwithin.header
    refine ⟨hi', (MinstorePage.row_eq_some hi').2 ⟨?_, ?_, ?_, ?_⟩⟩
    · rw [hlen, h.recordAt hwithin.slot]
      exact hwithin.header
    · rw [hks, hke, h.page, Slice.getRange_take _ hwithin.key, hkey]
    · rw [hvs, hve, h.page, Slice.getRange_take _ hwithin.value, hvalue]
    · rw [hflags, h.leU16 hwithin.slot hwithin.header 8 (by decide)]

end MinstorePage

end RefsForensic
