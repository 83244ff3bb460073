import RefsForensic.Core.Rows
import RefsForensic.Rust.Layout
import Mathlib.Data.List.Induction
import Mathlib.Data.List.Forall2
import Mathlib.Tactic.IntervalCases

/-!
# The rows of a page

`MinstorePage::rows` without machine integers: the offsets of a slot, its record and its spans as
natural numbers read off the page. The rows are, in slot order, those of exactly the slots whose
parts lie in the page; a row depends on the bytes of its own slot alone; and records written into a
page are read back (`rows_exact`).
-/

namespace RefsForensic

open Rust

variable {T : Target}

/-! ## Offsets -/

namespace PageRow

/-- Where the node header starts. -/
def node (page : Slice T) : ℕ := nodeHeaderOffsetField + leU32 page nodeHeaderOffsetField

/-- Where the record-offset array starts. -/
def array (page : Slice T) : ℕ := node page + leU32 page (node page + 16)

/-- The claimed number of records. -/
def claimed (page : Slice T) : ℕ := leU32 page (node page + 20)

/-- Where slot `i` is. -/
def slot (page : Slice T) (i : ℕ) : ℕ := array page + i * 4

/-- Where the record of slot `i` starts: the lower 16 bits of the slot, from the node header. -/
def record (page : Slice T) (i : ℕ) : ℕ := node page + leU32 page (slot page i) % 2 ^ 16

def keyStart (page : Slice T) (i : ℕ) : ℕ := record page i + leU16 page (record page i + 4)

def keyLen (page : Slice T) (i : ℕ) : ℕ := leU16 page (record page i + 6)

def valStart (page : Slice T) (i : ℕ) : ℕ := record page i + leU16 page (record page i + 10)

def valLen (page : Slice T) (i : ℕ) : ℕ := leU16 page (record page i + 12)

end PageRow

/-- Slot `i` of the page is claimed, it lies in the page with its record header, its key and its
value, and these make the row `r`. -/
structure SlotYields (page : Slice T) (i : ℕ) (r : MinstoreRow T) : Prop where
  claimed : i < PageRow.claimed page
  slot : PageRow.slot page i + 4 ≤ page.len
  header : PageRow.record page i + 14 ≤ page.len
  key : page.getRange (PageRow.keyStart page i)
    (PageRow.keyStart page i + PageRow.keyLen page i) = some r.key
  value : page.getRange (PageRow.valStart page i)
    (PageRow.valStart page i + PageRow.valLen page i) = some r.value
  flags : r.flags = leU16 page (PageRow.record page i + 8)

/-- `node` is the node of `page`, and its record count is that of the claimed slots in the page. -/
structure NodeOf (page : Slice T) (node : MinstorePage T) : Prop where
  page_eq : node.page = page
  nodeHeader : node.nodeHeader = PageRow.node page
  lt_recordCount : ∀ i, i < node.recordCount ↔
    i < PageRow.claimed page ∧ PageRow.slot page i + 4 ≤ page.len
  recordOffsets : ∀ i < node.recordCount, node.recordOffsets = PageRow.array page

/-- The parser keeps the offsets of a page whose node header is in bounds, and clamps the count to
the slots that lie in the page. -/
theorem exists_nodeOf {page : Slice T} (hlen : page.len ≤ refsMetadataPageSize)
    (hheader : PageRow.node page + nodeHeaderLen ≤ page.len) :
    ∃ node, MinstorePage.parse page = .ok node ∧ NodeOf page node := by
  have hle := page.len_le
  have hmax := T.isizeMax_lt_usizeMax
  have hT := T.le_usizeMax
  have hat : MinstorePage.headerAt page = PageRow.node page := by
    unfold nodeHeaderLen at hheader
    exact min_eq_left (show PageRow.node page ≤ T.usizeMax by omega)
  obtain ⟨node, hnode⟩ : ∃ node, MinstorePage.parse page = .ok node := by
    rw [MinstorePage.exists_parse_iff, hat]
    unfold PageRow.node nodeHeaderLen at *
    exact ⟨by omega, hheader⟩
  have hspec := MinstorePage.parse_spec hnode
  -- a saturated array start lies behind every slot of the page
  have hoffsets : node.recordOffsets = min (PageRow.array page) T.usizeMax := by
    rw [hspec.recordOffsets, hat]
    rfl
  have hcount : ∀ i, i < node.recordCount ↔
      i < PageRow.claimed page ∧ PageRow.slot page i + 4 ≤ page.len := by
    intro i
    rw [hspec.recordCount, hat]
    unfold PageRow.claimed PageRow.slot maxRecords refsMetadataPageSize at *
    omega
  refine ⟨node, hnode, hspec.page, hspec.nodeHeader.trans hat, hcount, fun i hi => ?_⟩
  have hslot := ((hcount i).1 hi).2
  unfold PageRow.slot at hslot
  omega

theorem NodeOf.recordAt {page : Slice T} {node : MinstorePage T} (h : NodeOf page node) {i : ℕ}
    (hi : i < node.recordCount) : node.recordAt i = PageRow.record page i := by
  have hand := Nat.and_two_pow_sub_one_eq_mod (leU32 page (PageRow.slot page i)) 16
  rw [MinstorePage.recordAt, h.page_eq, h.nodeHeader, h.recordOffsets i hi, PageRow.record, ← hand]
  rfl

theorem NodeOf.slotYields_iff {page : Slice T} {node : MinstorePage T} (h : NodeOf page node)
    {i : ℕ} {r : MinstoreRow T} :
    SlotYields page i r ↔ i < node.recordCount ∧ node.row i = some r := by
  constructor
  · rintro ⟨hclaimed, hslot, hheader, hkey, hvalue, hflags⟩
    have hi := (h.lt_recordCount i).2 ⟨hclaimed, hslot⟩
    refine ⟨hi, (MinstorePage.row_eq_some hi).2 ?_⟩
    unfold MinstorePage.keyEnd MinstorePage.keyStart MinstorePage.valEnd MinstorePage.valStart
    rw [h.recordAt hi, h.page_eq]
    exact ⟨hheader, hkey, hvalue, hflags⟩
  · rintro ⟨hi, hrow⟩
    obtain ⟨hclaimed, hslot⟩ := (h.lt_recordCount i).1 hi
    have hparts := (MinstorePage.row_eq_some hi).1 hrow
    unfold MinstorePage.keyEnd MinstorePage.keyStart MinstorePage.valEnd MinstorePage.valStart
      at hparts
    rw [h.recordAt hi, h.page_eq] at hparts
    obtain ⟨hheader, hkey, hvalue, hflags⟩ := hparts
    exact ⟨hclaimed, hslot, hheader, hkey, hvalue, hflags⟩

/-! ## In slot order -/

/-- What a search keeps stands in the order of what it keeps it from. -/
theorem forall₂_filterMap {α β : Type} (f : α → Option β) (l : List α) :
    List.Forall₂ (fun a b => f a = some b) (l.filter fun a => (f a).isSome) (l.filterMap f) := by
  induction l with
  | nil => exact .nil
  | cons a l ih =>
    cases hf : f a with
    | none =>
      rw [List.filter_cons_of_neg (by simp [hf]), List.filterMap_cons_none hf]
      exact ih
    | some b =>
      rw [List.filter_cons_of_pos (by simp [hf]), List.filterMap_cons_some hf]
      exact .cons hf ih

/-- The rows are those of the slots that yield one, in slot order. -/
theorem NodeOf.rows {page : Slice T} {node : MinstorePage T} (h : NodeOf page node) :
    ∃ slots : List ℕ, slots.Pairwise (· < ·) ∧ (∀ i, i ∈ slots ↔ ∃ r, SlotYields page i r) ∧
      List.Forall₂ (SlotYields page) slots node.rows := by
  have hmem : ∀ i, i ∈ (List.range node.recordCount).filter (fun i => (node.row i).isSome) ↔
      ∃ r, SlotYields page i r := by
    intro i
    simp only [h.slotYields_iff, exists_and_left, List.mem_filter, List.mem_range,
      Option.isSome_iff_exists]
  refine ⟨_, List.pairwise_lt_range.filter _, hmem, ?_⟩
  have hlt : ∀ i ∈ (List.range node.recordCount).filter (fun i => (node.row i).isSome),
      i < node.recordCount :=
    fun i hi => List.mem_range.1 (List.mem_filter.1 hi).1
  have hrows := (List.forall₂_and_left _ _).2 ⟨hlt, forall₂_filterMap node.row _⟩
  exact hrows.imp fun i r hir => h.slotYields_iff.2 hir

/-! ## One slot at a time -/

/-- What a row says: the bytes of its key and its value, and its flags. -/
def MinstoreRow.contents (r : MinstoreRow T) : List UInt8 × List UInt8 × ℕ :=
  (r.key.toList, r.value.toList, r.flags)

/-- Byte `x` is one of the `n` bytes at `a`. -/
def InSpan (a n x : ℕ) : Prop := a ≤ x ∧ x < a + n

/-- The row of slot `i` depends on byte `x`: it tells where the slots are, or it is a byte of the
slot, of its record header, of its key or of its value. -/
inductive ReadsByte (page : Slice T) (i x : ℕ) : Prop
  | node (h : InSpan nodeHeaderOffsetField 4 x)
  | array (h : InSpan (PageRow.node page + 16) 4 x)
  | slot (h : InSpan (PageRow.slot page i) 4 x)
  | header (h : InSpan (PageRow.record page i) 14 x)
  | key (h : InSpan (PageRow.keyStart page i) (PageRow.keyLen page i) x)
  | value (h : InSpan (PageRow.valStart page i) (PageRow.valLen page i) x)

/-- `page'` has the bytes the row of slot `i` depends on, and claims the slot when `page` does. Its
other slots, records and counts may be anything. -/
structure KeepsSlot (page page' : Slice T) (i : ℕ) : Prop where
  len : page'.len = page.len
  claimed : i < PageRow.claimed page' ↔ i < PageRow.claimed page
  bytes : ∀ x, ReadsByte page i x → page'.get? x = page.get? x

theorem leField_congr {d d' : Slice T} {n off : ℕ} (hlen : d'.len = d.len)
    (h : ∀ x, InSpan off n x → d'.get? x = d.get? x) : leField n d' off = leField n d off := by
  have hrange := Slice.map_toList_getRange_congr hlen (a := off) (b := off + n)
    fun x h₁ h₂ => h x ⟨h₁, h₂⟩
  unfold leField bytesAt
  cases h₁ : d'.getRange off (off + n) with
  | none =>
    rw [h₁, Option.map_none, eq_comm, Option.map_eq_none_iff] at hrange
    rw [hrange]
  | some s' =>
    rw [h₁, Option.map_some, eq_comm, Option.map_eq_some_iff] at hrange
    obtain ⟨s, hs, hbytes⟩ := hrange
    simp only [hs, hbytes]

namespace KeepsSlot

variable {page page' : Slice T} {i : ℕ}

theorem node (h : KeepsSlot page page' i) : PageRow.node page' = PageRow.node page := by
  have hfield : leU32 page' nodeHeaderOffsetField = leU32 page nodeHeaderOffsetField :=
    leField_congr h.len fun x hx => h.bytes x (.node hx)
  rw [PageRow.node, hfield, PageRow.node]

theorem slot (h : KeepsSlot page page' i) : PageRow.slot page' i = PageRow.slot page i := by
  have harray : leU32 page' (PageRow.node page + 16) = leU32 page (PageRow.node page + 16) :=
    leField_congr h.len fun x hx => h.bytes x (.array hx)
  rw [PageRow.slot, PageRow.array, h.node, harray, PageRow.slot, PageRow.array]

theorem record (h : KeepsSlot page page' i) : PageRow.record page' i = PageRow.record page i := by
  have hslot : leU32 page' (PageRow.slot page i) = leU32 page (PageRow.slot page i) :=
    leField_congr h.len fun x hx => h.bytes x (.slot hx)
  rw [PageRow.record, h.node, h.slot, hslot, PageRow.record]

/-- A field of the record header. -/
theorem leU16 (h : KeepsSlot page page' i) (off : ℕ) (hoff : off + 2 ≤ 14) :
    RefsForensic.leU16 page' (PageRow.record page i + off) =
      RefsForensic.leU16 page (PageRow.record page i + off) := by
  refine leField_congr h.len fun x hx => h.bytes x (.header ?_)
  unfold InSpan at *
  omega

theorem spans (h : KeepsSlot page page' i) :
    PageRow.keyStart page' i = PageRow.keyStart page i ∧
      PageRow.keyLen page' i = PageRow.keyLen page i ∧
      PageRow.valStart page' i = PageRow.valStart page i ∧
      PageRow.valLen page' i = PageRow.valLen page i := by
  unfold PageRow.keyStart PageRow.keyLen PageRow.valStart PageRow.valLen
  rw [h.record, h.leU16 4 (by decide), h.leU16 6 (by decide), h.leU16 10 (by decide),
    h.leU16 12 (by decide)]
  exact ⟨rfl, rfl, rfl, rfl⟩

theorem symm (h : KeepsSlot page page' i) : KeepsSlot page' page i := by
  refine ⟨h.len.symm, h.claimed.symm, fun x hx => (h.bytes x ?_).symm⟩
  obtain ⟨hks, hkl, hvs, hvl⟩ := h.spans
  cases hx with
  | node hx => exact .node hx
  | array hx => exact .array (h.node ▸ hx)
  | slot hx => exact .slot (h.slot ▸ hx)
  | header hx => exact .header (h.record ▸ hx)
  | key hx => exact .key (hks ▸ hkl ▸ hx)
  | value hx => exact .value (hvs ▸ hvl ▸ hx)

/-- The row of a kept slot is kept. -/
theorem yields (h : KeepsSlot page page' i) {r : MinstoreRow T} (hr : SlotYields page i r) :
    ∃ r', SlotYields page' i r' ∧ r'.contents = r.contents := by
  obtain ⟨hks, hkl, hvs, hvl⟩ := h.spans
  have hkey := Slice.map_toList_getRange_congr h.len (a := PageRow.keyStart page i)
    (b := PageRow.keyStart page i + PageRow.keyLen page i)
    fun x h₁ h₂ => h.bytes x (.key ⟨h₁, h₂⟩)
  have hvalue := Slice.map_toList_getRange_congr h.len (a := PageRow.valStart page i)
    (b := PageRow.valStart page i + PageRow.valLen page i)
    fun x h₁ h₂ => h.bytes x (.value ⟨h₁, h₂⟩)
  rw [hr.key, Option.map_some] at hkey
  rw [hr.value, Option.map_some] at hvalue
  obtain ⟨key, hkey, hkeyBytes⟩ := Option.map_eq_some_iff.1 hkey
  obtain ⟨value, hvalue, hvalueBytes⟩ := Option.map_eq_some_iff.1 hvalue
  refine ⟨⟨key, value, r.flags⟩, ⟨h.claimed.2 hr.claimed, ?_, ?_, ?_, ?_, ?_⟩, ?_⟩
  · rw [h.slot, h.len]
    exact hr.slot
  · rw [h.record, h.len]
    exact hr.header
  · rw [hks, hkl]
    exact hkey
  · rw [hvs, hvl]
    exact hvalue
  · rw [h.record, h.leU16 8 (by decide)]
    exact hr.flags
  · rw [MinstoreRow.contents, hkeyBytes, hvalueBytes, MinstoreRow.contents]

/-- **A slot's row is its own**: it is there, with its contents, whatever the other slots say. -/
theorem yields_iff (h : KeepsSlot page page' i) (contents : List UInt8 × List UInt8 × ℕ) :
    (∃ r, SlotYields page i r ∧ r.contents = contents) ↔
      ∃ r, SlotYields page' i r ∧ r.contents = contents := by
  constructor
  · rintro ⟨r, hr, rfl⟩
    exact h.yields hr
  · rintro ⟨r, hr, rfl⟩
    exact h.symm.yields hr

end KeepsSlot

/-! ## Written records -/

/-- Where one record is: its slot, and the fields of its header that are free. -/
structure Placement where
  slot : UInt32
  size : UInt32
  keyOff : UInt16
  flags : UInt16
  valOff : UInt16

/-- The start of the record: the lower 16 bits of its slot, from the node header. -/
def Placement.start (p : Placement) (nodeHeader : ℕ) : ℕ := nodeHeader + p.slot.toNat % 2 ^ 16

/-- A record of the given key and value is placed by `p`, with its slot at `slotPos`. -/
structure RecordAt (page : Slice T) (nodeHeader slotPos : ℕ) (p : Placement)
    (key value : List UInt8) : Prop where
  slot : page.Holds slotPos (toLeBytes 4 p.slot.toNat)
  header : page.Holds (p.start nodeHeader) (layout [(4, p.size.toNat), (2, p.keyOff.toNat),
    (2, key.length), (2, p.flags.toNat), (2, p.valOff.toNat), (2, value.length)])
  key : page.Holds (p.start nodeHeader + p.keyOff.toNat) key
  value : page.Holds (p.start nodeHeader + p.valOff.toNat) value

/-- Records of these keys and values are written into the page: the node header and the
record-offset array are where the page says, and each record is where its slot says. -/
structure Written (page : Slice T) (nodeHeader recordOffsets : ℕ)
    (records : List (Placement × List UInt8 × List UInt8)) : Prop where
  len : page.len ≤ refsMetadataPageSize
  nodeHeader_ge : nodeHeaderOffsetField ≤ nodeHeader
  nodeHeader_le : nodeHeader + nodeHeaderLen ≤ page.len
  nodeHeaderField : page.Holds nodeHeaderOffsetField
    (toLeBytes 4 (nodeHeader - nodeHeaderOffsetField))
  recordOffsets_ge : nodeHeader ≤ recordOffsets
  recordOffsets_le : recordOffsets + records.length * 4 ≤ page.len
  recordOffsetsField : page.Holds (nodeHeader + 16) (toLeBytes 4 (recordOffsets - nodeHeader))
  countField : page.Holds (nodeHeader + 20) (toLeBytes 4 records.length)
  placed : ∀ i p key value, records[i]? = some (p, key, value) →
    RecordAt page nodeHeader (recordOffsets + i * 4) p key value

theorem bytesAt_of_holds {d : Slice T} {off : ℕ} {bs : List UInt8} (h : d.Holds off bs) :
    bytesAt bs.length d off = bs := by
  obtain ⟨s, hs, hbs⟩ := h.exists_getRange
  rw [bytesAt, hs]
  exact hbs

/-- A field in place is read back. -/
theorem leField_of_holds {d : Slice T} {off n x : ℕ} (h : d.Holds off (toLeBytes n x))
    (hx : x < 256 ^ n) : leField n d off = x := by
  have hbytes := bytesAt_of_holds h
  rw [length_toLeBytes] at hbytes
  rw [leField, hbytes, fromLeBytes_toLeBytes hx]

theorem leU64_of_holds {d : Slice T} {off : ℕ} {x : UInt64}
    (h : d.Holds off (toLeBytes 8 x.toNat)) : leU64 d off = x.toNat :=
  leField_of_holds h x.toNat_lt

theorem leU32_of_holds {d : Slice T} {off : ℕ} {x : UInt32}
    (h : d.Holds off (toLeBytes 4 x.toNat)) : leU32 d off = x.toNat :=
  leField_of_holds h x.toNat_lt

theorem leU16_of_holds {d : Slice T} {off : ℕ} {x : UInt16}
    (h : d.Holds off (toLeBytes 2 x.toNat)) : leU16 d off = x.toNat :=
  leField_of_holds h x.toNat_lt

namespace Written

variable {page : Slice T} {nodeHeader recordOffsets : ℕ}
  {records : List (Placement × List UInt8 × List UInt8)}

theorem node (h : Written page nodeHeader recordOffsets records) :
    PageRow.node page = nodeHeader := by
  have hlen := h.len
  have hge := h.nodeHeader_ge
  have hle := h.nodeHeader_le
  unfold refsMetadataPageSize nodeHeaderLen at *
  have hfield : leU32 page nodeHeaderOffsetField = nodeHeader - nodeHeaderOffsetField :=
    leField_of_holds h.nodeHeaderField (by omega)
  rw [PageRow.node, hfield]
  omega

theorem array (h : Written page nodeHeader recordOffsets records) :
    PageRow.array page = recordOffsets := by
  have hlen := h.len
  have hge := h.recordOffsets_ge
  have hle := h.recordOffsets_le
  unfold refsMetadataPageSize at hlen
  have hfield : leU32 page (nodeHeader + 16) = recordOffsets - nodeHeader :=
    leField_of_holds h.recordOffsetsField (by omega)
  rw [PageRow.array, h.node, hfield]
  omega

theorem claimed (h : Written page nodeHeader recordOffsets records) :
    PageRow.claimed page = records.length := by
  have hlen := h.len
  have hle := h.recordOffsets_le
  unfold refsMetadataPageSize at hlen
  rw [PageRow.claimed, h.node]
  exact leField_of_holds h.countField (by omega)

/-- The slot of a written record yields its row. -/
theorem yields (h : Written page nodeHeader recordOffsets records) {i : ℕ} {p : Placement}
    {key value : List UInt8} (hi : records[i]? = some (p, key, value)) :
    ∃ r, SlotYields page i r ∧ r.contents = (key, value, p.flags.toNat) := by
  have hplaced := h.placed i p key value hi
  have hlt := (List.getElem?_eq_some_iff.1 hi).1
  have hlen := h.len
  have hle := h.recordOffsets_le
  have hkeyLe := hplaced.key.le
  have hvalueLe := hplaced.value.le
  unfold refsMetadataPageSize at hlen
  have hslot : PageRow.slot page i = recordOffsets + i * 4 := by rw [PageRow.slot, h.array]
  have hrecord : PageRow.record page i = p.start nodeHeader := by
    rw [PageRow.record, h.node, hslot, leU32_of_holds hplaced.slot, Placement.start]
  have hheader := hplaced.header
  simp only [layout_cons, layout_nil, Slice.holds_append, length_toLeBytes, List.append_nil,
    Nat.add_assoc, Nat.reduceAdd] at hheader
  obtain ⟨-, hkeyOff, hkeyLen, hflags, hvalOff, hvalLen⟩ := hheader
  obtain ⟨keySlice, hkey, hkeyBytes⟩ := hplaced.key.exists_getRange
  obtain ⟨valueSlice, hvalue, hvalueBytes⟩ := hplaced.value.exists_getRange
  have hend := hvalLen.le
  rw [length_toLeBytes] at hend
  refine ⟨⟨keySlice, valueSlice, p.flags.toNat⟩, ⟨?_, ?_, ?_, ?_, ?_, ?_⟩, ?_⟩
  · rw [h.claimed]
    exact hlt
  · rw [hslot]
    omega
  · rw [hrecord]
    omega
  · rw [PageRow.keyStart, PageRow.keyLen, hrecord, leU16_of_holds hkeyOff,
      show leU16 page (p.start nodeHeader + 6) = key.length from
        leField_of_holds hkeyLen (by omega)]
    exact hkey
  · rw [PageRow.valStart, PageRow.valLen, hrecord, leU16_of_holds hvalOff,
      show leU16 page (p.start nodeHeader + 12) = value.length from
        leField_of_holds hvalLen (by omega)]
    exact hvalue
  · rw [hrecord, leU16_of_holds hflags]
  · rw [MinstoreRow.contents, hkeyBytes, hvalueBytes]

end Written

/-- A search that finds something for each element of a list finds it in the list's order. -/
theorem forall₂_filterMap_range {α β : Type} {R : α → β → Prop} {l : List α} {f : ℕ → Option β}
    (h : ∀ i a, l[i]? = some a → ∃ b, f i = some b ∧ R a b) :
    List.Forall₂ R l ((List.range l.length).filterMap f) := by
  induction l using List.reverseRecOn with
  | nil => exact .nil
  | append_singleton l a ih =>
    obtain ⟨b, hb, hab⟩ := h l.length a (by simp)
    have hinit := ih fun i c hc => h i c
      (by rw [List.getElem?_append_left (List.getElem?_eq_some_iff.1 hc).1, hc])
    rw [List.length_append, List.length_singleton, List.range_succ, List.filterMap_append,
      List.filterMap_cons_some hb, List.filterMap_nil]
    exact List.rel_append hinit (.cons hab .nil)

/-- **Written records are read back**, in slot order. -/
theorem Written.rows {page : Slice T} {nodeHeader recordOffsets : ℕ}
    {records : List (Placement × List UInt8 × List UInt8)}
    (h : Written page nodeHeader recordOffsets records) :
    ∃ node, MinstorePage.parse page = .ok node ∧
      List.Forall₂ (fun record r => r.contents = (record.2.1, record.2.2, record.1.flags.toNat))
        records node.rows := by
  obtain ⟨node, hnode, hof⟩ := exists_nodeOf h.len (by rw [h.node]; exact h.nodeHeader_le)
  have hcount : node.recordCount = records.length := by
    have hle := h.recordOffsets_le
    have hlt := hof.lt_recordCount
    simp only [PageRow.slot, h.array, h.claimed] at hlt
    refine le_antisymm ?_ ?_
    · by_contra hgt
      have := (hlt records.length).1 (by omega)
      omega
    · by_contra hgt
      have := (hlt node.recordCount).2 (by omega)
      omega
  refine ⟨node, hnode, ?_⟩
  rw [MinstorePage.rows, hcount]
  refine forall₂_filterMap_range fun i record hi => ?_
  obtain ⟨r, hr, hcontents⟩ := h.yields hi
  exact ⟨r, (hof.slotYields_iff.1 hr).2, hcontents⟩

/-- **Row extraction**, for a page of at most 16 KiB whose node header is in bounds: the rows are,
in slot order, those of exactly the slots that yield one; a slot yields the same row on every page
that keeps its bytes, whatever the other slots say; and written records are read back. -/
theorem rows_exact {page : Slice T} (hlen : page.len ≤ refsMetadataPageSize)
    (hheader : PageRow.node page + nodeHeaderLen ≤ page.len) :
    ∃ node, MinstorePage.parse page = .ok node ∧
      (∃ slots : List ℕ, slots.Pairwise (· < ·) ∧ (∀ i, i ∈ slots ↔ ∃ r, SlotYields page i r) ∧
        List.Forall₂ (SlotYields page) slots node.rows) ∧
      (∀ page' i, KeepsSlot page page' i → ∀ contents,
        (∃ r, SlotYields page i r ∧ r.contents = contents) ↔
          ∃ r, SlotYields page' i r ∧ r.contents = contents) ∧
      ∀ nodeHeader recordOffsets records, Written page nodeHeader recordOffsets records →
        node.rows.map MinstoreRow.contents =
          records.map fun record => (record.2.1, record.2.2, record.1.flags.toNat) := by
  obtain ⟨node, hnode, hof⟩ := exists_nodeOf hlen hheader
  refine ⟨node, hnode, hof.rows, fun page' i h => h.yields_iff, ?_⟩
  intro nodeHeader recordOffsets records h
  obtain ⟨node', hnode', hrows⟩ := h.rows
  obtain rfl := Except.ok.inj (hnode.symm.trans hnode')
  have heq := List.forall₂_map_right_iff.2 (List.forall₂_map_left_iff.2
    (hrows.imp fun _ _ hcontents => hcontents.symm))
  rw [List.forall₂_eq_eq_eq] at heq
  exact heq.symm

/-! ### A page of two records -/

def twoRecords : List (Placement × List UInt8 × List UInt8) :=
  [(⟨0xffff0040, 0, 0x0e, 0, 0x0f⟩, [0x61], [1, 2]), (⟨0x60, 0, 0x0e, 4, 0x0f⟩, [0x62], [])]

/-- A page of 256 bytes with its node header at `0x60` and its slots at `0x80`. -/
def twoRecordsPage : Slice .w64 where
  len := 0x100
  len_le := by decide
  byte i :=
    match (i : ℕ) with
    | 0x50 => 0x10
    | 0x70 => 0x20
    | 0x74 => 0x02
    | 0x80 => 0x40
    | 0x82 => 0xff
    | 0x83 => 0xff
    | 0x84 => 0x60
    | 0xa4 => 0x0e
    | 0xa6 => 0x01
    | 0xaa => 0x0f
    | 0xac => 0x02
    | 0xae => 0x61
    | 0xaf => 0x01
    | 0xb0 => 0x02
    | 0xc4 => 0x0e
    | 0xc6 => 0x01
    | 0xc8 => 0x04
    | 0xca => 0x0f
    | 0xce => 0x62
    | _ => 0

theorem twoRecordsPage_written : Written twoRecordsPage 0x60 0x80 twoRecords where
  len := by decide
  nodeHeader_ge := by decide
  nodeHeader_le := by decide
  nodeHeaderField := by decide +kernel
  recordOffsets_ge := by decide
  recordOffsets_le := by decide
  recordOffsetsField := by decide +kernel
  countField := by decide +kernel
  placed := by
    intro i p key value hi
    have hlt : i < 2 := (List.getElem?_eq_some_iff.1 hi).1
    interval_cases i
    all_goals
      cases hi
      exact ⟨by decide +kernel, by decide +kernel, by decide +kernel, by decide +kernel⟩

/-- The two records are read back. -/
theorem twoRecordsPage_rows :
    ∃ node, MinstorePage.parse twoRecordsPage = .ok node ∧
      node.rows.map MinstoreRow.contents = [([0x61], [1, 2], 0), ([0x62], [], 4)] := by
  have hheader : PageRow.node twoRecordsPage + nodeHeaderLen ≤ twoRecordsPage.len := by
    decide +kernel
  obtain ⟨node, hnode, -, -, hrows⟩ := rows_exact twoRecordsPage_written.len hheader
  exact ⟨node, hnode, hrows 0x60 0x80 twoRecords twoRecordsPage_written⟩

end RefsForensic
