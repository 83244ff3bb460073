import RefsForensic.Core.Superblock

/-!
# Minstore pages and the object table

`core/src/minstore.rs`: the generic key→value B+-tree page every ReFS table is built from. Every
offset and length of a page is untrusted: the record count is clamped to the page, and a record
whose header or key or value span leaves the page is skipped. A `MinstorePage` carries the bounds
its parser established.
-/

namespace RefsForensic

open Rust

variable {T : Target}

/-- The object id of the root directory. -/
def refsRootDirectoryId : ℕ := 0x600

/-- Offset of the node-header-offset field, behind the 80-byte block header. -/
def nodeHeaderOffsetField : ℕ := 0x50

def nodeHeaderLen : ℕ := 32

/-- Absolute cap on record-offset entries. -/
def maxRecords : ℕ := refsMetadataPageSize / 4

/-- One `(key, value)` node record. -/
structure MinstoreRow (T : Target) where
  key : Slice T
  value : Slice T
  flags : ℕ

/-- A parsed page: its node header and its record-offset array lie in the page. -/
structure MinstorePage (T : Target) where
  page : Slice T
  nodeHeader : ℕ
  level : UInt8
  flags : UInt8
  recordOffsets : ℕ
  recordCount : ℕ
  nodeHeader_le : nodeHeader + nodeHeaderLen ≤ page.len
  recordCount_le : recordCount ≤ (page.len - recordOffsets) / 4
  recordCount_le_max : recordCount ≤ maxRecords

namespace MinstorePage

/-- Parse the Minstore node in `data`. -/
def parse (data : Slice T) : Except RefsError (MinstorePage T) :=
  if data.len < nodeHeaderOffsetField + 4 then
    .error (.truncated "Minstore node-header-offset field" (nodeHeaderOffsetField + 4) data.len)
  else
    let rel := leU32 data nodeHeaderOffsetField
    let nodeHeader := saturatingAdd T.usizeMax nodeHeaderOffsetField rel
    -- `checked_add(..).is_none_or(|end| end > data.len())`
    if h : nodeHeader + nodeHeaderLen ≤ T.usizeMax ∧ nodeHeader + nodeHeaderLen ≤ data.len then
      let level := u8At data (nodeHeader + 12)
      let flags := u8At data (nodeHeader + 13)
      let roffRel := leU32 data (nodeHeader + 16)
      let claimed := leU32 data (nodeHeader + 20)
      let recordOffsets := saturatingAdd T.usizeMax nodeHeader roffRel
      let capacity := saturatingSub data.len recordOffsets / 4
      .ok {
        page := data
        nodeHeader
        level
        flags
        recordOffsets
        recordCount := min (min claimed capacity) maxRecords
        nodeHeader_le := h.2
        recordCount_le := (min_le_left _ _).trans (min_le_right _ _)
        recordCount_le_max := min_le_right _ _ }
    else
      .error (.truncated "Minstore node header"
        (saturatingAdd T.usizeMax nodeHeader nodeHeaderLen) data.len)

/-- Node-type flag `0x01`: an internal node. -/
def isBranch (node : MinstorePage T) : Bool := node.flags &&& 0x01 ≠ 0

def isLeaf (node : MinstorePage T) : Bool := node.level = 0 ∧ ¬node.isBranch

/-- Record `i`, or `none` if any offset or length leaves the page. -/
def row (node : MinstorePage T) (i : ℕ) : Option (MinstoreRow T) := do
  let slot ← checkedMul T.usizeMax i 4
  let offPos ← checkedAdd T.usizeMax node.recordOffsets slot
  -- the upper 16 bits are `0xffff` in v3
  let raw := leU32 node.page offPos
  let record ← checkedAdd T.usizeMax node.nodeHeader (raw &&& 0xffff)
  let headerEnd ← checkedAdd T.usizeMax record 14
  if node.page.len < headerEnd then none
  else
    let keyOff := leU16 node.page (record + 4)
    let keyLen := leU16 node.page (record + 6)
    let flags := leU16 node.page (record + 8)
    let valOff := leU16 node.page (record + 10)
    let valLen := leU16 node.page (record + 12)
    let keyStart ← checkedAdd T.usizeMax record keyOff
    let keyEnd ← checkedAdd T.usizeMax keyStart keyLen
    let valStart ← checkedAdd T.usizeMax record valOff
    let valEnd ← checkedAdd T.usizeMax valStart valLen
    let key ← node.page.getRange keyStart keyEnd
    let value ← node.page.getRange valStart valEnd
    some { key, value, flags }

/-- The node's records in slot order. -/
def rows (node : MinstorePage T) : List (MinstoreRow T) :=
  (List.range node.recordCount).filterMap node.row

/-- A whole metadata page is long enough for the offset field: only the node header can be
missing. -/
theorem parse_eq_error {data : Slice T} (hlen : data.len = refsMetadataPageSize) {e : RefsError}
    (h : parse data = .error e) :
    e = .truncated "Minstore node header"
      (saturatingAdd T.usizeMax
        (saturatingAdd T.usizeMax nodeHeaderOffsetField (leU32 data nodeHeaderOffsetField))
        nodeHeaderLen) refsMetadataPageSize := by
  unfold parse at h
  rw [if_neg (by rw [hlen]; decide)] at h
  simp only at h
  split_ifs at h
  rw [← hlen]
  exact (Except.error.inj h).symm

end MinstorePage

/-! ## The object table -/

/-- A resolved object-table entry. -/
structure PageRef where
  blockNumber : ℕ
  deriving DecidableEq

/-- The object table: a Minstore tree keyed by object id. -/
structure ObjectTable (T : Target) where
  node : MinstorePage T

namespace ObjectTable

/-- Object-identifier position within the 16-byte key. -/
def keyIdOffset : ℕ := 8

/-- Offset of the first block number within the value. -/
def valueBlockRefOffset : ℕ := 0x20

def parse (data : Slice T) : Except RefsError (ObjectTable T) :=
  (MinstorePage.parse data).map ObjectTable.mk

/-- The reference of one row, `none` for another id or a malformed record. -/
def lookupRow (objectId : ℕ) (row : MinstoreRow T) : Option PageRef := do
  let idBytes ← row.key.getRange keyIdOffset (keyIdOffset + 8)
  let id := leU64 idBytes 0
  if id ≠ objectId then none
  else
    let block ← (row.value.getRange valueBlockRefOffset (valueBlockRefOffset + 8)).map (leU64 · 0)
    some { blockNumber := block }

/-- The first row that answers `objectId`. -/
def lookup (table : ObjectTable T) (objectId : ℕ) : Option PageRef :=
  table.node.rows.findSome? (lookupRow objectId)

end ObjectTable

end RefsForensic
