import RefsForensic.Core.Entries
import RefsForensic.Forensic.ResidueLaws

/-!
# Deleted names

The carver compares a superseded page with the current version by decoded names, and the decoding
of `directory.rs` is lossy: an unpaired surrogate becomes `U+FFFD` and an odd trailing byte is
dropped. `deleted_name_surfaced_iff` says which deleted names that hides; `surrogateNames` is an
image of a rename it does not notice.
-/

namespace RefsForensic.Forensic

open Rust

variable {T : Target}

/-- The `0x30` rows of a page; none if its node header does not parse. -/
def entryRows (page : Slice T) : List (MinstoreRow T) :=
  match MinstorePage.parse page with
  | .error _ => []
  | .ok node => node.rows.filter fun row => leU16 row.key 0 = recordTypeEntry

/-- The name of a row on disk: its key from offset 4. -/
def nameBytes (row : MinstoreRow T) : List UInt8 :=
  ((row.key.getFrom 4).getD Slice.empty).toList

/-- The units of a name on disk, up to its unpaired surrogates. -/
def nameUnits (row : MinstoreRow T) : List ℕ := replaceUnpaired (utf16Units (nameBytes row))

/-- `row` is a `0x30` row of the superseded page `p` whose name on disk is that of no `0x30` row of
the current version `k`. -/
structure DeletedRow (image : Slice T) (k p : ℕ × Slice T) (row : MinstoreRow T) : Prop where
  superseded : Superseded image k p
  mem : row ∈ entryRows p.2
  deleted : ∀ r ∈ entryRows k.2, nameBytes r ≠ nameBytes row

/-- The name of a `0x30` row is decoded from its name on disk. -/
theorem entryOfRow_name {row : MinstoreRow T} (h : leU16 row.key 0 = recordTypeEntry) :
    (entryOfRow row).map DirEntry.name = some (decodeUtf16Lossy (nameBytes row)) := by
  rw [entryOfRow, if_neg (not_not.2 h)]
  rfl

/-- The carved names of a page are the decoded names of its `0x30` rows. -/
theorem carveDirectoryEntries_eq (page : Slice T) :
    carveDirectoryEntries page =
      (entryRows page).map fun row => decodeUtf16Lossy (nameBytes row) := by
  unfold carveDirectoryEntries entryRows
  cases hparse : MinstorePage.parse page with
  | error e =>
    rw [parseDirectory_of_error hparse]
    rfl
  | ok node =>
    rw [parseDirectory_of_parse hparse]
    change (node.rows.filterMap entryOfRow).map DirEntry.name = _
    rw [List.map_filterMap, ← List.filterMap_eq_map, List.filterMap_filter]
    refine List.filterMap_congr fun row _ => ?_
    by_cases hrecord : leU16 row.key 0 = recordTypeEntry
    · rw [entryOfRow_name hrecord, if_pos (by simpa using hrecord)]
      rfl
    · rw [entryOfRow_eq_none.2 hrecord, Option.map_none, if_neg (by simpa using hrecord)]

theorem mem_carveDirectoryEntries {page : Slice T} {name : String} :
    name ∈ carveDirectoryEntries page ↔
      ∃ row ∈ entryRows page, decodeUtf16Lossy (nameBytes row) = name := by
  rw [carveDirectoryEntries_eq, List.mem_map]

/-- **When a deleted name is not hidden**: the residue has the decoded name of a deleted row at the
offset of its page exactly when no `0x30` row of the current version has the same units up to
unpaired surrogates. -/
theorem deleted_name_surfaced_iff {image : Slice T} {k p : ℕ × Slice T} {row : MinstoreRow T}
    (h : DeletedRow image k p row) :
    (∃ s ∈ recoverResidue image, s.offset = p.1 ∧ decodeUtf16Lossy (nameBytes row) ∈ s.entries) ↔
      ∀ r ∈ entryRows k.2, nameUnits r ≠ nameUnits row := by
  have hmem : decodeUtf16Lossy (nameBytes row) ∈ carveDirectoryEntries p.2 :=
    mem_carveDirectoryEntries.2 ⟨row, h.mem, rfl⟩
  have hcurrent : decodeUtf16Lossy (nameBytes row) ∉ carveDirectoryEntries k.2 ↔
      ∀ r ∈ entryRows k.2, nameUnits r ≠ nameUnits row := by
    simp only [mem_carveDirectoryEntries, decodeUtf16Lossy_eq_iff, not_exists, not_and, nameUnits,
      ne_eq]
  rw [← hcurrent]
  constructor
  · rintro ⟨s, hs, hoff, hname⟩
    obtain ⟨k', p', hkp, hoff', hentries, -⟩ := superseded_of_mem hs
    obtain rfl := Option.some.inj (hkp.current.symm.trans h.superseded.current)
    obtain rfl := rootTablePages_inj hkp.rootTable h.superseded.rootTable
      (hoff'.symm.trans hoff)
    rw [hentries] at hname
    exact (mem_droppedNames.1 hname).2
  · intro hk
    exact ⟨_, h.superseded.mem_recoverResidue hmem hk, rfl, mem_droppedNames.2 ⟨hmem, hk⟩⟩

/-! ### A renamed file -/

/-- The byte at `i` of an image of two pages of table `0x600`: page 1 at cluster `0` with an entry
whose name is the unpaired surrogate `0xD800`, and the later page 2 at cluster `4` with one whose
name is the unit `unit`. -/
def surrogateNamesByte (unit i : ℕ) : UInt8 :=
  match i / 4096, i % 4096 with
  | 0, 0x130 => 0x30
  | 0, 0x135 => 0xd8
  | 0, j => tableByte 1 0x600 0 1 6 j
  | 4, 0x130 => 0x30
  | 4, 0x134 => UInt8.ofNat unit
  | 4, 0x135 => UInt8.ofNat (unit / 256)
  | 4, j => tableByte 2 0x600 0 1 6 j
  | _, _ => 0

def surrogateNames (unit : ℕ) : Slice .w64 where
  len := 8 * 4096
  len_le := by decide
  byte i := surrogateNamesByte unit i

/-- The rows of the two pages are what the bytes say. -/
theorem surrogateNames_deleted (unit : ℕ) (name : List UInt8) (hname : name ≠ [0x00, 0xd8])
    (hcurrent : (currentPage (surrogateNames unit)).map (fun k =>
      (k.1, selfBlockOf k, (entryRows k.2).map nameBytes)) = some (4 * 4096, 2, [name]))
    (hpages : (rootTablePages (surrogateNames unit)).map (fun p =>
      (p.1, selfBlockOf p, (entryRows p.2).map nameBytes)) =
        [(0, 1, [[0x00, 0xd8]]), (4 * 4096, 2, [name])]) :
    ∃ k p row, DeletedRow (surrogateNames unit) k p row ∧ p.1 = 0 ∧
      nameBytes row = [0x00, 0xd8] ∧ (entryRows k.2).map nameBytes = [name] := by
  obtain ⟨k, hk, hkEq⟩ := Option.map_eq_some_iff.1 hcurrent
  obtain ⟨p, hp, hpEq⟩ := List.mem_map.1 (hpages.symm ▸ List.mem_cons_self)
  obtain ⟨-, hkEq⟩ := Prod.mk.inj hkEq
  obtain ⟨hkBlock, hkNames⟩ := Prod.mk.inj hkEq
  obtain ⟨hpOff, hpEq⟩ := Prod.mk.inj hpEq
  obtain ⟨hpBlock, hpNames⟩ := Prod.mk.inj hpEq
  obtain ⟨row, hrow, hrowName⟩ := List.mem_map.1 (hpNames.symm ▸ List.mem_singleton_self _)
  refine ⟨k, p, row, ⟨⟨hk, hp, by rw [hpBlock, hkBlock]; decide⟩, hrow, ?_⟩, hpOff, hrowName,
    hkNames⟩
  intro r hr heq
  have hmem : nameBytes r ∈ [name] := hkNames ▸ List.mem_map_of_mem hr
  rw [List.mem_singleton, heq, hrowName] at hmem
  exact hname hmem.symm

/-- The name `0xD800` is gone from the current version, and the residue is empty: it hides behind
`0xD801`. -/
theorem surrogateNames_hidden :
    recoverResidue (surrogateNames 0xd801) = [] ∧
      ¬∀ k p row, DeletedRow (surrogateNames 0xd801) k p row →
        ∃ s ∈ recoverResidue (surrogateNames 0xd801), s.offset = p.1 ∧
          decodeUtf16Lossy (nameBytes row) ∈ s.entries := by
  have hresidue : recoverResidue (surrogateNames 0xd801) = [] := by decide +kernel
  refine ⟨hresidue, fun hall => ?_⟩
  obtain ⟨k, p, row, h, -⟩ := surrogateNames_deleted 0xd801 [0x01, 0xd8] (by decide)
    (by decide +kernel) (by decide +kernel)
  obtain ⟨s, hs, -⟩ := hall k p row h
  rw [hresidue] at hs
  exact List.not_mem_nil hs

/-- Behind the name `a` it does not hide. -/
theorem surrogateNames_surfaced :
    ∃ s ∈ recoverResidue (surrogateNames 0x61), s.offset = 0 ∧
      decodeUtf16Lossy [0x00, 0xd8] ∈ s.entries := by
  obtain ⟨k, p, row, h, hoff, hrow, hk⟩ := surrogateNames_deleted 0x61 [0x61, 0x00]
    (by decide) (by decide +kernel) (by decide +kernel)
  obtain ⟨s, hs, hsoff, hname⟩ := (deleted_name_surfaced_iff h).2 fun r hr => by
    have hmem : nameBytes r ∈ [[0x61, 0x00]] := hk ▸ List.mem_map_of_mem hr
    rw [List.mem_singleton] at hmem
    rw [nameUnits, nameUnits, hmem, hrow]
    decide
  exact ⟨s, hs, hsoff.trans hoff, hrow ▸ hname⟩

end RefsForensic.Forensic
