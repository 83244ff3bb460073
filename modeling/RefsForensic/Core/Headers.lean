import RefsForensic.Core.RowLaws
import RefsForensic.Core.Superblock

/-!
# Headers on disk

The boot record, the superblock header and the checkpoint references as fields and reserved bytes.
The parsers accept exactly the images on which such a record stands, whatever the reserved bytes
are, and return its fields (`bootSector_parse_iff`, `superblock_parseAt_iff`,
`checkpoint_locations_iff`).
-/

namespace RefsForensic

open Rust

variable {T : Target}

/-! ## Bytes and fields of a slice -/

theorem holds_bytesAt {d : Slice T} {n off : ℕ} (h : off + n ≤ d.len) :
    d.Holds off (bytesAt n d off) := by
  have hs := Slice.getRange_of_le (d := d) (a := off) (b := off + n) ⟨by omega, h⟩
  rw [Slice.Holds, length_bytesAt, hs, Option.map_some, bytesAt, hs]

theorem holds_leField {d : Slice T} {n off : ℕ} (h : off + n ≤ d.len) :
    d.Holds off (toLeBytes n (leField n d off)) := by
  have hbytes := toLeBytes_fromLeBytes (bytesAt n d off)
  rw [length_bytesAt] at hbytes
  rw [leField, hbytes]
  exact holds_bytesAt h

/-- The bytes at `off` as an array of `n` bytes. -/
def vectorAt (n : ℕ) (d : Slice T) (off : ℕ) : Vector UInt8 n :=
  ⟨(bytesAt n d off).toArray, by rw [List.size_toArray, length_bytesAt]⟩

@[simp] theorem toList_vectorAt (n : ℕ) (d : Slice T) (off : ℕ) :
    (vectorAt n d off).toList = bytesAt n d off := rfl

theorem toNat_ofNat_leU64 (d : Slice T) (off : ℕ) :
    (UInt64.ofNat (leU64 d off)).toNat = leU64 d off :=
  UInt64.toNat_ofNat_of_lt' (leU64_lt d off)

theorem toNat_ofNat_leU32 (d : Slice T) (off : ℕ) :
    (UInt32.ofNat (leU32 d off)).toNat = leU32 d off :=
  UInt32.toNat_ofNat_of_lt' (leU32_lt d off)

theorem holds_u8At {d : Slice T} {off : ℕ} (h : off + 2 ≤ d.len) :
    d.Holds off [u8At d off, u8At d (off + 1)] := by
  refine Slice.holds_iff.2 ⟨h, fun i hi => ?_⟩
  have hbyte : ∀ j < d.len, d.get? j = some (u8At d j) := fun j hj => by
    rw [u8At, Slice.get?, dif_pos hj, Option.getD_some]
  rw [List.length_cons, List.length_singleton] at hi
  rw [hbyte _ (by omega)]
  interval_cases i <;> rfl

theorem u8At_of_holds {d : Slice T} {off i : ℕ} {bs : List UInt8} {b : UInt8}
    (h : d.Holds off bs) (hi : bs[i]? = some b) : u8At d (off + i) = b := by
  rw [u8At, (Slice.holds_iff.1 h).2 i (List.getElem?_eq_some_iff.1 hi).1, hi, Option.getD_some]

/-! ## The boot record -/

/-- The 72 bytes of a boot record, as fields and reserved bytes. -/
structure BootRecord where
  jump : Vector UInt8 3
  reserved11 : Vector UInt8 5
  reserved20 : Vector UInt8 4
  numSectors : UInt64
  bytesPerSector : UInt32
  sectorsPerCluster : UInt32
  majorVersion : UInt8
  minorVersion : UInt8
  reserved42 : Vector UInt8 14
  volumeSerial : UInt64
  containerSize : UInt64

namespace BootRecord

def bytes (r : BootRecord) : List UInt8 :=
  r.jump.toList ++ refsSignature ++ r.reserved11.toList ++ refsFsrs ++ r.reserved20.toList ++
    layout [(8, r.numSectors.toNat), (4, r.bytesPerSector.toNat), (4, r.sectorsPerCluster.toNat)] ++
    [r.majorVersion, r.minorVersion] ++ r.reserved42.toList ++
    layout [(8, r.volumeSerial.toNat), (8, r.containerSize.toNat)]

/-- What parsing the record returns. -/
def sector (r : BootRecord) : BootSector where
  signature := refsSignature
  fsrs := refsFsrs
  numSectors := r.numSectors.toNat
  bytesPerSector := r.bytesPerSector.toNat
  sectorsPerCluster := r.sectorsPerCluster.toNat
  majorVersion := r.majorVersion
  minorVersion := r.minorVersion
  volumeSerial := r.volumeSerial.toNat
  containerSize := r.containerSize.toNat
  numSectors_lt := r.numSectors.toNat_lt
  bytesPerSector_lt := r.bytesPerSector.toNat_lt
  sectorsPerCluster_lt := r.sectorsPerCluster.toNat_lt
  volumeSerial_lt := r.volumeSerial.toNat_lt
  containerSize_lt := r.containerSize.toNat_lt

end BootRecord

/-- The record at the start of an image. -/
def BootRecord.ofImage (data : Slice T) : BootRecord where
  jump := vectorAt 3 data 0
  reserved11 := vectorAt 5 data 11
  reserved20 := vectorAt 4 data 20
  numSectors := .ofNat (leU64 data 24)
  bytesPerSector := .ofNat (leU32 data 32)
  sectorsPerCluster := .ofNat (leU32 data 36)
  majorVersion := u8At data 40
  minorVersion := u8At data 41
  reserved42 := vectorAt 14 data 42
  volumeSerial := .ofNat (leU64 data 56)
  containerSize := .ofNat (leU64 data 64)

/-- An image with the two signatures starts with its record. -/
theorem BootRecord.holds_ofImage {data : Slice T} (hlen : bootMinLen ≤ data.len)
    (hsig : bytesAt 8 data 3 = refsSignature) (hfsrs : bytesAt 4 data 16 = refsFsrs) :
    data.Holds 0 (BootRecord.ofImage data).bytes := by
  unfold bootMinLen at hlen
  have hsigHolds : data.Holds 3 (bytesAt 8 data 3) := holds_bytesAt (by omega)
  have hfsrsHolds : data.Holds 16 (bytesAt 4 data 16) := holds_bytesAt (by omega)
  rw [hsig] at hsigHolds
  rw [hfsrs] at hfsrsHolds
  simp only [BootRecord.bytes, BootRecord.ofImage, toList_vectorAt, toNat_ofNat_leU64,
    toNat_ofNat_leU32, layout_cons, layout_nil, List.append_nil, Slice.holds_append,
    List.length_append, length_bytesAt, length_toLeBytes, List.length_cons, List.length_nil,
    refsSignature, refsFsrs, Nat.zero_add, Nat.reduceAdd]
  refine ⟨⟨⟨⟨⟨⟨⟨⟨?_, hsigHolds⟩, ?_⟩, hfsrsHolds⟩, ?_⟩, ?_, ?_, ?_⟩, ?_⟩, ?_⟩, ?_, ?_⟩
  · exact holds_bytesAt (by omega)
  · exact holds_bytesAt (by omega)
  · exact holds_bytesAt (by omega)
  · exact holds_leField (by omega)
  · exact holds_leField (by omega)
  · exact holds_leField (by omega)
  · exact holds_u8At (by omega)
  · exact holds_bytesAt (by omega)
  · exact holds_leField (by omega)
  · exact holds_leField (by omega)

/-- The signatures and the fields of an image that starts with a record. -/
theorem BootRecord.fields_of_holds {data : Slice T} {r : BootRecord} (h : data.Holds 0 r.bytes) :
    bytesAt 8 data 3 = refsSignature ∧ bytesAt 4 data 16 = refsFsrs ∧ bootMinLen ≤ data.len ∧
      r.sector = BootSector.fields data := by
  have hlen := h.le
  simp only [BootRecord.bytes, layout_cons, layout_nil, List.append_nil, Slice.holds_append,
    List.length_append, length_toLeBytes, Vector.length_toList, List.length_cons,
    List.length_nil, refsSignature, refsFsrs, Nat.zero_add, Nat.reduceAdd] at h hlen
  obtain ⟨⟨⟨⟨⟨⟨⟨⟨-, hsig⟩, -⟩, hfsrs⟩, -⟩, hsectors, hbps, hspc⟩, hversion⟩, -⟩, hserial,
    hsize⟩ := h
  have hsig' : bytesAt 8 data 3 = refsSignature := bytesAt_of_holds hsig
  have hfsrs' : bytesAt 4 data 16 = refsFsrs := bytesAt_of_holds hfsrs
  have hmajor : u8At data 40 = r.majorVersion := u8At_of_holds (i := 0) hversion rfl
  have hminor : u8At data 41 = r.minorVersion := u8At_of_holds (i := 1) hversion rfl
  refine ⟨hsig', hfsrs', hlen, ?_⟩
  simp only [BootSector.fields, BootRecord.sector, hsig', hfsrs', leU64_of_holds hsectors,
    leU32_of_holds hbps, leU32_of_holds hspc, hmajor, hminor, leU64_of_holds hserial,
    leU64_of_holds hsize]

/-- **The boot-record format**: an image parses exactly when it starts with a boot record, and the
fields are those of the record. -/
theorem bootSector_parse_iff {data : Slice T} {boot : BootSector} :
    BootSector.parse data = .ok boot ↔
      ∃ r : BootRecord, data.Holds 0 r.bytes ∧ boot = r.sector := by
  rw [BootSector.parse_eq_ok]
  constructor
  · rintro ⟨hsig, hfsrs, hlen, rfl⟩
    have hholds := BootRecord.holds_ofImage hlen hsig hfsrs
    exact ⟨_, hholds, (BootRecord.fields_of_holds hholds).2.2.2.symm⟩
  · rintro ⟨r, hholds, rfl⟩
    exact BootRecord.fields_of_holds hholds

/-! ## The superblock -/

/-- The first 40 bytes of a superblock. -/
structure SuperblockHeader where
  reserved4 : Vector UInt8 28
  blockNumber : UInt64

def SuperblockHeader.bytes (h : SuperblockHeader) : List UInt8 :=
  supbSignature ++ h.reserved4.toList ++ toLeBytes 8 h.blockNumber.toNat

theorem SuperblockHeader.holds_iff {data : Slice T} {offset : ℕ} {h : SuperblockHeader} :
    data.Holds offset h.bytes ↔ offset + blockHeaderMinLen ≤ data.len ∧
      bytesAt 4 data offset = supbSignature ∧ vectorAt 28 data (offset + 4) = h.reserved4 ∧
        leU64 data (offset + selfBlockOffset) = h.blockNumber.toNat := by
  simp only [SuperblockHeader.bytes, Slice.holds_append, List.length_append, Vector.length_toList,
    supbSignature, List.length_cons, List.length_nil, Nat.zero_add, Nat.reduceAdd]
  constructor
  · rintro ⟨⟨hsig, hreserved⟩, hnumber⟩
    have hle := hnumber.le
    rw [length_toLeBytes] at hle
    refine ⟨hle, bytesAt_of_holds hsig, ?_, leU64_of_holds hnumber⟩
    rw [← Vector.toList_inj, toList_vectorAt, ← bytesAt_of_holds hreserved, Vector.length_toList]
  · rintro ⟨hle, hsig, hreserved, hnumber⟩
    unfold blockHeaderMinLen at hle
    have hsigHolds : data.Holds offset (bytesAt 4 data offset) := holds_bytesAt (by omega)
    rw [hsig] at hsigHolds
    rw [← hreserved, ← hnumber]
    exact ⟨⟨hsigHolds, holds_bytesAt (by omega)⟩, holds_leField (by omega)⟩

/-- A superblock is read exactly when 40 bytes are left at the offset and start with `SUPB`. -/
theorem superblock_parseAt_eq_ok {data : Slice T} {offset : ℕ} {sb : Superblock} :
    Superblock.parseAt data offset = .ok sb ↔ offset + blockHeaderMinLen ≤ data.len ∧
      bytesAt 4 data offset = supbSignature ∧
        sb = ⟨⟨supbSignature, leU64 data (offset + selfBlockOffset)⟩⟩ := by
  have hT := T.isizeMax_lt_usizeMax
  have hdata := data.len_le
  unfold Superblock.parseAt
  dsimp only
  cases hslice : data.getFrom ((T.tryFrom offset).getD T.usizeMax) with
  | none =>
    refine iff_of_false (by simp) fun h => ?_
    rw [Target.tryFrom_of_le (by omega), Option.getD_some, Slice.getFrom,
      Slice.getRange_eq_none] at hslice
    omega
  | some slice =>
    -- a slice that starts in the image starts at the offset
    have hoff : (T.tryFrom offset).getD T.usizeMax = offset := by
      obtain ⟨hstart, -⟩ := (Slice.getRange_eq_some.1 hslice).choose
      cases htry : T.tryFrom offset with
      | none =>
        rw [htry, Option.getD_none] at hstart
        omega
      | some start => exact (Target.tryFrom_eq_some.1 htry).2
    rw [hoff] at hslice
    have hlen := Slice.len_of_getRange hslice
    obtain ⟨hstart, -⟩ := (Slice.getRange_eq_some.1 hslice).choose
    have hself : leU64 slice selfBlockOffset = leU64 data (offset + selfBlockOffset) :=
      leField_getFrom hslice
    simp only [map_eq_ok, MetadataBlockRef.parse_eq_ok, asBytes_supb, hself]
    constructor
    · rintro ⟨ref, ⟨hsig, hmin, rfl⟩, rfl⟩
      unfold blockHeaderMinLen at hmin
      rw [bytesAt_getRange hslice (by omega), Nat.add_zero] at hsig
      exact ⟨by unfold blockHeaderMinLen; omega, hsig, rfl⟩
    · rintro ⟨hle, hsig, rfl⟩
      unfold blockHeaderMinLen at hle
      refine ⟨_, ⟨?_, by unfold blockHeaderMinLen; omega, rfl⟩, rfl⟩
      rw [bytesAt_getRange hslice (by omega), Nat.add_zero]
      exact hsig

/-- **The superblock format**: a superblock is read at an offset exactly when its header stands
there, and its block number is the one recorded. -/
theorem superblock_parseAt_iff {data : Slice T} {offset : ℕ} {sb : Superblock} :
    Superblock.parseAt data offset = .ok sb ↔
      ∃ h : SuperblockHeader, data.Holds offset h.bytes ∧
        sb = ⟨⟨supbSignature, h.blockNumber.toNat⟩⟩ := by
  simp only [superblock_parseAt_eq_ok, SuperblockHeader.holds_iff]
  constructor
  · rintro ⟨hle, hsig, rfl⟩
    refine ⟨⟨vectorAt 28 data (offset + 4), .ofNat (leU64 data (offset + selfBlockOffset))⟩,
      ⟨hle, hsig, rfl, ?_⟩, ?_⟩
    · rw [toNat_ofNat_leU64]
    · rw [toNat_ofNat_leU64]
  · rintro ⟨h, ⟨hle, hsig, -, hnumber⟩, rfl⟩
    exact ⟨hle, hsig, by rw [hnumber]⟩

/-! ## The checkpoint references -/

theorem length_flatMap_toLeBytes (numbers : List UInt64) :
    (numbers.flatMap fun x => toLeBytes 8 x.toNat).length = numbers.length * 8 := by
  induction numbers with
  | nil => rfl
  | cons x numbers ih =>
    rw [List.flatMap_cons, List.length_append, ih, length_toLeBytes, List.length_cons]
    ring

/-- Numbers one after the other, read back by position. -/
theorem map_leU64_of_holds {d : Slice T} {off : ℕ} {numbers : List UInt64}
    (h : d.Holds off (numbers.flatMap fun x => toLeBytes 8 x.toNat)) :
    ((List.range numbers.length).map fun i => leU64 d (off + i * 8)) =
      numbers.map UInt64.toNat := by
  induction numbers generalizing off with
  | nil => rfl
  | cons x numbers ih =>
    rw [List.flatMap_cons, Slice.holds_append, length_toLeBytes] at h
    rw [List.length_cons, List.range_succ_eq_map, List.map_cons, List.map_map, List.map_cons,
      ← ih h.2, Nat.zero_mul, Nat.add_zero, leU64_of_holds h.1]
    congr 1
    refine List.map_congr_left fun i _ => ?_
    rw [Function.comp_apply, Nat.succ_mul, Nat.add_comm (i * 8), ← Nat.add_assoc]

/-- The numbers that stand at an offset. -/
theorem holds_map_leU64 {d : Slice T} {off n : ℕ} (h : off + n * 8 ≤ d.len) :
    d.Holds off (((List.range n).map fun i => UInt64.ofNat (leU64 d (off + i * 8))).flatMap
      fun x => toLeBytes 8 x.toNat) := by
  induction n with
  | zero => exact Slice.holds_iff.2 ⟨by simpa using h, by simp⟩
  | succ n ih =>
    rw [List.range_succ, List.map_append, List.flatMap_append, Slice.holds_append]
    refine ⟨ih (by omega), ?_⟩
    rw [length_flatMap_toLeBytes, List.length_map, List.length_range, List.map_singleton,
      List.flatMap_singleton, toNat_ofNat_leU64]
    exact holds_leField (by omega)

/-- **The checkpoint references**: the block numbers are read exactly when the offset and the count
of the references stand in the superblock and as many numbers, at most 64, stand at the offset. -/
theorem checkpoint_locations_iff {superblock : Slice T} {locations : List ℕ} :
    Checkpoint.locationsFromSuperblock superblock = .ok locations ↔
      ∃ (refsOff count : UInt32) (numbers : List UInt64),
        superblock.Holds checkpointRefsOffsetField (toLeBytes 4 refsOff.toNat) ∧
        superblock.Holds checkpointCountField (toLeBytes 4 count.toNat) ∧
        numbers.length = min count.toNat maxCheckpoints ∧
        superblock.Holds refsOff.toNat (numbers.flatMap fun x => toLeBytes 8 x.toNat) ∧
        locations = numbers.map UInt64.toNat := by
  rw [Checkpoint.locations_eq_ok]
  constructor
  · rintro ⟨hheader, hrefs, rfl⟩
    refine ⟨.ofNat (leU32 superblock checkpointRefsOffsetField),
      .ofNat (leU32 superblock checkpointCountField),
      (List.range (Checkpoint.count superblock)).map fun i =>
        .ofNat (leU64 superblock (leU32 superblock checkpointRefsOffsetField + i * 8)),
      ?_, ?_, ?_, ?_, ?_⟩
    · rw [toNat_ofNat_leU32]
      refine holds_leField ?_
      unfold checkpointRefsOffsetField checkpointCountField at *
      omega
    · rw [toNat_ofNat_leU32]
      exact holds_leField hheader
    · rw [List.length_map, List.length_range, toNat_ofNat_leU32, Checkpoint.count]
    · rw [toNat_ofNat_leU32]
      exact holds_map_leU64 hrefs
    · rw [List.map_map]
      exact List.map_congr_left fun i _ => (toNat_ofNat_leU64 superblock _).symm
  · rintro ⟨refsOff, count, numbers, hoff, hcount, hlen, hnumbers, rfl⟩
    have hheader := hcount.le
    have hle := hnumbers.le
    rw [length_toLeBytes] at hheader
    rw [length_flatMap_toLeBytes] at hle
    have hread : Checkpoint.count superblock = numbers.length := by
      rw [Checkpoint.count, leU32_of_holds hcount, hlen]
    rw [leU32_of_holds hoff, hread, map_leU64_of_holds hnumbers]
    exact ⟨hheader, hle, rfl⟩

end RefsForensic
