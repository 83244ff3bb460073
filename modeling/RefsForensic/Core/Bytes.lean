import RefsForensic.Rust.Slice

/-!
# Bounds-checked little-endian readers

The readers of `core/src/bytes.rs`. Each copies the field out of the buffer into a zeroed array
and decodes the array, so a field that does not lie wholly in the buffer reads as `0`
(`leField_of_lt`). A field of a sub-slice is the field of the whole slice at the shifted offset
(`leField_getRange`), and cutting a buffer behind a field does not change it (`leField_take`).
-/

namespace RefsForensic

open Rust

variable {T : Target}

/-- The zeroed `n`-byte array after `if let Some(s) = data.get(off..off + n) { copy }`. -/
def bytesAt (n : ℕ) (data : Slice T) (off : ℕ) : List UInt8 :=
  match data.getRange off (off + n) with
  | some s => s.toList
  | none => List.replicate n 0

/-- The `n`-byte little-endian field at `off`, or `0` if out of range. -/
def leField (n : ℕ) (data : Slice T) (off : ℕ) : ℕ := fromLeBytes (bytesAt n data off)

def leU16 (data : Slice T) (off : ℕ) : ℕ := leField 2 data off

def leU32 (data : Slice T) (off : ℕ) : ℕ := leField 4 data off

def leU64 (data : Slice T) (off : ℕ) : ℕ := leField 8 data off

/-- A single byte, or `0` if out of range. -/
def u8At (data : Slice T) (off : ℕ) : UInt8 := (data.get? off).getD 0

/-- Printable ASCII kept, every other byte shown as `.`. -/
def ascii (bytes : List UInt8) : String :=
  String.ofList (bytes.map fun c => if 0x20 ≤ c ∧ c < 0x7f then Char.ofNat c.toNat else '.')

/-- `data.get(0..4) == Some(signature.as_slice())`. -/
def startsWith (data : Slice T) (signature : List UInt8) : Prop :=
  (data.getRange 0 4).map Slice.toList = some signature

instance (data : Slice T) (signature : List UInt8) : Decidable (startsWith data signature) :=
  inferInstanceAs (Decidable (_ = _))

/-! ## Fields -/

@[simp] theorem length_bytesAt (n : ℕ) (data : Slice T) (off : ℕ) :
    (bytesAt n data off).length = n := by
  unfold bytesAt
  split
  · rename_i s hs
    rw [Slice.length_toList, Slice.len_of_getRange hs]
    omega
  · exact List.length_replicate

theorem leField_lt (n : ℕ) (data : Slice T) (off : ℕ) : leField n data off < 256 ^ n := by
  have h := fromLeBytes_lt (bytesAt n data off)
  rwa [length_bytesAt] at h

theorem leU32_lt (data : Slice T) (off : ℕ) : leU32 data off < 2 ^ 32 := leField_lt 4 data off

theorem leU64_lt (data : Slice T) (off : ℕ) : leU64 data off < 2 ^ 64 := leField_lt 8 data off

theorem bytesAt_of_lt {n : ℕ} {data : Slice T} {off : ℕ} (h : data.len < off + n) :
    bytesAt n data off = List.replicate n 0 := by
  rw [bytesAt, Slice.getRange_of_not_le (by omega)]

theorem fromLeBytes_replicate_zero (n : ℕ) : fromLeBytes (List.replicate n 0) = 0 := by
  induction n with
  | zero => rfl
  | succ n ih => simp [List.replicate_succ, fromLeBytes, ih]

/-- An absent field reads as zero. -/
theorem leField_of_lt {n : ℕ} {data : Slice T} {off : ℕ} (h : data.len < off + n) :
    leField n data off = 0 := by
  rw [leField, bytesAt_of_lt h, fromLeBytes_replicate_zero]

theorem bytesAt_getRange {d s : Slice T} {a b n off : ℕ} (hs : d.getRange a b = some s)
    (h : off + n ≤ s.len) : bytesAt n s off = bytesAt n d (a + off) := by
  rw [bytesAt, bytesAt, Slice.getRange_getRange hs h, Nat.add_assoc]

theorem leField_getRange {d s : Slice T} {a b n off : ℕ} (hs : d.getRange a b = some s)
    (h : off + n ≤ s.len) : leField n s off = leField n d (a + off) := by
  rw [leField, leField, bytesAt_getRange hs h]

/-- A field of a tail, in the whole slice; beyond the end both are zero. -/
theorem leField_getFrom {d s : Slice T} {a n off : ℕ} (hs : d.getFrom a = some s) :
    leField n s off = leField n d (a + off) := by
  have hlen := Slice.len_of_getRange hs
  obtain ⟨ha, -⟩ := (Slice.getRange_eq_some.1 hs).choose
  by_cases h : off + n ≤ s.len
  · exact leField_getRange hs h
  · rw [leField_of_lt (by omega), leField_of_lt (by omega)]

theorem bytesAt_take (d : Slice T) {m n off : ℕ} (h : off + n ≤ m) :
    bytesAt n (d.take m) off = bytesAt n d off := by
  rw [bytesAt, bytesAt, Slice.getRange_take d h]

theorem leField_take (d : Slice T) {m n off : ℕ} (h : off + n ≤ m) :
    leField n (d.take m) off = leField n d off := by
  rw [leField, leField, bytesAt_take d h]

theorem u8At_take (d : Slice T) {m off : ℕ} (h : off < m) : u8At (d.take m) off = u8At d off := by
  rw [u8At, u8At, Slice.get?_take d h]

/-! ## Signatures -/

/-- A signature in bounds is what the zeroed-array reader finds there. -/
theorem startsWith_iff_bytesAt {data : Slice T} {signature : List UInt8} (h : 4 ≤ data.len) :
    startsWith data signature ↔ bytesAt 4 data 0 = signature := by
  rw [startsWith, bytesAt, Slice.getRange_of_le ⟨by omega, by omega⟩]
  simp

theorem startsWith.four_le_len {data : Slice T} {signature : List UInt8}
    (h : startsWith data signature) : 4 ≤ data.len := by
  by_contra hlt
  rw [startsWith, Slice.getRange_of_not_le (by omega)] at h
  simp at h

/-- The signature of a sub-slice, in the whole slice. -/
theorem startsWith.bytesAt_getRange {d s : Slice T} {a b : ℕ} {signature : List UInt8}
    (h : startsWith s signature) (hs : d.getRange a b = some s) : bytesAt 4 d a = signature := by
  have h4 := h.four_le_len
  rw [startsWith_iff_bytesAt h4, RefsForensic.bytesAt_getRange hs h4, Nat.add_zero] at h
  exact h

theorem startsWith_of_bytesAt {d s : Slice T} {a b : ℕ} {signature : List UInt8}
    (hs : d.getRange a b = some s) (h4 : 4 ≤ s.len) (h : bytesAt 4 d a = signature) :
    startsWith s signature := by
  rw [startsWith_iff_bytesAt h4, bytesAt_getRange hs h4, Nat.add_zero, h]

end RefsForensic
