import RefsForensic.Rust.Layout

/-!
# Writes into a slice

`dst[off..off + src.len()].copy_from_slice(src)` as a function of slices. A range that the write
does not touch is unchanged (`Slice.getRange_write_of_disjoint`), and the written range is what was
written (`Slice.getRange_write_self`).
-/

namespace RefsForensic.Rust.Slice

variable {T : Target}

/-- The slice with the bytes `bs` at `off`; what would go beyond its end is dropped. -/
def write (d : Slice T) (off : ℕ) (bs : List UInt8) : Slice T where
  len := d.len
  len_le := d.len_le
  byte i := if off ≤ i.1 then bs[i.1 - off]?.getD (d.byte i) else d.byte i

@[simp] theorem write_len (d : Slice T) (off : ℕ) (bs : List UInt8) :
    (d.write off bs).len = d.len := rfl

theorem get?_write_of_disjoint (d : Slice T) {off i : ℕ} {bs : List UInt8}
    (h : i < off ∨ off + bs.length ≤ i) : (d.write off bs).get? i = d.get? i := by
  unfold get? write
  dsimp only
  split_ifs with hi hoff
  · rw [List.getElem?_eq_none (by omega), Option.getD_none]
  · rfl
  · rfl

theorem get?_write_self (d : Slice T) {off i : ℕ} {bs : List UInt8} (hi : i < bs.length)
    (hle : off + bs.length ≤ d.len) : (d.write off bs).get? (off + i) = bs[i]? := by
  unfold get? write
  dsimp only
  rw [dif_pos (by omega), if_pos (by omega), Nat.add_sub_cancel_left, List.getElem?_eq_getElem hi]
  rfl

/-- Ranges of two slices with the same bytes in them. -/
theorem getRange_congr {d d' : Slice T} {a b : ℕ} (hlen : d'.len = d.len)
    (h : ∀ x, a ≤ x → x < b → d'.get? x = d.get? x) : d'.getRange a b = d.getRange a b := by
  by_cases hab : a ≤ b ∧ b ≤ d.len
  · rw [getRange_of_le hab, getRange_of_le (by rwa [hlen]), Option.some.injEq]
    refine ext_get? rfl fun i hi => ?_
    rw [range_len] at hi
    rw [get?_range, get?_range, if_pos hi, if_pos hi]
    exact h (a + i) (by omega) (by omega)
  · rw [getRange_of_not_le hab, getRange_of_not_le (by rwa [hlen])]

/-- **A write changes nothing elsewhere.** -/
theorem getRange_write_of_disjoint (d : Slice T) {off a b : ℕ} {bs : List UInt8}
    (h : b ≤ off ∨ off + bs.length ≤ a) : (d.write off bs).getRange a b = d.getRange a b :=
  getRange_congr (write_len d off bs) fun _ h₁ h₂ => get?_write_of_disjoint d (by omega)

/-- **A written slice is read back.** -/
theorem getRange_write_self (d s : Slice T) {off : ℕ} (hle : off + s.len ≤ d.len) :
    (d.write off s.toList).getRange off (off + s.len) = some s := by
  have hle' : off + s.toList.length ≤ d.len := by rwa [length_toList]
  rw [getRange_of_le (d := d.write off s.toList) ⟨by omega, hle⟩, Option.some.injEq]
  refine ext_get? (by rw [range_len]; omega) fun i hi => ?_
  rw [range_len] at hi
  have his : i < s.toList.length := by
    rw [length_toList]
    omega
  rw [get?_range, if_pos hi, get?_write_self d his hle', getElem?_toList]

end RefsForensic.Rust.Slice
