import RefsForensic.Checked.Blocks
import RefsForensic.Forensic.Audit

/-!
# The two little-endian readers

`core/src/bytes.rs` adds the width of a field to its offset with a plain `+`, the analyzer's own
`le_u64` with a saturating one. Both read the field where it lies in the buffer and `0` elsewhere,
as far as they return: with overflow checks the core's readers panic at the top of the `usize` range
(`readers_total_iff`); without them the sum wraps and they return (`leFieldWrapping_eq`).
-/

namespace RefsForensic.Checked

open Rust Exec

variable {T : Target}

/-- The little-endian value of the `n` bytes at `off`, `0` if they do not all lie in the buffer. -/
def fieldValue (n : ℕ) (data : Slice T) (off : ℕ) : ℕ :=
  if h : off + n ≤ data.len then fromLeBytes (data.range off (off + n) ⟨by omega, h⟩).toList else 0

theorem leField_eq_fieldValue (n : ℕ) (data : Slice T) (off : ℕ) :
    RefsForensic.leField n data off = fieldValue n data off := by
  unfold fieldValue
  split_ifs with h
  · rw [RefsForensic.leField, RefsForensic.bytesAt, Slice.getRange_of_le ⟨by omega, h⟩]
  · exact leField_of_lt (not_le.1 h)

/-! ## With overflow checks -/

theorem leField_overflow {n : ℕ} {data : Slice T} {off : ℕ} (h : T.usizeMax < off + n) :
    leField n data off = .error .overflow := by
  have hadd : add T.usizeMax off n = .error .overflow := if_neg (not_le.2 h)
  rw [leField, bytesAt, hadd]
  rfl

/-- A reader returns exactly where the end of the field fits `usize`, and then the field. -/
theorem leField_returns_iff (n : ℕ) (data : Slice T) (off : ℕ) :
    (∃ v, leField n data off = .ok v ∧ v.1 = fieldValue n data off) ↔ off + n ≤ T.usizeMax := by
  constructor
  · rintro ⟨v, hv, -⟩
    by_contra hlt
    rw [leField_overflow (not_le.1 hlt)] at hv
    cases hv
  · intro h
    exact ⟨_, leField_ok h, leField_eq_fieldValue n data off⟩

/-- **When the readers are total**: each reader of the core returns the field exactly where the end
of the field fits `usize`, and there alone the core's and the analyzer's `u64` reader agree. The
analyzer's reader returns the field everywhere. -/
theorem readers_total_iff (data : Slice T) (off : ℕ) :
    ((∃ v, leU16 data off = .ok v ∧ v.1 = fieldValue 2 data off) ↔ off + 2 ≤ T.usizeMax) ∧
    ((∃ v, leU32 data off = .ok v ∧ v.1 = fieldValue 4 data off) ↔ off + 4 ≤ T.usizeMax) ∧
    ((∃ v, leU64 data off = .ok v ∧ v.1 = fieldValue 8 data off) ↔ off + 8 ≤ T.usizeMax) ∧
    ((∃ v, leU64 data off = .ok v ∧ v.1 = Forensic.leU64 data off) ↔ off + 8 ≤ T.usizeMax) ∧
    Forensic.leU64 data off = fieldValue 8 data off := by
  have hforensic : Forensic.leU64 data off = fieldValue 8 data off := by
    rw [Forensic.leU64_eq, RefsForensic.leU64, leField_eq_fieldValue]
  refine ⟨leField_returns_iff 2 data off, leField_returns_iff 4 data off,
    leField_returns_iff 8 data off, ?_, hforensic⟩
  rw [hforensic]
  exact leField_returns_iff 8 data off

/-- At `usize::MAX` the core's reader panics where the analyzer's returns. -/
theorem empty_leU64_overflow :
    leU64 (Slice.empty : Slice .w64) Target.w64.usizeMax = .error .overflow ∧
      Forensic.leU64 (Slice.empty : Slice .w64) Target.w64.usizeMax = 0 ∧
      ¬∀ (data : Slice .w64) (off : ℕ), off ≤ Target.w64.usizeMax →
        ∃ v, leU64 data off = .ok v ∧ v.1 = fieldValue 8 data off := by
  have hpanic : leU64 (Slice.empty : Slice .w64) Target.w64.usizeMax = .error .overflow :=
    leField_overflow (by decide)
  refine ⟨hpanic, by decide, fun h => ?_⟩
  obtain ⟨v, hv, -⟩ := h Slice.empty _ le_rfl
  rw [hpanic] at hv
  cases hv

/-! ## Without overflow checks -/

/-- A reader of a build whose sums wrap. -/
def leFieldWrapping (n : ℕ) (data : Slice T) (off : ℕ) : ℕ :=
  match data.getRange off ((off + n) % (T.usizeMax + 1)) with
  | some s => fromLeBytes s.toList
  | none => 0

/-- A sum that wraps ends in front of the field, and nothing is read. -/
theorem leFieldWrapping_eq {n : ℕ} (data : Slice T) {off : ℕ} (hoff : off ≤ T.usizeMax)
    (hn : n ≤ T.usizeMax) : leFieldWrapping n data off = fieldValue n data off := by
  have hlen := data.len_le
  have hT := T.isizeMax_lt_usizeMax
  unfold leFieldWrapping fieldValue
  split_ifs with h
  · rw [Nat.mod_eq_of_lt (by omega), Slice.getRange_of_le ⟨by omega, h⟩]
  · have hout : ¬(off ≤ (off + n) % (T.usizeMax + 1) ∧
        (off + n) % (T.usizeMax + 1) ≤ data.len) := by
      rcases Nat.lt_or_ge (off + n) (T.usizeMax + 1) with hlt | hge
      · rw [Nat.mod_eq_of_lt hlt]
        omega
      · rw [Nat.mod_eq_sub_mod hge, Nat.mod_eq_of_lt (by omega)]
        omega
    rw [Slice.getRange_of_not_le hout]

end RefsForensic.Checked
