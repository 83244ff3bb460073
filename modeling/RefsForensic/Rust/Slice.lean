import Mathlib.Data.List.OfFn
import Mathlib.Tactic.Ring
import Mathlib.Tactic.Linarith

/-!
# Byte slices and machine integers

The primitives a Rust program on byte buffers is made of, for both pointer widths: shared slices
`&[u8]` with their bounds-checked accessors, the saturating and checked operations on unsigned
integers, and the little-endian value of a byte run. Integers are natural numbers; an operation
that depends on the width takes the largest value of its type.

A slice carries the bound every Rust slice obeys, `len ≤ isize::MAX`, so an impossible slice
cannot be built.
-/

namespace RefsForensic.Rust

/-- The pointer widths. -/
inductive Target
  | w32
  | w64
  deriving DecidableEq, Repr

/-- `usize::MAX`. -/
def Target.usizeMax : Target → ℕ
  | .w32 => 2 ^ 32 - 1
  | .w64 => 2 ^ 64 - 1

/-- `isize::MAX`. -/
def Target.isizeMax : Target → ℕ
  | .w32 => 2 ^ 31 - 1
  | .w64 => 2 ^ 63 - 1

/-- `u64::MAX`. -/
def u64Max : ℕ := 2 ^ 64 - 1

theorem Target.usizeMax_le_u64Max (T : Target) : T.usizeMax ≤ u64Max := by
  cases T <;> decide

theorem Target.isizeMax_lt_usizeMax (T : Target) : 2 * T.isizeMax < T.usizeMax := by
  cases T <;> decide

/-- Constant offsets fit both pointer widths. -/
theorem Target.le_usizeMax (T : Target) : 2 ^ 32 - 1 ≤ T.usizeMax := by
  cases T <;> decide

/-- The room above the longest slice. -/
theorem Target.isizeMax_add_le (T : Target) : T.isizeMax + 2 ^ 31 ≤ T.usizeMax := by
  cases T <;> decide

/-! ## Integer operations -/

/-- `a.saturating_add(b)` on the unsigned type with largest value `max`. -/
def saturatingAdd (max a b : ℕ) : ℕ := min (a + b) max

/-- `a.saturating_mul(b)`. -/
def saturatingMul (max a b : ℕ) : ℕ := min (a * b) max

/-- `a.saturating_sub(b)`. -/
def saturatingSub (a b : ℕ) : ℕ := a - b

/-- `a.checked_add(b)`. -/
def checkedAdd (max a b : ℕ) : Option ℕ := if a + b ≤ max then some (a + b) else none

/-- `a.checked_mul(b)`. -/
def checkedMul (max a b : ℕ) : Option ℕ := if a * b ≤ max then some (a * b) else none

/-- `a.checked_sub(b)`. -/
def checkedSub (a b : ℕ) : Option ℕ := if b ≤ a then some (a - b) else none

/-- `usize::try_from(n).ok()`. -/
def Target.tryFrom (T : Target) (n : ℕ) : Option ℕ := if n ≤ T.usizeMax then some n else none

@[simp] theorem checkedAdd_eq_some {max a b c : ℕ} :
    checkedAdd max a b = some c ↔ a + b ≤ max ∧ c = a + b := by
  unfold checkedAdd
  split <;> simp [*, eq_comm]

@[simp] theorem checkedMul_eq_some {max a b c : ℕ} :
    checkedMul max a b = some c ↔ a * b ≤ max ∧ c = a * b := by
  unfold checkedMul
  split <;> simp [*, eq_comm]

@[simp] theorem checkedSub_eq_some {a b c : ℕ} :
    checkedSub a b = some c ↔ b ≤ a ∧ c = a - b := by
  unfold checkedSub
  split <;> simp [*, eq_comm]

@[simp] theorem Target.tryFrom_eq_some {T : Target} {n c : ℕ} :
    T.tryFrom n = some c ↔ n ≤ T.usizeMax ∧ c = n := by
  unfold Target.tryFrom
  split <;> simp [*, eq_comm]

theorem checkedAdd_of_le {max a b : ℕ} (h : a + b ≤ max) : checkedAdd max a b = some (a + b) :=
  if_pos h

theorem checkedAdd_of_lt {max a b : ℕ} (h : max < a + b) : checkedAdd max a b = none :=
  if_neg (by omega)

theorem checkedMul_of_le {max a b : ℕ} (h : a * b ≤ max) : checkedMul max a b = some (a * b) :=
  if_pos h

theorem Target.tryFrom_of_le {T : Target} {n : ℕ} (h : n ≤ T.usizeMax) : T.tryFrom n = some n :=
  if_pos h

/-! ## Slices -/

/-- A string slice `&str` on target `T`. -/
structure Str (T : Target) where
  val : String
  size_le : val.utf8ByteSize ≤ T.isizeMax

/-- A shared byte slice `&[u8]` on target `T`. -/
structure Slice (T : Target) where
  len : ℕ
  len_le : len ≤ T.isizeMax
  byte : Fin len → UInt8

namespace Slice

variable {T : Target}

theorem ext_byte {d e : Slice T} (hlen : d.len = e.len)
    (hbyte : ∀ i (h : i < d.len) (h' : i < e.len), d.byte ⟨i, h⟩ = e.byte ⟨i, h'⟩) : d = e := by
  obtain ⟨n, hn, f⟩ := d
  obtain ⟨m, hm, g⟩ := e
  obtain rfl : n = m := hlen
  congr
  exact funext fun i => hbyte i i.2 i.2

/-- `d.get(i)`. -/
def get? (d : Slice T) (i : ℕ) : Option UInt8 :=
  if h : i < d.len then some (d.byte ⟨i, h⟩) else none

/-- `d[a..b]` for a range that lies in the slice. -/
def range (d : Slice T) (a b : ℕ) (h : a ≤ b ∧ b ≤ d.len) : Slice T where
  len := b - a
  len_le := le_trans (by omega) d.len_le
  byte i := d.byte ⟨a + i, by have := i.2; omega⟩

/-- `d.get(a..b)`. -/
def getRange (d : Slice T) (a b : ℕ) : Option (Slice T) :=
  if h : a ≤ b ∧ b ≤ d.len then some (d.range a b h) else none

/-- `d.get(a..)`. -/
def getFrom (d : Slice T) (a : ℕ) : Option (Slice T) := d.getRange a d.len

/-- `&d[..n]`, the whole slice when `n` is beyond its end. -/
def take (d : Slice T) (n : ℕ) : Slice T := d.range 0 (min n d.len) ⟨by omega, by omega⟩

/-- The bytes of a slice. -/
def toList (d : Slice T) : List UInt8 := List.ofFn d.byte

/-- The empty slice `&[]`. -/
def empty : Slice T := ⟨0, by omega, fun i => i.elim0⟩

@[simp] theorem range_len (d : Slice T) (a b : ℕ) (h : a ≤ b ∧ b ≤ d.len) :
    (d.range a b h).len = b - a := rfl

@[simp] theorem take_len (d : Slice T) (n : ℕ) : (d.take n).len = min n d.len := by
  simp [take]

@[simp] theorem empty_len : (empty : Slice T).len = 0 := rfl

@[simp] theorem length_toList (d : Slice T) : d.toList.length = d.len := by
  simp [toList]

theorem getRange_eq_some {d s : Slice T} {a b : ℕ} :
    d.getRange a b = some s ↔ ∃ h : a ≤ b ∧ b ≤ d.len, s = d.range a b h := by
  unfold getRange
  split
  · rename_i h
    exact ⟨fun e => ⟨h, (Option.some.inj e).symm⟩, fun ⟨_, e⟩ => by rw [e]⟩
  · rename_i h
    exact iff_of_false (by simp) fun ⟨h', _⟩ => h h'

theorem getRange_eq_none {d : Slice T} {a b : ℕ} :
    d.getRange a b = none ↔ ¬(a ≤ b ∧ b ≤ d.len) := by
  unfold getRange
  split <;> simp [*]

theorem getRange_of_le {d : Slice T} {a b : ℕ} (h : a ≤ b ∧ b ≤ d.len) :
    d.getRange a b = some (d.range a b h) := dif_pos h

theorem getRange_of_not_le {d : Slice T} {a b : ℕ} (h : ¬(a ≤ b ∧ b ≤ d.len)) :
    d.getRange a b = none := dif_neg h

theorem len_of_getRange {d s : Slice T} {a b : ℕ} (h : d.getRange a b = some s) :
    s.len = b - a := by
  obtain ⟨_, rfl⟩ := getRange_eq_some.1 h
  rfl

/-- A range of a range is a range of the whole. -/
theorem getRange_range (d : Slice T) {a b x y : ℕ} (h : a ≤ b ∧ b ≤ d.len) (hy : y ≤ b - a) :
    (d.range a b h).getRange x y = d.getRange (a + x) (a + y) := by
  by_cases hxy : x ≤ y
  · rw [getRange_of_le ⟨hxy, by simpa using hy⟩, getRange_of_le ⟨by omega, by omega⟩]
    congr 1
    refine ext_byte (by simp only [range_len]; omega) fun i h₁ h₂ => ?_
    simp only [range]
    congr 2
    omega
  · rw [getRange_of_not_le (by omega), getRange_of_not_le (by omega)]

theorem getRange_getRange {d s : Slice T} {a b x y : ℕ} (hs : d.getRange a b = some s)
    (hy : y ≤ s.len) : s.getRange x y = d.getRange (a + x) (a + y) := by
  obtain ⟨h, rfl⟩ := getRange_eq_some.1 hs
  exact d.getRange_range h hy

theorem getRange_take (d : Slice T) {n a b : ℕ} (hb : b ≤ n) :
    (d.take n).getRange a b = d.getRange a b := by
  by_cases h : b ≤ d.len
  · rw [take, getRange_range _ _ (by omega), Nat.zero_add, Nat.zero_add]
  · rw [getRange_of_not_le (by simp only [take_len]; omega), getRange_of_not_le (by omega)]

theorem getFrom_take {d : Slice T} {n a : ℕ} (hn : n ≤ d.len) :
    (d.take n).getFrom a = d.getRange a n := by
  rw [getFrom, take_len, min_eq_left hn, getRange_take d le_rfl]

theorem getRange_zero {d : Slice T} {n : ℕ} (hn : n ≤ d.len) :
    d.getRange 0 n = some (d.take n) := by
  have hmin : min n d.len = n := min_eq_left hn
  rw [getRange_of_le ⟨by omega, hn⟩, take]
  simp only [hmin]

/-- The front of a tail, in the whole slice. -/
theorem getRange_of_getFrom {d s : Slice T} {a n : ℕ} (hs : d.getFrom a = some s) (hn : n ≤ s.len) :
    d.getRange a (a + n) = some (s.take n) := by
  have h := getRange_getRange (x := 0) hs hn
  rw [getRange_zero hn, Nat.add_zero] at h
  exact h.symm

theorem take_of_len_le {d : Slice T} {n : ℕ} (hn : d.len ≤ n) : d.take n = d := by
  refine ext_byte (by simpa using hn) fun i h₁ h₂ => ?_
  simp only [take, range]
  congr 2
  omega

theorem get?_take (d : Slice T) {n i : ℕ} (hi : i < n) : (d.take n).get? i = d.get? i := by
  by_cases h : i < d.len
  · rw [get?, dif_pos (by simp only [take_len]; omega), get?, dif_pos h]
    simp only [take, range]
    congr 3
    omega
  · rw [get?, dif_neg (by simp only [take_len]; omega), get?, dif_neg h]

end Slice

/-! ## Little-endian integers -/

/-- `from_le_bytes`: the least significant byte comes first. -/
def fromLeBytes : List UInt8 → ℕ
  | [] => 0
  | b :: bs => b.toNat + 256 * fromLeBytes bs

theorem fromLeBytes_lt (bs : List UInt8) : fromLeBytes bs < 256 ^ bs.length := by
  induction bs with
  | nil => simp [fromLeBytes]
  | cons b bs ih =>
    have hb := b.toNat_lt
    simp only [fromLeBytes, List.length_cons, Nat.pow_succ]
    omega

end RefsForensic.Rust
