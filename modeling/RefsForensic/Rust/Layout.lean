import RefsForensic.Rust.Slice

/-!
# Byte layouts

What it means that given bytes stand in a slice, and the little-endian layout of a list of
fixed-width fields. A layout is read back field by field: `Slice.Holds` splits over concatenation
(`Slice.holds_append`), and `fromLeBytes` undoes `toLeBytes` (`fromLeBytes_toLeBytes`).
-/

namespace RefsForensic.Rust

variable {T : Target}

/-! ## Fields -/

/-- `x.to_le_bytes()` of an `n`-byte integer. -/
def toLeBytes : ℕ → ℕ → List UInt8
  | 0, _ => []
  | n + 1, x => UInt8.ofNat x :: toLeBytes n (x / 256)

@[simp] theorem length_toLeBytes (n x : ℕ) : (toLeBytes n x).length = n := by
  induction n generalizing x with
  | zero => rfl
  | succ n ih => simp [toLeBytes, ih]

theorem fromLeBytes_toLeBytes {n x : ℕ} (h : x < 256 ^ n) : fromLeBytes (toLeBytes n x) = x := by
  induction n generalizing x with
  | zero =>
    rw [pow_zero, Nat.lt_one_iff] at h
    rw [h]
    rfl
  | succ n ih =>
    have hdiv : x / 256 < 256 ^ n := by
      rw [Nat.div_lt_iff_lt_mul (by decide)]
      rwa [Nat.pow_succ] at h
    rw [toLeBytes, fromLeBytes, ih hdiv, UInt8.toNat_ofNat']
    omega

theorem toLeBytes_fromLeBytes (bs : List UInt8) : toLeBytes bs.length (fromLeBytes bs) = bs := by
  induction bs with
  | nil => rfl
  | cons b bs ih =>
    have hb := b.toNat_lt
    have hdiv : (b.toNat + 256 * fromLeBytes bs) / 256 = fromLeBytes bs := by omega
    rw [List.length_cons, fromLeBytes, toLeBytes, hdiv, ih, UInt8.ofNat_add, UInt8.ofNat_toNat]
    simp

/-- The fields in order, each with its width in bytes. -/
def layout (fields : List (ℕ × ℕ)) : List UInt8 := fields.flatMap fun f => toLeBytes f.1 f.2

@[simp] theorem layout_nil : layout [] = [] := rfl

@[simp] theorem layout_cons (n x : ℕ) (fields : List (ℕ × ℕ)) :
    layout ((n, x) :: fields) = toLeBytes n x ++ layout fields := rfl

namespace Slice

/-! ## Bytes in place -/

/-- The bytes `bs` stand at `off`. -/
def Holds (d : Slice T) (off : ℕ) (bs : List UInt8) : Prop :=
  (d.getRange off (off + bs.length)).map toList = some bs

instance (d : Slice T) (off : ℕ) (bs : List UInt8) : Decidable (d.Holds off bs) :=
  inferInstanceAs (Decidable (_ = _))

theorem Holds.le {d : Slice T} {off : ℕ} {bs : List UInt8} (h : d.Holds off bs) :
    off + bs.length ≤ d.len := by
  obtain ⟨s, hs, -⟩ := Option.map_eq_some_iff.1 h
  exact (getRange_eq_some.1 hs).choose.2

theorem Holds.exists_getRange {d : Slice T} {off : ℕ} {bs : List UInt8} (h : d.Holds off bs) :
    ∃ s, d.getRange off (off + bs.length) = some s ∧ s.toList = bs :=
  Option.map_eq_some_iff.1 h

/-- The bytes of a range, by position. -/
theorem getElem?_toList (d : Slice T) (i : ℕ) : d.toList[i]? = d.get? i := by
  unfold toList get?
  rw [List.getElem?_ofFn]

/-- A slice is its bytes by position. -/
theorem ext_get? {d e : Slice T} (hlen : d.len = e.len) (h : ∀ i < d.len, d.get? i = e.get? i) :
    d = e := by
  refine ext_byte hlen fun i hd he => ?_
  have hbyte := h i hd
  unfold get? at hbyte
  rw [dif_pos hd, dif_pos he] at hbyte
  exact Option.some.inj hbyte

theorem get?_range (d : Slice T) {a b i : ℕ} (h : a ≤ b ∧ b ≤ d.len) :
    (d.range a b h).get? i = if i < b - a then d.get? (a + i) else none := by
  unfold get?
  by_cases hi : i < b - a
  · rw [dif_pos (by simpa using hi), if_pos hi, dif_pos (by omega)]
    rfl
  · rw [dif_neg (by simpa using hi), if_neg hi]

theorem get?_of_getRange {d s : Slice T} {a b i : ℕ} (hs : d.getRange a b = some s)
    (hi : a + i < b) : s.get? i = d.get? (a + i) := by
  obtain ⟨h, rfl⟩ := getRange_eq_some.1 hs
  rw [get?_range, if_pos (by omega)]

/-- The bytes of a range are fixed by the positions in it. -/
theorem map_toList_getRange_congr {d d' : Slice T} {a b : ℕ} (hlen : d'.len = d.len)
    (h : ∀ x, a ≤ x → x < b → d'.get? x = d.get? x) :
    (d'.getRange a b).map toList = (d.getRange a b).map toList := by
  by_cases hab : a ≤ b ∧ b ≤ d.len
  · rw [getRange_of_le hab, getRange_of_le (by rwa [hlen]), Option.map_some, Option.map_some,
      Option.some.injEq]
    refine List.ext_getElem? fun i => ?_
    rw [getElem?_toList, getElem?_toList, get?_range, get?_range]
    split_ifs with hi
    · exact h (a + i) (by omega) (by omega)
    · rfl
  · rw [getRange_of_not_le hab, getRange_of_not_le (by rwa [hlen])]

/-- Bytes in place, one by one. -/
theorem holds_iff {d : Slice T} {off : ℕ} {bs : List UInt8} :
    d.Holds off bs ↔ off + bs.length ≤ d.len ∧ ∀ i < bs.length, d.get? (off + i) = bs[i]? := by
  constructor
  · intro h
    refine ⟨h.le, fun i hi => ?_⟩
    obtain ⟨s, hs, hbs⟩ := h.exists_getRange
    obtain ⟨hle, rfl⟩ := getRange_eq_some.1 hs
    rw [← hbs, getElem?_toList, get?_range, if_pos (by omega)]
  · rintro ⟨hle, hbytes⟩
    rw [Holds, getRange_of_le ⟨by omega, hle⟩, Option.map_some, Option.some.injEq]
    refine List.ext_getElem? fun i => ?_
    rw [getElem?_toList, get?_range]
    split_ifs with hi
    · exact hbytes i (by omega)
    · rw [List.getElem?_eq_none (by omega)]

/-- **Bytes one after the other.** -/
theorem holds_append {d : Slice T} {off : ℕ} {xs ys : List UInt8} :
    d.Holds off (xs ++ ys) ↔ d.Holds off xs ∧ d.Holds (off + xs.length) ys := by
  simp only [holds_iff, List.length_append]
  constructor
  · rintro ⟨hle, hbytes⟩
    refine ⟨⟨by omega, fun i hi => ?_⟩, ⟨by omega, fun i hi => ?_⟩⟩
    · rw [hbytes i (by omega), List.getElem?_append_left hi]
    · rw [Nat.add_assoc, hbytes _ (by omega), List.getElem?_append_right (by omega),
        Nat.add_sub_cancel_left]
  · rintro ⟨⟨-, hxs⟩, hle, hys⟩
    refine ⟨by omega, fun i hi => ?_⟩
    by_cases hi' : i < xs.length
    · rw [hxs i hi', List.getElem?_append_left hi']
    · have hy := hys (i - xs.length) (by omega)
      rw [show off + xs.length + (i - xs.length) = off + i by omega] at hy
      rw [hy, List.getElem?_append_right (by omega)]

/-- The slice of given bytes. -/
def ofList (bs : List UInt8) (h : bs.length ≤ T.isizeMax) : Slice T where
  len := bs.length
  len_le := h
  byte := bs.get

@[simp] theorem ofList_len (bs : List UInt8) (h : bs.length ≤ T.isizeMax) :
    (ofList bs h).len = bs.length := rfl

@[simp] theorem toList_ofList (bs : List UInt8) (h : bs.length ≤ T.isizeMax) :
    (ofList bs h).toList = bs := List.ofFn_get bs

/-- The bytes of a slice stand at its start. -/
theorem holds_toList (d : Slice T) : d.Holds 0 d.toList := by
  rw [holds_iff, length_toList]
  exact ⟨by omega, fun i _ => by rw [Nat.zero_add, getElem?_toList]⟩

end Slice

end RefsForensic.Rust
