import RefsForensic.Rust.Layout
import Mathlib.Tactic.TypeStar

/-!
# UTF-16 decoding

`char::decode_utf16` of the Rust standard library over a finite sequence of code units: a scalar
value for every unit outside the surrogate range and for every surrogate pair, and an error for
each unpaired surrogate. The unit after an unpaired high surrogate is decoded on its own.
`decodeUtf16Lossy` undoes `encodeUtf16le` (`decodeUtf16Lossy_encodeUtf16le`), and identifies byte
runs that differ in their unpaired surrogates (`decodeUtf16Lossy_eq_iff`).
-/

namespace RefsForensic.Rust

/-- A unit of `0xD800..=0xDFFF`. -/
def isSurrogate (u : ℕ) : Bool := 0xD800 ≤ u ∧ u ≤ 0xDFFF

/-- A unit of `0xDC00..=0xDFFF`. -/
def isLowSurrogate (u : ℕ) : Bool := 0xDC00 ≤ u ∧ u ≤ 0xDFFF

/-- The scalar value of a surrogate pair. -/
def surrogatePair (hi lo : ℕ) : Char :=
  Char.ofNat (0x10000 + (hi - 0xD800) * 0x400 + (lo - 0xDC00))

/-- The decoded units in order, `none` for an unpaired surrogate. -/
def decodeUtf16 : List ℕ → List (Option Char)
  | [] => []
  | [u] => if isSurrogate u then [none] else [some (Char.ofNat u)]
  | u :: v :: us =>
    if ¬isSurrogate u then some (Char.ofNat u) :: decodeUtf16 (v :: us)
    else if isLowSurrogate u then none :: decodeUtf16 (v :: us)
    else if isLowSurrogate v then some (surrogatePair u v) :: decodeUtf16 us
    else none :: decodeUtf16 (v :: us)

/-- The pairs of `chunks_exact(2)`; an odd trailing byte is dropped. -/
def chunksExact2 {α : Type*} : List α → List (List α)
  | a :: b :: l => [a, b] :: chunksExact2 l
  | _ => []

/-- The little-endian units of a byte run; an odd trailing byte is dropped. -/
def utf16Units : List UInt8 → List ℕ
  | lo :: hi :: bytes => (lo.toNat + 256 * hi.toNat) :: utf16Units bytes
  | _ => []

/-- `char::REPLACEMENT_CHARACTER`. -/
def replacementCharacter : Char := Char.ofNat 0xFFFD

/-- Decode with every unpaired surrogate replaced. -/
def decodeUtf16Lossy (bytes : List UInt8) : String :=
  String.ofList ((decodeUtf16 (utf16Units bytes)).map (·.getD replacementCharacter))

/-! ## Encoding -/

/-- `char::encode_utf16`: one unit, or a surrogate pair from `0x10000` on. -/
def unitsOfChar (c : Char) : List ℕ :=
  if c.toNat < 0x10000 then [c.toNat]
  else [0xD800 + (c.toNat - 0x10000) / 0x400, 0xDC00 + (c.toNat - 0x10000) % 0x400]

/-- `str::encode_utf16`. -/
def encodeUtf16 (cs : List Char) : List ℕ := cs.flatMap unitsOfChar

/-- The UTF-16LE bytes of a string. -/
def encodeUtf16le (s : String) : List UInt8 := (encodeUtf16 s.toList).flatMap (toLeBytes 2)

/-- A scalar value is no surrogate. -/
theorem char_range (c : Char) : c.toNat < 0xD800 ∨ 0xDFFF < c.toNat ∧ c.toNat < 0x110000 := c.valid

theorem decodeUtf16_cons {u : ℕ} (us : List ℕ) (h : isSurrogate u = false) :
    decodeUtf16 (u :: us) = some (Char.ofNat u) :: decodeUtf16 us := by
  cases us with
  | nil => simp [decodeUtf16, h]
  | cons v us => simp [decodeUtf16, h]

theorem decodeUtf16_pair {hi lo : ℕ} (us : List ℕ) (hhi : isSurrogate hi = true)
    (hhi' : isLowSurrogate hi = false) (hlo : isLowSurrogate lo = true) :
    decodeUtf16 (hi :: lo :: us) = some (surrogatePair hi lo) :: decodeUtf16 us := by
  simp [decodeUtf16, hhi, hhi', hlo]

/-- One character is decoded from its units. -/
theorem decodeUtf16_unitsOfChar (c : Char) (us : List ℕ) :
    decodeUtf16 (unitsOfChar c ++ us) = some c :: decodeUtf16 us := by
  have hrange := char_range c
  unfold unitsOfChar
  split_ifs with hbmp
  · have hnot : isSurrogate c.toNat = false := by
      simp only [isSurrogate, decide_eq_false_iff_not]
      omega
    rw [List.singleton_append, decodeUtf16_cons us hnot, Char.ofNat_toNat]
  · -- a surrogate pair carries ten bits in each unit
    have hpair : surrogatePair (0xD800 + (c.toNat - 0x10000) / 0x400)
        (0xDC00 + (c.toNat - 0x10000) % 0x400) = c := by
      unfold surrogatePair
      rw [show 0x10000 + (0xD800 + (c.toNat - 0x10000) / 0x400 - 0xD800) * 0x400 +
        (0xDC00 + (c.toNat - 0x10000) % 0x400 - 0xDC00) = c.toNat by omega, Char.ofNat_toNat]
    rw [List.cons_append, List.singleton_append, decodeUtf16_pair us, hpair]
    · simp only [isSurrogate, decide_eq_true_eq]
      omega
    · simp only [isLowSurrogate, decide_eq_false_iff_not]
      omega
    · simp only [isLowSurrogate, decide_eq_true_eq]
      omega

theorem decodeUtf16_encodeUtf16 (cs : List Char) :
    decodeUtf16 (encodeUtf16 cs) = cs.map some := by
  unfold encodeUtf16
  induction cs with
  | nil => rfl
  | cons c cs ih => rw [List.flatMap_cons, decodeUtf16_unitsOfChar, ih, List.map_cons]

theorem unitsOfChar_lt {c : Char} {u : ℕ} (hu : u ∈ unitsOfChar c) : u < 256 ^ 2 := by
  have hrange := char_range c
  unfold unitsOfChar at hu
  split_ifs at hu with hbmp
  · rw [List.mem_singleton.1 hu]
    omega
  · simp only [List.mem_cons, List.not_mem_nil, or_false] at hu
    omega

/-- The units are read back from their bytes. -/
theorem utf16Units_flatMap {us : List ℕ} (h : ∀ u ∈ us, u < 256 ^ 2) :
    utf16Units (us.flatMap (toLeBytes 2)) = us := by
  induction us with
  | nil => rfl
  | cons u us ih =>
    have hu := fromLeBytes_toLeBytes (h u List.mem_cons_self)
    simp only [toLeBytes, fromLeBytes, Nat.mul_zero, Nat.add_zero] at hu
    have hbytes : toLeBytes 2 u ++ us.flatMap (toLeBytes 2) =
        UInt8.ofNat u :: UInt8.ofNat (u / 256) :: us.flatMap (toLeBytes 2) := rfl
    rw [List.flatMap_cons, hbytes, utf16Units, hu, ih fun v hv => h v (List.mem_cons_of_mem _ hv)]

/-- **A string is decoded from its UTF-16LE bytes**, characters outside the BMP included. -/
theorem decodeUtf16Lossy_encodeUtf16le (s : String) : decodeUtf16Lossy (encodeUtf16le s) = s := by
  have hunits : ∀ u ∈ encodeUtf16 s.toList, u < 256 ^ 2 := by
    intro u hu
    obtain ⟨c, -, hu⟩ := List.mem_flatMap.1 hu
    exact unitsOfChar_lt hu
  rw [decodeUtf16Lossy, encodeUtf16le, utf16Units_flatMap hunits, decodeUtf16_encodeUtf16,
    List.map_map]
  simp

/-! ## What decoding loses -/

/-- The units with `0xFFFD` for every unpaired surrogate. -/
def replaceUnpaired : List ℕ → List ℕ
  | [] => []
  | [u] => if isSurrogate u then [0xFFFD] else [u]
  | u :: v :: us =>
    if ¬isSurrogate u then u :: replaceUnpaired (v :: us)
    else if isLowSurrogate u then 0xFFFD :: replaceUnpaired (v :: us)
    else if isLowSurrogate v then u :: v :: replaceUnpaired us
    else 0xFFFD :: replaceUnpaired (v :: us)

theorem toNat_ofNat_of_isValidChar {n : ℕ} (h : n.isValidChar) : (Char.ofNat n).toNat = n := by
  rw [Char.ofNat, dif_pos h]
  rfl

/-- A unit outside the surrogate range is the one unit of its character. -/
theorem unitsOfChar_ofNat {u : ℕ} (hu : u < 256 ^ 2) (h : ¬isSurrogate u) :
    unitsOfChar (Char.ofNat u) = [u] := by
  simp only [isSurrogate, decide_eq_true_eq] at h
  have hvalid : u.isValidChar := by
    rcases Nat.lt_or_ge u 0xD800 with hlt | hge
    · exact .inl hlt
    · exact .inr ⟨by omega, by omega⟩
  rw [unitsOfChar, toNat_ofNat_of_isValidChar hvalid, if_pos (by omega)]

/-- A surrogate pair is the pair of its character. -/
theorem unitsOfChar_surrogatePair {hi lo : ℕ} (hhi : isSurrogate hi) (hhi' : ¬isLowSurrogate hi)
    (hlo : isLowSurrogate lo) : unitsOfChar (surrogatePair hi lo) = [hi, lo] := by
  simp only [isSurrogate, isLowSurrogate, decide_eq_true_eq] at hhi hhi' hlo
  have hvalid : (0x10000 + (hi - 0xD800) * 0x400 + (lo - 0xDC00)).isValidChar :=
    .inr ⟨by omega, by omega⟩
  rw [unitsOfChar, surrogatePair, toNat_ofNat_of_isValidChar hvalid, if_neg (by omega),
    show 0xD800 + (0x10000 + (hi - 0xD800) * 0x400 + (lo - 0xDC00) - 0x10000) / 0x400 = hi by omega,
    show 0xDC00 + (0x10000 + (hi - 0xD800) * 0x400 + (lo - 0xDC00) - 0x10000) % 0x400 = lo by omega]

theorem encodeUtf16_cons (c : Char) (cs : List Char) :
    encodeUtf16 (c :: cs) = unitsOfChar c ++ encodeUtf16 cs := rfl

/-- Lossy decoding keeps the units up to their unpaired surrogates. -/
theorem encodeUtf16_decodeUtf16 {us : List ℕ} (h : ∀ u ∈ us, u < 256 ^ 2) :
    encodeUtf16 ((decodeUtf16 us).map (·.getD replacementCharacter)) = replaceUnpaired us := by
  have hreplace : unitsOfChar replacementCharacter = [0xFFFD] := by decide
  induction us using decodeUtf16.induct with
  | case1 => rfl
  | case2 u hs =>
    simp [decodeUtf16, replaceUnpaired, hs, encodeUtf16, hreplace]
  | case3 u hs =>
    have hu := unitsOfChar_ofNat (h u (by simp)) hs
    simp [decodeUtf16, replaceUnpaired, hs, encodeUtf16, hu]
  | case4 u v us hs ih =>
    have hu := unitsOfChar_ofNat (h u (by simp)) hs
    rw [decodeUtf16, if_pos hs, List.map_cons, encodeUtf16_cons,
      ih fun w hw => h w (List.mem_cons_of_mem _ hw), replaceUnpaired, if_pos hs]
    rw [Option.getD_some, hu, List.singleton_append]
  | case5 u v us hs hlow ih =>
    rw [decodeUtf16, if_neg hs, if_pos hlow, List.map_cons, encodeUtf16_cons,
      ih fun w hw => h w (List.mem_cons_of_mem _ hw), replaceUnpaired, if_neg hs, if_pos hlow]
    rw [Option.getD_none, hreplace, List.singleton_append]
  | case6 u v us hs hlow hpair ih =>
    have huv := unitsOfChar_surrogatePair (not_not.1 hs) hlow hpair
    rw [decodeUtf16, if_neg hs, if_neg hlow, if_pos hpair, List.map_cons, encodeUtf16_cons,
      ih fun w hw => h w (List.mem_cons_of_mem _ (List.mem_cons_of_mem _ hw)), replaceUnpaired,
      if_neg hs, if_neg hlow, if_pos hpair]
    rw [Option.getD_some, huv, List.cons_append, List.singleton_append]
  | case7 u v us hs hlow hpair ih =>
    rw [decodeUtf16, if_neg hs, if_neg hlow, if_neg hpair, List.map_cons, encodeUtf16_cons,
      ih fun w hw => h w (List.mem_cons_of_mem _ hw), replaceUnpaired, if_neg hs, if_neg hlow,
      if_neg hpair]
    rw [Option.getD_none, hreplace, List.singleton_append]

theorem utf16Units_lt (bytes : List UInt8) : ∀ u ∈ utf16Units bytes, u < 256 ^ 2 := by
  induction bytes using utf16Units.induct with
  | case1 lo hi bytes ih =>
    rw [utf16Units, List.forall_mem_cons]
    have hlo := lo.toNat_lt
    have hhi := hi.toNat_lt
    exact ⟨by omega, ih⟩
  | case2 bytes hshort =>
    simp [utf16Units]

/-- **What lossy decoding identifies**: byte runs whose units agree once every unpaired surrogate
is replaced. -/
theorem decodeUtf16Lossy_eq_iff (bs bs' : List UInt8) :
    decodeUtf16Lossy bs = decodeUtf16Lossy bs' ↔
      replaceUnpaired (utf16Units bs) = replaceUnpaired (utf16Units bs') := by
  rw [decodeUtf16Lossy, decodeUtf16Lossy, String.ofList_inj,
    ← encodeUtf16_decodeUtf16 (utf16Units_lt bs), ← encodeUtf16_decodeUtf16 (utf16Units_lt bs')]
  refine ⟨congrArg encodeUtf16, fun h => ?_⟩
  have hchars := congrArg decodeUtf16 h
  rw [decodeUtf16_encodeUtf16, decodeUtf16_encodeUtf16] at hchars
  exact (List.map_inj_right fun _ _ => Option.some.inj).1 hchars

end RefsForensic.Rust
