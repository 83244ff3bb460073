import RefsForensic.Core.Headers
import RefsForensic.Core.Store
import RefsForensic.Rust.Write
import Mathlib.Data.List.Induction
import Mathlib.Data.List.Nodup
import Mathlib.Logic.Function.Basic

/-!
# Volumes under writes

The reader's image is what a sequence of writes has left of a volume. A page write puts a metadata
page at clusters that no other page overlaps; a data write touches no page and makes none. On the
page store the first is an update at one cluster and the second is nothing (`Write.Allowed.store`),
so over any run of writes the store of the image is the store the page writes make (`Run.store`).
-/

namespace RefsForensic

open Rust

variable {T : Target}

/-! ## Resident pages, by their bytes -/

theorem bytesAt_congr {d d' : Slice T} {n off : ℕ} (hlen : d'.len = d.len)
    (h : ∀ x, off ≤ x → x < off + n → d'.get? x = d.get? x) :
    bytesAt n d' off = bytesAt n d off := by
  rw [bytesAt, Slice.getRange_congr hlen h, bytesAt]

/-- A cluster holds a page exactly when 16 KiB are left and they start with `MSB+`. -/
theorem exists_residentPage_iff {image : Slice T} {c : ℕ} :
    (∃ p, residentPage image c = some p) ↔
      c * refsClusterSize + refsMetadataPageSize ≤ image.len ∧
        bytesAt 4 image (c * refsClusterSize) = msbSignature := by
  constructor
  · rintro ⟨p, hp⟩
    exact ⟨le_len_of_residentPage hp,
      p.signature.bytesAt_getRange (residentPage_eq_some.1 hp)⟩
  · rintro ⟨hle, hsig⟩
    have hpage := Slice.getRange_of_le (d := image) (a := c * refsClusterSize)
      (b := c * refsClusterSize + refsMetadataPageSize) ⟨by omega, hle⟩
    have hlen := Slice.len_of_getRange hpage
    rw [Nat.add_sub_cancel_left] at hlen
    have hstart := startsWith_of_bytesAt hpage (by rw [hlen]; decide) hsig
    exact ⟨⟨_, hlen, hstart⟩, residentPage_eq_some.2 hpage⟩

/-- A cluster whose page bytes are kept keeps its page. -/
theorem residentPage_eq_of_getRange {image image' : Slice T} {c : ℕ}
    (h : image'.getRange (c * refsClusterSize) (c * refsClusterSize + refsMetadataPageSize) =
      image.getRange (c * refsClusterSize) (c * refsClusterSize + refsMetadataPageSize)) :
    residentPage image' c = residentPage image c := by
  rw [residentPage, h, residentPage]

/-- No cluster of the page but the first looks like the start of a page. -/
def MetaPage.Plain (p : MetaPage T) : Prop :=
  ∀ i < 4, 0 < i → bytesAt 4 p.data (i * refsClusterSize) ≠ msbSignature

instance (p : MetaPage T) : Decidable p.Plain :=
  inferInstanceAs (Decidable (∀ i < 4, 0 < i → _))

/-! ## Writes -/

/-- A write to a volume: a metadata page at a cluster, or other bytes. -/
inductive Write (T : Target)
  | page (c : ℕ) (p : MetaPage T)
  | data (off : ℕ) (bs : List UInt8)

namespace Write

/-- The image after the write. -/
def apply (image : Slice T) : Write T → Slice T
  | page c p => image.write (c * refsClusterSize) p.data.toList
  | data off bs => image.write off bs

/-- The page store after the write. -/
def put (st : Store T) : Write T → Store T
  | page c p => Function.update st c (some p)
  | data _ _ => st

/-- The write may be made: a page fits the volume and overlaps no other page, other bytes overlap no
page and make no cluster the start of one. -/
inductive Allowed (image : Slice T) : Write T → Prop
  | page {c : ℕ} {p : MetaPage T}
      (fits : c * refsClusterSize + refsMetadataPageSize ≤ image.len) (plain : p.Plain)
      (clear : ∀ c', c' ≠ c → c' < c + 4 → c < c' + 4 → residentPage image c' = none) :
      Allowed image (page c p)
  | data {off : ℕ} {bs : List UInt8}
      (spares : ∀ c p, residentPage image c = some p →
        off + bs.length ≤ c * refsClusterSize ∨
          c * refsClusterSize + refsMetadataPageSize ≤ off)
      (plain : ∀ c, bytesAt 4 (image.write off bs) (c * refsClusterSize) = msbSignature →
        bytesAt 4 image (c * refsClusterSize) = msbSignature) :
      Allowed image (data off bs)

/-- The write keeps clear of the bytes from `a` up to `b`. -/
def Clear (a b : ℕ) : Write T → Prop
  | page c _ => b ≤ c * refsClusterSize ∨ c * refsClusterSize + refsMetadataPageSize ≤ a
  | data off bs => b ≤ off ∨ off + bs.length ≤ a

@[simp] theorem apply_len (image : Slice T) (w : Write T) : (w.apply image).len = image.len := by
  cases w with
  | page c p => rfl
  | data off bs => rfl

theorem Clear.get?_apply {image : Slice T} {w : Write T} {a b x : ℕ} (h : w.Clear a b)
    (ha : a ≤ x) (hb : x < b) : (w.apply image).get? x = image.get? x := by
  cases w with
  | page c p =>
    refine Slice.get?_write_of_disjoint image ?_
    rw [Slice.length_toList, p.len_eq]
    unfold Clear at h
    omega
  | data off bs =>
    refine Slice.get?_write_of_disjoint image ?_
    unfold Clear at h
    omega

/-- The page that was written is read back. -/
theorem residentPage_apply_self {image : Slice T} {c : ℕ} {p : MetaPage T}
    (fits : c * refsClusterSize + refsMetadataPageSize ≤ image.len) :
    residentPage ((page c p).apply image) c = some p := by
  rw [residentPage_eq_some, apply, ← p.len_eq]
  exact Slice.getRange_write_self image p.data (by rwa [p.len_eq])

/-- The bytes of a written page, in the image. -/
theorem bytesAt_apply_page {image : Slice T} {c off : ℕ} {p : MetaPage T}
    (fits : c * refsClusterSize + refsMetadataPageSize ≤ image.len)
    (hoff : off + 4 ≤ refsMetadataPageSize) :
    bytesAt 4 ((page c p).apply image) (c * refsClusterSize + off) = bytesAt 4 p.data off := by
  have hpage := residentPage_eq_some.1 (residentPage_apply_self (p := p) fits)
  exact (bytesAt_getRange hpage (by rw [p.len_eq]; exact hoff)).symm

/-- A page write makes no page of the clusters it overlaps. -/
theorem residentPage_apply_near {image : Slice T} {c c' : ℕ} {p : MetaPage T}
    (fits : c * refsClusterSize + refsMetadataPageSize ≤ image.len) (plain : p.Plain)
    (hne : c' ≠ c) (hlt : c' < c + 4) (hclear : residentPage image c' = none) :
    residentPage ((page c p).apply image) c' = none := by
  rw [Option.eq_none_iff_forall_ne_some]
  intro q hq
  obtain ⟨hle, hsig⟩ := exists_residentPage_iff.1 ⟨q, hq⟩
  rw [apply_len] at hle
  rcases Nat.lt_or_gt_of_ne hne with hbefore | hafter
  · -- the start of the cluster is in front of the written page
    have hkept : bytesAt 4 ((page c p).apply image) (c' * refsClusterSize) =
        bytesAt 4 image (c' * refsClusterSize) := by
      unfold bytesAt
      rw [apply, Slice.getRange_write_of_disjoint _ (.inl (by unfold refsClusterSize; omega))]
    obtain ⟨q', hq'⟩ := exists_residentPage_iff.2 ⟨hle, hkept ▸ hsig⟩
    rw [hclear] at hq'
    cases hq'
  · -- the start of the cluster is in the written page
    obtain ⟨i, rfl⟩ := Nat.exists_eq_add_of_lt hafter
    rw [show (c + i + 1) * refsClusterSize = c * refsClusterSize + (i + 1) * refsClusterSize by
      ring, bytesAt_apply_page fits (by unfold refsClusterSize refsMetadataPageSize; omega)] at hsig
    exact plain (i + 1) (by omega) (by omega) hsig

/-- **A write, on the page store.** -/
theorem Allowed.store {image : Slice T} {w : Write T} (h : w.Allowed image) :
    residentPage (w.apply image) = w.put (residentPage image) := by
  funext c'
  cases h with
  | @page c p fits plain clear =>
    rcases eq_or_ne c' c with rfl | hne
    · rw [residentPage_apply_self fits, put, Function.update_self]
    · rw [put, Function.update_of_ne hne]
      by_cases hnear : c' < c + 4 ∧ c < c' + 4
      · rw [clear c' hne hnear.1 hnear.2,
          residentPage_apply_near fits plain hne hnear.1 (clear c' hne hnear.1 hnear.2)]
      · refine residentPage_eq_of_getRange (Slice.getRange_write_of_disjoint _ ?_)
        rw [Slice.length_toList, p.len_eq]
        unfold refsClusterSize refsMetadataPageSize
        omega
  | @data off bs spares plain =>
    rw [put]
    cases hold : residentPage image c' with
    | some p =>
      rw [← hold]
      refine residentPage_eq_of_getRange (Slice.getRange_write_of_disjoint _ ?_)
      exact (spares c' p hold).symm
    | none =>
      rw [Option.eq_none_iff_forall_ne_some]
      intro q hq
      obtain ⟨hle, hsig⟩ := exists_residentPage_iff.1 ⟨q, hq⟩
      obtain ⟨q', hq'⟩ := exists_residentPage_iff.2
        ⟨by rwa [apply_len] at hle, plain c' hsig⟩
      rw [hold] at hq'
      cases hq'

end Write

/-! ## Runs -/

/-- `Run image ws image'`: the writes `ws`, each allowed when it is made, take `image` to
`image'`. -/
inductive Run (image : Slice T) : List (Write T) → Slice T → Prop
  | start : Run image [] image
  | step {ws : List (Write T)} {image' : Slice T} {w : Write T} (h : Run image ws image')
      (hw : w.Allowed image') : Run image (ws ++ [w]) (w.apply image')

/-- The page store once the writes `ws` have been made. -/
def Store.putAll (st : Store T) (ws : List (Write T)) : Store T := ws.foldl Write.put st

@[simp] theorem Store.putAll_snoc (st : Store T) (ws : List (Write T)) (w : Write T) :
    st.putAll (ws ++ [w]) = w.put (st.putAll ws) := by
  rw [putAll, List.foldl_append]
  rfl

/-- A page was there at the start, or has been written. -/
theorem Store.putAll_origin {st : Store T} {ws : List (Write T)} {c : ℕ} {p : MetaPage T}
    (h : st.putAll ws c = some p) : st c = some p ∨ Write.page c p ∈ ws := by
  induction ws using List.reverseRecOn with
  | nil => exact .inl h
  | append_singleton ws w ih =>
    rw [putAll_snoc] at h
    cases w with
    | page c' q =>
      rw [Write.put] at h
      rcases eq_or_ne c c' with rfl | hne
      · rw [Function.update_self, Option.some.injEq] at h
        exact .inr (by simp [h])
      · rw [Function.update_of_ne hne] at h
        exact (ih h).imp_right (List.mem_append_left _)
    | data off bs => exact (ih h).imp_right (List.mem_append_left _)

/-- No cluster is written with two pages. -/
def OnePageEach (ws : List (Write T)) : Prop :=
  ∀ c p q, Write.page c p ∈ ws → Write.page c q ∈ ws → p = q

/-- The order of the writes does not matter where no cluster is written with two pages. -/
theorem Store.putAll_perm {st : Store T} {ws ws' : List (Write T)} (h : ws.Perm ws')
    (hone : OnePageEach ws) : st.putAll ws = st.putAll ws' := by
  refine h.foldl_eq' (fun w hw w' hw' st => ?_) st
  cases w with
  | data off bs => rfl
  | page c p =>
    cases w' with
    | data off bs => rfl
    | page c' p' =>
      rcases eq_or_ne c c' with rfl | hne
      · rw [hone c p p' hw hw']
      · exact Function.update_comm hne _ _ st

namespace Run

variable {image image' : Slice T} {ws : List (Write T)}

theorem len (h : Run image ws image') : image'.len = image.len := by
  induction h with
  | start => rfl
  | step _ _ ih => rw [Write.apply_len, ih]

/-- Bytes that every write keeps clear of are what they were. -/
theorem get?_eq (h : Run image ws image') {a b x : ℕ} (hclear : ∀ w ∈ ws, w.Clear a b)
    (ha : a ≤ x) (hb : x < b) : image'.get? x = image.get? x := by
  induction h with
  | start => rfl
  | step _ _ ih =>
    rw [(hclear _ (by simp)).get?_apply ha hb, ih fun w hw => hclear w (List.mem_append_left _ hw)]

/-- **The image of a run holds the pages the run has written.** -/
theorem store (h : Run image ws image') :
    residentPage image' = (residentPage image).putAll ws := by
  induction h with
  | start => rfl
  | step _ hw ih => rw [hw.store, ih, Store.putAll_snoc]

/-- **The invariant rule of runs**: what holds of the store at the start and is kept by every
allowed page write of the run holds of the store at the end. -/
theorem invariant {I : Store T → Prop} (h : Run image ws image') (hstart : I (residentPage image))
    (hpage : ∀ st c p, I st → Write.page c p ∈ ws → I (Function.update st c (some p))) :
    I (residentPage image') := by
  induction h with
  | start => exact hstart
  | @step ws image' w _ hw ih =>
    have hI := ih fun st c p hst hmem => hpage st c p hst (List.mem_append_left _ hmem)
    rw [hw.store]
    cases w with
    | page c p => exact hpage _ c p hI (by simp)
    | data off bs => exact hI

/-- Clusters that no page write of the run names keep what they had. -/
theorem residentPage_eq (h : Run image ws image') {c : ℕ} (hc : ∀ p, Write.page c p ∉ ws) :
    residentPage image' c = residentPage image c := by
  refine h.invariant (I := fun st => st c = residentPage image c) rfl fun st c' p hst hmem => ?_
  have hne : c ≠ c' := by
    rintro rfl
    exact hc p hmem
  rw [Function.update_of_ne hne, hst]

end Run

/-! ## Pages four clusters apart -/

/-- Every page starts at a multiple of four clusters. -/
def Store.Aligned (st : Store T) : Prop := ∀ c p, st c = some p → 4 ∣ c

/-- An aligned page may be written whatever aligned pages there are. -/
theorem Write.Allowed.of_aligned {image : Slice T} (h : (residentPage image).Aligned) {c : ℕ}
    {p : MetaPage T} (hc : 4 ∣ c) (fits : c * refsClusterSize + refsMetadataPageSize ≤ image.len)
    (plain : p.Plain) : (Write.page c p).Allowed image := by
  refine .page fits plain fun c' hne hlt hgt => Option.eq_none_iff_forall_ne_some.2 fun q hq => ?_
  have hc' := h c' q hq
  omega

/-- Bytes that stay in one cluster, behind where a page starts and clear of all pages, may be
written. -/
theorem Write.Allowed.of_within {image : Slice T} {off k : ℕ} {bs : List UInt8}
    (spares : ∀ c p, residentPage image c = some p → off + bs.length ≤ c * refsClusterSize ∨
      c * refsClusterSize + refsMetadataPageSize ≤ off)
    (hstart : k * refsClusterSize + 4 ≤ off) (hend : off + bs.length ≤ (k + 1) * refsClusterSize) :
    (Write.data off bs).Allowed image := by
  refine .data spares fun c hsig => ?_
  rwa [bytesAt_congr (Slice.write_len image off bs) fun x h₁ h₂ => ?_] at hsig
  refine Slice.get?_write_of_disjoint image ?_
  unfold refsClusterSize at *
  rcases Nat.lt_or_ge c (k + 1) with hlt | hge
  · have := Nat.mul_le_mul_right 4096 (Nat.lt_succ_iff.1 hlt)
    omega
  · have := Nat.mul_le_mul_right 4096 hge
    omega

theorem Run.aligned {image image' : Slice T} {ws : List (Write T)} (h : Run image ws image')
    (hstart : (residentPage image).Aligned) (hws : ∀ c p, Write.page c p ∈ ws → 4 ∣ c) :
    (residentPage image').Aligned := by
  refine h.invariant (I := Store.Aligned) hstart fun st c p hst hmem c' q hq => ?_
  rcases eq_or_ne c' c with rfl | hne
  · exact hws c' p hmem
  · rw [Function.update_of_ne hne] at hq
    exact hst c' q hq

/-- A page that may be written to the cluster of its number on a volume of aligned pages. -/
structure MetaPage.Writable (p : MetaPage T) (len : ℕ) : Prop where
  aligned : 4 ∣ p.number
  fits : p.number * refsClusterSize + refsMetadataPageSize ≤ len
  plain : p.Plain

/-- Pages, each written to the cluster of its number. -/
def ownWrites (ps : List (MetaPage T)) : List (Write T) := ps.map fun p => .page p.number p

theorem page_mem_ownWrites {ps : List (MetaPage T)} {c : ℕ} {p : MetaPage T} :
    Write.page c p ∈ ownWrites ps ↔ p ∈ ps ∧ c = p.number := by
  unfold ownWrites
  constructor
  · intro h
    obtain ⟨q, hq, heq⟩ := List.mem_map.1 h
    cases heq
    exact ⟨hq, rfl⟩
  · rintro ⟨hp, rfl⟩
    exact List.mem_map_of_mem (f := fun p => Write.page p.number p) hp

theorem onePageEach_own {ps : List (MetaPage T)} (h : (ps.map MetaPage.number).Nodup) :
    OnePageEach (ownWrites ps) := by
  intro c p q hp hq
  obtain ⟨hp, hpc⟩ := page_mem_ownWrites.1 hp
  obtain ⟨hq, hqc⟩ := page_mem_ownWrites.1 hq
  exact List.inj_on_of_nodup_map h hp hq (hpc.symm.trans hqc)

theorem page_not_mem_ownWrites {ps : List (MetaPage T)} {c : ℕ} (h : ∀ p ∈ ps, p.number ≠ c)
    (q : MetaPage T) : Write.page c q ∉ ownWrites ps := fun hmem => by
  obtain ⟨hq, hc⟩ := page_mem_ownWrites.1 hmem
  exact h q hq hc.symm

namespace Store

variable {st : Store T} {ps : List (MetaPage T)}

theorem putAll_own_of_ne {c : ℕ} (h : ∀ p ∈ ps, p.number ≠ c) :
    st.putAll (ownWrites ps) c = st c := by
  induction ps using List.reverseRecOn with
  | nil => rfl
  | append_singleton ps p ih =>
    rw [ownWrites, List.map_append, List.map_singleton, putAll_snoc, Write.put,
      Function.update_of_ne (h p (by simp)).symm]
    exact ih fun q hq => h q (List.mem_append_left _ hq)

/-- Pages of different numbers are there once they have been written. -/
theorem putAll_own {c : ℕ} {p : MetaPage T} (hnodup : (ps.map MetaPage.number).Nodup)
    (hp : p ∈ ps) (hc : p.number = c) : st.putAll (ownWrites ps) c = some p := by
  induction ps using List.reverseRecOn with
  | nil => cases hp
  | append_singleton ps q ih =>
    rw [ownWrites, List.map_append, List.map_singleton, putAll_snoc, Write.put]
    rw [List.map_append, List.nodup_append] at hnodup
    rcases List.mem_append.1 hp with hold | hlast
    · have hne : c ≠ q.number := fun heq =>
        hnodup.2.2 _ (List.mem_map_of_mem hold) q.number (by simp) (hc.trans heq)
      rw [Function.update_of_ne hne]
      exact ih hnodup.1 hold
    · obtain rfl := List.mem_singleton.1 hlast
      rw [hc, Function.update_self]

end Store

/-- **Aligned pages can be written in any order.** -/
theorem exists_run_own {image : Slice T} (hstart : (residentPage image).Aligned)
    {ps : List (MetaPage T)} (hps : ∀ p ∈ ps, p.Writable image.len) :
    ∃ image', Run image (ownWrites ps) image' ∧ (residentPage image').Aligned := by
  suffices h : ∃ image', Run image (ownWrites ps) image' by
    obtain ⟨image', hrun⟩ := h
    refine ⟨image', hrun, hrun.aligned hstart fun c p hmem => ?_⟩
    obtain ⟨hp, rfl⟩ := page_mem_ownWrites.1 hmem
    exact (hps p hp).aligned
  induction ps using List.reverseRecOn with
  | nil => exact ⟨image, .start⟩
  | append_singleton ps p ih =>
    obtain ⟨image', hrun⟩ := ih fun q hq => hps q (List.mem_append_left _ hq)
    have hp := hps p (by simp)
    have haligned := hrun.aligned hstart fun c q hmem => by
      obtain ⟨hq, rfl⟩ := page_mem_ownWrites.1 hmem
      exact (hps q (List.mem_append_left _ hq)).aligned
    rw [ownWrites, List.map_append, List.map_singleton]
    have hfits := hp.fits
    rw [← hrun.len] at hfits
    exact ⟨_, hrun.step (.of_aligned haligned hp.aligned hfits hp.plain)⟩

/-- A volume of zeros. -/
def blankVolume : Slice .w64 where
  len := 72 * 4096
  len_le := by decide
  byte _ := 0

theorem residentPage_blankVolume : residentPage blankVolume = fun _ => none := by
  funext c
  rw [Option.eq_none_iff_forall_ne_some]
  intro p hp
  obtain ⟨hle, hsig⟩ := exists_residentPage_iff.1 ⟨p, hp⟩
  have hbyte : blankVolume.get? (c * refsClusterSize) = some 0 := by
    unfold refsMetadataPageSize at hle
    rw [Slice.get?, dif_pos (by omega)]
    rfl
  have hholds : blankVolume.Holds (c * refsClusterSize)
      (bytesAt 4 blankVolume (c * refsClusterSize)) :=
    holds_bytesAt (by unfold refsMetadataPageSize at hle; omega)
  rw [hsig] at hholds
  have hfirst := (Slice.holds_iff.1 hholds).2 0 (by decide)
  rw [Nat.add_zero, hbyte] at hfirst
  cases hfirst

theorem blankVolume_aligned : (residentPage blankVolume).Aligned := by
  rw [residentPage_blankVolume]
  intro c p hp
  cases hp

/-- Pages written on a blank volume are the only ones on it. -/
theorem Run.of_blankVolume {ps : List (MetaPage .w64)} {image : Slice .w64}
    (h : Run blankVolume (ownWrites ps) image) {c : ℕ} {p : MetaPage .w64}
    (hp : residentPage image c = some p) : p ∈ ps ∧ c = p.number := by
  rw [h.store, residentPage_blankVolume] at hp
  rcases Store.putAll_origin hp with hold | hnew
  · cases hold
  · exact page_mem_ownWrites.1 hnew

/-- Two bytes in cluster 30. -/
def spareData : Write .w64 := .data (30 * 4096 + 5) [7, 7]

theorem spareData_allowed {ps : List (MetaPage .w64)} {image : Slice .w64}
    (h : Run blankVolume (ownWrites ps) image) (hps : ∀ p ∈ ps, p.number ≤ 26) :
    spareData.Allowed image := by
  refine .of_within (k := 30) (fun c p hp => .inr ?_) (by decide) (by decide)
  obtain ⟨hmem, rfl⟩ := h.of_blankVolume hp
  have hle := hps p hmem
  unfold refsClusterSize refsMetadataPageSize
  omega

end RefsForensic
