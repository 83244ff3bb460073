import RefsForensic.Core.RowLaws
import RefsForensic.Forensic.CarverLaws

/-!
# Unreadable pages

Pass 1 of the carver takes the number of a page before it parses the page, and a page that does not
parse has no names. `unreadable_without_influence_iff` compares the residue of an image with that of
the image whose unreadable root-table pages have lost their signature; in `plantedPage` an
unreadable page with a huge number turns the live page into residue.
-/

namespace RefsForensic.Forensic

open Rust

variable {T : Target}

/-! ## Readable pages -/

/-- The node header of the page parses. -/
def nodeParses (page : Slice T) : Bool := (MinstorePage.parse page).isOk

/-- The root-table page of cluster `c`, with its byte offset. -/
def rootTablePageAt (image : Slice T) (c : ℕ) : Option (ℕ × Slice T) :=
  (residentMsbPage image c).filter fun p => leU64 p.2 tableIdOffset = refsRootDirectoryTableId

/-- The root-table pages that parse, by ascending offset. -/
def readablePages (image : Slice T) : List (ℕ × Slice T) :=
  (rootTablePages image).filter fun p => nodeParses p.2

/-- The first readable root-table page with the highest self-block. -/
def currentReadable (image : Slice T) : Option (ℕ × Slice T) :=
  (readablePages image).argmax selfBlockOf

/-- Cluster `c` holds a root-table page that does not parse. -/
def unreadableAt (image : Slice T) (c : ℕ) : Bool :=
  (rootTablePageAt image c).any fun p => !nodeParses p.2

/-- The image with the signature of every unreadable root-table page blanked out. -/
def blankUnreadable (image : Slice T) : Slice T where
  len := image.len
  len_le := image.len_le
  byte i := if i % clusterSize < 4 ∧ unreadableAt image (i / clusterSize) then 0 else image.byte i

/-- The page of the blanked image at the offset of `p`. -/
def blankPage (image : Slice T) (p : ℕ × Slice T) : ℕ × Slice T :=
  (p.1, ((blankUnreadable image).getRange p.1 (p.1 + refsMetadataPageSize)).getD Slice.empty)

theorem rootTablePages_eq_filterMap (image : Slice T) :
    rootTablePages image =
      (List.range (image.len / clusterSize)).filterMap (rootTablePageAt image) := by
  rw [rootTablePages, residentMsbPages, List.filter_filterMap]
  rfl

theorem rootTablePageAt_eq_some {image : Slice T} {c : ℕ} {p : ℕ × Slice T} :
    rootTablePageAt image c = some p ↔ p.1 = c * clusterSize ∧
      image.getRange p.1 (p.1 + refsMetadataPageSize) = some p.2 ∧
      startsWith p.2 msbSignature ∧ leU64 p.2 tableIdOffset = refsRootDirectoryTableId := by
  unfold rootTablePageAt residentMsbPage
  rw [Option.filter_eq_some_iff, Option.bind_eq_bind, Option.bind_eq_some_iff]
  simp only [blockAt_eq, decide_eq_true_eq]
  constructor
  · rintro ⟨⟨page, hpage, hp⟩, htable⟩
    split_ifs at hp with hsig
    cases hp
    exact ⟨rfl, hpage, hsig, htable⟩
  · obtain ⟨off, page⟩ := p
    rintro ⟨rfl, hpage, hsig, htable⟩
    exact ⟨⟨page, hpage, if_pos hsig⟩, htable⟩

/-! ## The blanked image -/

/-- A byte is kept unless it belongs to the signature of an unreadable page. -/
theorem get?_blankUnreadable {image : Slice T} {x : ℕ}
    (h : 4 ≤ x % clusterSize ∨ unreadableAt image (x / clusterSize) = false) :
    (blankUnreadable image).get? x = image.get? x := by
  unfold Slice.get?
  by_cases hx : x < image.len
  · rw [dif_pos hx, dif_pos (show x < (blankUnreadable image).len from hx), Option.some.injEq]
    refine if_neg ?_
    rintro ⟨hlt, hun⟩
    rcases h with h | h
    · exact absurd hlt (not_lt.2 h)
    · rw [h] at hun
      cases hun
  · rw [dif_neg hx, dif_neg (show ¬x < (blankUnreadable image).len from hx)]

theorem get?_blankUnreadable_zero {image : Slice T} {x : ℕ} (h : x % clusterSize < 4)
    (hun : unreadableAt image (x / clusterSize)) (hx : x < image.len) :
    (blankUnreadable image).get? x = some 0 := by
  unfold Slice.get?
  rw [dif_pos (show x < (blankUnreadable image).len from hx), Option.some.injEq]
  exact if_pos ⟨h, hun⟩

/-- `page'` is the page of the blanked image where `page` is that of the image, on the boundary of
cluster `c`. -/
structure Blanks (image : Slice T) (c : ℕ) (page page' : Slice T) : Prop where
  page : image.getRange (c * clusterSize) (c * clusterSize + refsMetadataPageSize) = some page
  blanked : (blankUnreadable image).getRange (c * clusterSize)
    (c * clusterSize + refsMetadataPageSize) = some page'

namespace Blanks

variable {image page page' : Slice T} {c : ℕ}

theorem len (h : Blanks image c page page') :
    page.len = refsMetadataPageSize ∧ page'.len = refsMetadataPageSize := by
  have h₁ := Slice.len_of_getRange h.page
  have h₂ := Slice.len_of_getRange h.blanked
  omega

/-- Behind the signature of its first cluster a page keeps its header. -/
theorem leU64 (h : Blanks image c page page') (off : ℕ) (hoff : 4 ≤ off)
    (hend : off + 8 ≤ clusterSize) : Forensic.leU64 page' off = Forensic.leU64 page off := by
  rw [leU64_eq, leU64_eq]
  refine leField_congr (h.len.2.trans h.len.1.symm) fun x hx => ?_
  obtain ⟨hge, hlt⟩ := hx
  unfold clusterSize at hend
  have hin : c * clusterSize + x < c * clusterSize + refsMetadataPageSize := by
    unfold refsMetadataPageSize
    omega
  rw [Slice.get?_of_getRange h.blanked hin, Slice.get?_of_getRange h.page hin]
  refine get?_blankUnreadable (.inl ?_)
  unfold clusterSize
  omega

/-- A page that is not an unreadable root-table page keeps its signature. -/
theorem startsWith_iff (h : Blanks image c page page') (hc : unreadableAt image c = false)
    (signature : List UInt8) : startsWith page' signature ↔ startsWith page signature := by
  have hbytes : (page'.getRange 0 4).map Slice.toList = (page.getRange 0 4).map Slice.toList := by
    refine Slice.map_toList_getRange_congr (h.len.2.trans h.len.1.symm) fun x _ hx => ?_
    have hin : c * clusterSize + x < c * clusterSize + refsMetadataPageSize := by
      unfold refsMetadataPageSize
      omega
    rw [Slice.get?_of_getRange h.blanked hin, Slice.get?_of_getRange h.page hin]
    refine get?_blankUnreadable (.inr ?_)
    have hcluster : (c * clusterSize + x) / clusterSize = c := by
      unfold clusterSize
      omega
    rw [hcluster, hc]
  unfold startsWith
  rw [hbytes]

/-- An unreadable root-table page loses its signature. -/
theorem not_startsWith (h : Blanks image c page page') (hc : unreadableAt image c = true) :
    ¬startsWith page' msbSignature := by
  intro hsig
  have hholds : page'.Holds 0 msbSignature := hsig
  have hfirst := (Slice.holds_iff.1 hholds).2 0 (by decide)
  have hlen := (Slice.getRange_eq_some.1 h.page).choose.2
  have hzero : (blankUnreadable image).get? (c * clusterSize + 0) = some 0 := by
    refine get?_blankUnreadable_zero (by simp) ?_ ?_
    · rw [Nat.add_zero, Nat.mul_div_cancel _ (by decide)]
      exact hc
    · unfold refsMetadataPageSize at hlen
      omega
  rw [Nat.add_zero, Slice.get?_of_getRange h.blanked (by unfold refsMetadataPageSize; omega), hzero]
    at hfirst
  revert hfirst
  decide

end Blanks

theorem unreadableAt_of_page {image : Slice T} {c : ℕ} {p : ℕ × Slice T}
    (h : rootTablePageAt image c = some p) : unreadableAt image c = !nodeParses p.2 := by
  rw [unreadableAt, h, Option.any_some]

/-- The pages of an image and of its blanked one are in bounds together. -/
theorem exists_blanks {image page : Slice T} {c : ℕ}
    (h : image.getRange (c * clusterSize) (c * clusterSize + refsMetadataPageSize) = some page) :
    Blanks image c page (blankPage image (c * clusterSize, page)).2 := by
  have hbounds : c * clusterSize ≤ c * clusterSize + refsMetadataPageSize ∧
      c * clusterSize + refsMetadataPageSize ≤ (blankUnreadable image).len :=
    (Slice.getRange_eq_some.1 h).choose
  refine ⟨h, ?_⟩
  rw [blankPage, Slice.getRange_of_le hbounds, Option.getD_some]

/-- The root-table page of a cluster of the blanked image is that of the image, if it parses. -/
theorem rootTablePageAt_blankUnreadable (image : Slice T) (c : ℕ) :
    rootTablePageAt (blankUnreadable image) c =
      ((rootTablePageAt image c).filter fun p => nodeParses p.2).map (blankPage image) := by
  ext q
  rw [Option.map_eq_some_iff, rootTablePageAt_eq_some]
  simp only [Option.filter_eq_some_iff]
  constructor
  · rintro ⟨hoff, hq, hsig, htable⟩
    obtain ⟨off, page'⟩ := q
    obtain rfl : off = c * clusterSize := hoff
    obtain ⟨hbounds, -⟩ := Slice.getRange_eq_some.1 hq
    obtain ⟨page, hpage⟩ : ∃ page, image.getRange (c * clusterSize)
        (c * clusterSize + refsMetadataPageSize) = some page :=
      ⟨_, Slice.getRange_of_le (d := image) hbounds⟩
    have hblanks : Blanks image c page page' := ⟨hpage, hq⟩
    cases hc : unreadableAt image c with
    | true =>
      exact absurd hsig (hblanks.not_startsWith hc)
    | false =>
      have hat : rootTablePageAt image c = some (c * clusterSize, page) := by
        refine rootTablePageAt_eq_some.2 ⟨rfl, hpage, (hblanks.startsWith_iff hc _).1 hsig, ?_⟩
        exact (hblanks.leU64 tableIdOffset (by decide) (by decide)).symm.trans htable
      rw [unreadableAt_of_page hat, Bool.not_eq_false'] at hc
      refine ⟨_, ⟨hat, hc⟩, Prod.ext rfl ?_⟩
      exact Option.some.inj ((exists_blanks hpage).blanked.symm.trans hq)
  · rintro ⟨p, ⟨hat, hparses⟩, rfl⟩
    have hc : unreadableAt image c = false := by
      rw [unreadableAt_of_page hat, hparses, Bool.not_true]
    obtain ⟨off, page⟩ := p
    obtain ⟨hoff, hpage, hsig, htable⟩ := rootTablePageAt_eq_some.1 hat
    obtain rfl : off = c * clusterSize := hoff
    have hblanks := exists_blanks hpage
    refine ⟨rfl, hblanks.blanked, (hblanks.startsWith_iff hc _).2 hsig, ?_⟩
    exact (hblanks.leU64 tableIdOffset (by decide) (by decide)).trans htable

theorem rootTablePages_blankUnreadable (image : Slice T) :
    rootTablePages (blankUnreadable image) = (readablePages image).map (blankPage image) := by
  rw [readablePages, rootTablePages_eq_filterMap image, List.filter_filterMap, List.map_filterMap,
    rootTablePages_eq_filterMap]
  exact List.filterMap_congr fun c _ => rootTablePageAt_blankUnreadable image c

/-! ## The two residues -/

/-- A readable page and its blanked page have one number. -/
theorem selfBlockOf_blankPage {image : Slice T} {p : ℕ × Slice T} (hp : p ∈ rootTablePages image) :
    selfBlockOf (blankPage image p) = selfBlockOf p := by
  obtain ⟨⟨c, hoff⟩, hpage, -⟩ := mem_rootTablePages_iff.1 hp
  obtain ⟨off, page⟩ := p
  obtain rfl : off = c * clusterSize := hoff
  exact (exists_blanks hpage).leU64 selfBlockOffset (by decide) (by decide)

/-- Pages of equal numbers have the same current version. -/
theorem argmax_map {g : ℕ × Slice T → ℕ × Slice T} {ps : List (ℕ × Slice T)}
    (h : ∀ p ∈ ps, selfBlockOf (g p) = selfBlockOf p) :
    (ps.map g).argmax selfBlockOf = (ps.argmax selfBlockOf).map g := by
  induction ps using List.reverseRecOn with
  | nil => rfl
  | append_singleton ps p ih =>
    have hp : selfBlockOf (g p) = selfBlockOf p := h p (by simp)
    rw [List.map_append, List.map_singleton, argmax_snoc, argmax_snoc,
      ih fun q hq => h q (List.mem_append_left _ hq)]
    cases hk : ps.argmax selfBlockOf with
    | none =>
      rfl
    | some k =>
      have hk : selfBlockOf (g k) = selfBlockOf k :=
        h k (List.mem_append_left _ (List.argmax_mem hk))
      simp only [takeOver, Option.map_some, hk, hp, apply_ite g]

theorem currentPage_blankUnreadable (image : Slice T) :
    currentPage (blankUnreadable image) = (currentReadable image).map (blankPage image) := by
  rw [currentPage, rootTablePages_blankUnreadable, currentReadable]
  exact argmax_map fun p hp => selfBlockOf_blankPage (List.mem_of_mem_filter hp)

/-- A page that does not parse has no names. -/
theorem carveDirectoryEntries_of_not_parses {page : Slice T} (h : nodeParses page = false) :
    carveDirectoryEntries page = [] := by
  unfold nodeParses at h
  cases hparse : MinstorePage.parse page with
  | error e =>
    rw [carveDirectoryEntries, parseDirectory_of_error hparse]
  | ok node =>
    rw [hparse] at h
    cases h

/-- Only readable pages are surfaced. -/
theorem recoverResidue_eq_readable {image : Slice T} {k : ℕ × Slice T}
    (hk : currentPage image = some k) :
    recoverResidue image = (readablePages image).filterMap (stalePage k) := by
  rw [recoverResidue_eq, hk, readablePages, List.filterMap_filter]
  refine List.filterMap_congr fun p _ => ?_
  cases hp : nodeParses p.2 with
  | true =>
    rfl
  | false =>
    have hnil : droppedNames k p = [] := by
      rw [droppedNames, carveDirectoryEntries_of_not_parses hp, List.filter_nil]
    exact if_pos (.inr hnil)

/-- Two searches that mark what they find with its key agree on a list of distinct keys exactly when
they agree on each element. -/
theorem filterMap_eq_filterMap_iff {α β γ : Type*} {f g : α → Option β} (mark : β → γ)
    (key : α → γ) {l : List α} (hf : ∀ a b, f a = some b → mark b = key a)
    (hg : ∀ a b, g a = some b → mark b = key a) (hl : l.Pairwise fun a b => key a ≠ key b) :
    l.filterMap f = l.filterMap g ↔ ∀ a ∈ l, f a = g a := by
  refine ⟨fun heq => ?_, fun h => List.filterMap_congr h⟩
  induction l with
  | nil => simp
  | cons a l ih =>
    obtain ⟨hne, hl⟩ := List.pairwise_cons.1 hl
    -- what one search finds in the tail the other cannot have found at the head
    have hcross : ∀ {f g : α → Option β} {b : β} {bs : List β},
        (∀ a b, f a = some b → mark b = key a) → (∀ a b, g a = some b → mark b = key a) →
        f a = some b → b :: bs ≠ l.filterMap g := by
      intro f g b bs hf hg hfa htail
      obtain ⟨a', ha', hga'⟩ := List.mem_filterMap.1 (htail ▸ List.mem_cons_self)
      exact hne a' ha' ((hf a b hfa).symm.trans (hg a' b hga'))
    have hboth : f a = g a ∧ l.filterMap f = l.filterMap g := by
      cases hfa : f a with
      | none =>
        rw [List.filterMap_cons_none hfa] at heq
        cases hga : g a with
        | none =>
          rw [List.filterMap_cons_none hga] at heq
          exact ⟨rfl, heq⟩
        | some b =>
          rw [List.filterMap_cons_some hga] at heq
          exact absurd heq.symm (hcross hg hf hga)
      | some b =>
        rw [List.filterMap_cons_some hfa] at heq
        cases hga : g a with
        | none =>
          rw [List.filterMap_cons_none hga] at heq
          exact absurd heq (hcross hf hg hfa)
        | some b' =>
          rw [List.filterMap_cons_some hga, List.cons.injEq] at heq
          exact ⟨congrArg some heq.1, heq.2⟩
    exact List.forall_mem_cons.2 ⟨hboth.1, ih hl hboth.2⟩

/-- The blanked image has the same residue of page `p`, where `k` is the current version and `k'`
the current one of the readable pages. -/
structure SameResidue (image : Slice T) (k k' p : ℕ × Slice T) : Prop where
  below : selfBlockOf p < selfBlockOf k' →
    droppedNames k p = droppedNames (blankPage image k') (blankPage image p)
  between : selfBlockOf k' ≤ selfBlockOf p → selfBlockOf p < selfBlockOf k → droppedNames k p = []

theorem stalePage_eq_iff {image : Slice T} {k k' p : ℕ × Slice T}
    (hp : selfBlockOf (blankPage image p) = selfBlockOf p)
    (hk' : selfBlockOf (blankPage image k') = selfBlockOf k')
    (hle : selfBlockOf k' ≤ selfBlockOf k) :
    stalePage (blankPage image k') (blankPage image p) = stalePage k p ↔
      SameResidue image k k' p := by
  unfold stalePage
  rw [hp, hk']
  rcases Nat.lt_or_ge (selfBlockOf p) (selfBlockOf k') with hlt | hge
  · have hlt' := hlt.trans_le hle
    simp only [not_le.2 hlt, not_le.2 hlt', false_or]
    constructor
    · intro heq
      refine ⟨fun _ => ?_, fun hge => absurd hlt (not_lt.2 hge)⟩
      split_ifs at heq with h₁ h₂ h₂
      · rw [h₁, h₂]
      · simpa using congrArg (Option.map StalePage.entries) heq.symm
    · rintro ⟨hbelow, -⟩
      rw [hbelow hlt]
      rfl
  · rw [if_pos (.inl hge)]
    constructor
    · intro heq
      refine ⟨fun hlt => absurd hge (not_le.2 hlt), fun _ hlt => ?_⟩
      by_contra hne
      rw [if_neg (not_or.2 ⟨not_le.2 hlt, hne⟩)] at heq
      cases heq
    · rintro ⟨-, hbetween⟩
      rcases Nat.lt_or_ge (selfBlockOf p) (selfBlockOf k) with hlt | hge'
      · rw [if_pos (.inr (hbetween hge hlt))]
      · rw [if_pos (.inl hge')]

/-- Where there is a readable page there is a current version, and a current one of the readable
pages, numbered no higher. -/
theorem exists_current {image : Slice T} {p : ℕ × Slice T} (hp : p ∈ readablePages image) :
    ∃ k k', currentPage image = some k ∧ currentReadable image = some k' ∧
      selfBlockOf k' ≤ selfBlockOf k := by
  have hroot := List.mem_of_mem_filter hp
  obtain ⟨k, hk⟩ := Option.ne_none_iff_exists'.1
    (mt List.argmax_eq_none.1 (List.ne_nil_of_mem hroot) : currentPage image ≠ none)
  obtain ⟨k', hk'⟩ := Option.ne_none_iff_exists'.1
    (mt List.argmax_eq_none.1 (List.ne_nil_of_mem hp) : currentReadable image ≠ none)
  have hk'Root : k' ∈ rootTablePages image := List.mem_of_mem_filter (List.argmax_mem hk')
  exact ⟨k, k', hk, hk', List.le_of_mem_argmax hk'Root hk⟩

/-- Without a readable page there is no residue, before or after. -/
theorem recoverResidue_of_readablePages_eq_nil {image : Slice T} (h : readablePages image = []) :
    recoverResidue image = [] ∧ recoverResidue (blankUnreadable image) = [] := by
  constructor
  · cases hk : currentPage image with
    | none =>
      rw [recoverResidue_eq, hk]
    | some k =>
      rw [recoverResidue_eq_readable hk, h, List.filterMap_nil]
  · rw [recoverResidue_eq, currentPage_blankUnreadable, currentReadable, h]
    rfl

/-- The residue of the blanked image is that of the blanked readable pages. -/
theorem recoverResidue_blankUnreadable {image : Slice T} {k' : ℕ × Slice T}
    (hk' : currentReadable image = some k') :
    recoverResidue (blankUnreadable image) = (readablePages image).filterMap
      fun p => stalePage (blankPage image k') (blankPage image p) := by
  rw [recoverResidue_eq, currentPage_blankUnreadable, hk', Option.map_some]
  simp only
  rw [rootTablePages_blankUnreadable, List.filterMap_map]
  rfl

theorem stalePage_offset {k p : ℕ × Slice T} {s : StalePage} (h : stalePage k p = some s) :
    s.offset = p.1 := by
  obtain ⟨-, -, rfl⟩ := stalePage_eq_some.1 h
  rfl

theorem recoverResidue_blankUnreadable_iff (image : Slice T) :
    recoverResidue (blankUnreadable image) = recoverResidue image ↔
      ∀ k k', currentPage image = some k → currentReadable image = some k' →
        ∀ p ∈ readablePages image, SameResidue image k k' p := by
  by_cases hnil : readablePages image = []
  · obtain ⟨hplain, hblanked⟩ := recoverResidue_of_readablePages_eq_nil hnil
    refine iff_of_true (hblanked.trans hplain.symm) fun k k' _ _ p hp => ?_
    rw [hnil] at hp
    cases hp
  obtain ⟨p, hp⟩ := List.exists_mem_of_ne_nil _ hnil
  obtain ⟨k, k', hk, hk', hle⟩ := exists_current hp
  have hk'Root : k' ∈ rootTablePages image := List.mem_of_mem_filter (List.argmax_mem hk')
  have hpage : ∀ q ∈ readablePages image,
      stalePage (blankPage image k') (blankPage image q) = stalePage k q ↔
        SameResidue image k k' q := fun q hq =>
    stalePage_eq_iff (selfBlockOf_blankPage (List.mem_of_mem_filter hq))
      (selfBlockOf_blankPage hk'Root) hle
  have hdistinct : (readablePages image).Pairwise fun p q => p.1 ≠ q.1 :=
    ((pairwise_rootTablePages image).filter _).imp fun h => h.ne
  -- each residue has the offset of its page, so the two lists agree page by page
  have hlists : (readablePages image).filterMap
        (fun q => stalePage (blankPage image k') (blankPage image q)) =
      (readablePages image).filterMap (stalePage k) ↔ ∀ q ∈ readablePages image,
        stalePage (blankPage image k') (blankPage image q) = stalePage k q :=
    filterMap_eq_filterMap_iff StalePage.offset Prod.fst
      (fun q s h => show s.offset = (blankPage image q).1 from stalePage_offset h)
      (fun q s h => stalePage_offset h) hdistinct
  rw [recoverResidue_blankUnreadable hk', recoverResidue_eq_readable hk, hlists]
  constructor
  · intro h k₁ k₁' hk₁ hk₁' q hq
    obtain rfl := Option.some.inj (hk.symm.trans hk₁)
    obtain rfl := Option.some.inj (hk'.symm.trans hk₁')
    exact (hpage q hq).1 (h q hq)
  · intro h q hq
    exact (hpage q hq).2 (h k k' hk hk' q hq)

/-! ## Pages apart -/

/-- No signature of an unreadable root-table page lies in a readable one. -/
def Apart (image : Slice T) : Prop :=
  ∀ p ∈ readablePages image, ∀ c, unreadableAt image c = true →
    c * clusterSize + 4 ≤ p.1 ∨ p.1 + refsMetadataPageSize ≤ c * clusterSize

theorem Apart.blankPage_eq {image : Slice T} (h : Apart image) {p : ℕ × Slice T}
    (hp : p ∈ readablePages image) : blankPage image p = p := by
  have hroot := mem_rootTablePages_iff.1 (List.mem_of_mem_filter hp)
  have hfar := h p hp
  obtain ⟨off, page⟩ := p
  obtain ⟨c, rfl⟩ : ∃ c, off = c * clusterSize := hroot.aligned
  have hblanks := exists_blanks hroot.inBounds
  refine Prod.ext rfl (Slice.ext_get? (hblanks.len.2.trans hblanks.len.1.symm) fun i hi => ?_)
  rw [hblanks.len.2] at hi
  rw [Slice.get?_of_getRange hblanks.blanked (by omega),
    Slice.get?_of_getRange hblanks.page (by omega)]
  apply get?_blankUnreadable
  by_contra hnot
  rw [not_or, not_le, Bool.not_eq_false] at hnot
  have hout := hfar _ hnot.2
  unfold clusterSize refsMetadataPageSize at *
  omega

/-- A page with a property that is the current version is the current one of the pages with it. -/
theorem argmax_filter {P : ℕ × Slice T → Bool} {ps : List (ℕ × Slice T)} {k : ℕ × Slice T}
    (hk : ps.argmax selfBlockOf = some k) (hP : P k = true) :
    (ps.filter P).argmax selfBlockOf = some k := by
  induction ps using List.reverseRecOn generalizing k with
  | nil => cases hk
  | append_singleton ps p ih =>
    rw [argmax_snoc] at hk
    obtain rfl := Option.some.inj hk
    rw [List.filter_append]
    cases hmax : ps.argmax selfBlockOf with
    | none =>
      obtain rfl := List.argmax_eq_none.1 hmax
      have hp : P p = true := hP
      rw [List.filter_cons_of_pos hp]
      rfl
    | some m =>
      rw [hmax] at hP
      unfold takeOver at hP ⊢
      simp only at hP ⊢
      split_ifs at hP ⊢ with hlt
      · -- `p` takes over, in front of whatever is left of the others
        rw [List.filter_cons_of_pos hP, List.filter_nil, argmax_snoc]
        cases hm : (ps.filter P).argmax selfBlockOf with
        | none =>
          rfl
        | some m' =>
          have hle : selfBlockOf m' ≤ selfBlockOf m :=
            List.le_of_mem_argmax (List.mem_of_mem_filter (List.argmax_mem hm)) hmax
          rw [takeOver, if_pos (by omega)]
      · have hm := ih hmax hP
        cases hp : P p with
        | false =>
          rw [List.filter_cons_of_neg (by simp [hp]), List.filter_nil, List.append_nil, hm]
        | true =>
          rw [List.filter_cons_of_pos hp, List.filter_nil, argmax_snoc, hm, takeOver, if_neg hlt]

/-- The blanked image has the same residue of page `p`, where `k` is an unreadable current version
and `k'` the current one of the readable pages: the names of `p` are gone from `k'`, or `p` has
none. -/
structure SparesReadable (k k' p : ℕ × Slice T) : Prop where
  below : selfBlockOf p < selfBlockOf k' →
    ∀ name ∈ carveDirectoryEntries p.2, name ∉ carveDirectoryEntries k'.2
  between : selfBlockOf k' ≤ selfBlockOf p → selfBlockOf p < selfBlockOf k →
    carveDirectoryEntries p.2 = []

theorem sameResidue_iff {image : Slice T} {k k' p : ℕ × Slice T}
    (hk : nodeParses k.2 = false) (hk' : blankPage image k' = k') (hp : blankPage image p = p) :
    SameResidue image k k' p ↔ SparesReadable k k' p := by
  have hall : droppedNames k p = carveDirectoryEntries p.2 := by
    rw [droppedNames, carveDirectoryEntries_of_not_parses hk, List.filter_eq_self]
    simp
  have hbelow : carveDirectoryEntries p.2 = droppedNames k' p ↔
      ∀ name ∈ carveDirectoryEntries p.2, name ∉ carveDirectoryEntries k'.2 := by
    rw [eq_comm, droppedNames, List.filter_eq_self]
    simp only [decide_eq_true_eq]
  constructor
  · rintro ⟨h₁, h₂⟩
    rw [hk', hp, hall, hbelow] at h₁
    rw [hall] at h₂
    exact ⟨h₁, h₂⟩
  · rintro ⟨h₁, h₂⟩
    refine ⟨?_, ?_⟩
    · rw [hk', hp, hall, hbelow]
      exact h₁
    · rw [hall]
      exact h₂

theorem Apart.sameResidue_iff {image : Slice T} (h : Apart image) {k k' p : ℕ × Slice T}
    (hk : currentPage image = some k) (hk' : currentReadable image = some k')
    (hp : p ∈ readablePages image) :
    SameResidue image k k' p ↔ (nodeParses k.2 = false → SparesReadable k k' p) := by
  have hk'Page := h.blankPage_eq (List.argmax_mem hk')
  have hpPage := h.blankPage_eq hp
  cases hparses : nodeParses k.2 with
  | false =>
    rw [Forensic.sameResidue_iff hparses hk'Page hpPage]
    exact ⟨fun hs _ => hs, fun hs => hs rfl⟩
  | true =>
    -- a readable current version is the current one of the readable pages
    have hkk' : currentReadable image = some k := argmax_filter hk hparses
    obtain rfl := Option.some.inj (hk'.symm.trans hkk')
    refine iff_of_true ⟨fun _ => ?_, fun hge hlt => absurd hge (not_le.2 hlt)⟩ (by simp)
    rw [hk'Page, hpPage]

/-- **When unreadable pages have no influence**: blanking them keeps the residue exactly when it
keeps that of every readable page. Where their signatures lie in no readable page, it does exactly
when the current version is readable, or no readable page below the current readable one shares a
name with it and every other readable page below the unreadable one has no names. -/
theorem unreadable_without_influence_iff (image : Slice T) :
    (recoverResidue (blankUnreadable image) = recoverResidue image ↔
      ∀ k k', currentPage image = some k → currentReadable image = some k' →
        ∀ p ∈ readablePages image, SameResidue image k k' p) ∧
    (Apart image →
      (recoverResidue (blankUnreadable image) = recoverResidue image ↔
        ∀ k k', currentPage image = some k → currentReadable image = some k' →
          nodeParses k.2 = false → ∀ p ∈ readablePages image, SparesReadable k k' p)) := by
  refine ⟨recoverResidue_blankUnreadable_iff image, fun h => ?_⟩
  rw [recoverResidue_blankUnreadable_iff]
  constructor
  · intro hsame k k' hk hk' hparses p hp
    exact (h.sameResidue_iff hk hk' hp).1 (hsame k k' hk hk' p hp) hparses
  · intro hspares k k' hk hk' p hp
    exact (h.sameResidue_iff hk hk' hp).2 fun hparses => hspares k k' hk hk' hparses p hp

/-! ### A planted page -/

/-- Page 1 of table `0x600` with the entry `a` at cluster `0`, and at cluster `4` a page of that
table with a huge number and a node header behind its end. -/
def plantedPageByte (i : ℕ) : UInt8 :=
  match i / 4096, i % 4096 with
  | 0, 0x130 => 0x30
  | 0, 0x134 => 0x61
  | 0, j => tableByte 1 0x600 0 1 6 j
  | 4, 0x00 => 0x4d
  | 4, 0x01 => 0x53
  | 4, 0x02 => 0x42
  | 4, 0x03 => 0x2b
  | 4, 0x27 => 0x7f
  | 4, 0x49 => 0x06
  | 4, 0x53 => 0xff
  | _, _ => 0

def plantedPage : Slice .w64 where
  len := 2 * 16384
  len_le := by decide
  byte i := plantedPageByte i

/-- The page that does not parse is the current version, and the live page is its residue. -/
theorem plantedPage_influence :
    (rootTablePages plantedPage).map (fun p => (p.1, selfBlockOf p, nodeParses p.2)) =
      [(0, 1, true), (16384, 0x7f00000000000000, false)] ∧
    recoverResidue plantedPage = [⟨1, 0x600, 0, ["a"]⟩] ∧
    recoverResidue (blankUnreadable plantedPage) = [] ∧
    recoverResidue (blankUnreadable plantedPage) ≠ recoverResidue plantedPage := by
  have hresidue : recoverResidue plantedPage = [⟨1, 0x600, 0, ["a"]⟩] := by decide +kernel
  have hblanked : recoverResidue (blankUnreadable plantedPage) = [] := by decide +kernel
  refine ⟨by decide +kernel, hresidue, hblanked, ?_⟩
  rw [hresidue, hblanked]
  exact (List.cons_ne_nil _ _).symm

end RefsForensic.Forensic
