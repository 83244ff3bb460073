import RefsForensic.Core.Listing

/-!
# When an unresolved block is truly absent

A walk reports `UnresolvedVirtualBlock` when the page of a block is neither where the first witness
of its container puts it nor at its direct cluster. The report is true of the image exactly when
every block the walk asks for whose page is in the image is at one of these places
(`unresolved_truthful_iff`). A container's base is fixed by the first page that witnesses it, so an
earlier page can hide a later one: `plantedBase` is such an image.
-/

namespace RefsForensic

open Rust

variable {T : Target}

/-- The image holds the page of `block` on some cluster boundary. -/
def Present (image : Slice T) (block : ℕ) : Prop :=
  ∃ c page, AnsweringPage image block (c * refsClusterSize) page

/-- The page of `block`, if the image holds it, is where a walk looks for it. -/
def PlacedIfPresent (image : Slice T) (block : ℕ) : Prop := Present image block → Placed image block

/-- Every block the search of the block graph from `root` asks for, up to the first it cannot read,
is where the walk looks for it. -/
def AskedArePlaced (image : Slice T) (root : ℕ) : Prop :=
  ∀ b ∈ (Search.dfs (blockGraph image) maxVisitedPages maxDescentDepth root []).1,
    PlacedIfPresent image b

theorem mem_of_walkDirectory_error {image : Slice T} {root b : ℕ}
    (h : walkDirectory image root = .error (.unresolvedVirtualBlock b)) :
    b ∈ (walkSearch image root).1 ∧ resolveBlockOffset image (walkResolver image) b = none := by
  obtain ⟨vis, hvis, hstop, hnone⟩ := stoppedAt_of_unresolved h
  obtain ⟨pre, rfl, -⟩ := hstop.last
  exact ⟨by rw [hvis]; simp, hnone⟩

/-- A block the walk asks for that does not resolve is the one it reports. -/
theorem walkDirectory_error_of_mem {image : Slice T} {root b : ℕ}
    (hb : b ∈ (walkSearch image root).1)
    (hnone : resolveBlockOffset image (walkResolver image) b = none) :
    walkDirectory image root = .error (.unresolvedVirtualBlock b) := by
  have hnode : nodeAt image b = .error (.unresolvedVirtualBlock b) := by
    rw [nodeAt, nodeUnder, readPage_eq_error.2 ⟨hnone, rfl⟩]
    rfl
  have hunread : ¬Search.Readable (blockGraph image) b := by
    rintro ⟨cs, hcs⟩
    rw [blockGraph_eq_error.2 hnode] at hcs
    cases hcs
  rcases hs : walkSearch image root with ⟨vis, e | u⟩
  · rw [hs] at hb
    obtain ⟨b', hstop⟩ := walkSearch_error hs
    obtain ⟨pre, rfl, hpre⟩ := hstop.last
    -- everything before the last block was read, so `b` is the last
    have hlast : b = b' := by
      rcases List.mem_append.1 hb with hb | hb
      · exact absurd (hpre.readable b hb) hunread
      · exact List.mem_singleton.1 hb
    have he : e = .unresolvedVirtualBlock b := by
      have hfails := hstop.fails
      rw [← hlast, blockGraph_eq_error.2 hnode] at hfails
      exact (Except.error.inj hfails).symm
    exact walkDirectory_eq_error.2 ⟨_, he ▸ hs⟩
  · rw [hs] at hb
    exact absurd ((walkSearch_ok hs).readable b hb) hunread

theorem truthful_iff_asked (image : Slice T) (root : ℕ) :
    (∀ b, walkDirectory image root = .error (.unresolvedVirtualBlock b) → ¬Present image b) ↔
      AskedArePlaced image root := by
  constructor
  · intro h b hb hpresent
    cases hr : resolveBlockOffset image (walkResolver image) b with
    | none =>
      exact absurd hpresent (h b (walkDirectory_error_of_mem hb hr))
    | some off =>
      exact resolves_iff_placed.1 ⟨off, hr⟩
  · intro h b hb hpresent
    obtain ⟨hmem, hnone⟩ := mem_of_walkDirectory_error hb
    obtain ⟨off, hoff⟩ := resolves_iff_placed.2 (h b hmem hpresent)
    cases hnone.symm.trans hoff

theorem rootBlockOf_ne_unresolved {image : Slice T} {id b : ℕ} :
    rootBlockOf image id ≠ .error (.unresolvedVirtualBlock b) := by
  intro h
  unfold rootBlockOf at h
  cases hot : objectTable image with
  | error e =>
    rw [hot] at h
    obtain rfl : e = _ := Except.error.inj h
    unfold objectTable at hot
    split at hot
    · cases hot
    · split at hot
      · cases hot
      · rename_i page _
        have hp := map_eq_error.1 hot
        unfold MinstorePage.parse at hp
        simp only at hp
        split_ifs at hp <;> cases hp
  | ok ot =>
    rw [hot] at h
    simp only at h
    split at h <;> cases h

theorem listDir_unresolved {image : Slice T} {id b : ℕ} :
    listDir image id = .error (.unresolvedVirtualBlock b) ↔
      ∃ root, rootBlockOf image id = .ok root ∧
        walkDirectory image root = .error (.unresolvedVirtualBlock b) := by
  unfold listDir
  cases h : rootBlockOf image id with
  | error e =>
    refine iff_of_false (fun he => ?_) (by simp)
    obtain rfl : e = _ := Except.error.inj he
    exact rootBlockOf_ne_unresolved h
  | ok root =>
    simp

/-- **When an `UnresolvedVirtualBlock` is truthful**: for one root block, for one directory, and for
all root blocks of an image at once. -/
theorem unresolved_truthful_iff (image : Slice T) :
    (∀ root,
      (∀ b, walkDirectory image root = .error (.unresolvedVirtualBlock b) → ¬Present image b) ↔
        AskedArePlaced image root) ∧
    (∀ id,
      (∀ b, listDir image id = .error (.unresolvedVirtualBlock b) → ¬Present image b) ↔
        ∀ root, rootBlockOf image id = .ok root → AskedArePlaced image root) ∧
    ((∀ root b, walkDirectory image root = .error (.unresolvedVirtualBlock b) →
        ¬Present image b) ↔
      ∀ b, PlacedIfPresent image b) := by
  refine ⟨truthful_iff_asked image, fun id => ⟨fun h root hroot => ?_, fun h b hb => ?_⟩,
    fun h b => ?_, fun h root => ?_⟩
  · refine (truthful_iff_asked image root).1 fun b hb => ?_
    exact h b (listDir_unresolved.2 ⟨root, hroot, hb⟩)
  · obtain ⟨root, hroot, hwalk⟩ := listDir_unresolved.1 hb
    exact (truthful_iff_asked image root).2 (h root hroot) b hwalk
  · -- a walk rooted at the block asks for it first
    have hroot := Search.root_mem_dfs (blockGraph image) (show 0 < maxVisitedPages by decide) 63 b
    exact (truthful_iff_asked image b).1 (h b) b hroot
  · exact (truthful_iff_asked image root).2 fun b _ => h b

/-! ### A planted base -/

/-- Two page headers: cluster 1 claims block `81920` and cluster 6 holds block `81922`, both of
container 5. The first witness puts the container at cluster 1, the second page puts it at 4. -/
def plantedBaseByte (i : ℕ) : UInt8 :=
  if i / 4096 = 1 ∨ i / 4096 = 6 then
    match i % 4096 with
    | 0x00 => 0x4d
    | 0x01 => 0x53
    | 0x02 => 0x42
    | 0x03 => 0x2b
    | 0x20 => if i / 4096 = 6 then 2 else 0
    | 0x21 => 0x40
    | 0x22 => 0x01
    | _ => 0
  else 0

def plantedBase : Slice .w64 where
  len := 10 * 4096
  len_le := by decide
  byte i := plantedBaseByte i

/-- Block `81922` is reported unresolved although cluster 6 holds its page. -/
theorem plantedBase_untruthful :
    walkDirectory plantedBase 81922 = .error (.unresolvedVirtualBlock 81922) ∧
      ¬∀ b, walkDirectory plantedBase 81922 = .error (.unresolvedVirtualBlock b) →
        ¬Present plantedBase b := by
  have hwalk : walkDirectory plantedBase 81922 = .error (.unresolvedVirtualBlock 81922) := by
    decide +kernel
  exact ⟨hwalk, fun h => h 81922 hwalk ⟨6, pageAnswersBlock_iff.1 (by decide +kernel)⟩⟩

end RefsForensic
