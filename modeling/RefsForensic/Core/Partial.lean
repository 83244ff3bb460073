import RefsForensic.Core.TreeWrites
import RefsForensic.Core.Unresolved

/-!
# Partial images

An acquired image is often a part of the volume: cut off, or with areas missing. On a banded volume
a walk of a part either returns what the walk of the whole returns or fails with a block whose page
the part has lost (`partial_image_sound`): it never lists less, more or something else.
-/

namespace RefsForensic

open Rust

variable {T : Target}

/-- Every page of `part` is one of `whole`. -/
def Store.Sub (part whole : Store T) : Prop := ∀ c p, part c = some p → whole c = some p

theorem Store.Banded.sub {k : ℕ} {place : ℕ → ℕ} {part whole : Store T}
    (h : whole.Banded k place) (hsub : part.Sub whole) : part.Banded k place :=
  fun c p hp => h c p (hsub c p hp)

/-- The pages of a cut image are pages of the image. -/
theorem residentPage_take_sub (image : Slice T) (n : ℕ) :
    (residentPage (image.take n)).Sub (residentPage image) := by
  intro c p hp
  have hle := le_len_of_residentPage hp
  rw [Slice.take_len] at hle
  rw [residentPage_eq_some] at hp ⊢
  rwa [Slice.getRange_take image (by omega)] at hp

variable {part whole : Slice T} {place : ℕ → ℕ}

/-- A block that resolves in the part resolves to the same page in the whole. -/
theorem ResolvesTo.of_sub (hbanded : (residentPage whole).Banded defaultBandClusters place)
    (hsub : (residentPage part).Sub (residentPage whole)) {b : ℕ} {page : Slice T}
    (h : ResolvesTo part b page) : ResolvesTo whole b page := by
  obtain ⟨p, hp, hnumber, hdata⟩ := (hbanded.sub hsub).resolvesTo_iff.1 h
  exact hbanded.resolvesTo_iff.2 ⟨p, hsub _ p hp, hnumber, hdata⟩

/-- The part has lost the page of block `b`. -/
def LosesBlock (part whole : Slice T) (b : ℕ) : Prop :=
  ∃ c p, residentPage whole c = some p ∧ p.number = b ∧ residentPage part c = none

theorem losesBlock_of_unresolved (hbanded : (residentPage whole).Banded defaultBandClusters place)
    (hsub : (residentPage part).Sub (residentPage whole)) {b : ℕ} {page : Slice T}
    (hpart : ∀ page, ¬ResolvesTo part b page) (hwhole : ResolvesTo whole b page) :
    LosesBlock part whole b := by
  obtain ⟨p, hp, hnumber, -⟩ := hbanded.resolvesTo_iff.1 hwhole
  refine ⟨_, p, hp, hnumber, Option.eq_none_iff_forall_ne_some.2 fun q hq => ?_⟩
  obtain rfl := Option.some.inj ((hsub _ q hq).symm.trans hp)
  exact hpart q.data ((hbanded.sub hsub).resolvesTo_iff.2 ⟨q, hq, hnumber, rfl⟩)

theorem resolveBlockOffset_eq_none {image : Slice T} {b : ℕ}
    (h : ∀ page, ¬ResolvesTo image b page) :
    resolveBlockOffset image (walkResolver image) b = none := by
  rw [Option.eq_none_iff_forall_ne_some]
  intro off hoff
  obtain ⟨page, hpage⟩ := pageAnswersBlock_iff.1 (answers_of_resolve hoff)
  exact h page ⟨off, hoff, hpage⟩

/-- **A partial image fails loud**: the walk of a part of a banded volume returns what the walk of
the whole returns, or reports a block whose page the part has lost. -/
theorem partial_image_sound (hbanded : (residentPage whole).Banded defaultBandClusters place)
    (hsub : (residentPage part).Sub (residentPage whole)) (root : ℕ) :
    walkDirectory part root = walkDirectory whole root ∨
      ∃ b, walkDirectory part root = .error (.unresolvedVirtualBlock b) ∧
        LosesBlock part whole b := by
  by_cases hlost : ∃ b ∈ (walkSearch part root).1, (∀ page, ¬ResolvesTo part b page) ∧
      ∃ page, ResolvesTo whole b page
  · obtain ⟨b, hb, hpart, page, hwhole⟩ := hlost
    exact .inr ⟨b, walkDirectory_error_of_mem hb (resolveBlockOffset_eq_none hpart),
      losesBlock_of_unresolved hbanded hsub hpart hwhole⟩
  · refine .inl (walkDirectory_local fun b hb page => ?_).symm
    rw [walk_eq] at hb
    constructor
    · intro hwhole
      by_contra hpart
      refine hlost ⟨b, hb, fun page' hpage' => hpart ?_, page, hwhole⟩
      obtain rfl := hwhole.page_eq (hpage'.of_sub hbanded hsub)
      exact hpage'
    · exact fun hpart => hpart.of_sub hbanded hsub

/-- The pages of the first leaf and the root are a part of the pages of the tree. -/
theorem firstLeaf_sub {part whole : Slice .w64}
    (hpart : Run blankVolume (ownWrites [oldLeaf, newRoot]) part)
    (hwhole : Run blankVolume (ownWrites newTreePages) whole) :
    (residentPage part).Sub (residentPage whole) := by
  intro c p hp
  obtain ⟨hmem, hc⟩ := hpart.of_blankVolume hp
  rw [hwhole.store]
  refine putAll_newTreePages ?_ hc.symm
  rcases List.mem_pair.1 hmem with rfl | rfl
  · simp [newTreePages]
  · simp [newTreePages]

/-- The part with the root and the first leaf of a tree of two leaves lists the first leaf as the
whole does, and from the root it reports the second leaf, which it has lost. -/
theorem secondLeaf_lost : ∃ whole part, Run blankVolume (ownWrites newTreePages) whole ∧
    Run blankVolume (ownWrites [oldLeaf, newRoot]) part ∧
      walkDirectory part 8 = walkDirectory whole 8 ∧
      walkDirectory part 16 = .error (.unresolvedVirtualBlock 12) ∧ LosesBlock part whole 12 := by
  obtain ⟨whole, hwhole⟩ := exists_run_newTreePages
  obtain ⟨part, hpart⟩ := exists_run_firstLeaf
  have hbanded := hwhole.banded (keepsBands_own _) (blankVolume_banded _ _)
  have hbanded' := hpart.banded (keepsBands_own _) (blankVolume_banded _ _)
  have hsub := firstLeaf_sub hpart hwhole
  have hleaf : residentPage part 8 = some oldLeaf := by
    rw [hpart.store]
    exact putAll_firstLeaf (by simp) oldLeaf_number
  have htree := firstLeaf_written
  rw [← hpart.store] at htree
  -- what the two walks of the part and the walk of the whole return
  have hfirst := walkDirectory_stored
    (DirTree.Written.stored hbanded' oldTree (leafPage_written hleaf))
    ⟨by decide, by decide, by decide⟩
  rw [oldTree_block] at hfirst
  have hroot := walkDirectory_stored (DirTree.Written.stored hbanded' _ htree)
    ⟨by decide, by decide, by decide⟩
  rw [treeOver_block] at hroot
  have hall := walkDirectory_stored (newTree_stored hwhole) ⟨by decide, by decide, by decide⟩
  rw [newTree, treeOver_block] at hall
  refine ⟨whole, part, hwhole, hpart, ?_, hroot, ?_⟩
  · rcases partial_image_sound hbanded hsub 8 with heq | ⟨b, herror, -⟩
    · exact heq
    · cases hfirst.symm.trans herror
  · rcases partial_image_sound hbanded hsub 16 with heq | ⟨b, herror, hloses⟩
    · cases hroot.symm.trans (heq.trans hall)
    · cases hroot.symm.trans herror
      exact hloses

end RefsForensic
