import Mathlib.Data.List.Chain
import Mathlib.Data.List.Perm.Subperm
import Mathlib.Logic.Relation

/-!
# Graphs read on demand

A graph whose nodes are read when they are met: `expand a` is the list of children of `a`, in
order, or the reason why `a` cannot be read. Reachability follows the children of readable nodes;
`FirstVisits` is the uncapped left-to-right depth-first first-visit order as a relation, and
determines it (`FirstVisits.unique`).
-/

namespace RefsForensic.Search

variable {α ε : Type*}

section Reach

variable (expand : α → Except ε (List α))

/-- `b` is a child of the readable node `a`. -/
def Child (a b : α) : Prop := ∃ cs, expand a = .ok cs ∧ b ∈ cs

/-- `b` can be reached from `a` through readable nodes. -/
def Reachable : α → α → Prop := Relation.ReflTransGen (Child expand)

/-- `a` can be read. -/
def Readable (a : α) : Prop := ∃ cs, expand a = .ok cs

/-- `p` lists the nodes of a path from `a` to `b`, both included. -/
structure IsPath (a b : α) (p : List α) : Prop where
  chain : p.IsChain (Child expand)
  head : p.head? = some a
  last : p.getLast? = some b

/-- The nodes reachable from `root` form a tree: each is on one path. -/
def UniquePaths (root : α) : Prop :=
  ∀ b p q, IsPath expand root b p → IsPath expand root b q → p = q

end Reach

variable {expand : α → Except ε (List α)}

theorem nodup_snoc {l : List α} {a : α} (hl : l.Nodup) (ha : a ∉ l) : (l ++ [a]).Nodup :=
  List.nodup_append.2 ⟨hl, by simp, by simpa using fun b hb => ne_of_mem_of_not_mem hb ha⟩

theorem IsPath.single (a : α) : IsPath expand a a [a] := ⟨.singleton a, rfl, rfl⟩

theorem IsPath.snoc {a b c : α} {p : List α} (hp : IsPath expand a b p) (h : Child expand b c) :
    IsPath expand a c (p ++ [c]) where
  chain := by
    refine List.isChain_append.2 ⟨hp.chain, .singleton c, fun x hx y hy => ?_⟩
    rw [hp.last, Option.mem_some_iff] at hx
    simp only [List.head?_cons, Option.mem_some_iff] at hy
    rwa [← hx, ← hy]
  head := by rw [List.head?_append, hp.head, Option.some_or]
  last := List.getLast?_concat ..

/-- A path of at least two nodes without its last. -/
theorem IsPath.init {a b c d : α} {q : List α} (hp : IsPath expand a b (q ++ [c] ++ [d])) :
    IsPath expand a c (q ++ [c]) ∧ Child expand c d := by
  obtain ⟨hc, -, hd⟩ := List.isChain_append.1 hp.chain
  exact ⟨⟨hc, by simpa [List.head?_append] using hp.head, by simp⟩,
    hd c (by simp) d (by simp)⟩

/-- The last node of a path is its first, or a child of the node before it. -/
theorem IsPath.eq_or_snoc {a b : α} {p : List α} (hp : IsPath expand a b p) :
    b = a ∨ ∃ c q, IsPath expand a c q ∧ p = q ++ [b] ∧ Child expand c b := by
  rcases p.eq_nil_or_concat' with rfl | ⟨q, d, rfl⟩
  · cases hp.head
  obtain rfl : d = b := by simpa using hp.last
  rcases q.eq_nil_or_concat' with rfl | ⟨q, c, rfl⟩
  · exact .inl (by simpa using hp.head)
  · exact .inr ⟨c, q ++ [c], hp.init.1, rfl, hp.init.2⟩

theorem IsPath.reachable {a b : α} {p : List α} (hp : IsPath expand a b p) :
    Reachable expand a b := by
  induction p using List.reverseRecOn generalizing b with
  | nil => cases hp.head
  | append_singleton p d ih =>
    rcases hp.eq_or_snoc with rfl | ⟨c, q, hq, he, hcb⟩
    · exact .refl
    · obtain ⟨rfl, -⟩ := List.append_inj' he rfl
      exact (ih hq).tail hcb

/-- A set of nodes closed under children contains everything reachable from its members. -/
theorem Reachable.mem_of_closed {S : List α} (hS : ∀ a ∈ S, ∀ b, Child expand a b → b ∈ S)
    {a b : α} (h : Reachable expand a b) (ha : a ∈ S) : b ∈ S := by
  induction h with
  | refl => exact ha
  | tail _ hbc ih => exact hS _ ih _ hbc

/-- Every node of a path is reachable from its first. -/
theorem IsPath.mem_reachable {a b : α} {p : List α} (hp : IsPath expand a b p) :
    ∀ c ∈ p, Reachable expand a c := by
  induction p using List.reverseRecOn generalizing b with
  | nil => simp
  | append_singleton p d ih =>
    intro c hc
    obtain rfl : d = b := by simpa using hp.last
    rcases List.mem_append.1 hc with hc | hc
    · rcases p.eq_nil_or_concat' with rfl | ⟨q, c', rfl⟩
      · simp at hc
      · exact ih hp.init.1 c hc
    · exact List.mem_singleton.1 hc ▸ hp.reachable

/-- Distinct reachable nodes are at most as many as any closed set that contains the root. -/
theorem length_le_of_closed {S l : List α} {root : α} (hroot : root ∈ S)
    (hS : ∀ a ∈ S, ∀ b, Child expand a b → b ∈ S) (hl : l.Nodup)
    (hr : ∀ b ∈ l, Reachable expand root b) : l.length ≤ S.length :=
  (List.subperm_of_subset hl fun b hb => (hr b hb).mem_of_closed hS hroot).length_le

/-! ## First-visit order -/

/-- `FirstVisits expand as vis vis'`: working through the agenda `as` depth first and left to
right, with `vis` already visited, leaves `vis'` visited. A node is entered only when it is met
for the first time. -/
inductive FirstVisits (expand : α → Except ε (List α)) : List α → List α → List α → Prop
  | done (vis : List α) : FirstVisits expand [] vis vis
  | seen {a : α} {as vis vis' : List α} (ha : a ∈ vis) (h : FirstVisits expand as vis vis') :
      FirstVisits expand (a :: as) vis vis'
  | enter {a : α} {as cs vis mid vis' : List α} (ha : a ∉ vis) (hcs : expand a = .ok cs)
      (hc : FirstVisits expand cs (vis ++ [a]) mid) (h : FirstVisits expand as mid vis') :
      FirstVisits expand (a :: as) vis vis'

namespace FirstVisits

variable {as bs vis mid vis' vis'' : List α}

theorem append (h₁ : FirstVisits expand as vis mid) (h₂ : FirstVisits expand bs mid vis') :
    FirstVisits expand (as ++ bs) vis vis' := by
  induction h₁ with
  | done vis => exact h₂
  | seen ha _ ih => exact .seen ha (ih h₂)
  | enter ha hcs hc _ _ ih => exact .enter ha hcs hc (ih h₂)

theorem isPrefix (h : FirstVisits expand as vis vis') : vis <+: vis' := by
  induction h with
  | done vis => exact List.prefix_rfl
  | seen _ _ ih => exact ih
  | enter _ _ _ _ ih₁ ih₂ => exact ((List.prefix_append _ _).trans ih₁).trans ih₂

theorem nodup (h : FirstVisits expand as vis vis') (hv : vis.Nodup) : vis'.Nodup := by
  induction h with
  | done vis => exact hv
  | seen _ _ ih => exact ih hv
  | enter ha _ _ _ ih₁ ih₂ =>
    exact ih₂ (ih₁ (nodup_snoc hv ha))

/-- Only what the agenda reaches is added. -/
theorem mem_or_reachable (h : FirstVisits expand as vis vis') :
    ∀ b ∈ vis', b ∈ vis ∨ ∃ a ∈ as, Reachable expand a b := by
  induction h with
  | done vis => exact fun b hb => .inl hb
  | seen _ _ ih =>
    intro b hb
    exact (ih b hb).imp_right fun ⟨a, ha, hr⟩ => ⟨a, .tail _ ha, hr⟩
  | @enter a as cs vis mid vis' _ hcs _ _ ih₁ ih₂ =>
    intro b hb
    rcases ih₂ b hb with hm | ⟨a', ha', hr⟩
    · rcases ih₁ b hm with hm | ⟨c, hc, hr⟩
      · rcases List.mem_append.1 hm with hm | hm
        · exact .inl hm
        · obtain rfl := List.mem_singleton.1 hm
          exact .inr ⟨b, .head _, .refl⟩
      · exact .inr ⟨a, .head _, .head ⟨cs, hcs, hc⟩ hr⟩
    · exact .inr ⟨a', .tail _ ha', hr⟩

theorem agenda_subset (h : FirstVisits expand as vis vis') : as ⊆ vis' := by
  induction h with
  | done vis => exact List.nil_subset _
  | seen ha h ih => exact List.cons_subset.2 ⟨h.isPrefix.subset ha, ih⟩
  | enter _ _ hc h _ ih =>
    exact List.cons_subset.2 ⟨h.isPrefix.subset (hc.isPrefix.subset (by simp)), ih⟩

/-- The children of every node added are visited as well. -/
theorem closed (h : FirstVisits expand as vis vis') :
    ∀ a ∈ vis', a ∉ vis → ∀ b, Child expand a b → b ∈ vis' := by
  induction h with
  | done vis => exact fun a ha hna => absurd ha hna
  | seen _ _ ih => exact ih
  | @enter a as cs vis mid vis' _ hcs hc h ih₁ ih₂ =>
    intro b hb hnb d hd
    by_cases hm : b ∈ mid
    · by_cases hba : b = a
      · obtain ⟨cs', hcs', hmem⟩ := hd
        rw [hba, hcs] at hcs'
        exact h.isPrefix.subset (hc.agenda_subset (Except.ok.inj hcs' ▸ hmem))
      · exact h.isPrefix.subset (ih₁ b hm (by simp [hnb, hba]) d hd)
    · exact ih₂ b hb hm d hd

/-- From an empty start the nodes visited are exactly the reachable ones. -/
theorem mem_iff_reachable {root : α} (h : FirstVisits expand [root] [] vis') (b : α) :
    b ∈ vis' ↔ Reachable expand root b := by
  constructor
  · intro hb
    rcases h.mem_or_reachable b hb with hb | ⟨a, ha, hr⟩
    · simp at hb
    · rwa [List.mem_singleton.1 ha] at hr
  · intro hr
    exact hr.mem_of_closed (fun a ha => h.closed a ha (by simp)) (h.agenda_subset (by simp))

/-- The first-visit order is determined by the graph. -/
theorem unique (h : FirstVisits expand as vis vis') (h' : FirstVisits expand as vis vis'') :
    vis' = vis'' := by
  induction h generalizing vis'' with
  | done vis => cases h'; rfl
  | seen ha _ ih =>
    cases h' with
    | seen _ h' => exact ih h'
    | enter ha' => exact absurd ha ha'
  | enter ha hcs _ _ ih₁ ih₂ =>
    cases h' with
    | seen ha' => exact absurd ha' ha
    | enter _ hcs' hc' h' =>
      obtain rfl := Except.ok.inj (hcs.symm.trans hcs')
      obtain rfl := ih₁ hc'
      exact ih₂ h'

end FirstVisits

end RefsForensic.Search
