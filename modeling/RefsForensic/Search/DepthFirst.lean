import RefsForensic.Search.Graph

/-!
# Depth-first search with budgets

A depth-first search over a graph read on demand, cut off at a number of levels and at a number of
visited nodes, and stopped by the first node that cannot be read. Both cut-offs are silent: a node
beyond them is passed over.

* `dfs_ends` is the invariant rule: what every entered node preserves holds of the result, and the
  error case ends in what the failing node establishes.
* `dfs_firstVisits` is completeness within the budgets: when at most `cap` nodes are reachable and
  no duplicate-free path from the root has more than `levels` nodes, a search that does not stop
  early is the uncapped first-visit order.
* `covers_iff_closed`: a search that ends well covers the reachable nodes exactly when the nodes
  it entered are closed under children.
* `dfs_congr` is locality: a search reads its graph at the nodes it visits only.
* `dfs_eq_of_length_le`: room that a search does not need has no part in it.
* `dfs_traversal`: on a tree within the budgets a search visits the nodes in preorder.
-/

namespace RefsForensic.Search

variable {α ε : Type*}

/-- Visit the nodes of an agenda in order, stopping at the first error. -/
def visitAll (visit : α → List α → List α × Except ε Unit) :
    List α → List α → List α × Except ε Unit
  | [], vis => (vis, .ok ())
  | c :: cs, vis =>
    match visit c vis with
    | (vis, .ok ()) => visitAll visit cs vis
    | (vis, .error e) => (vis, .error e)

/-- Depth-first search from `a` with `levels` levels and room for `cap` visited nodes. Returns the
visited nodes in order, also when a node cannot be read: the failing node is then the last. -/
def dfs [DecidableEq α] (expand : α → Except ε (List α)) (cap : ℕ) :
    ℕ → α → List α → List α × Except ε Unit
  | 0, _, vis => (vis, .ok ())
  | levels + 1, a, vis =>
    if cap ≤ vis.length then (vis, .ok ())
    else if a ∈ vis then (vis, .ok ())
    else
      match expand a with
      | .error e => (vis ++ [a], .error e)
      | .ok cs => visitAll (dfs expand cap levels) cs (vis ++ [a])

/-- A result that satisfies `I` when it is `ok` and `E` when it is an error. -/
structure Ends (I : List α → Prop) (E : List α → ε → Prop) (r : List α × Except ε Unit) : Prop where
  ok : r.2 = .ok () → I r.1
  error : ∀ e, r.2 = .error e → E r.1 e

theorem Ends.of_ok {I : List α → Prop} {E : List α → ε → Prop} {vis : List α} (h : I vis) :
    Ends I E (vis, .ok ()) := ⟨fun _ => h, fun e he => by cases he⟩

theorem Ends.of_error {I : List α → Prop} {E : List α → ε → Prop} {vis : List α} {e : ε}
    (h : E vis e) : Ends I E (vis, .error e) :=
  ⟨fun he => (by cases he), fun e' he => Except.error.inj he ▸ h⟩

theorem visitAll_ends {I : List α → Prop} {E : List α → ε → Prop}
    {visit : α → List α → List α × Except ε Unit} {cs vis : List α}
    (hv : ∀ c ∈ cs, ∀ vis, I vis → Ends I E (visit c vis)) (hI : I vis) :
    Ends I E (visitAll visit cs vis) := by
  induction cs generalizing vis with
  | nil => exact .of_ok hI
  | cons c cs ih =>
    have hc := hv c (by simp) vis hI
    unfold visitAll
    rcases h : visit c vis with ⟨vis₁, e | u⟩
    · rw [h] at hc
      exact .of_error (hc.error e rfl)
    · rw [h] at hc
      exact ih (fun d hd => hv d (by simp [hd])) (hc.ok rfl)

variable [DecidableEq α] {expand : α → Except ε (List α)} {cap : ℕ}

/-- **The invariant rule.** `P a l` says what is known of a node met with `l` levels left; `I` is
kept by entering a readable node, and entering one that cannot be read establishes `E`. -/
theorem dfs_ends {P : α → ℕ → Prop} {I : List α → Prop} {E : List α → ε → Prop}
    (hchild : ∀ a b l, P a (l + 1) → Child expand a b → P b l)
    (hok : ∀ vis a l, I vis → P a (l + 1) → vis.length < cap → a ∉ vis → Readable expand a →
      I (vis ++ [a]))
    (herr : ∀ vis a l e, I vis → P a (l + 1) → vis.length < cap → a ∉ vis → expand a = .error e →
      E (vis ++ [a]) e) {levels : ℕ} {a : α} {vis : List α} (hP : P a levels) (hI : I vis) :
    Ends I E (dfs expand cap levels a vis) := by
  induction levels generalizing a vis with
  | zero => exact .of_ok hI
  | succ levels ih =>
    unfold dfs
    split_ifs with hcap ha
    · exact .of_ok hI
    · exact .of_ok hI
    cases hcs : expand a with
    | error e =>
      exact .of_error (herr vis a levels e hI hP (by omega) ha hcs)
    | ok cs =>
      apply visitAll_ends
      · intro c hc vis hI
        exact ih (hchild a c levels hP ⟨cs, hcs, hc⟩) hI
      · exact hok vis a levels hI hP (by omega) ha ⟨cs, hcs⟩

/-- A search only appends to what has been visited. -/
theorem dfs_isPrefix (levels : ℕ) (a : α) (vis : List α) :
    vis <+: (dfs expand cap levels a vis).1 := by
  have h : Ends (vis <+: ·) (fun vis' (_ : ε) => vis <+: vis') (dfs expand cap levels a vis) :=
    dfs_ends (P := fun _ _ => True) (fun _ _ _ _ _ => trivial)
      (fun _ _ _ h _ _ _ _ => h.trans (List.prefix_append _ _))
      (fun _ _ _ _ h _ _ _ _ => h.trans (List.prefix_append _ _)) trivial List.prefix_rfl
  cases hr : (dfs expand cap levels a vis).2 with
  | error e =>
    exact h.error e hr
  | ok u =>
    exact h.ok hr

/-! ## Soundness -/

/-- What is known of the nodes a search from `root` has entered. -/
structure Entered (expand : α → Except ε (List α)) (cap levels : ℕ) (root : α) (vis : List α) :
    Prop where
  nodup : vis.Nodup
  length_le : vis.length ≤ cap
  readable : ∀ b ∈ vis, Readable expand b
  path : ∀ b ∈ vis, ∃ p, IsPath expand root b p ∧ p.length ≤ levels

/-- What is known when a search from `root` stops at a node it cannot read: the node is the last
visited, and everything before it was entered. -/
structure StoppedAt (expand : α → Except ε (List α)) (cap levels : ℕ) (root : α) (vis : List α)
    (e : ε) (b : α) : Prop where
  last : ∃ pre, vis = pre ++ [b] ∧ Entered expand cap levels root pre
  fails : expand b = .error e
  path : ∃ p, IsPath expand root b p ∧ p.length ≤ levels

omit [DecidableEq α] in
theorem Entered.snoc {levels : ℕ} {root a : α} {vis p : List α}
    (h : Entered expand cap levels root vis) (hlen : vis.length < cap) (ha : a ∉ vis)
    (hr : Readable expand a) (hp : IsPath expand root a p) (hpl : p.length ≤ levels) :
    Entered expand cap levels root (vis ++ [a]) where
  nodup := nodup_snoc h.nodup ha
  length_le := by simp only [List.length_append, List.length_singleton]; omega
  readable b hb := by
    rcases List.mem_append.1 hb with hb | hb
    · exact h.readable b hb
    · exact List.mem_singleton.1 hb ▸ hr
  path b hb := by
    rcases List.mem_append.1 hb with hb | hb
    · exact h.path b hb
    · exact List.mem_singleton.1 hb ▸ ⟨p, hp, hpl⟩

/-- **Soundness**, on every graph: the nodes entered are distinct, readable, at most `cap`, and
each on a path of at most `levels` nodes. -/
theorem dfs_sound (levels : ℕ) (root : α) :
    Ends (Entered expand cap levels root)
      (fun vis e => ∃ b, StoppedAt expand cap levels root vis e b)
      (dfs expand cap levels root []) := by
  refine dfs_ends (P := fun a l => ∃ p, IsPath expand root a p ∧ p.length + l ≤ levels + 1)
    ?_ ?_ ?_ ⟨[root], .single root, ?_⟩ ⟨List.nodup_nil, Nat.zero_le _, by simp, by simp⟩
  · rintro a b l ⟨p, hp, hl⟩ hab
    exact ⟨p ++ [b], hp.snoc hab, by simp; omega⟩
  · rintro vis a l hI ⟨p, hp, hl⟩ hlen ha hr
    exact hI.snoc hlen ha hr hp (by omega)
  · rintro vis a l e hI ⟨p, hp, hl⟩ hlen ha he
    exact ⟨a, ⟨vis, rfl, hI⟩, he, p, hp, by omega⟩
  · simp [Nat.add_comm]

/-- A search with at least one level and room for one node visits its root. -/
theorem root_mem_dfs (expand : α → Except ε (List α)) (hcap : 0 < cap) (levels : ℕ) (root : α) :
    root ∈ (dfs expand cap (levels + 1) root []).1 := by
  have hnil : ¬ cap ≤ ([] : List α).length := by simp only [List.length_nil]; omega
  unfold dfs
  rw [if_neg hnil, if_neg (List.not_mem_nil)]
  cases expand root with
  | error e =>
    simp
  | ok cs =>
    have h : Ends (root ∈ ·) (fun vis (_ : ε) => root ∈ vis)
        (visitAll (dfs expand cap levels) cs [root]) := by
      apply visitAll_ends
      · intro c _ vis hv
        have hsub : root ∈ (dfs expand cap levels c vis).1 := (dfs_isPrefix levels c vis).subset hv
        exact ⟨fun _ => hsub, fun _ _ => hsub⟩
      · simp
    cases hr : (visitAll (dfs expand cap levels) cs [root]).2 with
    | error e =>
      exact h.error e hr
    | ok u =>
      exact h.ok hr

omit [DecidableEq α] in
/-- **Coverage.** A search that enters readable nodes only reaches everything exactly when no child
of an entered node is left out. -/
theorem covers_iff_closed {vis : List α} {root : α} {levels : ℕ} (hroot : root ∈ vis)
    (h : Entered expand cap levels root vis) :
    (∀ b, Reachable expand root b → b ∈ vis) ↔
      ∀ a ∈ vis, ∀ b, Child expand a b → b ∈ vis := by
  constructor
  · intro hall a ha b hab
    obtain ⟨p, hp, -⟩ := h.path a ha
    exact hall b (hp.reachable.tail hab)
  · intro hclosed b hb
    exact hb.mem_of_closed hclosed hroot

/-- A search of readable nodes does not stop early. -/
theorem dfs_ok_of_readable (cap levels : ℕ) {root : α}
    (h : ∀ b, Reachable expand root b → Readable expand b) :
    ∃ vis, dfs expand cap levels root [] = (vis, .ok ()) := by
  have hs : Ends (Entered expand cap levels root) _ (dfs expand cap levels root []) :=
    dfs_sound levels root
  rcases hr : dfs expand cap levels root [] with ⟨vis, e | u⟩
  · obtain ⟨b, hb⟩ := hs.error e (by rw [hr])
    obtain ⟨p, hp, -⟩ := hb.path
    obtain ⟨cs, hcs⟩ := h b hp.reachable
    cases hb.fails.symm.trans hcs
  · exact ⟨vis, rfl⟩

/-! ## Completeness within the budgets -/

/-- Neither budget can cut off a node reachable from `root`. -/
structure WithinBudgets (expand : α → Except ε (List α)) (cap levels : ℕ) (root : α) : Prop where
  count : ∀ l : List α, l.Nodup → (∀ b ∈ l, Reachable expand root b) → l.length ≤ cap
  depth : ∀ b p, IsPath expand root b p → p.Nodup → p.length ≤ levels

section Complete

variable {levels : ℕ} {root : α}

omit [DecidableEq α] in
theorem reachable_snoc {vis : List α} {a : α} (h : ∀ b ∈ vis, Reachable expand root b)
    (ha : Reachable expand root a) : ∀ b ∈ vis ++ [a], Reachable expand root b := by
  intro b hb
  rcases List.mem_append.1 hb with hb | hb
  · exact h b hb
  · exact List.mem_singleton.1 hb ▸ ha

omit [DecidableEq α] in
/-- The loop over the children, given what one visit does. `stack` is the path being followed. -/
theorem visitAll_firstVisits {visit : α → List α → List α × Except ε Unit} (stack : List α)
    (hvisit : ∀ c vis vis', (∃ a, stack.getLast? = some a ∧ Child expand a c) → stack ⊆ vis →
      vis.Nodup → (∀ b ∈ vis, Reachable expand root b) → visit c vis = (vis', .ok ()) →
      FirstVisits expand [c] vis vis')
    (hreach : ∀ c, (∃ a, stack.getLast? = some a ∧ Child expand a c) → Reachable expand root c)
    {cs vis vis' : List α} (hcs : ∀ c ∈ cs, ∃ a, stack.getLast? = some a ∧ Child expand a c)
    (hstack : stack ⊆ vis) (hnd : vis.Nodup) (hr : ∀ b ∈ vis, Reachable expand root b)
    (h : visitAll visit cs vis = (vis', .ok ())) : FirstVisits expand cs vis vis' := by
  induction cs generalizing vis with
  | nil =>
    obtain rfl : vis = vis' := (Prod.ext_iff.1 h).1
    exact .done vis
  | cons c cs ih =>
    unfold visitAll at h
    rcases h₁ : visit c vis with ⟨vis₁, e | u⟩
    · rw [h₁] at h
      cases (Prod.ext_iff.1 h).2
    rw [h₁] at h
    have hf₁ := hvisit c vis vis₁ (hcs c (by simp)) hstack hnd hr h₁
    have hr₁ : ∀ b ∈ vis₁, Reachable expand root b := by
      intro b hbm
      rcases hf₁.mem_or_reachable b hbm with hbm | ⟨a, ha, hab⟩
      · exact hr b hbm
      · rw [List.mem_singleton.1 ha] at hab
        exact (hreach c (hcs c (by simp))).trans hab
    apply hf₁.append
    apply ih (fun d hd => hcs d (by simp [hd])) _ (hf₁.nodup hnd) hr₁ h
    exact List.Subset.trans hstack hf₁.isPrefix.subset

variable (hb : WithinBudgets expand cap levels root)

include hb

/-- Within the budgets a node the search passes over has been visited before: entering it would
make either a path or a set of reachable nodes too long. -/
theorem dfs_firstVisits_aux {l : ℕ} {a : α} {vis vis' stack : List α}
    (hp : IsPath expand root a (stack ++ [a])) (hsn : stack.Nodup)
    (hl : levels ≤ stack.length + l) (hstack : stack ⊆ vis) (hnd : vis.Nodup)
    (hr : ∀ b ∈ vis, Reachable expand root b) (h : dfs expand cap l a vis = (vis', .ok ())) :
    FirstVisits expand [a] vis vis' := by
  induction l generalizing a vis vis' stack with
  | zero =>
    obtain rfl : vis = vis' := (Prod.ext_iff.1 h).1
    refine .seen ?_ (.done vis)
    by_contra ha
    have := hb.depth a _ hp (nodup_snoc hsn fun h => ha (hstack h))
    simp only [List.length_append, List.length_singleton] at this
    omega
  | succ l ih =>
    unfold dfs at h
    split_ifs at h with hcap ha
    · obtain rfl : vis = vis' := (Prod.ext_iff.1 h).1
      refine .seen ?_ (.done vis)
      by_contra ha
      have := hb.count (vis ++ [a]) (nodup_snoc hnd ha) (reachable_snoc hr hp.reachable)
      simp only [List.length_append, List.length_singleton] at this
      omega
    · obtain rfl : vis = vis' := (Prod.ext_iff.1 h).1
      exact .seen ha (.done vis)
    rcases hcs : expand a with e | cs
    · rw [hcs] at h
      cases (Prod.ext_iff.1 h).2
    rw [hcs] at h
    have hlast : (stack ++ [a]).getLast? = some a := List.getLast?_concat ..
    have hsn' : (stack ++ [a]).Nodup := nodup_snoc hsn fun h => ha (hstack h)
    apply FirstVisits.enter ha hcs _ (.done vis')
    apply visitAll_firstVisits (stack ++ [a]) _ _ (fun c hc => ⟨a, hlast, cs, hcs, hc⟩) _
      (nodup_snoc hnd ha) (reachable_snoc hr hp.reachable) h
    · rintro c vis₁ vis₂ ⟨a', ha', hc⟩ hs hn hr₁ h₁
      obtain rfl : a = a' := Option.some.inj (hlast.symm.trans ha')
      refine ih (hp.snoc hc) hsn' ?_ hs hn hr₁ h₁
      simp only [List.length_append, List.length_singleton]
      omega
    · rintro c ⟨a', ha', hc⟩
      obtain rfl : a = a' := Option.some.inj (hlast.symm.trans ha')
      exact (hp.snoc hc).reachable
    · intro x hx
      rcases List.mem_append.1 hx with hx | hx
      · exact List.mem_append_left _ (hstack hx)
      · exact List.mem_append_right _ hx

/-- **Completeness within the budgets**: a search that does not stop early is the uncapped
first-visit order. -/
theorem dfs_firstVisits {vis : List α} (h : dfs expand cap levels root [] = (vis, .ok ())) :
    FirstVisits expand [root] [] vis :=
  dfs_firstVisits_aux hb (.single root : IsPath expand root root ([] ++ [root])) List.nodup_nil
    (by simp) (by simp) List.nodup_nil (by simp) h

end Complete

/-! ## Locality -/

omit [DecidableEq α] in
theorem visitAll_isPrefix {visit : α → List α → List α × Except ε Unit}
    (hvisit : ∀ c vis, vis <+: (visit c vis).1) (cs vis : List α) :
    vis <+: (visitAll visit cs vis).1 := by
  induction cs generalizing vis with
  | nil => exact List.prefix_rfl
  | cons c cs ih =>
    have hc := hvisit c vis
    unfold visitAll
    rcases h : visit c vis with ⟨vis₁, e | u⟩
    · rwa [h] at hc
    · rw [h] at hc
      exact hc.trans (ih vis₁)

omit [DecidableEq α] in
/-- Two visits that agree wherever the second stays in `S` make the same loop. -/
theorem visitAll_congr {visit visit' : α → List α → List α × Except ε Unit} {S : List α}
    (hpre : ∀ c vis, vis <+: (visit c vis).1)
    (h : ∀ c vis, (visit c vis).1 ⊆ S → visit' c vis = visit c vis) {cs vis : List α}
    (hS : (visitAll visit cs vis).1 ⊆ S) : visitAll visit' cs vis = visitAll visit cs vis := by
  induction cs generalizing vis with
  | nil => rfl
  | cons c cs ih =>
    unfold visitAll at hS ⊢
    rcases hc : visit c vis with ⟨vis₁, e | u⟩
    · simp only [hc] at hS
      rw [h c vis (by rw [hc]; exact hS), hc]
    · simp only [hc] at hS
      have hsub : vis₁ ⊆ S := List.Subset.trans (visitAll_isPrefix hpre cs vis₁).subset hS
      rw [h c vis (by rw [hc]; exact hsub), hc]
      exact ih hS

/-- **Locality**: graphs that agree on the nodes a search visits have the same search. -/
theorem dfs_congr {expand' : α → Except ε (List α)} {S : List α}
    (h : ∀ b ∈ S, expand' b = expand b) {levels : ℕ} {a : α} {vis : List α}
    (hS : (dfs expand cap levels a vis).1 ⊆ S) :
    dfs expand' cap levels a vis = dfs expand cap levels a vis := by
  induction levels generalizing a vis with
  | zero => rfl
  | succ levels ih =>
    unfold dfs at hS ⊢
    split_ifs at hS ⊢ with hcap ha
    · rfl
    · rfl
    have hvisited : a ∈ S := by
      cases hcs : expand a with
      | error e =>
        simp only [hcs] at hS
        exact hS (by simp)
      | ok cs =>
        simp only [hcs] at hS
        exact hS ((visitAll_isPrefix (dfs_isPrefix levels) cs _).subset (by simp))
    rw [h a hvisited]
    cases hcs : expand a with
    | error e => rfl
    | ok cs =>
      simp only [hcs] at hS
      exact visitAll_congr (dfs_isPrefix levels) (fun c vis => ih) hS

/-- **Room to spare**: a search that has visited no more nodes than a smaller search has room for is
that smaller search. -/
theorem dfs_eq_of_length_le {cap' : ℕ} (hle : cap ≤ cap') {levels : ℕ} {a : α} {vis : List α}
    (h : (dfs expand cap' levels a vis).1.length ≤ cap) :
    dfs expand cap levels a vis = dfs expand cap' levels a vis := by
  induction levels generalizing a vis with
  | zero => rfl
  | succ levels ih =>
    have hpre : ∀ cs vis, vis.length ≤ (visitAll (dfs expand cap' levels) cs vis).1.length :=
      fun cs vis => (visitAll_isPrefix (dfs_isPrefix levels) cs vis).length_le
    -- the agenda below an entered node
    have hagenda : ∀ (cs vis : List α),
        (visitAll (dfs expand cap' levels) cs vis).1.length ≤ cap →
        visitAll (dfs expand cap levels) cs vis = visitAll (dfs expand cap' levels) cs vis := by
      intro cs
      induction cs with
      | nil => exact fun _ _ => rfl
      | cons c cs ihcs =>
        intro vis hvis
        unfold visitAll at hvis ⊢
        rcases hc : dfs expand cap' levels c vis with ⟨vis₁, e | u⟩
        · simp only [hc] at hvis
          rw [ih (by rw [hc]; exact hvis), hc]
        · simp only [hc] at hvis
          rw [ih (by rw [hc]; exact (hpre cs vis₁).trans hvis), hc]
          exact ihcs vis₁ hvis
    unfold dfs at h ⊢
    by_cases hcap' : cap' ≤ vis.length
    · rw [if_pos hcap', if_pos (hle.trans hcap')]
    rw [if_neg hcap'] at h ⊢
    by_cases ha : a ∈ vis
    · rw [if_pos ha, if_pos ha, ite_self]
    rw [if_neg ha] at h ⊢
    cases hcs : expand a with
    | error e =>
      simp only [hcs, List.length_append, List.length_singleton] at h
      rw [if_neg (by omega), if_neg ha]
    | ok cs =>
      simp only [hcs] at h
      have hlen := hpre cs (vis ++ [a])
      rw [List.length_append, List.length_singleton] at hlen
      rw [if_neg (by omega), if_neg ha]
      exact hagenda cs _ h

/-! ## Trees -/

/-- `Traversal expand h as order r`: going through the subtrees below the nodes `as`, none of more
than `h` levels, in preorder meets the nodes `order`, up to the first that cannot be read. -/
inductive Traversal (expand : α → Except ε (List α)) :
    ℕ → List α → List α → Except ε Unit → Prop
  | nil (h : ℕ) : Traversal expand h [] [] (.ok ())
  | unread {h : ℕ} {a : α} {as : List α} {e : ε} (ha : expand a = .error e) :
      Traversal expand (h + 1) (a :: as) [a] (.error e)
  | stop {h : ℕ} {a : α} {as cs o : List α} {e : ε} (ha : expand a = .ok cs)
      (hcs : Traversal expand h cs o (.error e)) :
      Traversal expand (h + 1) (a :: as) (a :: o) (.error e)
  | cons {h : ℕ} {a : α} {as cs o₁ o₂ : List α} {r : Except ε Unit} (ha : expand a = .ok cs)
      (hcs : Traversal expand h cs o₁ (.ok ())) (has : Traversal expand (h + 1) as o₂ r) :
      Traversal expand (h + 1) (a :: as) (a :: (o₁ ++ o₂)) r

namespace Traversal

variable {h h' : ℕ} {as bs o o₁ o₂ : List α} {r : Except ε Unit}

omit [DecidableEq α] in
theorem mono (ht : Traversal expand h as o r) (hle : h ≤ h') : Traversal expand h' as o r := by
  induction ht generalizing h' with
  | nil h => exact .nil h'
  | unread ha =>
    obtain ⟨h', rfl⟩ := Nat.exists_eq_add_of_lt hle
    exact .unread ha
  | stop ha _ ih =>
    obtain ⟨h', rfl⟩ := Nat.exists_eq_add_of_lt hle
    exact .stop ha (ih (by omega))
  | cons ha _ _ ih₁ ih₂ =>
    obtain ⟨h', rfl⟩ := Nat.exists_eq_add_of_lt hle
    exact .cons ha (ih₁ (by omega)) (ih₂ hle)

omit [DecidableEq α] in
/-- Nodes behind those that were all read. -/
theorem append (h₁ : Traversal expand h as o₁ (.ok ())) (h₂ : Traversal expand h bs o₂ r) :
    Traversal expand h (as ++ bs) (o₁ ++ o₂) r := by
  generalize hr : (Except.ok () : Except ε Unit) = r₁ at h₁
  induction h₁ with
  | nil h => exact h₂
  | unread ha => cases hr
  | stop ha _ _ => cases hr
  | cons ha hcs _ _ ih =>
    rw [List.cons_append, List.cons_append, List.append_assoc]
    exact .cons ha hcs (ih h₂ hr)

omit [DecidableEq α] in
/-- Nodes behind one that was not read are not met. -/
theorem append_error {e : ε} (h₁ : Traversal expand h as o₁ (.error e)) :
    Traversal expand h (as ++ bs) o₁ (.error e) := by
  generalize hr : (Except.error e : Except ε Unit) = r₁ at h₁ ⊢
  induction h₁ with
  | nil h => cases hr
  | unread ha => exact .unread ha
  | stop ha hcs _ => exact .stop ha hcs
  | cons ha hcs _ _ ih => exact .cons ha hcs (ih hr)

end Traversal

/-- **Preorder**: a search with room for a tree of new nodes visits them in preorder, up to the
first that cannot be read. -/
theorem dfs_traversal {levels : ℕ} {as order vis : List α} {r : Except ε Unit}
    (ht : Traversal expand levels as order r) (hnodup : (vis ++ order).Nodup)
    (hcap : (vis ++ order).length ≤ cap) :
    visitAll (dfs expand cap levels) as vis = (vis ++ order, r) := by
  have henter : ∀ {a : α} {vis rest : List α}, (vis ++ a :: rest).Nodup →
      (vis ++ a :: rest).length ≤ cap → ¬cap ≤ vis.length ∧ a ∉ vis := by
    intro a vis rest hnodup hcap
    rw [List.length_append, List.length_cons] at hcap
    exact ⟨by omega, fun hmem => (List.nodup_append.1 hnodup).2.2 a hmem a (by simp) rfl⟩
  induction ht generalizing vis with
  | nil h => rw [visitAll, List.append_nil]
  | unread ha =>
    obtain ⟨hroom, hnew⟩ := henter hnodup hcap
    rw [visitAll, dfs, if_neg hroom, if_neg hnew, ha]
  | @stop h a as cs o e ha _ ih =>
    obtain ⟨hroom, hnew⟩ := henter hnodup hcap
    have hsplit : vis ++ a :: o = vis ++ [a] ++ o := by simp
    rw [hsplit] at hnodup hcap ⊢
    rw [visitAll, dfs, if_neg hroom, if_neg hnew, ha]
    simp only [ih hnodup hcap]
  | @cons h a as cs o₁ o₂ r ha _ _ ih₁ ih₂ =>
    obtain ⟨hroom, hnew⟩ := henter hnodup hcap
    have hsplit : vis ++ a :: (o₁ ++ o₂) = vis ++ [a] ++ o₁ ++ o₂ := by simp
    rw [hsplit] at hnodup hcap ⊢
    have hchild : dfs expand cap (h + 1) a vis = (vis ++ [a] ++ o₁, .ok ()) := by
      rw [dfs, if_neg hroom, if_neg hnew, ha]
      refine ih₁ (List.nodup_append.1 hnodup).1 ?_
      rw [List.length_append] at hcap
      omega
    rw [visitAll, hchild]
    exact ih₂ hnodup hcap

end RefsForensic.Search
