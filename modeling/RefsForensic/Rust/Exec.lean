import RefsForensic.Rust.Slice

/-!
# Computations that may panic

A Rust computation built with overflow checks either returns a value or panics: `Exec α`. The raw
operators and the indexing of slices panic outside their domain, the `?` operators `tryOption` and
`tryResult` leave a function early, and a recursive function is given the stack frames it may use.

The rules `…_ok` compute what a computation returns. There is one for each operation, whose
hypothesis is the condition under which it does not panic; one for sequencing, one for each `?`
operator and one for each kind of loop, whose hypotheses are about the parts.
-/

namespace RefsForensic.Rust

/-- Why a program panics. -/
inductive Panic
  | overflow
  | divisionByZero
  | indexOutOfBounds
  | copyLengthMismatch
  | stackOverflow
  deriving DecidableEq, Repr

/-- A computation that returns or panics. -/
abbrev Exec : Type → Type := Except Panic

namespace Exec

variable {α β ε : Type} {T : Target}

/-! ## Operations -/

/-- `a + b` on the unsigned type with largest value `max`. -/
def add (max a b : ℕ) : Exec ℕ := if a + b ≤ max then .ok (a + b) else .error .overflow

/-- `a * b`. -/
def mul (max a b : ℕ) : Exec ℕ := if a * b ≤ max then .ok (a * b) else .error .overflow

/-- `a - b`. -/
def sub (a b : ℕ) : Exec ℕ := if b ≤ a then .ok (a - b) else .error .overflow

/-- `a / b`. -/
def div (a b : ℕ) : Exec ℕ := if b = 0 then .error .divisionByZero else .ok (a / b)

/-- `a % b`. -/
def rem (a b : ℕ) : Exec ℕ := if b = 0 then .error .divisionByZero else .ok (a % b)

/-- `bs[i]`. -/
def index (bs : List α) (i : ℕ) : Exec α :=
  match bs[i]? with
  | some b => .ok b
  | none => .error .indexOutOfBounds

/-- `&d[a..b]`. -/
def slice (d : Slice T) (a b : ℕ) : Exec (Slice T) :=
  if h : a ≤ b ∧ b ≤ d.len then .ok (d.range a b h) else .error .indexOutOfBounds

/-- The array `b` of `n` bytes after `b.copy_from_slice(s)`. -/
def copyFromSlice (n : ℕ) (s : Slice T) : Exec {b : List UInt8 // b.length = n} :=
  if h : s.len = n then .ok ⟨s.toList, by rw [Slice.length_toList, h]⟩
  else .error .copyLengthMismatch

/-- `o?` in a function that returns an `Option`, and the rest of the function. -/
def tryOption (o : Option α) (rest : α → Exec (Option β)) : Exec (Option β) :=
  match o with
  | none => .ok none
  | some a => rest a

/-- `r?` in a function that returns a `Result`, and the rest of the function. -/
def tryResult (r : Except ε α) (rest : α → Exec (Except ε β)) : Exec (Except ε β) :=
  match r with
  | .error e => .ok (.error e)
  | .ok a => rest a

/-! ## Rules -/

theorem add_ok {max a b : ℕ} (h : a + b ≤ max) : add max a b = .ok (a + b) := if_pos h

theorem mul_ok {max a b : ℕ} (h : a * b ≤ max) : mul max a b = .ok (a * b) := if_pos h

theorem sub_ok {a b : ℕ} (h : b ≤ a) : sub a b = .ok (a - b) := if_pos h

theorem div_ok {a b : ℕ} (h : b ≠ 0) : div a b = .ok (a / b) := if_neg h

theorem rem_ok {a b : ℕ} (h : b ≠ 0) : rem a b = .ok (a % b) := if_neg h

theorem slice_ok {d s : Slice T} {a b : ℕ} (h : d.getRange a b = some s) : slice d a b = .ok s := by
  obtain ⟨hab, rfl⟩ := Slice.getRange_eq_some.1 h
  exact dif_pos hab

theorem copyFromSlice_ok {n : ℕ} {s : Slice T} (h : s.len = n) :
    copyFromSlice n s = .ok ⟨s.toList, by rw [Slice.length_toList, h]⟩ := dif_pos h

/-- Sequencing. -/
theorem bind_ok {x : Exec α} {k : α → Exec β} {a : α} {b : β} (hx : x = .ok a)
    (hk : k a = .ok b) : (x >>= k) = .ok b := by
  rw [hx]
  exact hk

/-- Branching. -/
theorem ite_ok {c : Prop} [Decidable c] {x y : Exec α} {a b : α} (hx : c → x = .ok a)
    (hy : ¬c → y = .ok b) : (if c then x else y) = .ok (if c then a else b) := by
  split_ifs with h
  · exact hx h
  · exact hy h

theorem tryOption_ok {o : Option α} {rest : α → Exec (Option β)} {g : α → Option β}
    (h : ∀ a, o = some a → rest a = .ok (g a)) : tryOption o rest = .ok (o.bind g) := by
  cases o with
  | none =>
    rfl
  | some a =>
    exact h a rfl

theorem tryResult_ok {r : Except ε α} {rest : α → Exec (Except ε β)} {b : Except ε β}
    (he : ∀ e, r = .error e → b = .error e) (h : ∀ a, r = .ok a → rest a = .ok b) :
    tryResult r rest = .ok b := by
  cases r with
  | error e =>
    rw [he e rfl]
    rfl
  | ok a =>
    exact h a rfl

theorem mapM_ok {f : α → Exec β} {g : α → β} {l : List α} (h : ∀ a ∈ l, f a = .ok (g a)) :
    l.mapM f = .ok (l.map g) := by
  induction l with
  | nil => rfl
  | cons a l ih =>
    rw [List.mapM_cons]
    apply bind_ok (h a (by simp))
    exact bind_ok (ih fun b hb => h b (by simp [hb])) rfl

theorem filterMapM_ok {f : α → Exec (Option β)} {g : α → Option β} {l : List α}
    (h : ∀ a ∈ l, f a = .ok (g a)) : l.filterMapM f = .ok (l.filterMap g) := by
  induction l with
  | nil => rfl
  | cons a l ih =>
    have ih := ih fun b hb => h b (by simp [hb])
    rw [List.filterMapM_cons]
    apply bind_ok (h a (by simp))
    cases hg : g a with
    | none =>
      rw [List.filterMap_cons_none hg]
      exact ih
    | some b =>
      rw [List.filterMap_cons_some hg]
      exact bind_ok ih rfl

theorem findSomeM?_ok {f : α → Exec (Option β)} {g : α → Option β} {l : List α}
    (h : ∀ a ∈ l, f a = .ok (g a)) : l.findSomeM? f = .ok (l.findSome? g) := by
  induction l with
  | nil => rfl
  | cons a l ih =>
    rw [List.findSomeM?_cons, List.findSome?_cons]
    apply bind_ok (h a (by simp))
    cases g a with
    | none =>
      exact ih fun b hb => h b (by simp [hb])
    | some b =>
      rfl

theorem foldlM_ok {f : β → α → Exec β} {g : β → α → β} {l : List α} (b : β)
    (h : ∀ b, ∀ a ∈ l, f b a = .ok (g b a)) : l.foldlM f b = .ok (l.foldl g b) := by
  induction l generalizing b with
  | nil => rfl
  | cons a l ih =>
    rw [List.foldlM_cons, List.foldl_cons]
    apply bind_ok (h b a (by simp))
    exact ih (g b a) fun b a ha => h b a (by simp [ha])

end Exec

end RefsForensic.Rust
