import Mathlib.Control.Monad.Writer

/-!
# Runs that pass marks

A program with marked places, run so that the marks it passes are recorded in order: `Traced μ α`
is the writer monad over lists of marks. What a traced program returns and which marks it passes
are computed along its sequencing (`value_bind`, `marks_bind`) and its loops (`value_foldlM`,
`marks_foldlM_snoc`).
-/

namespace RefsForensic.Rust

/-- A run that returns an `α` and passes marks of `μ`. -/
abbrev Traced (μ α : Type) : Type := Writer (List μ) α

namespace Traced

variable {μ α β σ : Type}

/-- What the run returns. -/
def value (x : Traced μ α) : α := x.run.run.1

/-- The marks it passes, in order. -/
def marks (x : Traced μ α) : List μ := x.run.run.2

/-- Pass mark `m` and return `a`. -/
def passing (m : μ) (a : α) : Traced μ α := do
  tell [m]
  pure a

@[simp] theorem value_pure (a : α) : (pure a : Traced μ α).value = a := rfl

@[simp] theorem marks_pure (a : α) : (pure a : Traced μ α).marks = [] := rfl

@[simp] theorem value_passing (m : μ) (a : α) : (passing m a).value = a := rfl

@[simp] theorem marks_passing (m : μ) (a : α) : (passing m a).marks = [m] := rfl

@[simp] theorem value_bind (x : Traced μ α) (f : α → Traced μ β) :
    (x >>= f).value = (f x.value).value := rfl

@[simp] theorem marks_bind (x : Traced μ α) (f : α → Traced μ β) :
    (x >>= f).marks = x.marks ++ (f x.value).marks := rfl

/-! ## Loops -/

/-- A traced loop returns what the loop returns. -/
theorem value_foldlM {f : σ → α → Traced μ σ} {g : σ → α → σ} (h : ∀ s a, (f s a).value = g s a)
    (l : List α) (s : σ) : (l.foldlM f s).value = l.foldl g s := by
  induction l generalizing s with
  | nil => rfl
  | cons a l ih => rw [List.foldlM_cons, value_bind, h, ih, List.foldl_cons]

/-- The last iteration of a traced loop passes its marks last. -/
theorem marks_foldlM_snoc (f : σ → α → Traced μ σ) (l : List α) (a : α) (s : σ) :
    ((l ++ [a]).foldlM f s).marks =
      (l.foldlM f s).marks ++ (f (l.foldlM f s).value a).marks := by
  induction l generalizing s with
  | nil => simp
  | cons b l ih =>
    rw [List.cons_append, List.foldlM_cons, marks_bind, ih, List.foldlM_cons, marks_bind,
      value_bind, List.append_assoc]

end Traced

end RefsForensic.Rust
