import Mathlib.Data.Nat.Notation

/-!
# Reader errors

`RefsError` of `core/src/error.rs`, each variant with the offending value it carries.
-/

namespace RefsForensic

/-- Errors surfaced while parsing ReFS on-disk structures. -/
inductive RefsError
  /-- The buffer was too small to hold the structure being parsed. -/
  | truncated (structureName : String) (need have_ : ℕ)
  /-- Boot bytes `3..11` are not the ReFS signature. -/
  | badSignature (found : List UInt8)
  /-- Boot bytes `16..20` are not `FSRS`. -/
  | badFsrs (found : List UInt8) (foundAscii : String)
  /-- A metadata block did not carry the expected signature. -/
  | badBlockSignature (found : List UInt8) (foundAscii expected : String) (offset : ℕ)
  /-- The object table does not contain the requested id. -/
  | objectIdNotFound (objectId : ℕ)
  /-- A block number that resolves to no page of the image. -/
  | unresolvedVirtualBlock (block : ℕ)
  /-- The major format version is not `3`. -/
  | unsupportedVersion (major minor : UInt8)
  deriving DecidableEq, Repr

/-- A mapped result is one of the results, mapped. -/
theorem map_eq_ok {α β : Type} {x : Except RefsError α} {f : α → β} {b : β} :
    x.map f = .ok b ↔ ∃ a, x = .ok a ∧ f a = b := by
  cases x with
  | error e =>
    simp [Except.map]
  | ok a =>
    simp [Except.map]

/-- Mapping keeps the errors. -/
theorem map_eq_error {α β : Type} {x : Except RefsError α} {f : α → β} {e : RefsError} :
    x.map f = .error e ↔ x = .error e := by
  cases x with
  | error e' =>
    simp [Except.map]
  | ok a =>
    simp [Except.map]

end RefsForensic
