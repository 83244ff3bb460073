import RefsForensic.Core.Superblock

/-!
# Anomalies

The anomaly vocabulary of `forensic/src/lib.rs`: each kind carries its evidence, and an anomaly
derives its severity, code and note from its kind.
-/

namespace RefsForensic.Forensic

/-- The grades in use. -/
inductive Severity
  | high
  | medium
  deriving DecidableEq, Repr

/-- A structural-integrity anomaly with the evidence to reproduce it. -/
inductive AnomalyKind
  | bootSignatureInvalid (found : List UInt8)
  | metadataCrcMismatch (structureName : String) (offset checksumType : ℕ)
  | selfBlockMismatch (structureName : String) (recorded expected offset : ℕ)
  | checkpointDivergence (reason : String) (checkpoints : List ℕ)
  | orphanedOrUnresolved (block : ℕ) (referrer : String)
  | impossibleGeometry (field : String) (value limit : ℕ)
  deriving DecidableEq, Repr

/-! ## Formatting -/

/-- `{:02x}` of a byte. -/
def hexByte (b : UInt8) : String :=
  String.ofList [Nat.digitChar (b.toNat / 16), Nat.digitChar (b.toNat % 16)]

/-- The `Debug` form of a list from the forms of its items. -/
def debugList (items : List String) : String := "[" ++ String.intercalate ", " items ++ "]"

namespace AnomalyKind

def severity : AnomalyKind → Severity
  | bootSignatureInvalid .. | metadataCrcMismatch .. | selfBlockMismatch ..
  | checkpointDivergence .. | impossibleGeometry .. => .high
  | orphanedOrUnresolved .. => .medium

def code : AnomalyKind → String
  | bootSignatureInvalid .. => "REFS-BOOT-SIGNATURE-INVALID"
  | metadataCrcMismatch .. => "REFS-METADATA-CRC-MISMATCH"
  | selfBlockMismatch .. => "REFS-SELF-BLOCK-MISMATCH"
  | checkpointDivergence .. => "REFS-CHECKPOINT-DIVERGENCE"
  | orphanedOrUnresolved .. => "REFS-ORPHANED-OR-UNRESOLVED"
  | impossibleGeometry .. => "REFS-IMPOSSIBLE-GEOMETRY"

def note : AnomalyKind → String
  | bootSignatureInvalid found =>
    "boot VBR signature at offset 3 = " ++ debugList (found.map hexByte) ++
      " is not \"ReFS\\0\\0\\0\\0\" — the volume is not ReFS or the boot record was overwritten"
  | metadataCrcMismatch structureName offset checksumType =>
    structureName ++ " at byte " ++ toString offset ++ ": stored CRC (type " ++
      toString checksumType ++ ") does not verify over its known coverage range — " ++
      "consistent with corruption or post-write tampering"
  | selfBlockMismatch structureName recorded expected offset =>
    structureName ++ " at byte " ++ toString offset ++ ": self-recorded block number " ++
      toString recorded ++ " does not equal its location's block number " ++ toString expected ++
      " — consistent with a relocated, tampered, or misparsed page"
  | checkpointDivergence reason checkpoints =>
    "checkpoint set " ++ debugList (checkpoints.map toString) ++ ": " ++ reason ++
      " — consistent with a torn or tampered checkpoint"
  | orphanedOrUnresolved block referrer =>
    referrer ++ " references virtual block " ++ toString block ++
      " which resolves to no resident physical page — " ++
      "a dangling or corrupt reference (recovery lead)"
  | impossibleGeometry field value limit =>
    "geometry field " ++ field ++ " = " ++ toString value ++ " exceeds the sane bound " ++
      toString limit ++ " for this image — consistent with corruption or an allocation-bomb"

end AnomalyKind

/-- An anomaly: its kind, with the severity, code and note derived from it. -/
structure Anomaly where
  severity : Severity
  code : String
  kind : AnomalyKind
  note : String
  deriving DecidableEq

/-- `Anomaly::new`. -/
def Anomaly.new (kind : AnomalyKind) : Anomaly where
  severity := kind.severity
  code := kind.code
  kind := kind
  note := kind.note

theorem Anomaly.new_injective : Function.Injective Anomaly.new := fun _ _ h =>
  congrArg Anomaly.kind h

end RefsForensic.Forensic
