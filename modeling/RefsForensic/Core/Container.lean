import RefsForensic.Core.Minstore

/-!
# Containers

`core/src/container.rs`: the container table and the virtual → physical resolver bootstrapped
from the resident Minstore pages. The resolver scans the image cluster by cluster; the first page
that consistently witnesses a container fixes that container's base.
-/

namespace RefsForensic

open Rust

variable {T : Target}

/-- ReFS cluster size in bytes. -/
def refsClusterSize : ℕ := 4096

/-- Offset of the physical cluster number within a container record value. -/
def containerLcnOffset : ℕ := 144

/-- Offset of the cluster count within a container record value. -/
def containerClusterCountOffset : ℕ := 152

/-- Minimum length of a container record value. -/
def containerRecordValueLen : ℕ := 160

/-- `(container_index, offset_in_container)`, `(vblock, 0)` for a zero band. -/
def decomposeVirtualBlock (vblock bandClusters : ℕ) : ℕ × ℕ :=
  if bandClusters = 0 then (vblock, 0) else (vblock / bandClusters, vblock % bandClusters)

/-- One parsed container record. -/
structure ContainerRecord where
  bandId : ℕ
  physicalLcn : ℕ
  clusterCount : ℕ
  deriving DecidableEq

/-- The container tree. -/
structure ContainerTable (T : Target) where
  node : MinstorePage T

namespace ContainerTable

def parse (data : Slice T) : Except RefsError (ContainerTable T) :=
  (MinstorePage.parse data).map ContainerTable.mk

/-- The record of one row; a short value is not a container record. -/
def recordOfRow (row : MinstoreRow T) : Option ContainerRecord :=
  if row.value.len < containerRecordValueLen then none
  else some {
    bandId := leU64 row.value 0
    physicalLcn := leU64 row.value containerLcnOffset
    clusterCount := leU64 row.value containerClusterCountOffset }

def records (table : ContainerTable T) : List ContainerRecord :=
  table.node.rows.filterMap recordOfRow

def physicalBase (table : ContainerTable T) (bandId : ℕ) : Option ℕ :=
  (table.records.find? fun r => r.bandId = bandId).map (·.physicalLcn)

def clusterCount (table : ContainerTable T) (bandId : ℕ) : Option ℕ :=
  (table.records.find? fun r => r.bandId = bandId).map (·.clusterCount)

end ContainerTable

/-- `container_index → physical_base_cluster`, derived from resident pages. -/
structure ContainerResolver where
  bandClusters : ℕ
  base : List (ℕ × ℕ)

namespace ContainerResolver

/-- The base a page at cluster `c` of self-block `selfBlock` implies, with its container. -/
def witness (bandClusters c selfBlock : ℕ) : Option (ℕ × ℕ) :=
  let (idx, offInBand) := decomposeVirtualBlock selfBlock bandClusters
  (checkedSub c offInBand).map fun bandBase => (idx, bandBase)

/-- The scan loop over the clusters still ahead, with the bases found so far. -/
def scan (image : Slice T) (bandClusters : ℕ) : List ℕ → List (ℕ × ℕ) → List (ℕ × ℕ)
  | [], base => base
  | c :: cs, base =>
    let off := c * refsClusterSize
    if image.len < off + refsMetadataPageSize then base
    else if (image.getRange off (off + 4)).map Slice.toList ≠ some msbSignature then
      scan image bandClusters cs base
    else
      match witness bandClusters c (leU64 image (off + selfBlockOffset)) with
      | none => scan image bandClusters cs base
      | some (idx, bandBase) =>
        if base.any fun p => p.1 = idx then scan image bandClusters cs base
        else scan image bandClusters cs (base ++ [(idx, bandBase)])

/-- Build a resolver from the physically resident Minstore pages of `image`. -/
def fromResidentImage (image : Slice T) (bandClusters : ℕ) : ContainerResolver where
  bandClusters := bandClusters
  base :=
    if bandClusters = 0 then []
    else scan image bandClusters (List.range (image.len / refsClusterSize)) []

/-- The physical base cluster of container `index`. -/
def baseOf (resolver : ContainerResolver) (index : ℕ) : Option ℕ :=
  (resolver.base.find? fun p => p.1 = index).map (·.2)

/-- The physical byte offset of a virtual block. -/
def resolveVirtual (resolver : ContainerResolver) (vblock : ℕ) : Option ℕ := do
  let (idx, off) := decomposeVirtualBlock vblock resolver.bandClusters
  let base ← resolver.baseOf idx
  let cluster ← checkedAdd u64Max base off
  checkedMul u64Max cluster refsClusterSize

/-- `resolveVirtual`, failing with the offending block. -/
def resolveVirtualChecked (resolver : ContainerResolver) (vblock : ℕ) : Except RefsError ℕ :=
  match resolver.resolveVirtual vblock with
  | some off => .ok off
  | none => .error (.unresolvedVirtualBlock vblock)

end ContainerResolver

end RefsForensic
