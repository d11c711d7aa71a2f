/-
# VllmExl3.TensorParallel.Parameter — `EXL3Parameter`, the placeholder the loader fills

One sub-tensor per output shard, kept as the loader hands it over and cut to this rank's slice on
the way in. Where a stored tensor is placed (device or pinned host memory) does not change its
contents and is left to the offload model.
-/
import VllmExl3.TensorParallel.Tp
import VllmExl3.Lib.PyDict

namespace VllmExl3.TensorParallel

open Format (fusedShardBounds)

/-- A `shard_id` of the loader: one output shard, a tuple of them, or `None` for all of them. -/
inductive LoadedShard where
  | int (index : Nat)
  | tuple (indices : List Nat)
  | none
  deriving DecidableEq, Repr

/-- A kind of stored tensor that `tp.shard_column` and `tp.shard_row` cut. -/
class Cut (T : Type) where
  shardColumn : Role → T → Nat → Nat → Except PyError T
  shardRow : Role → T → Nat → Nat → T

instance cutTensor {W R : Type} : Cut (Tensor W R) := ⟨shardColumn, shardRow⟩

/-- `EXL3Parameter` -/
structure EXL3Parameter (T : Type) where
  role : Role
  tp_rank : Nat
  tp_size : Nat
  column_shard_size : Option Nat
  row_shard_size : Option Nat
  output_partition_sizes : List Nat
  shards : PyDict Nat T

namespace EXL3Parameter

variable {T : Type} [Cut T]

/-- `store`, for an integer shard -/
def store (p : EXL3Parameter T) (loaded_weight : T) (shard_id : Nat) : EXL3Parameter T :=
  { p with shards := p.shards.set shard_id loaded_weight }

/-- `_take_column` -/
def takeColumn (p : EXL3Parameter T) (t : T) (size : Option Nat) (index : Nat) :
    Except PyError T :=
  match size with
  | none => .ok t
  | some size =>
    if p.tp_size = 1 then .ok t
    else
      let first := index * size
      Cut.shardColumn p.role t first (first + size)

/-- `_take_row` -/
def takeRow (p : EXL3Parameter T) (t : T) (size : Option Nat) (index : Nat) : T :=
  match size with
  | none => t
  | some size =>
    if p.tp_size = 1 then t
    else
      let first := index * size
      Cut.shardRow p.role t first (first + size)

/-- `load_column_parallel_weight` -/
def loadColumnParallelWeight (p : EXL3Parameter T) (loaded_weight : T) :
    Except PyError (EXL3Parameter T) := do
  let t ← p.takeColumn loaded_weight p.column_shard_size p.tp_rank
  return p.store t 0

/-- `load_row_parallel_weight` -/
def loadRowParallelWeight (p : EXL3Parameter T) (loaded_weight : T) : EXL3Parameter T :=
  p.store (p.takeRow loaded_weight p.row_shard_size p.tp_rank) 0

/-- The storing loop of `_load_fused`. -/
def storeBounds (loaded_weight : T) :
    List (Nat × Nat × Nat) → EXL3Parameter T → Except PyError (EXL3Parameter T)
  | [], p => .ok p
  | (index, first, last) :: rest, p => do
    let t ← Cut.shardColumn p.role loaded_weight first last
    storeBounds loaded_weight rest (p.store t index)

/-- `_load_fused` on the indices it covers. -/
def loadFusedIndices (p : EXL3Parameter T) (loaded_weight : T) (indices : List Nat) :
    Except PyError (EXL3Parameter T) := do
  let bounds ← fusedShardBounds p.output_partition_sizes indices p.tp_rank p.tp_size
  storeBounds loaded_weight bounds p

/-- `load_merged_column_weight`; a `shard_size` the caller leaves out is the parameter's own. -/
def loadMergedColumnWeight (p : EXL3Parameter T) (loaded_weight : T) (shard_id : LoadedShard)
    (shard_size : Option Nat) : Except PyError (EXL3Parameter T) :=
  match shard_id with
  | .none => p.loadFusedIndices loaded_weight (List.range p.output_partition_sizes.length)
  | .tuple indices => p.loadFusedIndices loaded_weight indices
  | .int index => do
    let size := shard_size.or p.column_shard_size
    let t ← p.takeColumn loaded_weight size p.tp_rank
    return p.store t index

end EXL3Parameter

end VllmExl3.TensorParallel
