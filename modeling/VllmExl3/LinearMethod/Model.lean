/-
# VllmExl3.LinearMethod.Model — the quantized linear layer (`quantization/linear.py`)

`EXL3LinearMethod` on one rank: the parameters `create_weights` registers, the four `load_*` entry points
of vLLM's loader protocol, the checks of `process_weights_after_loading` and the two serving paths of
`apply`. A merged layer keeps one set of tensors for every output shard, since bit widths differ from
tensor to tensor, and concatenates what the shards give.

The output head's model has the parts that the two methods share: the method's configuration, the shape
checks, and torch's `F.linear`, `cat` and bias.
-/
import VllmExl3.LMHead.Model

namespace VllmExl3.LinearMethod

open Format (checkTpSplit bitsFromTrellisShape dimsFromTrellisShape)
open TensorParallel (Trellis Tensor EXL3Parameter LoadedShard roleOf)
open Ops (Activations Kernels)
open LMHead (Method checkShapes linear addBias catLast)

variable {W R : Type}

/-! ## vLLM's layer -/

/-- The fields of a vLLM linear layer the method reads. -/
structure LinearBase where
  /-- `prefix`, and `<layer>` for a layer without one -/
  prefix_ : String
  tp_rank : Nat
  tp_size : Nat
  /-- `isinstance(layer, RowParallelLinear)` -/
  row_parallel : Bool

/-- A layer with the parameters registered on it. -/
structure Layer (W R : Type) extends LinearBase where
  params : PyDict String (EXL3Parameter (Tensor W R))
  exl3_input_size : Nat
  exl3_output_sizes : List Nat

/-! ## Creating -/

/-- `_validate_tp` -/
def validateTp (layer : LinearBase) (input_size_per_partition : Nat) (output_partition_sizes : List Nat) :
    Except PyError Unit :=
  if layer.row_parallel then
    checkTpSplit (input_size_per_partition * layer.tp_size) layer.tp_size "input dimension"
  else
    output_partition_sizes.zipIdx.forM fun (out_size, index) =>
      checkTpSplit (out_size * layer.tp_size) layer.tp_size s!"output shard {index}"

/-- The parameter `create_weights` registers for a name. -/
def newParameter (T : Type) (layer : LinearBase) (input_size_per_partition column_shard_size : Nat)
    (output_partition_sizes : List Nat) (name : String) : EXL3Parameter T where
  role := roleOf name
  tp_rank := layer.tp_rank
  tp_size := layer.tp_size
  column_shard_size := some column_shard_size
  row_shard_size := some input_size_per_partition
  output_partition_sizes := output_partition_sizes
  shards := PyDict.empty

/-- The layer with a parameter registered for every name; the first output size is read for each. -/
def registerParameters (W R : Type) (m : Method) (layer : LinearBase) (input_size_per_partition : Nat)
    (output_partition_sizes : List Nat) : Except PyError (Layer W R) :=
  match output_partition_sizes with
  | [] => .error .index
  | column_shard_size :: _ => .ok { layer with
      params := PyDict.ofList (m.names.map fun name => (name, newParameter (Tensor W R) layer
        input_size_per_partition column_shard_size output_partition_sizes name))
      exl3_input_size := input_size_per_partition
      exl3_output_sizes := output_partition_sizes }

/-- `create_weights` -/
def createWeights (W R : Type) (m : Method) (layer : LinearBase) (input_size_per_partition : Nat)
    (output_partition_sizes : List Nat) : Except PyError (Layer W R) := do
  if layer.tp_size > 1 then validateTp layer input_size_per_partition output_partition_sizes
  registerParameters W R m layer input_size_per_partition output_partition_sizes

/-! ## Loading -/

/-- A `shard_id` of `load_qkv_weight`. -/
inductive QKVShard where
  | q
  | k
  | v
  | int (index : Nat)
  | tuple (indices : List Nat)
  | none
  deriving DecidableEq, Repr

/-- `load_qkv_weight`; a `num_heads` that is left out or zero is one. -/
def loadQkvWeight (p : EXL3Parameter (Tensor W R)) (loaded_weight : Tensor W R) (shard_id : QKVShard)
    (shard_size num_heads : Option Nat) : Except PyError (EXL3Parameter (Tensor W R)) :=
  let size := shard_size.or p.column_shard_size
  let num_heads := max (num_heads.getD 1) 1
  let replicated (index : Nat) := do
    let t ← p.takeColumn loaded_weight size (p.tp_rank / num_heads)
    return p.store t index
  match shard_id with
  | .none => p.loadFusedIndices loaded_weight (List.range p.output_partition_sizes.length)
  | .tuple indices => p.loadFusedIndices loaded_weight indices
  | .q => do
    let t ← p.takeColumn loaded_weight size p.tp_rank
    return p.store t 0
  | .k => replicated 1
  | .v => replicated 2
  | .int index => replicated index

/-- A call of vLLM's loader protocol, with the keywords that are read. -/
inductive Call where
  | column
  | row
  | merged (shard_id : LoadedShard) (shard_size : Option Nat)
  | qkv (shard_id : QKVShard) (shard_size num_heads : Option Nat)

/-- The entry point a call goes to. -/
def Call.load (call : Call) (p : EXL3Parameter (Tensor W R)) (loaded_weight : Tensor W R) :
    Except PyError (EXL3Parameter (Tensor W R)) :=
  match call with
  | .column => p.loadColumnParallelWeight loaded_weight
  | .row => .ok (p.loadRowParallelWeight loaded_weight)
  | .merged shard_id shard_size => p.loadMergedColumnWeight loaded_weight shard_id shard_size
  | .qkv shard_id shard_size num_heads => loadQkvWeight p loaded_weight shard_id shard_size num_heads

/-- A tensor of the checkpoint under its name, with the call it is delivered by. -/
structure Arrival (W R : Type) where
  call : Call
  name : String
  weight : Tensor W R

/-- vLLM finds the parameter and calls its loader. -/
def receive (layer : Layer W R) (a : Arrival W R) : Except PyError (Layer W R) :=
  match layer.params.get? a.name with
  | none => .error (.key a.name)
  | some param => do
    let param ← a.call.load param a.weight
    return { layer with params := layer.params.set a.name param }

/-- The arrivals of a load, in order. -/
def load (layer : Layer W R) (arrivals : List (Arrival W R)) : Except PyError (Layer W R) :=
  arrivals.foldlM receive layer

/-! ## After loading -/

/-- `_shard` -/
def Layer.shard (layer : Layer W R) (name : String) (index : Nat) : Except PyError (Tensor W R) :=
  match layer.params.get? name with
  | none => .error (.exl3Format
      s!"{layer.prefix_}: expected a '{name}' tensor for this EXL3 layer but the checkpoint has none")
  | some param =>
    match param.shards.get? index with
    | none => .error (.exl3Format
        s!"{layer.prefix_}: no '{name}' tensor was loaded for output shard {index} of {layer.exl3_output_sizes.length}")
    | some t => .ok t

/-- The tensors of one output shard. -/
structure ShardTensors (W R : Type) where
  trellis : Tensor W R
  suh : Tensor W R
  svh : Tensor W R

/-- One round of the loop of `process_weights_after_loading`. -/
def Layer.processShard (layer : Layer W R) (m : Method) (out_size index : Nat) :
    Except PyError (ShardTensors W R) := do
  let trellis ← layer.shard "trellis" index
  let suh ← layer.shard "suh" index
  let svh ← layer.shard "svh" index
  let _ ← bitsFromTrellisShape trellis.shape (some m.mul1)
  let (stored_in, stored_out) ← dimsFromTrellisShape trellis.shape
  checkShapes layer.exl3_input_size index stored_in stored_out out_size suh svh
  return ⟨trellis, suh, svh⟩

/-- What a layer keeps to serve from: the dense `exl3_weight` with its number of columns, or the tensors of
every output shard. -/
inductive Weights (W R : Type) where
  | dense (in_features : Nat) (exl3_weight : List (List R))
  | quantized (shards : List (ShardTensors W R))

/-- A layer that is ready to serve. -/
structure Served (W R : Type) where
  exl3_output_sizes : List Nat
  weights : Weights W R

section Run

variable [CommRing R] (K : Kernels W R) (m : Method)

/-- One round of the loop of `_store_dense`: the shard's dense weight, trimmed to the model's sizes. -/
def denseShard (exl3_input_size out_size : Nat) (s : ShardTensors W R) : Except PyError (List (List R)) :=
  match s.trellis, s.suh, s.svh with
  | .trellis trellis, .scale suh, .scale svh => do
    let weight ← Ops.denseWeight K.toExllamav3 trellis suh svh m.mcg m.mul1
    return (slice 0 out_size weight).map (slice 0 exl3_input_size)
  | _, _, _ => .error .index

/-- `_store_dense`. The rows that `torch.cat` joins are of the model's input size, which no stored tensor that
passed the checks is narrower than. -/
def storeDense (layer : Layer W R) (shards : List (ShardTensors W R)) : Except PyError (Weights W R) := do
  let weights ← (shards.zip layer.exl3_output_sizes).mapM fun (s, out_size) =>
    denseShard K m layer.exl3_input_size out_size s
  return .dense layer.exl3_input_size weights.flatten

/-- `_store_dense` or `_store_quantized` -/
def storeWeights (layer : Layer W R) (shards : List (ShardTensors W R)) : Except PyError (Weights W R) :=
  if m.dequantize then storeDense K m layer shards else .ok (.quantized shards)

/-- `process_weights_after_loading` -/
def processWeightsAfterLoading (layer : Layer W R) : Except PyError (Served W R) := do
  let shards ← layer.exl3_output_sizes.zipIdx.mapM fun (out_size, index) =>
    layer.processShard m out_size index
  let weights ← storeWeights K m layer shards
  return ⟨layer.exl3_output_sizes, weights⟩

/-! ## Serving -/

/-- One round of the loop of `apply`. -/
def serveShard (reconstruct_threshold reconstruct_tile_mb : Int) (x : Activations R)
    (s : ShardTensors W R) (out_size : Nat) : Except PyError (Activations R) :=
  match s.trellis, s.suh, s.svh with
  | .trellis trellis, .scale suh, .scale svh => do
    let y ← Ops.exl3Mm K reconstruct_threshold reconstruct_tile_mb x trellis suh svh m.mcg m.mul1
    return if y.width = out_size then y else y.trim out_size
  | _, _, _ => .error .index

/-- `parts[0] if len(parts) == 1 else torch.cat(parts, dim=-1)` -/
def catParts (lead : List Nat) : List (Activations R) → Except PyError (Activations R)
  | [] => .error .index
  | [y] => .ok y
  | parts => catLast lead parts

/-- `apply` -/
def apply (reconstruct_threshold reconstruct_tile_mb : Int) (served : Served W R) (x : Activations R)
    (bias : Option (List R)) : Except PyError (Activations R) :=
  match served.weights with
  | .dense in_features exl3_weight => linear x in_features exl3_weight bias
  | .quantized shards => do
    let parts ← (shards.zip served.exl3_output_sizes).mapM fun (s, out_size) =>
      serveShard K m reconstruct_threshold reconstruct_tile_mb x s out_size
    let out ← catParts x.lead parts
    addBias out bias

/-- A rank that creates its weights, loads what arrives, and processes it. -/
def loadLayer (layer : LinearBase) (input_size_per_partition : Nat) (output_partition_sizes : List Nat)
    (arrivals : List (Arrival W R)) : Except PyError (Served W R) := do
  let layer ← createWeights W R m layer input_size_per_partition output_partition_sizes
  let layer ← load layer arrivals
  processWeightsAfterLoading K m layer

end Run

end VllmExl3.LinearMethod
