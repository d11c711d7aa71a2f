/-
# VllmExl3.LMHead.Model — the quantized output projection (`quantization/lm_head.py`)

`EXL3LMHeadMethod` on one rank of a vocabulary split: the parameters `create_weights` registers, the
loader that cuts the stored head on the rank's slice of the padded vocabulary, the checks of
`process_weights_after_loading` and the two serving paths of `apply`. What vLLM decides, the padding of
the vocabulary to a multiple of 64 and the rank's boundaries in it, is `VocabSplit`.
-/
import VllmExl3.Ops.Matmul
import VllmExl3.TensorParallel.Experts
import VllmExl3.TensorParallel.Parameter

namespace VllmExl3.LMHead

open Format (PAD_TO padDim checkTpSplit bitsFromTrellisShape dimsFromTrellisShape)
open TensorParallel (Trellis Tensor Linear EXL3Parameter roleOf)
open Ops (Activations Kernels)

variable {W R : Type}

/-! ## vLLM's layer -/

/-- `VocabParallelEmbeddingShardIndices`, the fields the method reads. -/
structure ShardIndices where
  padded_org_vocab_start_index : Nat
  padded_org_vocab_end_index : Nat
  org_vocab_start_index : Nat
  org_vocab_end_index : Nat

/-- The fields of vLLM's `ParallelLMHead` the method reads. -/
structure ParallelLMHead where
  shard_indices : ShardIndices
  tp_rank : Nat
  tp_size : Nat
  org_vocab_size : Nat
  num_embeddings_per_partition : Nat

/-- `DEFAULT_VOCAB_PADDING_SIZE` -/
def VOCAB_PADDING_SIZE : Nat := 64

/-- A vocabulary that vLLM can split: padded to a multiple of 64, in equal parts. -/
structure VocabSplit where
  org_vocab_size : Nat
  tp_size : Nat
  num_embeddings_per_partition : Nat
  tp_pos : 0 < tp_size
  padded_eq : tp_size * num_embeddings_per_partition = padDim org_vocab_size VOCAB_PADDING_SIZE

/-- The layer vLLM builds on a rank: its part of the padded vocabulary, and what of it is real. -/
def VocabSplit.layer (v : VocabSplit) (rank : Nat) : ParallelLMHead where
  shard_indices :=
    let first := rank * v.num_embeddings_per_partition
    let last := first + v.num_embeddings_per_partition
    { padded_org_vocab_start_index := first
      padded_org_vocab_end_index := last
      org_vocab_start_index := min first v.org_vocab_size
      org_vocab_end_index := min last v.org_vocab_size }
  tp_rank := rank
  tp_size := v.tp_size
  org_vocab_size := v.org_vocab_size
  num_embeddings_per_partition := v.num_embeddings_per_partition

/-! ## Creating and loading -/

/-- What the method reads of its `quant_config`: `stored_tensor_names()` and `dequantize`. -/
structure Method where
  names : List String
  dequantize : Bool

/-- `"mcg" in names` -/
def Method.mcg (m : Method) : Bool := m.names.contains "mcg"

/-- `"mul1" in names` -/
def Method.mul1 (m : Method) : Bool := m.names.contains "mul1"

/-- A head with the parameters registered on it. -/
structure Layer (W R : Type) extends ParallelLMHead where
  params : PyDict String (EXL3Parameter (Tensor W R))
  exl3_input_size : Nat
  exl3_real_rows : Nat
  exl3_vocab_slice : Nat

/-- `create_weights` -/
def createWeights (W R : Type) (m : Method) (layer : ParallelLMHead)
    (input_size_per_partition : Nat) : Except PyError (Layer W R) := do
  let indices := layer.shard_indices
  let first := indices.padded_org_vocab_start_index
  let last := indices.padded_org_vocab_end_index
  if layer.tp_size > 1 then
    checkTpSplit ((last - first) * layer.tp_size) layer.tp_size "lm_head vocab"
  return { layer with
    params := PyDict.ofList (m.names.map fun name => (name,
      { role := roleOf name, tp_rank := layer.tp_rank, tp_size := layer.tp_size,
        column_shard_size := some (last - first), row_shard_size := none,
        output_partition_sizes := [], shards := PyDict.empty }))
    exl3_input_size := input_size_per_partition
    exl3_real_rows := indices.org_vocab_end_index - indices.org_vocab_start_index
    exl3_vocab_slice := last - first }

/-- `_lm_head_weight_loader` -/
def lmHeadWeightLoader (param : EXL3Parameter (Tensor W R)) (loaded_weight : Tensor W R) :
    Except PyError (EXL3Parameter (Tensor W R)) := do
  let t ← param.takeColumn loaded_weight param.column_shard_size param.tp_rank
  return param.store t 0

/-- vLLM's loop over the checkpoint's tensors, each handed to the parameter of its name. -/
def loadWeights (tensors : List (String × Tensor W R)) (layer : Layer W R) :
    Except PyError (Layer W R) :=
  tensors.foldlM (fun layer s => do
    match layer.params.get? s.1 with
    | none => throw (.key s.1)
    | some param =>
      let param ← lmHeadWeightLoader param s.2
      return { layer with params := layer.params.set s.1 param }) layer

/-! ## After loading -/

/-- `_shard`, for a layer without a prefix -/
def shard (params : PyDict String (EXL3Parameter (Tensor W R))) (name : String) (index : Nat) :
    Except PyError (Tensor W R) :=
  match params.get? name with
  | none => .error (.exl3Format
      s!"<layer>: expected a '{name}' tensor for this EXL3 layer but the checkpoint has none")
  | some param =>
    match param.shards.get? index with
    | none => .error (.exl3Format
        s!"<layer>: no '{name}' tensor was loaded for output shard {index} of 1")
    | some t => .ok t

/-- `t.numel()` -/
def numel (t : Tensor W R) : Nat := t.shape.prod

/-- `_check_shapes` -/
def checkShapes (exl3_input_size index stored_in stored_out out_size : Nat) (suh svh : Tensor W R) :
    Except PyError Unit :=
  let expected_in := padDim exl3_input_size PAD_TO
  let expected_out := padDim out_size PAD_TO
  if stored_in ≠ expected_in ∨ stored_out ≠ expected_out then .error (.exl3Format
    s!"shard {index}: checkpoint stores a {stored_in}x{stored_out} EXL3 tensor, but vLLM's layer wants {exl3_input_size}x{out_size} (padded to {expected_in}x{expected_out})")
  else if numel suh ≠ stored_in ∨ numel svh ≠ stored_out then .error (.exl3Format
    s!"shard {index}: suh/svh lengths {numel suh}/{numel svh} do not match trellis dimensions {stored_in}/{stored_out}")
  else .ok ()

/-- What a layer keeps to serve from: the dense `exl3_weight` with its number of columns, or the
quantized tensors. -/
inductive Weights (W R : Type) where
  | dense (in_features : Nat) (exl3_weight : List (List R))
  | quantized (trellis : Trellis W) (suh svh : List R)

/-- A layer that is ready to serve. -/
structure Served (W R : Type) extends ParallelLMHead where
  exl3_real_rows : Nat
  weights : Weights W R

/-- The end of `process_weights_after_loading`: the dense weight, trimmed and padded with zero rows, or
the tensors as they are. -/
def storeWeights [CommRing R] (K : Kernels W R) (m : Method)
    (exl3_input_size exl3_real_rows target stored_in : Nat) (trellis suh svh : Tensor W R) :
    Except PyError (Weights W R) :=
  match trellis, suh, svh with
  | .trellis trellis, .scale suh, .scale svh =>
    if m.dequantize then do
      let weight ← Ops.denseWeight K.toExllamav3 trellis suh svh m.mcg m.mul1
      let in_features := min exl3_input_size stored_in
      let weight := (slice 0 exl3_real_rows weight).map (slice 0 exl3_input_size)
      return .dense in_features
        (weight ++ List.replicate (target - weight.length) (List.replicate in_features 0))
    else .ok (.quantized trellis suh svh)
  | _, _, _ => .error .index

/-- `process_weights_after_loading` -/
def processWeightsAfterLoading [CommRing R] (K : Kernels W R) (m : Method) (layer : Layer W R) :
    Except PyError (Served W R) := do
  let trellis ← shard layer.params "trellis" 0
  let suh ← shard layer.params "suh" 0
  let svh ← shard layer.params "svh" 0
  let _ ← bitsFromTrellisShape trellis.shape (some m.mul1)
  let (stored_in, stored_out) ← dimsFromTrellisShape trellis.shape
  let expected := if layer.tp_size = 1 then layer.org_vocab_size else layer.exl3_vocab_slice
  checkShapes layer.exl3_input_size 0 stored_in stored_out expected suh svh
  let target := layer.num_embeddings_per_partition
  if layer.exl3_real_rows > target then throw (.exl3Format
    s!"lm_head slice has {layer.exl3_real_rows} real vocabulary rows but vLLM allocated only {target}")
  let weights ← storeWeights K m layer.exl3_input_size layer.exl3_real_rows target stored_in trellis suh svh
  return { layer with weights := weights }

/-! ## Serving -/

/-- `F.pad(y, (0, n))` -/
def padRight [Zero R] (n : Nat) (y : Activations R) : Activations R where
  lead := y.lead
  width := y.width + n
  rows := y.rows.map (Activations.padRow n)
  rows_eq := by rw [List.length_map, y.rows_eq]
  width_eq := by
    intro row hrow
    obtain ⟨row', hrow', rfl⟩ := List.mem_map.mp hrow
    rw [Activations.padRow, List.length_append, List.length_replicate, y.width_eq row' hrow']

/-- `y + bias`, for a bias with one entry a column -/
def addBias [Add R] (y : Activations R) : Option (List R) → Except PyError (Activations R)
  | none => .ok y
  | some bias =>
    if bias.length ≠ y.width then .error (.runtime "the sizes of the tensors must match")
    else Activations.view y.lead y.width (y.rows.map fun row => List.zipWith (· + ·) row bias)

/-- `F.linear(x, weight, bias)` -/
def linear [CommRing R] (x : Activations R) (in_features : Nat) (weight : List (List R))
    (bias : Option (List R)) : Except PyError (Activations R) := do
  if x.width ≠ in_features then throw (.runtime "mat1 and mat2 shapes cannot be multiplied")
  let y ← Activations.view x.lead weight.length (x.rows.map (Ops.linearRow weight))
  addBias y bias

/-- `apply` -/
def apply [CommRing R] (K : Kernels W R) (reconstruct_threshold reconstruct_tile_mb : Int) (m : Method)
    (layer : Served W R) (x : Activations R) (bias : Option (List R)) :
    Except PyError (Activations R) :=
  match layer.weights with
  | .dense in_features exl3_weight => linear x in_features exl3_weight bias
  | .quantized trellis suh svh => do
    let logits ← Ops.exl3Mm K reconstruct_threshold reconstruct_tile_mb x trellis suh svh m.mcg m.mul1
    let target := layer.num_embeddings_per_partition
    let real := layer.exl3_real_rows
    let logits :=
      if logits.width ≠ target ∨ real < target then
        let logits := logits.trim real
        if real < target then padRight (target - real) logits else logits
      else logits
    addBias logits bias

/-- `torch.cat(parts, dim=-1)` over tensors with the same leading dimensions -/
def catLast (lead : List Nat) (parts : List (Activations R)) : Except PyError (Activations R) :=
  Activations.view lead (parts.map Activations.width).sum
    (tabulate lead.prod fun i => (parts.map fun y => y.rows.getD i []).flatten)

/-! ## The split head -/

section Head

variable [CommRing R] (K : Kernels W R) (reconstruct_threshold reconstruct_tile_mb : Int) (m : Method)
  (L : Linear W R) (v : VocabSplit)

/-- A rank that creates its weights, loads a stored head and processes it. -/
def loadRank (hidden rank : Nat) : Except PyError (Served W R) := do
  let layer ← createWeights W R m (v.layer rank) hidden
  let layer ← loadWeights L.subTensors layer
  processWeightsAfterLoading K m layer

/-- A rank's logits, with its part of the bias. -/
def rankLogits (hidden rank : Nat) (x : Activations R) (bias : Option (List R)) :
    Except PyError (Activations R) := do
  let served ← loadRank K m L v hidden rank
  let first := rank * v.num_embeddings_per_partition
  apply K reconstruct_threshold reconstruct_tile_mb m served x
    (bias.map (slice first (first + v.num_embeddings_per_partition)))

/-- All ranks' logits, concatenated. -/
def headLogits (hidden : Nat) (x : Activations R) (bias : Option (List R)) :
    Except PyError (Activations R) := do
  let parts ← (List.range v.tp_size).mapM fun rank =>
    rankLogits K reconstruct_threshold reconstruct_tile_mb m L v hidden rank x bias
  catLast x.lead parts

/-- The whole stored head on the same path, its padding columns included. -/
def unsplitLogits (x : Activations R) : Except PyError (Activations R) :=
  if m.dequantize then Ops.denseLinear K.toExllamav3 L (Format.TILE * L.trellis.cols) x
  else Ops.exl3Mm K reconstruct_threshold reconstruct_tile_mb x L.trellis L.suh L.svh L.mcg.isSome
    L.mul1.isSome

end Head

end VllmExl3.LMHead
