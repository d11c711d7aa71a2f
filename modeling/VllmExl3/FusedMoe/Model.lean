/-
# VllmExl3.FusedMoe.Model — a layer of routed experts (`fused_moe.py`)

EXL3 stores experts as separate tensors, so a layer registers one collector for every sub-tensor of its
two groups of projections, fills them as vLLM's loader delivers, and turns them into tables the grouped
kernel indexes by expert (`process_weights_after_loading`, which then lets the collectors go). A batch
runs three grouped products, the last of which weights and adds up each token's experts
(`_exl3_moe_mm`).

A table is the list of the tensors its addresses hold. Offloading and the expert cache move tensors and
rewrite tables, but what a table's entry holds stays the expert's own (`CpuOffload.Staging`,
`ExpertCache.StreamSafety`), so `place_expert` and `expert_tables` are the identity here. exllamav3's
kernel and torch's activations are parameters; casts are the identity over exact arithmetic.
-/
import VllmExl3.TensorParallel.Experts
import VllmExl3.Ops.Matmul
import VllmExl3.Lib.PyDict
import VllmExl3.Lib.PyStr
import Mathlib.Data.List.Sort
import Mathlib.Data.List.Dedup

namespace VllmExl3.FusedMoe

open Format (TILE HAD_BLOCK Bits bitsFromTrellisShape)
open TensorParallel PyStr

variable {W R : Type}

/-! ## Arriving tensors -/

/-- A tensor as `_moe_weight_loader` is handed it: as it is stored, or a trellis under a leading axis of
length one. -/
inductive Loaded (W R : Type) where
  | stored (t : Tensor W R)
  | unsqueezed (t : Trellis W)

/-- `weight.shape` -/
def Loaded.shape : Loaded W R → List Nat
  | .stored t => t.shape
  | .unsqueezed t => [1, t.rows, t.cols, t.words]

/-- `_lift`, for one tensor of the checkpoint; only a trellis has three axes. -/
def lift (name : String) (weight : Tensor W R) : Loaded W R :=
  match weight with
  | .trellis t => if endswith name ".trellis" then .unsqueezed t else .stored weight
  | _ => .stored weight

/-- `loaded_weight.squeeze(0)`, where there is a fourth axis. -/
def Loaded.squeeze : Loaded W R → Tensor W R
  | .stored t => t
  | .unsqueezed t => .trellis t

/-- The group of parameters a projection is collected in. -/
def groupOf : ShardId → String
  | .w1 => "w13_"
  | .w3 => "w13_"
  | .w2 => "w2_"

/-! ## Collectors -/

/-- `EXL3MoEParameter` -/
structure EXL3MoEParameter (W R : Type) where
  exl3_name : String
  exl3_tp_rank : Nat
  exl3_tp_size : Nat
  shards : PyDict (ShardId × Nat) (Tensor W R)

/-- `_moe_weight_loader` -/
def moeWeightLoader (param : EXL3MoEParameter W R) (loaded_weight : Loaded W R) (shard_id : ShardId)
    (expert_id : Nat) : Except PyError (EXL3MoEParameter W R) := do
  let t ← tpShard param.exl3_name loaded_weight.squeeze shard_id param.exl3_tp_rank param.exl3_tp_size
  return { param with shards := param.shards.set (shard_id, expert_id) t }

/-- vLLM's `FusedMoEConfig`, the fields that are read. -/
structure FusedMoEConfig where
  tp_size : Nat
  tp_rank : Nat
  ep_size : Nat

/-- A layer while it loads: its collectors by the name they are registered under. -/
structure Collectors (W R : Type) where
  params : PyDict String (EXL3MoEParameter W R)
  num_experts : Nat

/-- `create_weights`, for the names `stored_tensor_names()` lists. -/
def createWeights (W R : Type) (moe : FusedMoEConfig) (names : List String) (num_experts : Nat) :
    Except PyError (Collectors W R) :=
  if moe.ep_size > 1 then .error (.runtime
    "EXL3 routed experts do not support expert parallelism. exl3_mgemm can filter an expert range (\x60min_index\x60/\x60max_index\x60) but refuses to combine that with the multi-token weighted reduction this method relies on.")
  else
    let registered := ["w13_", "w2_"].flatMap fun group => names.map fun name =>
      (group ++ name, (⟨name, moe.tp_rank, moe.tp_size, .empty⟩ : EXL3MoEParameter W R))
    .ok ⟨.ofList registered, num_experts⟩

/-- One call of the loader: the sub-tensor, the projection and expert it belongs to, and the tensor. -/
structure Arrival (W R : Type) where
  name : String
  shard_id : ShardId
  expert_id : Nat
  weight : Loaded W R

/-- vLLM finds the parameter and calls its loader. -/
def receive (layer : Collectors W R) (a : Arrival W R) : Except PyError (Collectors W R) :=
  let key := groupOf a.shard_id ++ a.name
  match layer.params.get? key with
  | none => .error (.key key)
  | some param => do
    let param ← moeWeightLoader param a.weight a.shard_id a.expert_id
    return { layer with params := layer.params.set key param }

/-- The arrivals of a load, in order. -/
def load (layer : Collectors W R) (arrivals : List (Arrival W R)) : Except PyError (Collectors W R) :=
  arrivals.foldlM receive layer

/-! ## Tables -/

/-- A tuple of integers as Python prints it. -/
def tupleRepr : List Nat → String
  | [n] => "(" ++ toString n ++ ",)"
  | shape => "(" ++ ", ".intercalate (shape.map toString) ++ ")"

/-- A list of tuples as Python prints it. -/
def shapesRepr (shapes : List (List Nat)) : String := "[" ++ ", ".intercalate (shapes.map tupleRepr) ++ "]"

/-- `_collect` -/
def Collectors.collect (layer : Collectors W R) (group : String) (shard_id : ShardId) (name : String) :
    Except PyError (List (Tensor W R)) :=
  match layer.params.get? (group ++ name) with
  | none => .error (.exl3Format s!"expected a '{group}{name}' parameter for this MoE layer")
  | some param =>
    let experts := List.range layer.num_experts
    let missing := experts.filter fun e => !param.shards.contains (shard_id, e)
    if missing ≠ [] then
      let more := if missing.length > 4 then "..." else ""
      .error (.exl3Format
        s!"{group}{name}: no tensor loaded for experts {missing.take 4}{more} of {layer.num_experts}")
    else .ok (experts.filterMap fun e => param.shards.get? (shard_id, e))

/-- `_check_uniform` -/
def checkUniform (tensors : List (Tensor W R)) (what : String) : Except PyError Unit :=
  let shapes := (tensors.map Tensor.shape).dedup
  if shapes.length ≠ 1 then
    let listed := shapesRepr ((shapes.insertionSort fun a b => a ≤ b).take 3)
    .error (.exl3Format
      s!"{what}: experts disagree on shape ({listed}). exl3_mgemm takes one K and one shape per call, so mixed experts would need a per-expert loop instead of its pointer table.")
  else .ok ()

/-- The three tables of a projection, one entry an expert. -/
structure Tables (W R : Type) where
  trellis : List (Tensor W R)
  suh : List (Tensor W R)
  svh : List (Tensor W R)

/-- `tensors[0].shape` -/
def firstShape (tensors : List (Tensor W R)) : Except PyError (List Nat) :=
  match tensors.head? with
  | some t => .ok t.shape
  | none => .error .index

/-- One projection of `process_weights_after_loading`: its tables and its bit width. -/
def Collectors.projection (layer : Collectors W R) (mul1 : Bool) (shard_id : ShardId) :
    Except PyError (Tables W R × Bits) := do
  let group := groupOf shard_id
  let trellis ← layer.collect group shard_id "trellis"
  checkUniform trellis (group ++ "trellis")
  let suh ← layer.collect group shard_id "suh"
  checkUniform suh (group ++ "suh")
  let svh ← layer.collect group shard_id "svh"
  checkUniform svh (group ++ "svh")
  let shape ← firstShape trellis
  let bits ← bitsFromTrellisShape shape (some mul1)
  return (⟨trellis, suh, svh⟩, bits)

/-- A layer that is ready to serve. -/
structure Layer (W R : Type) where
  gate : Tables W R
  up : Tables W R
  down : Tables W R
  exl3_gate_bits : Bits
  exl3_down_bits : Bits
  exl3_interm_div : R
  exl3_stored_intermediate : Nat
  exl3_num_experts : Nat

/-- `process_weights_after_loading`; `_interm_divisor` is measured on the two groups of input scales. -/
def processWeightsAfterLoading
    (interm_divisor : List (Tensor W R) → List (Tensor W R) → Except PyError R) (mul1 : Bool)
    (layer : Collectors W R) : Except PyError (Layer W R) := do
  let (gate, gate_bits) ← layer.projection mul1 .w1
  let (up, up_bits) ← layer.projection mul1 .w3
  let (down, down_bits) ← layer.projection mul1 .w2
  if gate_bits ≠ up_bits then .error (.exl3Format
    s!"gate and up projections have different bit widths ({gate_bits.repr} vs {up_bits.repr}); exl3_mgemm takes one K per call")
  else do
    let interm_div ← interm_divisor gate.suh up.suh
    let shape ← firstShape gate.trellis
    match shape[1]? with
    | none => .error .index
    | some cols =>
      return ⟨gate, up, down, gate_bits, down_bits, interm_div, cols * TILE, layer.num_experts⟩

/-! ## Kernels -/

/-- What torch and exllamav3's extension supply to a layer of experts: uninitialised memory, the grouped
product, and the activations. -/
structure Kernels (W R : Type) extends Exllamav3 W R where
  empty : Nat → Nat → List (List R)
  exl3_mgemm : List (List R) → Tables W R → List (List R) → List Nat → Option (List R) → Bits → Bool →
    Bool → Int → Int → Nat → Except PyError (List (List R))
  silu : R → R
  gelu : R → R
  gelu_tanh : R → R

/-- `_GATED_ACTIVATIONS` -/
def Kernels.GATED_ACTIVATIONS (K : Kernels W R) : List (String × (R → R)) :=
  [("silu", K.silu), ("gelu", K.gelu), ("gelu_tanh", K.gelu_tanh)]

/-- A batch's routing: for each token `top_k` experts, each with a weight. -/
structure Routing (R : Type) where
  top_k : Nat
  topk_ids : List (List Nat)
  topk_weights : List (List R)
  ids_eq : ∀ row ∈ topk_ids, row.length = top_k
  weights_eq : ∀ row ∈ topk_weights, row.length = top_k

section Run

variable [CommRing R] [DecidableEq R] (K : Kernels W R)

/-- `fn` of `_gated_activation`: the activation of that name. -/
def gatedActivation (name : String) : Except PyError (R → R) :=
  match K.GATED_ACTIVATIONS.find? fun p => p.1 = name with
  | some p => .ok p.2
  | none => .error (.runtime
    s!"EXL3 MoE does not implement the '{name}' activation; known: ['gelu', 'gelu_tanh', 'silu']")

/-- `_exl3_moe_mm` on the layer's tables; `x` has `hidden` columns. -/
def exl3MoeMm (x : List (List R)) (hidden : Nat) (routing : Routing R) (layer : Layer W R)
    (mcg mul1 : Bool) (activation : String) : Except PyError (List (List R)) := do
  let num_tokens := x.length
  let bszm := num_tokens * routing.top_k
  if num_tokens = 0 then return []
  -- slot `j` holds the activations of token `j // top_k`
  let gathered := x.flatMap (List.replicate routing.top_k)
  let indices := routing.topk_ids.flatten
  let weights := routing.topk_weights.flatten
  let interm := K.empty bszm layer.exl3_stored_intermediate
  let hi : Int := layer.exl3_num_experts - 1
  let interm_g ← K.exl3_mgemm gathered layer.gate interm indices none layer.exl3_gate_bits mcg mul1
    (-1) hi num_tokens
  let interm_u ← K.exl3_mgemm gathered layer.up interm indices none layer.exl3_gate_bits mcg mul1
    (-1) hi num_tokens
  let fn ← gatedActivation K activation
  let interm_a := List.zipWith (gated fn) interm_g interm_u
  let out ← K.exl3_mgemm interm_a layer.down (K.empty bszm hidden) indices (some weights)
    layer.exl3_down_bits mcg mul1 (-1) hi num_tokens
  return out.take num_tokens

/-- What `apply` reads of the layer's module besides its tables: vLLM's flags, and the rows the expert
cache's controller is told the routing of, where there is a cache. -/
structure Served where
  apply_router_weight_on_input : Bool
  activation : String
  exl3_route : Option (List (List Nat))

/-- `layer.exl3_route[:rows].copy_(topk_ids[:rows])` -/
def copyRoute (route topk_ids : List (List Nat)) (num_tokens : Nat) : List (List Nat) :=
  let rows := min num_tokens route.length
  topk_ids.take rows ++ route.drop rows

/-- `apply`: the output, and what `exl3_route` holds after it. -/
def apply (served : Served) (layer : Layer W R) (mcg mul1 : Bool) (x : Ops.Activations R)
    (routing : Routing R) : Except PyError (Ops.Activations R × Option (List (List Nat))) := do
  if served.apply_router_weight_on_input then throw (.runtime
    "apply_router_weight_on_input is not supported by the EXL3 MoE method; exl3_mgemm applies routing weights in its reduction.")
  let route := served.exl3_route.map fun route => copyRoute route routing.topk_ids x.rows.length
  let out ← exl3MoeMm K x.rows x.width routing layer mcg mul1 served.activation
  let out := if layer.exl3_interm_div ≠ 1 then out.map (·.map (· * layer.exl3_interm_div)) else out
  let y ← Ops.Activations.view x.lead x.width out
  return (y, route)

end Run

end VllmExl3.FusedMoe
