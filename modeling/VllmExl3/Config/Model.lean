/-
# VllmExl3.Config.Model — `EXL3Config`: what a checkpoint says about itself, and what follows

`maybe_update_config` reads three things: the safetensors index, or a single file's header where
there is no index, and `quantization_config.json`. Everything else in `config.py` is decided from the
state that leaves behind: which modules are quantized, which method each layer gets, and how the
weight stream is rewritten. What the lookups return is an input here (`Checkpoint`), as is the part
of `hf_config` and the environment that is read. Logging and the compile-cache stamps are left out.

vLLM's own `WeightsMapper` is not modelled here; `get_cache_scale_mapper` returns the rules it adds.
-/
import VllmExl3.Format
import VllmExl3.Names
import VllmExl3.Lib.PyDict

namespace VllmExl3.Config

open PyStr Names
open Format (BLOCKQ_BLOCK checkBlockqHidden)

/-! ## Inputs -/

/-- The fields the config reads of a `tensor_storage` entry. -/
structure StorageEntry where
  quant_format : Option String
  dense_embedding_retained : Bool

/-- `quantization_config.json`. -/
structure QuantizationConfigJson where
  tensor_storage : Option (PyDict String StorageEntry)
  codebook : Option String

/-- What the metadata lookups return for a checkpoint. A lookup that fails, or is skipped because no
revision is known, returns nothing. -/
structure Checkpoint where
  index : Option (List String)
  header : List String
  extra : Option QuantizationConfigJson

/-- `config.json`'s quantization block, the `EXL3_*` environment, and what is read of `hf_config`. -/
structure Settings where
  head_bits : Option Nat
  codebook : Option String
  dense_embed : Bool
  blockq_on_load : Bool
  tie_word_embeddings : Bool
  hidden_size : Option Nat
  packed_modules_mapping : List (String × List String)

/-! ## State -/

structure EXL3Config where
  head_bits : Option Nat
  codebook : String
  tensor_storage : Option (PyDict String StorageEntry)
  blockq_modules : List String
  trellis_embed_modules : List String
  dense_embed_present : Bool
  quantized_modules : Option (List String)
  tie_word_embeddings : Option Bool
  dense_embed : Bool
  blockq_on_load : Bool
  hidden_size : Option Nat
  embed_prefix : String
  packed_modules_mapping : List (String × List String)

/-- `_CODEBOOK_TENSORS` -/
def CODEBOOK_TENSORS : List (String × Option String) :=
  [("mul1", some "mul1"), ("mcg", some "mcg"), ("3inst", none)]

/-- `EXL3Config.__init__` -/
def init (s : Settings) : Except PyError EXL3Config :=
  let codebook := match s.codebook with
    | some c => if c.isEmpty then "3inst" else c
    | none => "3inst"
  if CODEBOOK_TENSORS.any (fun p => p.1 = codebook) then
    .ok { head_bits := s.head_bits, codebook := codebook, tensor_storage := none
          blockq_modules := [], trellis_embed_modules := [], dense_embed_present := false
          quantized_modules := none, tie_word_embeddings := none, dense_embed := s.dense_embed
          blockq_on_load := s.blockq_on_load, hidden_size := none
          embed_prefix := "model.embed_tokens"
          packed_modules_mapping := s.packed_modules_mapping }
  else .error (.exl3Format
    s!"unknown EXL3 codebook '{codebook}'; this plugin knows ['3inst', 'mcg', 'mul1']")

/-! ## Answers -/

/-- The regular expressions `get_cache_scale_mapper` compiles. -/
inductive Pattern where
  /-- `lm_head\.(trellis|suh|svh|mcg|mul1|su|sv)$` -/
  | headStorage
  /-- `\.bq_[qsr]$` -/
  | blockq
  /-- `(^|\.)embed_tokens\.weight$` -/
  | denseEmbed
  deriving DecidableEq, Repr

/-- The rules a mapper adds: patterns whose names are dropped, prefixes and suffixes renamed. -/
structure MapperRules where
  orig_to_new_regex : List Pattern
  orig_to_new_prefix : List (String × String)
  orig_to_new_suffix : List (String × String)
  deriving DecidableEq, Repr

/-- The layers vLLM hands to `get_quant_method`. -/
inductive Layer where
  | linear
  | lmHead
  | vocabEmbedding
  | routedExperts
  | other
  deriving DecidableEq, Repr

/-- The methods it answers with. `EXL3BlockQ…EmbeddingMethod` keep the prefix they are given. -/
inductive Method where
  | UnquantizedLinearMethod
  | EXL3LinearMethod
  | EXL3TiedLMHeadMethod
  | EXL3LMHeadMethod
  | EXL3TrellisEmbeddingMethod
  | EXL3BlockQTiedEmbeddingMethod ( embed_prefix : String)
  | EXL3BlockQEmbeddingMethod ( embed_prefix : String)
  | EXL3EmbeddingMethod
  | EXL3MoEMethod
  deriving DecidableEq, Repr

namespace EXL3Config

/-! ## Loading -/

/-- `_load_index_modules`. The assignment of `_dense_embed_present` that follows the last `return` of
`_single_file_tensor_names` is never reached, so nothing here sets that field. -/
def loadIndexModules (cfg : EXL3Config) (ck : Checkpoint) : EXL3Config :=
  let weight_map := ck.index.getD []
  if weight_map.isEmpty then
    let names := ck.header
    let quantized := quantizedModuleKeys names
    let blockq := blockqModuleKeys names
    let cfg := { cfg with trellis_embed_modules := trellisEmbeddingKeys names }
    if quantized.isEmpty && blockq.isEmpty then cfg
    else { cfg with quantized_modules := some quantized, blockq_modules := blockq }
  else
    { cfg with
      trellis_embed_modules := trellisEmbeddingKeys weight_map
      quantized_modules := some (quantizedModuleKeys weight_map)
      blockq_modules := blockqModuleKeys weight_map }

/-- `_load_tensor_storage` -/
def loadTensorStorage (cfg : EXL3Config) (ck : Checkpoint) : EXL3Config :=
  let cfg := cfg.loadIndexModules ck
  match ck.extra with
  | some extra => { cfg with
      tensor_storage := extra.tensor_storage
      codebook := extra.codebook.getD cfg.codebook }
  | none => cfg

/-- `maybe_update_config` -/
def maybeUpdateConfig (cfg : EXL3Config) (ck : Checkpoint) (s : Settings) : EXL3Config :=
  { cfg.loadTensorStorage ck with
    tie_word_embeddings := some s.tie_word_embeddings
    hidden_size := s.hidden_size }

/-- `apply_vllm_mapper`, with `rename` the model's mapper on names (`none` drops one). -/
def applyVllmMapper (cfg : EXL3Config) (rename : String → Option String) : EXL3Config :=
  { cfg with
    tensor_storage := cfg.tensor_storage.map fun storage =>
      PyDict.ofList (storage.items.filterMap fun p => (rename p.1).map fun k => (k, p.2))
    quantized_modules := cfg.quantized_modules.map fun keys => keys.filterMap rename }

/-! ## Head and embedding -/

/-- `bool(self.tie_word_embeddings)` -/
def tied (cfg : EXL3Config) : Bool := cfg.tie_word_embeddings.getD false

/-- The values of `self.tensor_storage or {}`. -/
def storageEntries (cfg : EXL3Config) : List StorageEntry :=
  (cfg.tensor_storage.map PyDict.values).getD []

/-- `_head_storage_exists` -/
def headStorageExists (cfg : EXL3Config) : Bool :=
  match cfg.quantized_modules with
  | some modules => "lm_head" ∈ modules
  | none => match cfg.tensor_storage with
    | some storage => match storage.get? "lm_head" with
      | some head => head.quant_format = some "exl3"
      | none => false
    | none => cfg.head_bits.isSome

/-- `head_is_quantized` -/
def headIsQuantized (cfg : EXL3Config) : Bool := !cfg.tied && cfg.headStorageExists

/-- `embedding_is_quantized` -/
def embeddingIsQuantized (cfg : EXL3Config) : Bool :=
  if cfg.dense_embed then false else cfg.tied && cfg.headStorageExists

/-- `_blockq_evidence` -/
def blockqEvidence (cfg : EXL3Config) : Bool × Bool :=
  (!cfg.blockq_modules.isEmpty ||
      cfg.storageEntries.any fun entry => entry.quant_format = some "exl3_blockq",
    cfg.dense_embed_present || cfg.storageEntries.any fun entry => entry.dense_embedding_retained)

/-- `_on_load_is_possible` -/
def onLoadIsPossible (cfg : EXL3Config) : Bool :=
  if cfg.embeddingIsQuantized then false
  else match cfg.hidden_size with
    | none => false
    | some hidden => match checkBlockqHidden hidden BLOCKQ_BLOCK with
      | .error _ => false
      | .ok () => true

/-- `embedding_is_trellis` -/
def embeddingIsTrellis (cfg : EXL3Config) : Except PyError Bool :=
  if cfg.trellis_embed_modules.isEmpty then .ok false
  else if cfg.tied then .error (.exl3Format
    "this checkpoint stores a trellis-quantized embedding but its config ties the head to it, and that format cannot serve a head")
  else .ok true

/-- `embedding_is_blockq` -/
def embeddingIsBlockq (cfg : EXL3Config) : Bool :=
  let (stored, dense_present) := cfg.blockqEvidence
  if !cfg.trellis_embed_modules.isEmpty then false
  else if !stored && cfg.blockq_on_load && !cfg.dense_embed then cfg.onLoadIsPossible
  else if stored && cfg.dense_embed && dense_present then false
  else stored

/-! ## The weight stream -/

/-- `get_cache_scale_mapper`, without the base class's rules for KV-cache scales. -/
def getCacheScaleMapper (cfg : EXL3Config) : Except PyError MapperRules := do
  let tied_head_here := cfg.embeddingIsQuantized
  let blockq_embed := cfg.embeddingIsBlockq
  let head : List Pattern :=
    if cfg.headStorageExists && !(tied_head_here || cfg.headIsQuantized) then [.headStorage] else []
  if ← cfg.embeddingIsTrellis then
    return ⟨head, [], [(EMBED_TRELLIS_SUFFIX, ".embed_tokens.et_table"),
      (EMBED_SIGNS_SUFFIX, ".embed_tokens.et_signs")]⟩
  let (stored_blockq, dense_present) := cfg.blockqEvidence
  if stored_blockq && dense_present && !blockq_embed then
    return ⟨head ++ [.blockq], [], []⟩
  if !(tied_head_here || blockq_embed) then
    return ⟨head, [], []⟩
  if blockq_embed && !stored_blockq then
    return ⟨head, [], [(".embed_tokens.weight", ".embed_tokens.bq_src")]⟩
  return ⟨head ++ [.denseEmbed],
    if tied_head_here then [("lm_head.", cfg.embed_prefix ++ ".")] else [], []⟩

/-! ## Modules -/

/-- `_exl3_modules` -/
def exl3Modules (cfg : EXL3Config) : List String :=
  match cfg.quantized_modules with
  | some modules => modules
  | none => match cfg.tensor_storage with
    | some storage => (storage.items.filter fun p => p.2.quant_format = some "exl3").map Prod.fst
    | none => []

/-- `_quantized_ancestors` -/
def quantizedAncestors (cfg : EXL3Config) : List String :=
  cfg.exl3Modules.flatMap fun key =>
    let parts := split key
    (List.range' 1 (parts.length - 1)).map fun i => join (parts.take i)

/-- `_drop_one_component` -/
def dropOneComponent (pre : String) : List String :=
  let parts := split pre
  (List.range (parts.length - 1)).map fun i => join (parts.take i ++ parts.drop (i + 1))

/-- `_unfuse` -/
def unfuse (cfg : EXL3Config) (pre : String) : List String :=
  match cfg.packed_modules_mapping.find? fun p => endswith pre p.1 with
  | some (fused, parts) =>
    -- `prefix[:-0]` is the empty string
    let stem := if fused.isEmpty then "" else dropEnd pre fused.toList.length
    parts.map fun part => stem ++ part
  | none => [pre]

/-- `is_quantized` -/
def isQuantized (cfg : EXL3Config) (pre : String) : Bool :=
  if cfg.tensor_storage.isNone && cfg.quantized_modules.isNone then true
  else
    let candidates := cfg.unfuse pre
    let ancestors := cfg.quantizedAncestors
    candidates.any (fun key => key ∈ cfg.exl3Modules) ||
      candidates.any (fun key => key ∈ ancestors) ||
      candidates.any fun key => (dropOneComponent key).any fun variant => variant ∈ ancestors

/-! ## Methods -/

/-- `get_quant_method` and the config it leaves behind: constructing an embedding records its
prefix. -/
def getQuantMethod (cfg : EXL3Config) (layer : Layer) (pre : String) :
    Except PyError (Option Method × EXL3Config) :=
  match layer with
  | .linear =>
    if cfg.isQuantized pre then .ok (some .EXL3LinearMethod, cfg)
    else .ok (some .UnquantizedLinearMethod, cfg)
  | .lmHead =>
    if cfg.embeddingIsQuantized then .ok (some .EXL3TiedLMHeadMethod, cfg)
    else if cfg.headIsQuantized then .ok (some .EXL3LMHeadMethod, cfg)
    else .ok (none, cfg)
  | .vocabEmbedding => do
    let cfg := { cfg with embed_prefix := if pre.isEmpty then cfg.embed_prefix else pre }
    if ← cfg.embeddingIsTrellis then return (some .EXL3TrellisEmbeddingMethod, cfg)
    let blockq_embed := cfg.embeddingIsBlockq
    let tied_head_here := cfg.embeddingIsQuantized
    if blockq_embed then
      if tied_head_here then return (some (.EXL3BlockQTiedEmbeddingMethod cfg.embed_prefix), cfg)
      return (some (.EXL3BlockQEmbeddingMethod cfg.embed_prefix), cfg)
    if !tied_head_here then return (none, cfg)
    return (some .EXL3EmbeddingMethod, cfg)
  | .routedExperts =>
    if cfg.isQuantized pre then .ok (some .EXL3MoEMethod, cfg) else .ok (none, cfg)
  | .other => .ok (none, cfg)

end EXL3Config

/-- A config as vLLM has it before any layer is constructed: created from `config.json`, updated from
the checkpoint's metadata, and put through the model's own name mapper. -/
def load (s : Settings) (ck : Checkpoint) (rename : String → Option String) :
    Except PyError EXL3Config := do
  let cfg ← init s
  return (cfg.maybeUpdateConfig ck s).applyVllmMapper rename

end VllmExl3.Config
