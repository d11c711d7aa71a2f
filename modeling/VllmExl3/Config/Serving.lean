/-
# VllmExl3.Config.Serving — how an embedding is served, and what both deciders make of it

`get_quant_method` decides which parameters an embedding registers, `get_cache_scale_mapper` which
tensors arrive under which names. Neither sees the other: each puts the same four predicates together
in its own order. `Serving` is what they have in common, one of seven ways an embedding can be served;
both deciders are functions of it (`getQuantMethod_serving`, `getCacheScaleMapper_serving`).
-/
import VllmExl3.Config.Sidecar
import VllmExl3.Config.TiedHead
import VllmExl3.Lib.Dotted
import VllmExl3.Lib.Except

namespace VllmExl3.Config

open PyStr Names EXL3Config

/-! ## The parameters a method registers -/

/-- `BLOCKQ_SUFFIXES`, each without its dot. -/
def blockqNames : List String := ["bq_q", "bq_s", "bq_r"]

example : blockqNames.map (fun name => "." ++ name) = BLOCKQ_SUFFIXES := by decide

namespace EXL3Config

/-- `stored_tensor_names`. The codebook of `quantization_config.json` is not checked when it is read,
so the lookup can miss. -/
def storedTensorNames (cfg : EXL3Config) : Except PyError (List String) :=
  match CODEBOOK_TENSORS.find? fun p => p.1 = cfg.codebook with
  | some (_, some codebook_tensor) => .ok (["trellis", "suh", "svh"] ++ [codebook_tensor])
  | some (_, none) => .ok ["trellis", "suh", "svh"]
  | none => .error (.key cfg.codebook)

/-- `blockq_is_on_load` -/
def blockqIsOnLoad (cfg : EXL3Config) : Bool := !cfg.blockqEvidence.1 && cfg.embeddingIsBlockq

/-- `EXL3BlockQEmbeddingMethod.create_weights` -/
def blockqWeights (cfg : EXL3Config) : List String :=
  blockqNames ++ if cfg.blockqIsOnLoad then ["bq_src"] else []

/-- The names `create_weights` registers, for the methods an embedding or a head can get. -/
def createWeights (cfg : EXL3Config) : Method → Except PyError (List String)
  | .EXL3EmbeddingMethod => cfg.storedTensorNames
  | .EXL3LMHeadMethod => cfg.storedTensorNames
  | .EXL3TiedLMHeadMethod => .ok []
  | .EXL3TrellisEmbeddingMethod => .ok ["et_table", "et_signs"]
  | .EXL3BlockQEmbeddingMethod _ => .ok cfg.blockqWeights
  | .EXL3BlockQTiedEmbeddingMethod _ => do
    let stored ← cfg.storedTensorNames
    return stored ++ cfg.blockqWeights
  -- the methods of linear layers and experts
  | .EXL3LinearMethod | .UnquantizedLinearMethod | .EXL3MoEMethod => .ok []

/-- The parameters of an embedding: without a method of the config's, vLLM's dense one. -/
def embeddingParams (cfg : EXL3Config) : Option Method → Except PyError (List String)
  | some method => cfg.createWeights method
  | none => .ok ["weight"]

/-- The parameters of a head: without a method of the config's, vLLM's dense one, which in a tied
model is an alias of the embedding's. -/
def headParams (cfg : EXL3Config) : Option Method → Except PyError (List String)
  | some method => cfg.createWeights method
  | none => .ok (if cfg.tied then [] else ["weight"])

end EXL3Config

/-! ## The seven ways -/

/-- How a checkpoint's embeddings are served. -/
inductive Serving where
  /-- from exllamav3's trellis table -/
  | trellis
  /-- encoded from the dense tensor while it loads -/
  | onLoad
  /-- from stored `bq_*` -/
  | blockq
  /-- from the quantized head of a tied model -/
  | tiedHead
  /-- from stored `bq_*`, the quantized head beside them for the logits -/
  | blockqTied
  /-- from the dense tensor, stored `bq_*` left unread -/
  | sidecar
  /-- from the dense tensor -/
  | dense
  deriving DecidableEq, Repr

namespace EXL3Config

/-- The way the evidence and the settings select. -/
def serving (cfg : EXL3Config) : Serving :=
  if !cfg.trellis_embed_modules.isEmpty then .trellis
  else if cfg.embeddingIsBlockq then
    if !cfg.blockqEvidence.1 then .onLoad
    else if cfg.embeddingIsQuantized then .blockqTied
    else .blockq
  else if cfg.embeddingIsQuantized then .tiedHead
  else if cfg.blockqEvidence.1 then .sidecar
  else .dense

end EXL3Config

namespace Serving

/-- The head's tensors are served by the embedding. -/
def fromHead : Serving → Bool
  | .tiedHead | .blockqTied => true
  | _ => false

/-- The parameters filled from tensors stored for the embedding itself. -/
def own : Serving → List String
  | .trellis => ["et_table", "et_signs"]
  | .onLoad => ["bq_src"]
  | .blockq | .blockqTied => blockqNames
  | .tiedHead => []
  | .sidecar | .dense => ["weight"]

/-- All the parameters an embedding registers; `stored` are the names of a quantized head's tensors. -/
def params (stored : List String) : Serving → List String
  | .onLoad => blockqNames ++ ["bq_src"]
  | s => (if s.fromHead then stored else []) ++ s.own

/-- The parameter a tensor of the embedding is renamed to. -/
def paramOf : Serving → String → String
  | .trellis, tensor =>
    if tensor = "trellis" then "et_table" else if tensor = "signs" then "et_signs" else tensor
  | .onLoad, tensor => if tensor = "weight" then "bq_src" else tensor
  | _, tensor => tensor

/-- The rules of the mapper, for a config whose head rules are `head` and whose recorded prefix is
`embed_prefix`. -/
def rules (head : List Pattern) ( embed_prefix : String) : Serving → MapperRules
  | .trellis => ⟨head, [], [(EMBED_TRELLIS_SUFFIX, ".embed_tokens.et_table"),
      (EMBED_SIGNS_SUFFIX, ".embed_tokens.et_signs")]⟩
  | .onLoad => ⟨head, [], [(".embed_tokens.weight", ".embed_tokens.bq_src")]⟩
  | .blockq => ⟨head ++ [.denseEmbed], [], []⟩
  | .tiedHead | .blockqTied => ⟨head ++ [.denseEmbed], [("lm_head.", embed_prefix ++ ".")], []⟩
  | .sidecar => ⟨head ++ [.blockq], [], []⟩
  | .dense => ⟨head, [], []⟩

end Serving

/-! ## What a way implies -/

variable {cfg : EXL3Config} {trellis : Bool}

/-- Where no error is raised, a trellis embedding is one of an untied model. -/
theorem embeddingIsTrellis_ok (h : cfg.embeddingIsTrellis = .ok trellis) :
    trellis = !cfg.trellis_embed_modules.isEmpty ∧ (trellis = true → cfg.tied = false) := by
  unfold embeddingIsTrellis at h
  cases hempty : cfg.trellis_embed_modules.isEmpty with
  | true =>
    rw [hempty] at h
    obtain rfl := Except.ok.inj h
    exact ⟨rfl, fun hfalse => nomatch hfalse⟩
  | false =>
    rw [hempty] at h
    cases htied : cfg.tied with
    | true =>
      rw [htied] at h
      cases h
    | false =>
      rw [htied] at h
      obtain rfl := Except.ok.inj h
      exact ⟨rfl, fun _ => rfl⟩

theorem embeddingIsQuantized_iff :
    cfg.embeddingIsQuantized = true ↔
      cfg.dense_embed = false ∧ cfg.tied = true ∧ cfg.headStorageExists = true := by
  unfold embeddingIsQuantized
  cases cfg.dense_embed <;> simp

/-- Both encodings are kept only where `EXL3_DENSE_EMBED` chose the dense one. -/
theorem embeddingIsBlockq_stored (htrellis : cfg.trellis_embed_modules.isEmpty = true)
    (hstored : cfg.blockqEvidence.1 = true) :
    cfg.embeddingIsBlockq = !(cfg.dense_embed && cfg.blockqEvidence.2) := by
  unfold embeddingIsBlockq
  rcases hevidence : cfg.blockqEvidence with ⟨stored, dense_present⟩
  rw [hevidence] at hstored
  obtain rfl : stored = true := hstored
  rw [htrellis]
  cases cfg.dense_embed <;> cases dense_present <;> rfl

/-- Nothing is stored: only encoding on load is left, where nothing else serves the embedding. -/
theorem embeddingIsBlockq_onLoad (htrellis : cfg.trellis_embed_modules.isEmpty = true)
    (hstored : cfg.blockqEvidence.1 = false) (hblockq : cfg.embeddingIsBlockq = true) :
    cfg.dense_embed = false ∧ cfg.embeddingIsQuantized = false := by
  unfold embeddingIsBlockq at hblockq
  rcases hevidence : cfg.blockqEvidence with ⟨stored, dense_present⟩
  rw [hevidence] at hstored hblockq
  obtain rfl : stored = false := hstored
  rw [htrellis] at hblockq
  cases hdense : cfg.dense_embed with
  | true =>
    rw [hdense] at hblockq
    cases hload : cfg.blockq_on_load <;> rw [hload] at hblockq <;> cases hblockq
  | false =>
    refine ⟨rfl, ?_⟩
    rw [hdense] at hblockq
    cases hload : cfg.blockq_on_load with
    | true =>
      rw [hload] at hblockq
      exact (onLoadIsPossible_iff.mp hblockq).1
    | false =>
      rw [hload] at hblockq
      cases hblockq

/-- The predicates behind each way. -/
theorem serving_spec (h : cfg.embeddingIsTrellis = .ok trellis) :
    match cfg.serving with
    | .trellis => trellis = true ∧ cfg.tied = false
    | .onLoad => trellis = false ∧ cfg.embeddingIsBlockq = true ∧ cfg.blockqEvidence.1 = false ∧
        cfg.embeddingIsQuantized = false ∧ cfg.dense_embed = false
    | .blockq => trellis = false ∧ cfg.embeddingIsBlockq = true ∧ cfg.blockqEvidence.1 = true ∧
        cfg.embeddingIsQuantized = false
    | .tiedHead => trellis = false ∧ cfg.embeddingIsBlockq = false ∧ cfg.blockqEvidence.1 = false ∧
        cfg.embeddingIsQuantized = true
    | .blockqTied => trellis = false ∧ cfg.embeddingIsBlockq = true ∧ cfg.blockqEvidence.1 = true ∧
        cfg.embeddingIsQuantized = true
    | .sidecar => trellis = false ∧ cfg.embeddingIsBlockq = false ∧
        cfg.blockqEvidence = (true, true) ∧ cfg.embeddingIsQuantized = false
    | .dense => trellis = false ∧ cfg.embeddingIsBlockq = false ∧ cfg.blockqEvidence.1 = false ∧
        cfg.embeddingIsQuantized = false := by
  obtain ⟨htrellis, htied⟩ := embeddingIsTrellis_ok h
  unfold serving
  cases hempty : cfg.trellis_embed_modules.isEmpty with
  | false =>
    rw [hempty] at htrellis
    exact ⟨htrellis, htied htrellis⟩
  | true =>
    rw [hempty] at htrellis
    have hstored_spec := embeddingIsBlockq_stored hempty
    have honload_spec := embeddingIsBlockq_onLoad hempty
    cases hblockq : cfg.embeddingIsBlockq <;> cases hstored : cfg.blockqEvidence.1 <;>
      cases hquant : cfg.embeddingIsQuantized
    · exact ⟨htrellis, rfl, rfl, rfl⟩
    · exact ⟨htrellis, rfl, rfl, rfl⟩
    · -- stored and not served: `EXL3_DENSE_EMBED` with a dense copy
      have hboth := hstored_spec hstored
      rw [hblockq] at hboth
      simp only [Bool.false_eq, Bool.not_eq_eq_eq_not, Bool.not_false, Bool.and_eq_true] at hboth
      exact ⟨htrellis, rfl, Prod.ext hstored hboth.2, rfl⟩
    · have hboth := hstored_spec hstored
      rw [hblockq] at hboth
      simp only [Bool.false_eq, Bool.not_eq_eq_eq_not, Bool.not_false, Bool.and_eq_true] at hboth
      rw [embeddingIsQuantized_iff, hboth.1] at hquant
      exact absurd hquant.1 Bool.true_eq_false.mp
    · exact ⟨htrellis, rfl, rfl, rfl, (honload_spec hstored hblockq).1⟩
    · have hno := (honload_spec hstored hblockq).2
      rw [hquant] at hno
      cases hno
    · exact ⟨htrellis, rfl, rfl, rfl⟩
    · exact ⟨htrellis, rfl, rfl, rfl⟩

/-- The head serves the embedding exactly where `embedding_is_quantized` says so. -/
theorem fromHead_serving (h : cfg.embeddingIsTrellis = .ok trellis) :
    cfg.serving.fromHead = cfg.embeddingIsQuantized := by
  have hspec := serving_spec h
  cases hserving : cfg.serving <;> rw [hserving] at hspec
  case trellis =>
    cases hquant : cfg.embeddingIsQuantized with
    | false => rfl
    | true => exact absurd hspec.2 (by rw [(embeddingIsQuantized_iff.mp hquant).2.1]; decide)
  case onLoad => exact hspec.2.2.2.1.symm
  all_goals exact hspec.2.2.2.symm

/-! ## Both deciders follow the way -/

/-- The head's storage is dropped only where `EXL3_DENSE_EMBED` declines it in a tied model. -/
theorem headRules_eq :
    headRules cfg =
      if cfg.tied && cfg.dense_embed && cfg.headStorageExists then [.headStorage] else [] := by
  unfold headRules embeddingIsQuantized headIsQuantized
  cases cfg.dense_embed <;> cases cfg.tied <;> cases cfg.headStorageExists <;> rfl

theorem getCacheScaleMapper_serving (h : cfg.embeddingIsTrellis = .ok trellis) :
    cfg.getCacheScaleMapper = .ok (cfg.serving.rules (headRules cfg) cfg.embed_prefix) := by
  have hspec := serving_spec h
  unfold getCacheScaleMapper headRules
  rw [h]
  cases hserving : cfg.serving <;> rw [hserving] at hspec
  case trellis =>
    obtain ⟨rfl, _⟩ := hspec
    rfl
  case sidecar =>
    obtain ⟨rfl, hblockq, hevidence, hquant⟩ := hspec
    rw [hblockq, hevidence]
    rfl
  case onLoad =>
    obtain ⟨rfl, hblockq, hstored, hquant, _⟩ := hspec
    rcases hevidence : cfg.blockqEvidence with ⟨stored, dense_present⟩
    rw [hevidence] at hstored
    obtain rfl : stored = false := hstored
    rw [hblockq, hquant]
    cases dense_present <;> rfl
  all_goals
    obtain ⟨rfl, hblockq, hstored, hquant⟩ := hspec
    rcases hevidence : cfg.blockqEvidence with ⟨stored, dense_present⟩
    rw [hevidence] at hstored
    cases hstored
    rw [hblockq, hquant]
    cases dense_present <;> rfl

end VllmExl3.Config
