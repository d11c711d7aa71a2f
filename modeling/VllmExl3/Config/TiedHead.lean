/-
# VllmExl3.Config.TiedHead — when a tied model's embedding method can serve its logits

A tied model runs its logits through the method of its token embedding. Two of the four embedding
methods only look rows up: their `apply` raises. Which method a tied model gets follows from four
overlapping predicates; `tied_embedding_servable` says exactly when the answer has a matmul path.

It does not always. The on-load default asks only whether a quantized head already serves the
embedding, so a tied checkpoint with a dense embedding and no quantized head is handed the lookup-only
method; so is a tied checkpoint with stored `bq_*` tensors whose head is not quantized, or whose
quantized head `EXL3_DENSE_EMBED` declines while its dense copy is gone.
-/
import VllmExl3.Config.Load

namespace VllmExl3.Config

open PyStr Names EXL3Config
open Format (BLOCKQ_BLOCK checkBlockqHidden)

/-- The methods whose `apply` computes logits; `none` is vLLM's dense default. -/
def hasMatmul : Option Method → Bool
  | none => true
  | some .EXL3EmbeddingMethod => true
  | some (.EXL3BlockQTiedEmbeddingMethod _) => true
  | some _ => false

/-- The tied checkpoints and settings whose embedding can serve the head. With `bq_*` stored: the
dense copy was retained where `EXL3_DENSE_EMBED` asks for it, and a quantized head is stored where it
does not. Without: a quantized head is stored, or nothing is encoded on load. -/
def TiedServable (s : Settings) (ck : Checkpoint) (rename : String → Option String) : Prop :=
  (ck.StoresBlockq rename →
    if s.dense_embed then ck.RetainsDense rename else ck.StoresHead rename s.head_bits) ∧
  (¬ck.StoresBlockq rename → ck.StoresHead rename s.head_bits ∨ s.dense_embed = true ∨
    s.blockq_on_load = false ∨ ∀ hidden, s.hidden_size = some hidden → ¬BLOCKQ_BLOCK ∣ hidden)

variable {s : Settings} {ck : Checkpoint} {rename : String → Option String} {cfg cfg' : EXL3Config}
  {pre : String} {m : Option Method}

/-- The hidden sizes `check_blockq_hidden` accepts. -/
theorem checkBlockqHidden_iff {hidden : Nat} :
    checkBlockqHidden hidden BLOCKQ_BLOCK = .ok () ↔ BLOCKQ_BLOCK ∣ hidden := by
  constructor
  · intro h
    unfold checkBlockqHidden at h
    split_ifs at h with hzero hblock heven
    exact Nat.dvd_of_mod_eq_zero (not_not.mp hblock)
  · exact fun h => Format.checkBlockqHidden_ok (Nat.mod_eq_zero_of_dvd h)

theorem onLoadIsPossible_iff :
    cfg.onLoadIsPossible = true ↔ cfg.embeddingIsQuantized = false ∧
      ∃ hidden, cfg.hidden_size = some hidden ∧ BLOCKQ_BLOCK ∣ hidden := by
  unfold onLoadIsPossible
  cases cfg.embeddingIsQuantized with
  | true => simp
  | false =>
    cases cfg.hidden_size with
    | none => simp
    | some hidden =>
      simp only [Bool.false_eq_true, if_false, true_and, Option.some.injEq, exists_eq_left',
        ← checkBlockqHidden_iff]
      cases checkBlockqHidden hidden BLOCKQ_BLOCK <;> simp

/-- The method of an embedding that is not exllamav3's trellis one. -/
def embeddingMethod (cfg : EXL3Config) ( embed_prefix : String) : Option Method :=
  match cfg.embeddingIsBlockq, cfg.embeddingIsQuantized with
  | true, true => some (.EXL3BlockQTiedEmbeddingMethod embed_prefix)
  | true, false => some (.EXL3BlockQEmbeddingMethod embed_prefix)
  | false, true => some .EXL3EmbeddingMethod
  | false, false => none

/-- What `get_quant_method` answers for an embedding, and the prefix it records. -/
theorem getQuantMethod_embedding (cfg : EXL3Config) (pre : String) :
    cfg.getQuantMethod .vocabEmbedding pre = do
      let embed_prefix := if pre.isEmpty then cfg.embed_prefix else pre
      let trellis ← cfg.embeddingIsTrellis
      return (if trellis then some .EXL3TrellisEmbeddingMethod else embeddingMethod cfg embed_prefix,
        { cfg with embed_prefix := embed_prefix }) := by
  unfold getQuantMethod embeddingMethod
  dsimp only
  show (cfg.embeddingIsTrellis >>= _) = (cfg.embeddingIsTrellis >>= _)
  rcases cfg.embeddingIsTrellis with err | trellis
  · rfl
  · cases trellis with
    | true => rfl
    | false =>
      -- neither predicate reads the prefix just recorded
      have hblockq : ∀ p, ({ cfg with embed_prefix := p } : EXL3Config).embeddingIsBlockq =
        cfg.embeddingIsBlockq := fun _ => rfl
      have hquant : ∀ p, ({ cfg with embed_prefix := p } : EXL3Config).embeddingIsQuantized =
        cfg.embeddingIsQuantized := fun _ => rfl
      simp only [hblockq, hquant]
      cases cfg.embeddingIsBlockq <;> cases cfg.embeddingIsQuantized <;> rfl

/-- A tied model whose embedding is not the trellis one gets `embeddingMethod`, or an error. -/
theorem getQuantMethod_tied (htied : cfg.tied = true)
    (h : cfg.getQuantMethod .vocabEmbedding pre = .ok (m, cfg')) :
    cfg.trellis_embed_modules.isEmpty = true ∧ ∃ embed_prefix, m = embeddingMethod cfg embed_prefix := by
  rw [getQuantMethod_embedding] at h
  rcases hempty : cfg.trellis_embed_modules.isEmpty with _ | _
  · have herr : ∃ err, cfg.embeddingIsTrellis = .error err := by
      rw [embeddingIsTrellis, hempty, htied]
      exact ⟨_, rfl⟩
    obtain ⟨err, herr⟩ := herr
    rw [herr] at h
    cases h
  · have hno : cfg.embeddingIsTrellis = .ok false := by
      rw [embeddingIsTrellis, hempty]
      rfl
    rw [hno] at h
    exact ⟨rfl, _, (Prod.mk.inj (Except.ok.inj h)).1.symm⟩

theorem hasMatmul_embeddingMethod (cfg : EXL3Config) ( embed_prefix : String) :
    hasMatmul (embeddingMethod cfg embed_prefix) =
      (!cfg.embeddingIsBlockq || cfg.embeddingIsQuantized) := by
  unfold embeddingMethod
  cases cfg.embeddingIsBlockq <;> cases cfg.embeddingIsQuantized <;> rfl

/-- A tied model's logits are servable in exactly the cases `TiedServable` lists: for every
checkpoint, model name mapper and setting that raise nothing, the method a tied model's embedding
gets has a matmul path if and only if they are among them. -/
theorem tied_embedding_servable (hload : load s ck rename = .ok cfg)
    (htied : s.tie_word_embeddings = true)
    (hmethod : cfg.getQuantMethod .vocabEmbedding pre = .ok (m, cfg')) :
    hasMatmul m = true ↔ TiedServable s ck rename := by
  have hloaded := load_spec hload
  have htied' : cfg.tied = true := hloaded.tied.trans htied
  obtain ⟨hempty, embed_prefix, rfl⟩ := getQuantMethod_tied htied' hmethod
  have hquant : cfg.embeddingIsQuantized = (!s.dense_embed && cfg.headStorageExists) := by
    rw [embeddingIsQuantized, hloaded.dense_embed, htied', Bool.true_and]
    cases s.dense_embed <;> rfl
  rw [hasMatmul_embeddingMethod, TiedServable, ← hloaded.stored_iff, ← hloaded.dense_present_iff,
    ← hloaded.headStorageExists_iff, embeddingIsBlockq, hempty]
  simp only [Bool.not_true, Bool.false_eq_true, if_false, hloaded.blockq_on_load,
    hloaded.dense_embed]
  rcases Bool.eq_false_or_eq_true cfg.blockqEvidence.1 with hstored | hstored
  · -- `bq_*` are stored
    simp only [hstored, hquant, Bool.not_true, Bool.false_and, Bool.false_eq_true, if_false,
      Bool.true_and, not_true_eq_false, false_implies, and_true, true_implies]
    cases s.dense_embed <;> cases cfg.blockqEvidence.2 <;> simp
  · -- nothing is stored, so the only way to the lookup-only method is encoding on load
    simp only [hstored, Bool.not_false, Bool.true_and, Bool.false_and, Bool.false_eq_true, if_false,
      false_implies, true_and, not_false_eq_true, true_implies]
    have hidden_iff : (∀ hidden, s.hidden_size = some hidden → ¬BLOCKQ_BLOCK ∣ hidden) ↔
        ¬∃ hidden, cfg.hidden_size = some hidden ∧ BLOCKQ_BLOCK ∣ hidden := by
      simp [hloaded.hidden_size]
    have honload : cfg.onLoadIsPossible = true ↔ _ := onLoadIsPossible_iff
    rw [hquant] at honload ⊢
    rw [hidden_iff]
    rcases hflags : s.blockq_on_load && !s.dense_embed with _ | _
    · revert hflags
      cases s.blockq_on_load <;> cases s.dense_embed <;> simp
    · obtain ⟨honflag, hdense⟩ : s.blockq_on_load = true ∧ s.dense_embed = false := by
        simpa using hflags
      rw [hdense, Bool.not_false, Bool.true_and] at honload ⊢
      rw [if_pos rfl, honflag]
      cases hhead : cfg.headStorageExists with
      | true => simp
      | false =>
        rw [hhead, eq_self_iff_true, true_and] at honload
        simp only [Bool.or_false, Bool.not_eq_true', Bool.false_eq_true, Bool.true_eq_false,
          false_or, ← honload, Bool.not_eq_true]

/-! ### Two tied checkpoints under the default settings -/

/-- A tied model of hidden size 2048, no environment variable set. -/
def tiedSettings : Settings where
  head_bits := none
  codebook := none
  dense_embed := false
  blockq_on_load := true
  tie_word_embeddings := true
  hidden_size := some 2048
  packed_modules_mapping := []

/-- A checkpoint of these tensors that ships an index and no `quantization_config.json`. -/
def indexed (names : List String) : Checkpoint where
  index := some names
  header := []
  extra := none

/-- With a dense embedding and no quantized head, the embedding is encoded on load, and the method it
gets has no matmul path. -/
theorem tied_dense_not_servable :
    (load tiedSettings (indexed ["model.embed_tokens.weight",
        "model.layers.0.self_attn.q_proj.trellis"]) some >>= fun cfg =>
      cfg.getQuantMethod .vocabEmbedding "model.embed_tokens").map
        (fun r => (r.1, hasMatmul r.1)) =
      .ok (some (.EXL3BlockQEmbeddingMethod "model.embed_tokens"), false) := by
  rfl

/-- The config a tied checkpoint with a quantized head loads into. -/
def quantizedHeadConfig : EXL3Config where
  head_bits := none
  codebook := "3inst"
  tensor_storage := none
  blockq_modules := []
  trellis_embed_modules := []
  dense_embed_present := false
  quantized_modules := some ["lm_head"]
  tie_word_embeddings := some true
  dense_embed := false
  blockq_on_load := true
  hidden_size := some 2048
  embed_prefix := "model.embed_tokens"
  packed_modules_mapping := []

/-- With a quantized head, the embedding is served from it. -/
theorem tied_quantized_servable :
    hasMatmul (some .EXL3EmbeddingMethod) = true ↔
      TiedServable tiedSettings (indexed ["model.embed_tokens.weight", "lm_head.trellis"]) some :=
  tied_embedding_servable
    (show load tiedSettings (indexed ["model.embed_tokens.weight", "lm_head.trellis"]) some =
      .ok quantizedHeadConfig from rfl)
    rfl
    (show quantizedHeadConfig.getQuantMethod .vocabEmbedding "model.embed_tokens" =
      .ok (some .EXL3EmbeddingMethod, quantizedHeadConfig) from rfl)

end VllmExl3.Config
