/-
# VllmExl3.Config.Sidecar — whether a sidecar checkpoint honours `EXL3_DENSE_EMBED`

A sidecar checkpoint adds `bq_*` tensors beside the dense embedding, so both encodings are stored and
`EXL3_DENSE_EMBED` can choose. Its tensor names show both. The config is meant to read that off the
names (`_dense_embed_present`), but the assignment stands after the last `return` of
`_single_file_tensor_names` and never runs, so the dense copy is only seen when the storage map
records `dense_embedding_retained`. `sidecar_iff` is the exact condition.
-/
import VllmExl3.Config.Mapper

namespace VllmExl3.Config

open PyStr Names EXL3Config

/-! ## The property -/

/-- A dense token embedding, by name: what the unreachable assignment looks for. -/
def IsDenseEmbedding (name : String) : Prop :=
  endswith name EMBED_WEIGHT_SUFFIX = true ∨ name = "embed_tokens.weight"

/-- A tensor of a block-quantized embedding. -/
def IsBlockq (name : String) : Prop := ∃ suffix ∈ BLOCKQ_SUFFIXES, endswith name suffix = true

/-- The names show both encodings. -/
def Checkpoint.IsSidecar (ck : Checkpoint) : Prop :=
  (∃ name ∈ ck.names, endswith name ".bq_q" = true) ∧ ∃ name ∈ ck.names, IsDenseEmbedding name

/-- Both encodings are reported, and with `EXL3_DENSE_EMBED` set the dense one is served: the
embedding is not block-quantized, every `bq_*` tensor is dropped and the dense one kept. -/
def HonoursDenseEmbed (vllm : Vllm) (s : Settings) (ck : Checkpoint) (cfg : EXL3Config) : Prop :=
  cfg.blockqEvidence = (true, true) ∧
  (s.dense_embed = true → cfg.embeddingIsBlockq = false ∧
    ∃ rules, cfg.getCacheScaleMapper = .ok rules ∧
      (∀ name ∈ ck.names, IsBlockq name → vllm.mapName rules name = none) ∧
      ∀ name ∈ ck.names, IsDenseEmbedding name → vllm.mapName rules name = some name)

/-! ## The names involved -/

variable {s : Settings} {ck : Checkpoint} {rename : String → Option String} {cfg : EXL3Config}
  {name : String}

/-- A name ending in `suffix` is no scale where `suffix` rules it out. -/
theorem isCacheScale_false {suffix : String} (h : endswith name suffix = true)
    (hclash : (endswith suffix "scale" || endswith "scale" suffix ||
      endswith suffix "zero_point" || endswith "zero_point" suffix) = false) :
    isCacheScale name = false := by
  simp only [Bool.or_eq_false_iff] at hclash
  obtain ⟨⟨⟨h₁, h₂⟩, h₃⟩, h₄⟩ := hclash
  rw [isCacheScale, Bool.or_eq_false_iff]
  refine ⟨?_, ?_⟩
  · by_contra hmatch
    have := endswith_comparable h (by simpa using hmatch)
    simp [h₁, h₂] at this
  · by_contra hmatch
    have := endswith_comparable h (by simpa using hmatch)
    simp [h₃, h₄] at this

theorem IsBlockq.not_cacheScale (h : IsBlockq name) : isCacheScale name = false := by
  obtain ⟨suffix, hsuffix, hname⟩ := h
  have hclash : ∀ suffix ∈ BLOCKQ_SUFFIXES, (endswith suffix "scale" || endswith "scale" suffix ||
      endswith suffix "zero_point" || endswith "zero_point" suffix) = false := by
    decide
  exact isCacheScale_false hname (hclash suffix hsuffix)

theorem IsDenseEmbedding.not_cacheScale (h : IsDenseEmbedding name) : isCacheScale name = false := by
  rcases h with hname | rfl
  · exact isCacheScale_false hname (by decide)
  · decide

theorem IsBlockq.search (h : IsBlockq name) : Pattern.blockq.search name = true := by
  obtain ⟨suffix, hsuffix, hname⟩ := h
  exact List.any_eq_true.mpr ⟨suffix, hsuffix, by rw [endsAt, hname]; rfl⟩

/-- A `bq_*` tensor is not a head tensor. -/
theorem IsBlockq.not_headStorage (h : IsBlockq name) : Pattern.headStorage.search name = false := by
  obtain ⟨suffix, hsuffix, hname⟩ := h
  exact headStorage_search_false hname (List.mem_append_left [".embed_tokens.weight"] hsuffix)

/-- The dense embedding is neither a head tensor nor a `bq_*` one. -/
theorem IsDenseEmbedding.search_false (h : IsDenseEmbedding name) :
    Pattern.headStorage.search name = false ∧ Pattern.blockq.search name = false := by
  rcases h with hname | rfl
  · refine ⟨headStorage_search_false hname (by decide), ?_⟩
    rw [Pattern.search, List.any_eq_false]
    intro suffix hsuffix
    have hclash : ∀ suffix ∈ BLOCKQ_SUFFIXES, (endswith EMBED_WEIGHT_SUFFIX suffix ||
        endswith suffix EMBED_WEIGHT_SUFFIX || endswith EMBED_WEIGHT_SUFFIX (suffix ++ "\n") ||
        endswith (suffix ++ "\n") EMBED_WEIGHT_SUFFIX) = false := by
      decide
    simp [endsAt_false hname (hclash suffix hsuffix)]
  · decide

/-! ## The mapper -/

/-- The drop rule for a quantized head nothing serves. -/
def headRules (cfg : EXL3Config) : List Pattern :=
  if cfg.headStorageExists && !(cfg.embeddingIsQuantized || cfg.headIsQuantized) then [.headStorage]
  else []

theorem mem_headRules {p : Pattern} (h : p ∈ headRules cfg) : p = .headStorage := by
  unfold headRules at h
  split_ifs at h
  · exact List.mem_singleton.mp h
  · exact absurd h List.not_mem_nil

/-- The rules for the head spare what is not named as part of one. -/
theorem headRules_spare {name : String} (h : Pattern.headStorage.search name = false) :
    (headRules cfg).any (Pattern.search name) = false := by
  rw [List.any_eq_false]
  intro p hp
  rw [mem_headRules hp, h]
  exact Bool.false_ne_true

/-- Where both encodings are reported and the embedding is not block-quantized, the mapper drops
`bq_*` and nothing else of the embedding's. -/
theorem getCacheScaleMapper_sidecar (htrellis : cfg.trellis_embed_modules.isEmpty = true)
    (hevidence : cfg.blockqEvidence = (true, true)) (hblockq : cfg.embeddingIsBlockq = false) :
    cfg.getCacheScaleMapper = .ok ⟨headRules cfg ++ [.blockq], [], []⟩ := by
  rw [getCacheScaleMapper, embeddingIsTrellis, htrellis, hevidence, hblockq]
  rfl

/-- A trellis embedding's mapper drops at most the head. -/
theorem getCacheScaleMapper_trellis (htrellis : cfg.trellis_embed_modules.isEmpty = false)
    {rules : MapperRules} (h : cfg.getCacheScaleMapper = .ok rules) :
    rules.orig_to_new_regex = headRules cfg := by
  rw [getCacheScaleMapper, embeddingIsTrellis, htrellis] at h
  rcases htied : cfg.tied with _ | _
  · rw [htied] at h
    rw [← Except.ok.inj h]
    rfl
  · rw [htied] at h
    cases h

/-! ## The exact condition -/

/-- A sidecar checkpoint is treated as one, and a checkpoint with no dense embedding in its names or
its storage map is not, exactly when its storage map records the retained dense embedding (and, for
`EXL3_DENSE_EMBED` to have a choice, it stores no trellis embedding). -/
theorem sidecar_iff (vllm : Vllm) (hload : load s ck rename = .ok cfg) :
    ((ck.IsSidecar → HonoursDenseEmbed vllm s ck cfg) ∧
      ((¬∃ name ∈ ck.names, IsDenseEmbedding name) → ¬ck.RetainsDense rename →
        cfg.blockqEvidence.2 = false)) ↔
    (ck.IsSidecar →
      ck.RetainsDense rename ∧ (s.dense_embed = true → ¬ck.StoresTrellisEmbedding)) := by
  have hloaded := load_spec hload
  constructor
  · rintro ⟨hhonours, _⟩ hsidecar
    obtain ⟨hevidence, hdense⟩ := hhonours hsidecar
    refine ⟨hloaded.dense_present_iff.mp (by rw [hevidence]), fun hflag hstores => ?_⟩
    -- a trellis embedding's mapper lets a `bq_q` tensor through
    obtain ⟨_, rules, hrules, hdrop, _⟩ := hdense hflag
    obtain ⟨name, hname, hbq⟩ := hsidecar.1
    have hblockq : IsBlockq name := ⟨".bq_q", by decide, hbq⟩
    have hnone := hdrop name hname hblockq
    rw [vllm.mapName_eq rules name hblockq.not_cacheScale, MapperRules.mapName,
      getCacheScaleMapper_trellis (hloaded.trellis_embed_iff.mpr hstores) hrules] at hnone
    rw [headRules_spare hblockq.not_headStorage] at hnone
    cases hnone
  · intro hcondition
    refine ⟨fun hsidecar => ?_, fun _ hretains => ?_⟩
    · obtain ⟨hretains, htrellis⟩ := hcondition hsidecar
      have hevidence : cfg.blockqEvidence = (true, true) :=
        Prod.ext (hloaded.stored_iff.mpr (.inl hsidecar.1)) (hloaded.dense_present_iff.mpr hretains)
      refine ⟨hevidence, fun hflag => ?_⟩
      have hempty : cfg.trellis_embed_modules.isEmpty = true := by
        by_contra hne
        exact htrellis hflag (hloaded.trellis_embed_iff.mp (by simpa using hne))
      have hblockq : cfg.embeddingIsBlockq = false := by
        rw [embeddingIsBlockq, hevidence, hempty, hloaded.dense_embed, hflag]
        rfl
      refine ⟨hblockq, _, getCacheScaleMapper_sidecar hempty hevidence hblockq, ?_, ?_⟩
      · intro name _ hname
        rw [vllm.mapName_eq _ _ hname.not_cacheScale, MapperRules.mapName, List.any_append,
          List.any_cons, hname.search]
        simp
      · intro name _ hname
        obtain ⟨hhead, hbq⟩ := hname.search_false
        rw [vllm.mapName_eq _ _ hname.not_cacheScale, MapperRules.mapName, List.any_append,
          headRules_spare hhead, List.any_cons, hbq]
        rfl
    · rw [← hloaded.dense_present_iff] at hretains
      simpa using hretains

/-! ### A sidecar checkpoint with no storage map -/

/-- An untied model under `EXL3_DENSE_EMBED=1`. -/
def denseSettings : Settings where
  head_bits := none
  codebook := none
  dense_embed := true
  blockq_on_load := true
  tie_word_embeddings := false
  hidden_size := some 2048
  packed_modules_mapping := []

/-- An index that names a dense embedding and its `bq_*` tensors. -/
def sidecar : Checkpoint where
  index := some ["model.embed_tokens.weight", "model.embed_tokens.bq_q", "model.embed_tokens.bq_s",
    "model.embed_tokens.bq_r"]
  header := []
  extra := none

/-- The config it loads into. -/
def sidecarConfig : EXL3Config where
  head_bits := none
  codebook := "3inst"
  tensor_storage := none
  blockq_modules := ["model.embed_tokens"]
  trellis_embed_modules := []
  dense_embed_present := false
  quantized_modules := some []
  tie_word_embeddings := some false
  dense_embed := true
  blockq_on_load := true
  hidden_size := some 2048
  embed_prefix := "model.embed_tokens"
  packed_modules_mapping := []

/-- Its dense embedding is not seen, so `EXL3_DENSE_EMBED` is ignored and the dense tensor dropped. -/
theorem sidecar_not_honoured :
    load denseSettings sidecar some = .ok sidecarConfig ∧ sidecar.IsSidecar ∧
      sidecarConfig.blockqEvidence = (true, false) ∧ sidecarConfig.embeddingIsBlockq = true ∧
      ¬HonoursDenseEmbed Vllm.plain denseSettings sidecar sidecarConfig := by
  refine ⟨rfl, ⟨⟨"model.embed_tokens.bq_q", by decide, by decide⟩,
    ⟨"model.embed_tokens.weight", by decide, .inl (by decide)⟩⟩, rfl, rfl, ?_⟩
  rintro ⟨hevidence, _⟩
  have hdense := congrArg Prod.snd hevidence
  revert hdense
  decide

theorem sidecar_condition :
    ((sidecar.IsSidecar → HonoursDenseEmbed Vllm.plain denseSettings sidecar sidecarConfig) ∧
      ((¬∃ name ∈ sidecar.names, IsDenseEmbedding name) → ¬sidecar.RetainsDense some →
        sidecarConfig.blockqEvidence.2 = false)) ↔
    (sidecar.IsSidecar → sidecar.RetainsDense some ∧
      (denseSettings.dense_embed = true → ¬sidecar.StoresTrellisEmbedding)) :=
  sidecar_iff Vllm.plain rfl

end VllmExl3.Config
