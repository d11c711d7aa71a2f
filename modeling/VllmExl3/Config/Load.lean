/-
# VllmExl3.Config.Load — the state loading leaves behind, in terms of the checkpoint

One specification of `load`: every field of the config as a function of the tensor names, the storage
map, the settings and the model's name mapper. The later modules read a loaded config only through
`Loaded`.
-/
import VllmExl3.Config.Model

namespace VllmExl3.Config

open PyStr Names

/-! ## What a checkpoint says -/

namespace Checkpoint

/-- The tensor names that are read: the index's, or the single file's where the index has none. -/
def names (ck : Checkpoint) : List String :=
  if (ck.index.getD []).isEmpty then ck.header else ck.index.getD []

/-- The quantized modules the names list, or `none` where they say nothing about EXL3 storage. -/
def moduleKeys (ck : Checkpoint) : Option (List String) :=
  if (ck.index.getD []).isEmpty && (quantizedModuleKeys ck.header).isEmpty &&
      (blockqModuleKeys ck.header).isEmpty then none
  else some (quantizedModuleKeys ck.names)

/-- The storage map under the model's names. -/
def storage (ck : Checkpoint) (rename : String → Option String) :
    Option (PyDict String StorageEntry) :=
  (ck.extra.bind (·.tensor_storage)).map fun storage =>
    PyDict.ofList (storage.items.filterMap fun p => (rename p.1).map fun k => (k, p.2))

/-- The storage map's entries. -/
def entries (ck : Checkpoint) (rename : String → Option String) : List StorageEntry :=
  ((ck.storage rename).map PyDict.values).getD []

/-- The checkpoint stores a quantized `lm_head`: its names list one, or, where they list nothing, its
storage map does, or, without a storage map, `head_bits` is set. -/
def StoresHead (ck : Checkpoint) (rename : String → Option String) (head_bits : Option Nat) : Prop :=
  match ck.moduleKeys with
  | some keys => ∃ key ∈ keys, rename key = some "lm_head"
  | none => match ck.storage rename with
    | some storage => ∃ head, storage.get? "lm_head" = some head ∧ head.quant_format = some "exl3"
    | none => head_bits.isSome

/-- The checkpoint stores a block-quantized embedding. -/
def StoresBlockq (ck : Checkpoint) (rename : String → Option String) : Prop :=
  (∃ name ∈ ck.names, endswith name ".bq_q" = true) ∨
    ∃ entry ∈ ck.entries rename, entry.quant_format = some "exl3_blockq"

/-- The storage map says the dense embedding was retained beside a block-quantized one. -/
def RetainsDense (ck : Checkpoint) (rename : String → Option String) : Prop :=
  ∃ entry ∈ ck.entries rename, entry.dense_embedding_retained = true

/-- The checkpoint stores exllamav3's trellis embedding. -/
def StoresTrellisEmbedding (ck : Checkpoint) : Prop :=
  ∃ name ∈ ck.names, endswith name EMBED_TRELLIS_SUFFIX = true

end Checkpoint

/-! ## The loaded config -/

/-- What a loaded config holds. -/
structure Loaded (s : Settings) (ck : Checkpoint) (rename : String → Option String)
    (cfg : EXL3Config) : Prop where
  tied : cfg.tied = s.tie_word_embeddings
  dense_embed : cfg.dense_embed = s.dense_embed
  blockq_on_load : cfg.blockq_on_load = s.blockq_on_load
  hidden_size : cfg.hidden_size = s.hidden_size
  head_bits : cfg.head_bits = s.head_bits
  packed : cfg.packed_modules_mapping = s.packed_modules_mapping
  embed_prefix : cfg.embed_prefix = "model.embed_tokens"
  -- the only assignment of this field is unreachable
  dense_embed_present : cfg.dense_embed_present = false
  trellis_embed : cfg.trellis_embed_modules = trellisEmbeddingKeys ck.names
  blockq : cfg.blockq_modules = blockqModuleKeys ck.names
  quantized : cfg.quantized_modules = ck.moduleKeys.map (List.filterMap rename)
  storage : cfg.tensor_storage = ck.storage rename

variable {s : Settings} {ck : Checkpoint} {rename : String → Option String} {cfg : EXL3Config}

/-- A fresh config holds the settings and nothing about the checkpoint. -/
theorem init_spec (h : init s = .ok cfg) :
    ∃ codebook, cfg = {
      head_bits := s.head_bits, codebook := codebook, tensor_storage := none
      blockq_modules := [], trellis_embed_modules := [], dense_embed_present := false
      quantized_modules := none, tie_word_embeddings := none, dense_embed := s.dense_embed
      blockq_on_load := s.blockq_on_load, hidden_size := none
      embed_prefix := "model.embed_tokens"
      packed_modules_mapping := s.packed_modules_mapping } := by
  unfold init at h
  dsimp only at h
  split_ifs at h
  exact ⟨_, (Except.ok.inj h).symm⟩

theorem loadIndexModules_spec (hblockq : cfg.blockq_modules = [])
    (hquantized : cfg.quantized_modules = none) :
    cfg.loadIndexModules ck = { cfg with
      trellis_embed_modules := trellisEmbeddingKeys ck.names
      blockq_modules := blockqModuleKeys ck.names
      quantized_modules := ck.moduleKeys } := by
  unfold EXL3Config.loadIndexModules Checkpoint.names Checkpoint.moduleKeys
  dsimp only
  rcases Bool.eq_false_or_eq_true (ck.index.getD []).isEmpty with hindex | hindex
  · -- no index: the header decides, and may decide nothing
    rw [if_pos hindex, if_pos hindex, hindex, Bool.true_and]
    split_ifs with hempty
    · have hnone := List.isEmpty_iff.mp (Bool.and_eq_true_iff.mp hempty).2
      rw [hnone, ← hblockq, ← hquantized]
    · rw [Checkpoint.names, if_pos hindex]
  · have hne : ¬(ck.index.getD []).isEmpty = true := by simp [hindex]
    rw [if_neg hne, if_neg hne, hindex, Bool.false_and, Bool.false_and, if_neg Bool.false_ne_true,
      Checkpoint.names, if_neg hne]

theorem load_spec (h : load s ck rename = .ok cfg) : Loaded s ck rename cfg := by
  unfold load at h
  rcases hinit : init s with err | cfg₀
  · rw [hinit] at h
    cases h
  · rw [hinit] at h
    obtain rfl := Except.ok.inj h
    obtain ⟨codebook, rfl⟩ := init_spec hinit
    rw [EXL3Config.maybeUpdateConfig, EXL3Config.loadTensorStorage, loadIndexModules_spec rfl rfl]
    rcases hextra : ck.extra with _ | extra
    · constructor <;> first | rfl | simp [EXL3Config.applyVllmMapper, Checkpoint.storage, hextra]
    · constructor <;> first | rfl | simp [EXL3Config.applyVllmMapper, Checkpoint.storage, hextra]

/-! ## The code's predicates on a loaded config -/

namespace Loaded

variable (h : Loaded s ck rename cfg)

include h

theorem headStorageExists_iff :
    cfg.headStorageExists = true ↔ ck.StoresHead rename s.head_bits := by
  rw [EXL3Config.headStorageExists, Checkpoint.StoresHead, h.quantized]
  cases ck.moduleKeys with
  | some keys => simp
  | none =>
    rw [h.storage, h.head_bits]
    cases ck.storage rename with
    | none => rfl
    | some storage =>
      dsimp only
      cases storage.get? "lm_head" <;> simp

theorem stored_iff : cfg.blockqEvidence.1 = true ↔ ck.StoresBlockq rename := by
  rw [EXL3Config.blockqEvidence, Checkpoint.StoresBlockq, h.blockq, EXL3Config.storageEntries,
    h.storage, ← Checkpoint.entries]
  simp only [Bool.or_eq_true, List.any_eq_true, decide_eq_true_eq, Bool.not_eq_true',
    List.isEmpty_eq_false_iff, ne_eq, blockqModuleKeys_eq_nil, not_forall, Bool.not_eq_false,
    exists_prop]

/-- The dense copy is reported only through the storage map. -/
theorem dense_present_iff : cfg.blockqEvidence.2 = true ↔ ck.RetainsDense rename := by
  rw [EXL3Config.blockqEvidence, Checkpoint.RetainsDense, h.dense_embed_present,
    EXL3Config.storageEntries, h.storage, ← Checkpoint.entries]
  simp

theorem trellis_embed_iff :
    cfg.trellis_embed_modules.isEmpty = false ↔ ck.StoresTrellisEmbedding := by
  rw [h.trellis_embed, List.isEmpty_eq_false_iff, ne_eq, trellisEmbeddingKeys_eq_nil,
    Checkpoint.StoresTrellisEmbedding]
  simp

end Loaded

end VllmExl3.Config
