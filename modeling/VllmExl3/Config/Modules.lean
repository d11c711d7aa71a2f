/-
# VllmExl3.Config.Modules — which module prefixes count as quantized

`is_quantized` accepts a prefix that stores a trellis, one that has a trellis beneath it, and, as a
fallback, one that becomes an ancestor of a trellis when one interior component is left out. The
first two are right for every module tree. The fallback finds the blocks a model wraps in a component
the checkpoint has no name for, when the wrapper is interior and stands above a quantized module and
not around it; but it asks nothing about what the checkpoint stores at the prefix itself, so a dense
tower whose path differs from a quantized one by one component matches too.
-/
import VllmExl3.Config.TiedHead

namespace VllmExl3.Config

open PyStr Names EXL3Config

/-! ## Stored modules -/

/-- The checkpoint stores, under the model's name `module`, a trellis that is not exllamav3's
embedding. -/
def StoresTrellis (ck : Checkpoint) (rename : String → Option String) (module : String) : Prop :=
  ∃ key, key ++ ".trellis" ∈ ck.names ∧
    endswith (key ++ ".trellis") EMBED_TRELLIS_SUFFIX = false ∧ rename key = some module

/-- The checkpoint stores a tensor, quantized or dense, of the model's module `module`. -/
def StoresTensor (ck : Checkpoint) (rename : String → Option String) (module : String) : Prop :=
  ∃ name ∈ ck.names, rename (join (split name).dropLast) = some module

/-- No merged module's name ends the prefix. -/
def Unfused (packed_modules_mapping : List (String × List String)) (pre : String) : Prop :=
  ∀ p ∈ packed_modules_mapping, endswith pre p.1 = false

/-- `pre` is the path `path` with one component spliced in, before its end. -/
def Wraps (pre path : String) : Prop :=
  ∃ i < (split path).length, ∃ wrapper,
    split pre = (split path).take i ++ wrapper :: (split path).drop i

/-- Leaving out one interior component of `pre` gives an ancestor of a stored trellis. -/
def DropsToAncestor (ck : Checkpoint) (rename : String → Option String) (pre : String) : Prop :=
  ∃ variant ∈ dropOneComponent pre, ∃ module, StoresTrellis ck rename module ∧ Above variant module

variable {s : Settings} {ck : Checkpoint} {rename : String → Option String} {cfg : EXL3Config}
  {pre path a : String}

/-! ## The two kinds of lookup -/

theorem mem_quantizedAncestors :
    a ∈ cfg.quantizedAncestors ↔ ∃ key ∈ cfg.exl3Modules, Above a key := by
  simp only [quantizedAncestors, List.mem_flatMap, List.mem_map, List.mem_range'_1, above_iff]
  refine exists_congr fun key => and_congr_right fun _ => exists_congr fun i => ?_
  have hpos := List.length_pos_iff.mpr (split_ne_nil key)
  constructor
  · rintro ⟨⟨hone, hlt⟩, rfl⟩
    exact ⟨hone, by omega, rfl⟩
  · rintro ⟨hone, hlt, rfl⟩
    exact ⟨⟨hone, by omega⟩, rfl⟩

/-- Leaving the spliced component out again gives the path back. -/
theorem mem_dropOneComponent_of_wraps (h : Wraps pre path) : path ∈ dropOneComponent pre := by
  obtain ⟨i, hi, wrapper, hsplit⟩ := h
  rw [dropOneComponent, hsplit]
  refine List.mem_map.mpr ⟨i, List.mem_range.mpr ?_, ?_⟩
  · -- the component is not the last one
    simp only [List.length_append, List.length_take, List.length_cons, List.length_drop]
    omega
  · have hlen : ((split path).take i).length = i := by
      rw [List.length_take]
      omega
    rw [List.take_append_of_le_length hlen.ge, List.take_of_length_le hlen.le,
      List.drop_append, hlen, List.drop_of_length_le (by omega)]
    simp [List.take_append_drop]

theorem unfuse_of_unfused (h : Unfused cfg.packed_modules_mapping pre) : cfg.unfuse pre = [pre] := by
  have hnone : (cfg.packed_modules_mapping.find? fun p => endswith pre p.1) = none := by
    rw [List.find?_eq_none]
    intro p hp
    simp [h p hp]
  rw [unfuse, hnone]

/-- What `is_quantized` answers for an unfused prefix when the modules are known from an index. -/
theorem isQuantized_iff {keys : List String} (hkeys : cfg.quantized_modules = some keys)
    (hunfused : Unfused cfg.packed_modules_mapping pre) :
    cfg.isQuantized pre = true ↔
      (∃ key ∈ keys, AtOrAbove pre key) ∨
        ∃ variant ∈ dropOneComponent pre, ∃ key ∈ keys, Above variant key := by
  have hmodules : cfg.exl3Modules = keys := by rw [exl3Modules, hkeys]
  have hknown : (cfg.tensor_storage.isNone && cfg.quantized_modules.isNone) = false := by
    rw [hkeys, Option.isNone_some, Bool.and_false]
  have hat : (∃ key ∈ keys, AtOrAbove pre key) ↔ pre ∈ keys ∨ ∃ key ∈ keys, Above pre key := by
    simp only [atOrAbove_iff, and_or_left, exists_or, exists_eq_right']
  rw [isQuantized, hknown, unfuse_of_unfused hunfused, hat]
  simp only [Bool.false_eq_true, if_false, hmodules, List.any_cons, List.any_nil, Bool.or_false,
    Bool.or_eq_true, decide_eq_true_eq, List.any_eq_true, mem_quantizedAncestors]

/-! ## Against what the checkpoint stores -/

theorem Checkpoint.moduleKeys_of_index {names : List String} (hindex : ck.index = some names)
    (hne : names ≠ []) : ck.moduleKeys = some (quantizedModuleKeys ck.names) := by
  have hfilled : (ck.index.getD []).isEmpty = false := by
    rw [hindex, Option.getD_some, List.isEmpty_eq_false_iff]
    exact hne
  rw [Checkpoint.moduleKeys, hfilled]
  rfl

theorem mem_loadedKeys {module : String} :
    module ∈ (quantizedModuleKeys ck.names).filterMap rename ↔ StoresTrellis ck rename module := by
  simp only [List.mem_filterMap, mem_quantizedModuleKeys, StoresTrellis, and_assoc]

/-- For every checkpoint with an index, every model name mapper and packing, and every unfused
prefix: at or above a stored trellis the prefix is quantized; so is a path above one with a component
spliced in that the checkpoint has no name for; and one with no trellis at or below it is not, unless
leaving a component out gives an ancestor of a trellis. -/
theorem isQuantized_stored (hload : load s ck rename = .ok cfg) {names : List String}
    (hindex : ck.index = some names) (hne : names ≠ [])
    (hunfused : Unfused s.packed_modules_mapping pre) :
    ((∃ module, StoresTrellis ck rename module ∧ AtOrAbove pre module) →
      cfg.isQuantized pre = true) ∧
    ((¬∃ module, StoresTensor ck rename module ∧ AtOrAbove pre module) →
      ∀ path, Wraps pre path → (∃ module, StoresTrellis ck rename module ∧ Above path module) →
        cfg.isQuantized pre = true) ∧
    ((¬∃ module, StoresTrellis ck rename module ∧ AtOrAbove pre module) →
      ¬DropsToAncestor ck rename pre → cfg.isQuantized pre = false) := by
  have hloaded := load_spec hload
  have hkeys : cfg.quantized_modules = some ((quantizedModuleKeys ck.names).filterMap rename) := by
    rw [hloaded.quantized, Checkpoint.moduleKeys_of_index hindex hne, Option.map_some]
  have hiff := isQuantized_iff hkeys (hloaded.packed ▸ hunfused)
  simp only [mem_loadedKeys] at hiff
  refine ⟨fun hat => hiff.mpr (.inl hat), fun _ path hwraps habove => hiff.mpr (.inr ?_), ?_⟩
  · exact ⟨path, mem_dropOneComponent_of_wraps hwraps, habove⟩
  · intro hat hdrop
    rw [← Bool.not_eq_true, hiff]
    rintro (hstored | hvariant)
    · exact hat hstored
    · exact hdrop hvariant

/-! ### Two towers, one of them dense -/

/-- A dense tower beside a quantized one: its path loses one component and becomes an ancestor of
the other's trellis. -/
def twoTowers : Checkpoint :=
  indexed ["model.vision.layers.0.fc.weight", "model.layers.0.fc.trellis",
    "model.embed_tokens.trellis"]

/-- An untied model, no environment variable set. -/
def untiedSettings : Settings := { tiedSettings with tie_word_embeddings := false }

/-- The config it loads into. -/
def twoTowersConfig : EXL3Config where
  head_bits := none
  codebook := "3inst"
  tensor_storage := none
  blockq_modules := []
  trellis_embed_modules := ["model.embed_tokens"]
  dense_embed_present := false
  quantized_modules := some ["model.layers.0.fc"]
  tie_word_embeddings := some false
  dense_embed := false
  blockq_on_load := true
  hidden_size := some 2048
  embed_prefix := "model.embed_tokens"
  packed_modules_mapping := []

/-- A dense block matches; a wrapper around the trellis itself, or after the path, does not; and the
trellis of an embedding counts for nothing. -/
theorem twoTowers_fallback :
    load untiedSettings twoTowers some = .ok twoTowersConfig ∧
    "model.vision.layers.0.fc.weight" ∈ twoTowers.names ∧
    (∀ name ∈ twoTowers.names, endswith name ".trellis" = true →
      ¬AtOrAbove "model.vision.layers.0" name) ∧
    twoTowersConfig.isQuantized "model.vision.layers.0" = true ∧
    twoTowersConfig.isQuantized "model.layers.0.wrap.fc" = false ∧
    twoTowersConfig.isQuantized "model.layers.0.wrap" = false ∧
    twoTowersConfig.isQuantized "model.embed_tokens" = false := by
  refine ⟨rfl, ?_, ?_, ?_, ?_, ?_, ?_⟩ <;> decide

theorem twoTowers_no_moe : ¬∃ module, StoresTensor twoTowers some module ∧
    AtOrAbove "model.moe.layers" module := by
  have hnone : ∀ name ∈ twoTowers.names,
      ¬AtOrAbove "model.moe.layers" (join (split name).dropLast) := by decide
  rintro ⟨module, ⟨name, hname, hrename⟩, hat⟩
  obtain rfl := Option.some.inj hrename
  exact hnone name hname hat

/-- A block the model wraps in a component the checkpoint has no name for. -/
theorem wrapped_layers_quantized :
    twoTowersConfig.isQuantized "model.moe.layers" = true :=
  (isQuantized_stored (show load untiedSettings twoTowers some = .ok twoTowersConfig from rfl) rfl
    (by decide) (show Unfused untiedSettings.packed_modules_mapping "model.moe.layers" from
      fun _ hp => absurd hp List.not_mem_nil)).2.1 twoTowers_no_moe "model.layers"
      ⟨1, by decide, "moe", by decide⟩
      ⟨"model.layers.0.fc", ⟨"model.layers.0.fc", by decide, by decide, rfl⟩, by decide⟩

end VllmExl3.Config
