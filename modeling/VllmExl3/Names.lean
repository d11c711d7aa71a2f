/-
# VllmExl3.Names — what a checkpoint's tensor names say (`format.py`)

The suffixes an EXL3 checkpoint uses and the module keys read off a set of tensor names. Sets are
lists here: only membership and emptiness are ever asked of them.
-/
import VllmExl3.Lib.PyStr

namespace VllmExl3.Names

open PyStr

/-! ## Suffixes -/

def EMBED_WEIGHT_SUFFIX : String := ".embed_tokens.weight"
def EMBED_TRELLIS_SUFFIX : String := ".embed_tokens.trellis"
def EMBED_SIGNS_SUFFIX : String := ".embed_tokens.signs"
def BLOCKQ_SUFFIXES : List String := [".bq_q", ".bq_s", ".bq_r"]
def BLOCKQ_REQUIRED_SUFFIXES : List String := [".bq_q"]
def EXL3_SUFFIXES : List String := [".trellis", ".suh", ".svh", ".mcg", ".mul1", ".su", ".sv"]
def REQUIRED_SUFFIXES : List String := [".trellis"]

/-! ## Module keys -/

/-- `trellis_embedding_keys` -/
def trellisEmbeddingKeys (tensor_names : List String) : List String :=
  (tensor_names.filter fun name => endswith name EMBED_TRELLIS_SUFFIX).map fun name =>
    removesuffix name ".trellis"

/-- `blockq_module_keys` -/
def blockqModuleKeys (tensor_names : List String) : List String :=
  tensor_names.flatMap fun name => BLOCKQ_REQUIRED_SUFFIXES.filterMap fun suffix =>
    if endswith name suffix then some (dropEnd name suffix.toList.length) else none

/-- `quantized_module_keys` -/
def quantizedModuleKeys (tensor_names : List String) : List String :=
  tensor_names.flatMap fun name => REQUIRED_SUFFIXES.filterMap fun suffix =>
    if endswith name suffix && !endswith name EMBED_TRELLIS_SUFFIX
    then some (dropEnd name suffix.toList.length) else none

variable {names : List String} {key : String}

theorem mem_quantizedModuleKeys :
    key ∈ quantizedModuleKeys names ↔
      key ++ ".trellis" ∈ names ∧ endswith (key ++ ".trellis") EMBED_TRELLIS_SUFFIX = false := by
  simp only [quantizedModuleKeys, REQUIRED_SUFFIXES, List.mem_flatMap, List.filterMap_cons,
    List.filterMap_nil]
  constructor
  · rintro ⟨name, hname, hkey⟩
    split_ifs at hkey with hsuffix
    · obtain rfl := List.mem_singleton.mp hkey
      simp only [Bool.and_eq_true, Bool.not_eq_true'] at hsuffix
      obtain ⟨stem, rfl⟩ := endswith_iff.mp hsuffix.1
      rw [dropEnd_append]
      exact ⟨hname, hsuffix.2⟩
    · exact absurd hkey List.not_mem_nil
  · rintro ⟨hname, hembed⟩
    refine ⟨key ++ ".trellis", hname, ?_⟩
    rw [if_pos (by rw [endswith_append, hembed]; rfl), dropEnd_append]
    exact List.mem_singleton_self _

theorem blockqModuleKeys_eq_nil :
    blockqModuleKeys names = [] ↔ ∀ name ∈ names, endswith name ".bq_q" = false := by
  simp only [blockqModuleKeys, BLOCKQ_REQUIRED_SUFFIXES, List.filterMap_cons, List.filterMap_nil,
    List.flatMap_eq_nil_iff]
  refine forall₂_congr fun name _ => ?_
  cases endswith name ".bq_q" <;> simp

theorem trellisEmbeddingKeys_eq_nil :
    trellisEmbeddingKeys names = [] ↔
      ∀ name ∈ names, endswith name EMBED_TRELLIS_SUFFIX = false := by
  simp [trellisEmbeddingKeys]

end VllmExl3.Names
