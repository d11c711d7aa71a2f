/-
# VllmExl3.Config.Mapper — what the added rules do to a tensor name

`get_cache_scale_mapper` returns `base | WeightsMapper(rules)`, where `base` is vLLM's own mapper for
KV-cache scales. vLLM's class is a parameter (`Vllm`): on a name that is no scale, which the base
mapper leaves alone, it applies the added rules in the order the source's comments rely on, patterns
first, then prefixes, then suffixes, a pattern mapped to `None` dropping the name.
-/
import VllmExl3.Config.Load

namespace VllmExl3.Config

open PyStr Names EXL3Config

/-! ## Rules -/

/-- `re.search` of a literal followed by `$`, which also matches before a final newline. -/
def endsAt (name literal : String) : Bool :=
  endswith name literal || endswith name (literal ++ "\n")

/-- `pattern.search(name)` -/
def Pattern.search (name : String) : Pattern → Bool
  | .headStorage => EXL3_SUFFIXES.any fun suffix => endsAt name ("lm_head" ++ suffix)
  | .blockq => BLOCKQ_SUFFIXES.any fun suffix => endsAt name suffix
  | .denseEmbed => endsAt name ".embed_tokens.weight" || name = "embed_tokens.weight" ||
      name = "embed_tokens.weight\n"

/-- Rename the prefixes that match, in order. -/
def renamePrefixes (rules : List (String × String)) (name : String) : String :=
  rules.foldl (fun name r =>
    if startswith name r.1 then r.2 ++ dropStart name r.1.toList.length else name) name

/-- Rename the suffixes that match, in order. -/
def renameSuffixes (rules : List (String × String)) (name : String) : String :=
  rules.foldl (fun name r =>
    if endswith name r.1 then dropEnd name r.1.toList.length ++ r.2 else name) name

/-- The rules applied to a name. -/
def MapperRules.mapName (rules : MapperRules) (name : String) : Option String :=
  if rules.orig_to_new_regex.any (Pattern.search name) then none
  else some (renameSuffixes rules.orig_to_new_suffix (renamePrefixes rules.orig_to_new_prefix name))

/-- A KV-cache scale or zero point, the names the base mapper is for. -/
def isCacheScale (name : String) : Bool := endswith name "scale" || endswith name "zero_point"

/-- vLLM's `WeightsMapper`: `mapName rules` is the mapping of `base | WeightsMapper(rules)`. Under the
rules a config adds, a scale is renamed to a scale or dropped. -/
structure Vllm where
  mapName : MapperRules → String → Option String
  mapName_eq : ∀ rules name, isCacheScale name = false → mapName rules name = rules.mapName name
  mapName_scale : ∀ (cfg : EXL3Config) rules name new, cfg.getCacheScaleMapper = .ok rules →
    isCacheScale name = true → mapName rules name = some new → isCacheScale new = true

/-- A `WeightsMapper` whose base leaves the scales where they are. -/
def Vllm.plain : Vllm where
  mapName rules name := if isCacheScale name then some name else rules.mapName name
  mapName_eq := fun rules name h => if_neg (by rw [h]; exact Bool.false_ne_true)
  mapName_scale := fun cfg rules name new _ hscale h => by
    rw [if_pos hscale] at h
    rwa [← Option.some.inj h]

/-! ## Which names a pattern matches -/

/-- A name ending in `suffix` does not end in a literal that `suffix` rules out. -/
theorem endsAt_false {name suffix literal : String} (h : endswith name suffix = true)
    (hclash : (endswith suffix literal || endswith literal suffix ||
      endswith suffix (literal ++ "\n") || endswith (literal ++ "\n") suffix) = false) :
    endsAt name literal = false := by
  simp only [Bool.or_eq_false_iff] at hclash
  obtain ⟨⟨⟨h₁, h₂⟩, h₃⟩, h₄⟩ := hclash
  rw [endsAt, Bool.or_eq_false_iff]
  refine ⟨?_, ?_⟩
  · by_contra hmatch
    have := endswith_comparable h (by simpa using hmatch)
    simp [h₁, h₂] at this
  · by_contra hmatch
    have := endswith_comparable h (by simpa using hmatch)
    simp [h₃, h₄] at this

/-- The pattern for a quantized head's storage matches no name with any of these endings. -/
theorem headStorage_search_false {name suffix : String} (h : endswith name suffix = true)
    (hsuffix : suffix ∈ [".bq_q", ".bq_s", ".bq_r", ".embed_tokens.weight"]) :
    Pattern.headStorage.search name = false := by
  rw [Pattern.search, List.any_eq_false]
  intro x hx
  have hclash : ∀ suffix ∈ [".bq_q", ".bq_s", ".bq_r", ".embed_tokens.weight"],
      ∀ x ∈ EXL3_SUFFIXES, (endswith suffix ("lm_head" ++ x) || endswith ("lm_head" ++ x) suffix ||
        endswith suffix ("lm_head" ++ x ++ "\n") || endswith ("lm_head" ++ x ++ "\n") suffix) =
          false := by
    decide
  simp [endsAt_false h (hclash suffix hsuffix x hx)]

end VllmExl3.Config
