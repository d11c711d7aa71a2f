/-
# VllmExl3.Tools.LeavesCheckpoint — the three modes of `quantize_embedding.py`

From a self-consistent source each mode leaves a directory whose shards are known tensor by tensor
(`Tools.SelfConsistent`). It is a self-consistent checkpoint with every other tensor of the source
exactly when the new tensors are not in the source yet and, for the rewrite to `bq_*`, when the source
has no index: that mode alone carries the index of the source over.
-/
import VllmExl3.Tools.SelfConsistent
import VllmExl3.Compose.JsonText

namespace VllmExl3.QuantizeEmbedding

open PyStr (endswith)
open Compose (Stored Dir Disk Json Index INDEX_NAME)

variable {env : Env} {src : Dir} {args : Args} {plan : Plan}

/-! ## From the shards to the directory -/

/-- The shards written first stay, and the index is theirs unless the loop over the other files
carries one. -/
theorem writeOut_spec (h : Planned env src plan) (hsrc : SelfConsistent env src) {written : Dir}
    (hwritten : newShards env src args plan = .ok written)
    {config : Bytes} (hconfig : env.describe (src.get? "quantization_config.json") plan.module
      (storageEntry args plan) = some config) :
    ∃ out, writeOut env src args plan = .ok out ∧
      (∀ s, endswith s ".safetensors" = true → out.get? s = written.get? s) ∧
      (src.get? INDEX_NAME = none → out.get? INDEX_NAME = written.get? INDEX_NAME) ∧
      ∀ file r, src.get? INDEX_NAME = some file → carried env args plan (INDEX_NAME, file) = .ok r →
        out.get? INDEX_NAME = r.or (written.get? INDEX_NAME) := by
  obtain ⟨out, hfold, hshards, hnone, hsome⟩ := others_spec h hsrc written
  have hset : ∀ s, s ≠ "quantization_config.json" →
      (out.set "quantization_config.json" config).get? s = out.get? s :=
    fun s hs => PyDict.get?_set_ne _ _ hs
  have hindex : INDEX_NAME ≠ "quantization_config.json" := by decide
  refine ⟨out.set "quantization_config.json" config, ?_, ?_, ?_, ?_⟩
  · rw [writeOut, hwritten]
    show src.items.foldlM (otherStep env args plan) written >>= _ = _
    rw [hfold, hconfig]
    rfl
  · intro s hs
    have hne : s ≠ "quantization_config.json" := by
      rintro rfl
      exact absurd hs (by decide)
    rw [hset s hne, hshards s hs]
  · intro hfile
    rw [hset _ hindex, hnone hfile]
  · intro file r hfile hr
    rw [hset _ hindex, hsome file r hfile hr]

/-- The new names are not in the source, or, where the shard of the embedding is rewritten, in that
shard with the bytes they are written with. -/
def Fresh (env : Env) (src : Dir) (args : Args) (plan : Plan) : Prop :=
  ∀ n t, plan.named.get? n = some t → ∀ s t', tensorAt env src s n = some t' →
    args.sidecar = false ∧ s = plan.embed_file ∧ t' = t

/-! ## The two rewriting modes -/

/-- What the shards of the output hold when the shard of the embedding is rewritten. -/
structure Rewritten (env : Env) (src out : Dir) (plan : Plan) : Prop where
  other : ∀ s n, s ≠ plan.embed_file → tensorAt env out s n = tensorAt env src s n
  new : ∀ n t, plan.named.get? n = some t → tensorAt env out plan.embed_file n = some t
  gone : tensorAt env out plan.embed_file plan.embed_key = none
  rest : ∀ n, plan.named.get? n = none → n ≠ plan.embed_key →
    tensorAt env out plan.embed_file n = tensorAt env src plan.embed_file n
  readable : ∀ s file, endswith s ".safetensors" = true → out.get? s = some file →
    ∃ content, env.safetensors.safeOpen file = some content

theorem writeOut_rewritten (h : Planned env src plan) (hsrc : SelfConsistent env src)
    (hmode : args.sidecar = false) {config : Bytes}
    (hconfig : env.describe (src.get? "quantization_config.json") plan.module
      (storageEntry args plan) = some config) :
    ∃ out, writeOut env src args plan = .ok out ∧ Rewritten env src out plan ∧
      (src.get? INDEX_NAME = none → out.get? INDEX_NAME = none) ∧
      ∀ file r, src.get? INDEX_NAME = some file →
        carried env args plan (INDEX_NAME, file) = .ok (some r) → out.get? INDEX_NAME = some r := by
  obtain ⟨written, file, content, hwritten, hfile, hopen, hembed, hother, hindex⟩ :=
    rewriteShards_spec h hsrc
  have hshard : endswith plan.embed_file ".safetensors" = true := (mem_shardsOf.mp h.file).2
  obtain ⟨out, hout, hshards, hnone, hsome⟩ :=
    writeOut_spec h hsrc ((if_neg (by simp [hmode])).trans hwritten) hconfig
  have hnew : ∀ n, tensorAt env out plan.embed_file n
      = (plan.named.get? n).or (if n = plan.embed_key then none else content.tensors.get? n) := by
    intro n
    rw [tensorAt_saved hshard ((hshards _ hshard).trans hembed), PyDict.get?_update, PyDict.get?_pop]
  have hgone : plan.named.get? plan.embed_key = none := by
    by_contra hsome
    exact h.named_ne (Option.isSome_iff_ne_none.mpr hsome) rfl
  refine ⟨out, hout, ⟨?_, ?_, ?_, ?_, ?_⟩, ?_, ?_⟩
  · intro s n hs
    exact tensorAt_congr (fun hend => (hshards s hend).trans (hother s hend hs)) n
  · intro n t ht
    rw [hnew, ht]
    rfl
  · rw [hnew, hgone, if_pos rfl]
    rfl
  · intro n hn hne
    rw [hnew, hn, if_neg hne, tensorAt_of hshard hfile hopen]
    rfl
  · intro s other hs hget
    by_cases hembedded : s = plan.embed_file
    · subst hembedded
      rw [hshards _ hshard, hembed] at hget
      obtain rfl := Option.some.inj hget
      obtain ⟨opened, hopened, -⟩ := env.safetensors.open_save _
      exact ⟨opened, hopened⟩
    · rw [hshards s hs, hother s hs hembedded] at hget
      exact hsrc.readable s other hs hget
  · intro hsrcIndex
    rw [hnone hsrcIndex, hindex]
  · intro other r hsrcIndex hr
    rw [hsome other (some r) hsrcIndex hr]
    rfl

section Rewritten

variable {out : Dir} (hout : Rewritten env src out plan) (h : Planned env src plan)
  (hsrc : SelfConsistent env src)
include hout

/-- Where the new names are fresh, what the source has besides the embedding stays where it was. -/
theorem Rewritten.kept (hfresh : Fresh env src args plan) {s n : String} {t : Stored}
    (ht : tensorAt env src s n = some t) (hn : n ≠ plan.embed_key) : tensorAt env out s n = some t := by
  by_cases hs : s = plan.embed_file
  · subst hs
    cases hnew : plan.named.get? n with
    | none => rw [hout.rest n hnew hn, ht]
    | some t' =>
      obtain ⟨-, -, rfl⟩ := hfresh n t' hnew _ t ht
      exact hout.new n t hnew
  · rw [hout.other s n hs, ht]

include h hsrc

/-- The shard an output tensor is in, in terms of the source. -/
theorem Rewritten.holds_iff (hfresh : Fresh env src args plan) (s n : String) :
    (tensorAt env out s n).isSome ↔
      if (plan.named.get? n).isSome then s = plan.embed_file
      else n ≠ plan.embed_key ∧ (tensorAt env src s n).isSome := by
  cases hnew : plan.named.get? n with
  | some t =>
    rw [if_pos (show (some t).isSome = true from rfl)]
    constructor
    · intro hsome
      by_contra hs
      rw [hout.other s n hs] at hsome
      obtain ⟨t', ht'⟩ := Option.isSome_iff_exists.mp hsome
      exact hs (hfresh n t hnew s t' ht').2.1
    · rintro rfl
      rw [hout.new n t hnew]
      rfl
  | none =>
    rw [if_neg (by simp)]
    constructor
    · intro hsome
      by_cases hs : s = plan.embed_file
      · subst hs
        have hne : n ≠ plan.embed_key := by
          rintro rfl
          rw [hout.gone] at hsome
          cases hsome
        rw [hout.rest n hnew hne] at hsome
        exact ⟨hne, hsome⟩
      · rw [hout.other s n hs] at hsome
        refine ⟨?_, hsome⟩
        rintro rfl
        exact hs (hsrc.unique _ _ _ hsome h.present)
    · rintro ⟨hne, hsome⟩
      obtain ⟨t, ht⟩ := Option.isSome_iff_exists.mp hsome
      rw [hout.kept hfresh ht hne]
      rfl

theorem Rewritten.unique (hfresh : Fresh env src args plan) (n s s' : String)
    (hs : (tensorAt env out s n).isSome) (hs' : (tensorAt env out s' n).isSome) : s = s' := by
  rw [hout.holds_iff h hsrc hfresh] at hs hs'
  split at hs
  · next hnew =>
    rw [if_pos hnew] at hs'
    rw [hs, hs']
  · next hnew =>
    rw [if_neg hnew] at hs'
    exact hsrc.unique n s s' hs.2 hs'.2

/-- The patched index is the map from tensors to shards. -/
theorem Rewritten.indexed (hfresh : Fresh env src args plan) {index patched : Index}
    (hmap : ∀ n s, index.weight_map.get? n = some s ↔ (tensorAt env src s n).isSome)
    (hpatched : ∀ n, patched.weight_map.get? n =
      if (plan.named.get? n).isSome then some plan.embed_file
      else if n = plan.embed_key then none else index.weight_map.get? n) (n s : String) :
    patched.weight_map.get? n = some s ↔ (tensorAt env out s n).isSome := by
  rw [hout.holds_iff h hsrc hfresh, hpatched]
  split
  · simp only [Option.some.injEq, eq_comm]
  · split
    · next heq => simp [heq]
    · next hne => simp [hne, hmap]

/-- Where the output is the checkpoint asked for, the new names were fresh: a name in another shard would
be in two, and one in the rewritten shard would have lost its bytes. -/
theorem Rewritten.fresh (hmode : args.sidecar = false)
    (hleaves : Leaves env src out (some plan.embed_key) plan.named) : Fresh env src args plan := by
  intro n t ht s t' ht'
  have hs : s = plan.embed_file := by
    by_contra hs
    apply hs
    apply hleaves.consistent.unique n
    · rw [hout.other s n hs, ht']
      rfl
    · rw [hout.new n t ht]
      rfl
  subst hs
  refine ⟨hmode, rfl, ?_⟩
  have hne : n ≠ plan.embed_key := h.named_ne (by simp [ht])
  obtain ⟨s', hs'⟩ := hleaves.kept _ n t' ht' fun heq => hne (Option.some.inj heq).symm
  by_cases hsame : s' = plan.embed_file
  · subst hsame
    rw [hout.new n t ht] at hs'
    exact (Option.some.inj hs').symm
  · rw [hout.other s' n hsame] at hs'
    exact absurd (hsrc.unique n s' _ (by simp [hs']) (by simp [ht'])) hsame

end Rewritten

/-- **The rewriting modes.** With fresh names the output is the checkpoint asked for, unless `bq_*` are
written over an index: it still maps the embedding to the shard it has left. -/
theorem rewriting_leaves_iff (h : Planned env src plan) (hsrc : SelfConsistent env src)
    (hmode : args.sidecar = false) {out : Dir} (hout : Rewritten env src out plan)
    (hnone : src.get? INDEX_NAME = none → out.get? INDEX_NAME = none)
    (hcarried : ∀ file r, src.get? INDEX_NAME = some file →
      carried env args plan (INDEX_NAME, file) = .ok (some r) → out.get? INDEX_NAME = some r) :
    Leaves env src out (some plan.embed_key) plan.named ↔
      Fresh env src args plan ∧ (args.trellis = none → src.get? INDEX_NAME = none) := by
  constructor
  · intro hleaves
    refine ⟨hout.fresh h hsrc hmode hleaves, fun htrellis => ?_⟩
    by_contra hindexed
    obtain ⟨file, hfile⟩ := Option.ne_none_iff_exists'.mp hindexed
    -- the index carried over still maps the embedding to the shard that has lost it
    have hcopy : out.get? INDEX_NAME = some file :=
      hcarried file file hfile (by simp [carried_index, hmode, htrellis])
    obtain ⟨index, hloads, hmap⟩ := hsrc.indexed file hfile
    obtain ⟨index', hloads', hmap'⟩ := hleaves.consistent.indexed file hcopy
    obtain rfl : index = index' := Option.some.inj (hloads.symm.trans hloads')
    have hstale := (hmap' _ _).mp ((hmap _ _).mpr h.present)
    rw [hout.gone] at hstale
    cases hstale
  · rintro ⟨hfresh, hindexless⟩
    refine ⟨?_, ?_, hout.readable, hout.unique h hsrc hfresh, ?_⟩
    · intro s n t ht hn
      exact ⟨s, hout.kept hfresh ht fun heq => hn (by rw [heq])⟩
    · intro n t ht
      exact ⟨_, hout.new n t ht⟩
    · intro file hfile
      cases hsrcFile : src.get? INDEX_NAME with
      | none =>
        rw [hnone hsrcFile] at hfile
        cases hfile
      | some srcFile =>
        -- there is an index to carry, so this is the mode that patches it
        have htrellis : args.trellis.isSome := by
          rw [Option.isSome_iff_ne_none]
          intro htrellis
          rw [hindexless htrellis] at hsrcFile
          cases hsrcFile
        obtain ⟨index, hloads, hmap⟩ := hsrc.indexed srcFile hsrcFile
        obtain ⟨patched, hpatch, hpatched⟩ := patchIndex_spec h hmap
        have hdumped : out.get? INDEX_NAME = some (env.json.dumpsIndex patched) :=
          hcarried srcFile _ hsrcFile
            (by simp [carried_index, hmode, htrellis, hloads, hpatch, orExit, Except.bind])
        obtain rfl := Option.some.inj (hfile.symm.trans hdumped)
        exact ⟨patched, env.json.loads_dumpsIndex patched, hout.indexed h hsrc hfresh hmap hpatched⟩

/-! ## The sidecar -/

/-- What the shards of a sidecar output hold. -/
structure Sidecar (env : Env) (src out : Dir) (plan : Plan) : Prop where
  old : ∀ j (hj : j < plan.shards.length) n,
    tensorAt env out (shardName (plan.shards.length + 1) (1 + j)) n = tensorAt env src plan.shards[j] n
  new : ∀ n, tensorAt env out (shardName (plan.shards.length + 1) (plan.shards.length + 1)) n
    = plan.named.get? n
  nothingElse : ∀ s n, (∀ j < plan.shards.length + 1, s ≠ shardName (plan.shards.length + 1) (1 + j)) →
    tensorAt env out s n = none
  readable : ∀ s file, endswith s ".safetensors" = true → out.get? s = some file →
    ∃ content, env.safetensors.safeOpen file = some content

theorem writeOut_sidecar (h : Planned env src plan) (hsrc : SelfConsistent env src)
    (hmode : args.sidecar = true) {config : Bytes}
    (hconfig : env.describe (src.get? "quantization_config.json") plan.module
      (storageEntry args plan) = some config) :
    ∃ out written index, writeOut env src args plan = .ok out ∧ SidecarOut env src plan written index ∧
      Sidecar env src out plan ∧ out.get? INDEX_NAME = some (env.json.dumpsIndex index) := by
  obtain ⟨written, index, hwritten, hside⟩ := sidecarShards_spec h hsrc
  obtain ⟨out, hout, hshards, hnone, hsome⟩ :=
    writeOut_spec h hsrc ((if_pos hmode).trans hwritten) hconfig
  have hend := endswith_shardName (plan.shards.length + 1)
  have hlinked : ∀ j (hj : j < plan.shards.length),
      out.get? (shardName (plan.shards.length + 1) (1 + j)) = src.get? plan.shards[j] :=
    fun j hj => (hshards _ (hend _)).trans (hside.linked j hj)
  have hshard : ∀ j (hj : j < plan.shards.length), plan.shards[j] ∈ shardsOf src :=
    fun j hj => h.shards ▸ List.getElem_mem hj
  have hnew : out.get? (shardName (plan.shards.length + 1) (plan.shards.length + 1))
      = some (env.safetensors.saveFile ⟨some [("format", "pt")], plan.named⟩) :=
    (hshards _ (hend _)).trans hside.side
  refine ⟨out, written, index, hout, hside, ⟨?_, ?_, ?_, ?_⟩, ?_⟩
  · intro j hj n
    obtain ⟨file, content, hfile, hopen⟩ := hsrc.opens (hshard j hj)
    rw [tensorAt_of (hend _) ((hlinked j hj).trans hfile) hopen,
      tensorAt_of (mem_shardsOf.mp (hshard j hj)).2 hfile hopen]
  · intro n
    rw [tensorAt_saved (hend _) hnew]
  · intro s n hs
    have hsame : tensorAt env out s n = tensorAt env written s n := tensorAt_congr (hshards s) n
    rw [hsame]
    unfold tensorAt
    split
    · next hsuffix => rw [hside.nothingElse s hsuffix hs]; rfl
    · rfl
  · intro s file hs hget
    by_cases hnamed : ∃ j < plan.shards.length + 1, s = shardName (plan.shards.length + 1) (1 + j)
    · obtain ⟨j, hj, rfl⟩ := hnamed
      by_cases hlast : j = plan.shards.length
      · subst hlast
        rw [Nat.add_comm 1 plan.shards.length, hnew] at hget
        obtain rfl := Option.some.inj hget
        obtain ⟨opened, hopened, -⟩ := env.safetensors.open_save _
        exact ⟨opened, hopened⟩
      · have hj' : j < plan.shards.length := by omega
        rw [hlinked j hj'] at hget
        exact hsrc.readable _ _ (mem_shardsOf.mp (hshard j hj')).2 hget
    · rw [hshards s hs, hside.nothingElse s hs fun j hj heq => hnamed ⟨j, hj, heq⟩] at hget
      cases hget
  · -- the source's own index is not carried over the one just written
    have hkeep : out.get? INDEX_NAME = written.get? INDEX_NAME := by
      cases hfile : src.get? INDEX_NAME with
      | none => exact hnone hfile
      | some file => exact hsome file none hfile (by simp [carried_index, hmode])
    rw [hkeep, hside.written]

/-- Which shard of a sidecar output holds a tensor. -/
theorem Sidecar.holds_iff {out : Dir} (hout : Sidecar env src out plan) (s n : String) :
    (tensorAt env out s n).isSome ↔
      (∃ j, ∃ hj : j < plan.shards.length, s = shardName (plan.shards.length + 1) (1 + j) ∧
        (tensorAt env src plan.shards[j] n).isSome) ∨
      (s = shardName (plan.shards.length + 1) (plan.shards.length + 1) ∧ (plan.named.get? n).isSome) := by
  constructor
  · intro hsome
    by_cases hnamed : ∃ j < plan.shards.length + 1, s = shardName (plan.shards.length + 1) (1 + j)
    · obtain ⟨j, hj, rfl⟩ := hnamed
      by_cases hlast : j = plan.shards.length
      · subst hlast
        rw [Nat.add_comm 1 plan.shards.length, hout.new] at hsome
        exact Or.inr ⟨by rw [Nat.add_comm 1 plan.shards.length], hsome⟩
      · have hj' : j < plan.shards.length := by omega
        rw [hout.old j hj'] at hsome
        exact Or.inl ⟨j, hj', rfl, hsome⟩
    · rw [hout.nothingElse s n fun j hj heq => hnamed ⟨j, hj, heq⟩] at hsome
      cases hsome
  · rintro (⟨j, hj, rfl, hsome⟩ | ⟨rfl, hsome⟩)
    · rwa [hout.old j hj]
    · rwa [hout.new]

/-- A source tensor is in one of the shards the loop links. -/
theorem Planned.place (h : Planned env src plan) {s n : String} (hsome : (tensorAt env src s n).isSome) :
    ∃ j, ∃ hj : j < plan.shards.length, plan.shards[j] = s :=
  List.getElem_of_mem (h.shards ▸ tensorAt_mem hsome)

theorem Planned.place_unique (h : Planned env src plan) (hsrc : SelfConsistent env src) {n : String}
    {j j' : Nat} (hj : j < plan.shards.length) (hj' : j' < plan.shards.length)
    (hn : (tensorAt env src plan.shards[j] n).isSome) (hn' : (tensorAt env src plan.shards[j'] n).isSome) :
    j = j' := by
  have hnodup : plan.shards.Nodup := h.shards ▸ nodup_shardsOf
  apply hnodup.getElem_inj_iff.mp
  exact hsrc.unique n _ _ hn hn'

/-- Beside untouched shards no tensor is both old and new. -/
theorem Fresh.disjoint (hfresh : Fresh env src args plan) (hmode : args.sidecar = true) {s n : String}
    (hnew : (plan.named.get? n).isSome) (hold : (tensorAt env src s n).isSome) : False := by
  obtain ⟨t, ht⟩ := Option.isSome_iff_exists.mp hnew
  obtain ⟨t', ht'⟩ := Option.isSome_iff_exists.mp hold
  have := (hfresh n t ht s t' ht').1
  rw [hmode] at this
  cases this

section Sidecar

variable {out : Dir} (hout : Sidecar env src out plan) (h : Planned env src plan)
include hout h

/-- A name taken in the source would be in two shards of the output. -/
theorem Sidecar.fresh (hunique : ∀ n s s', (tensorAt env out s n).isSome → (tensorAt env out s' n).isSome →
    s = s') : Fresh env src args plan := by
  intro n t ht s t' ht'
  have hsource : (tensorAt env src s n).isSome := by
    rw [ht']
    rfl
  obtain ⟨j, hj, rfl⟩ := h.place hsource
  have hold : (tensorAt env out (shardName (plan.shards.length + 1) (1 + j)) n).isSome := by
    rw [hout.old j hj, ht']
    rfl
  have hnew : (tensorAt env out (shardName (plan.shards.length + 1) (plan.shards.length + 1)) n).isSome := by
    rw [hout.new, ht]
    rfl
  have := shardName_injective (hunique n _ _ hold hnew)
  omega

variable (hsrc : SelfConsistent env src) (hmode : args.sidecar = true) (hfresh : Fresh env src args plan)
include hsrc hmode hfresh

theorem Sidecar.unique (n s s' : String) (hs : (tensorAt env out s n).isSome)
    (hs' : (tensorAt env out s' n).isSome) : s = s' := by
  rw [hout.holds_iff] at hs hs'
  rcases hs with ⟨j, hj, rfl, hn⟩ | ⟨rfl, hn⟩ <;> rcases hs' with ⟨j', hj', rfl, hn'⟩ | ⟨rfl, hn'⟩
  · rw [h.place_unique hsrc hj hj' hn hn']
  · exact (hfresh.disjoint hmode hn' hn).elim
  · exact (hfresh.disjoint hmode hn hn').elim
  · rfl

/-- The regenerated index is the map from tensors to shards. -/
theorem Sidecar.indexed {written : Dir} {index : Index} (hwritten : SidecarOut env src plan written index)
    (n s : String) : index.weight_map.get? n = some s ↔ (tensorAt env out s n).isSome := by
  rw [hout.holds_iff]
  by_cases hnew : (plan.named.get? n).isSome
  · -- the new names are put into the index last
    rw [hwritten.mapsNew n hnew, Option.some.injEq]
    constructor
    · rintro rfl
      exact Or.inr ⟨rfl, hnew⟩
    · rintro (⟨j, hj, rfl, hn⟩ | ⟨rfl, -⟩)
      · exact (hfresh.disjoint hmode hnew hn).elim
      · rfl
  · have hnone : plan.named.get? n = none := by simpa using hnew
    by_cases hold : ∃ j, ∃ hj : j < plan.shards.length, (tensorAt env src plan.shards[j] n).isSome
    · obtain ⟨j, hj, hn⟩ := hold
      rw [hwritten.mapsOld n j hj hnone hn, Option.some.injEq]
      constructor
      · rintro rfl
        exact Or.inl ⟨j, hj, rfl, hn⟩
      · rintro (⟨j', hj', rfl, hn'⟩ | ⟨-, hn'⟩)
        · rw [h.place_unique hsrc hj hj' hn hn']
        · exact (hnew hn').elim
    · have hnowhere : ∀ x ∈ plan.shards, (tensorAt env src x n).isSome = false := by
        intro x hx
        obtain ⟨j, hj, rfl⟩ := List.getElem_of_mem hx
        rw [← Bool.not_eq_true]
        exact fun hn => hold ⟨j, hj, hn⟩
      rw [hwritten.mapsNothingElse n hnone hnowhere]
      constructor
      · intro hsome
        cases hsome
      · rintro (⟨j, hj, -, hn⟩ | ⟨-, hn⟩)
        · exact (hold ⟨j, hj, hn⟩).elim
        · exact (hnew hn).elim

end Sidecar

/-- **The sidecar mode.** The output is the checkpoint asked for exactly when no new name is taken. -/
theorem sidecar_leaves_iff (h : Planned env src plan) (hsrc : SelfConsistent env src)
    (hmode : args.sidecar = true) {out written : Dir} {index : Index} (hout : Sidecar env src out plan)
    (hwritten : SidecarOut env src plan written index)
    (hindex : out.get? INDEX_NAME = some (env.json.dumpsIndex index)) :
    Leaves env src out none plan.named ↔ Fresh env src args plan := by
  constructor
  · intro hleaves
    exact hout.fresh h hleaves.consistent.unique
  · intro hfresh
    refine ⟨?_, ?_, hout.readable, hout.unique h hsrc hmode hfresh, ?_⟩
    · intro s n t ht _
      have hsource : (tensorAt env src s n).isSome := by
        rw [ht]
        rfl
      obtain ⟨j, hj, rfl⟩ := h.place hsource
      exact ⟨_, (hout.old j hj n).trans ht⟩
    · intro n t ht
      exact ⟨_, (hout.new n).trans ht⟩
    · intro file hfile
      obtain rfl := Option.some.inj (hfile.symm.trans hindex)
      exact ⟨index, env.json.loads_dumpsIndex index, hout.indexed h hsrc hmode hfresh hwritten⟩

/-! ## The tool -/

/-- **The tool.** On a self-consistent source that passes its own checks it comes back, and its output is
the checkpoint asked for exactly when the new names are fresh and, when `bq_*` replace the embedding,
the source has no index. -/
theorem quantize_embedding_leaves_iff {disk : Disk} (hplan : planOf env disk args = .ok plan)
    (hdisk : disk args.checkpoint = some src) (hsrc : SelfConsistent env src) {config : Bytes}
    (hconfig : env.describe (src.get? "quantization_config.json") plan.module
      (storageEntry args plan) = some config) :
    ∃ out, main env disk args = .ok out ∧
      (Leaves env src out (if args.sidecar then none else some plan.embed_key) plan.named ↔
        Fresh env src args plan ∧
          (args.sidecar = false → args.trellis = none → src.get? INDEX_NAME = none)) := by
  obtain ⟨src', hdisk', h⟩ := planOf_spec hplan
  obtain rfl : src = src' := Option.some.inj (hdisk.symm.trans hdisk')
  have hmain : main env disk args = writeOut env src args plan := by
    rw [main, hplan, hdisk]
    rfl
  rw [hmain]
  cases hmode : args.sidecar with
  | true =>
    obtain ⟨out, written, index, hout, hwritten, hshards, hindex⟩ := writeOut_sidecar h hsrc hmode hconfig
    refine ⟨out, hout, ?_⟩
    simpa using sidecar_leaves_iff h hsrc hmode hshards hwritten hindex
  | false =>
    obtain ⟨out, hout, hshards, hnone, hcarried⟩ := writeOut_rewritten h hsrc hmode hconfig
    refine ⟨out, hout, ?_⟩
    simpa using rewriting_leaves_iff h hsrc hmode hshards hnone hcarried

/-! ## A checkpoint of one row

An embedding of one zero row and a norm, in one shard or in two with an index. The tool's own mode
rewrites the first as asked and leaves the second with an index that has drifted. -/

section OneRow

instance : Encodable Stored :=
  Encodable.ofLeftInjection (fun t => (t.dtype, t.shape, t.data)) (fun p => some ⟨p.1, p.2.1, p.2.2⟩)
    fun _ => rfl

instance : Encodable Content :=
  Encodable.ofLeftInjection (fun c => (c.metadata, c.tensors)) (fun p => some ⟨p.1, p.2⟩) fun _ => rfl

/-- The dtypes, as `safetensors` orders them. -/
def DTYPES : List String := ["BOOL", "U8", "I8", "I16", "U16", "F16", "BF16", "I32", "U32", "F32", "F64"]

/-- `safetensors` saves the widest dtype first, and by name within one. -/
def SavedBefore (p q : String × Stored) : Prop :=
  DTYPES.idxOf q.2.dtype < DTYPES.idxOf p.2.dtype ∨ p.2.dtype = q.2.dtype ∧ p.1 ≤ q.1

instance : DecidableRel SavedBefore := fun _ _ => inferInstanceAs (Decidable (_ ∨ _))

/-- The tensors in the order they are saved in. -/
def Content.sorted (content : Content) : Content where
  metadata := content.metadata
  tensors := ⟨content.tensors.items.insertionSort SavedBefore,
    ((List.perm_insertionSort _ _).map _).nodup_iff.mpr content.tensors.nodup⟩

theorem Content.get?_sorted (content : Content) (n : String) :
    content.sorted.tensors.get? n = content.tensors.get? n := by
  apply Option.ext
  intro t
  rw [PyDict.get?_eq_some_iff, PyDict.get?_eq_some_iff]
  exact List.mem_insertionSort _

/-- The records of tensors laid end to end. -/
def recordsFrom : Nat → List (String × Stored) → List (String × Compose.HeaderRec)
  | _, [] => []
  | start, (n, t) :: rest =>
    (n, ⟨t.dtype, t.shape, (start, start + t.data.length)⟩) :: recordsFrom (start + t.data.length) rest

/-- The file of these tensors. -/
def Content.file (content : Content) : Bytes :=
  Compose.shardFile ⟨PyDict.ofList (recordsFrom 0 content.tensors.items), content.metadata.getD []⟩
    (content.tensors.items.flatMap fun p => p.2.data)

def rowWeight : Stored := ⟨"BF16", [1, 32], List.replicate 64 0⟩

def normWeight : Stored := ⟨"BF16", [32], (List.replicate 32 [128, 63]).flatten⟩

/-- The row in blocks: one range, `1e-12 / 15` wide, and codes that are all zero. -/
def rowParts : BlockqParts where
  bq_q := ⟨"U8", [1, 16], List.replicate 16 0⟩
  bq_s := ⟨"U8", [1, 2, 1], [0, 0]⟩
  bq_r := ⟨"F32", [1, 4], [183, 30, 150, 41, 22, 74, 141, 39, 0, 0, 0, 0, 22, 74, 141, 39]⟩

/-- The row and the norm in one shard. -/
def modelContent : Content :=
  ⟨none, ⟨[("model.embed_tokens.weight", rowWeight), ("model.norm.weight", normWeight)], by decide⟩⟩

def rowContent : Content := ⟨none, ⟨[("model.embed_tokens.weight", rowWeight)], by decide⟩⟩

def normContent : Content := ⟨none, ⟨[("model.norm.weight", normWeight)], by decide⟩⟩

/-- The shard of the row, rewritten. -/
def bqContent : Content :=
  ⟨none, ⟨[("model.embed_tokens.bq_r", rowParts.bq_r), ("model.embed_tokens.bq_q", rowParts.bq_q),
    ("model.embed_tokens.bq_s", rowParts.bq_s)], by decide⟩⟩

/-- The one shard of both, rewritten. -/
def modelBqContent : Content :=
  ⟨none, ⟨[("model.embed_tokens.bq_r", rowParts.bq_r), ("model.norm.weight", normWeight),
    ("model.embed_tokens.bq_q", rowParts.bq_q), ("model.embed_tokens.bq_s", rowParts.bq_s)], by decide⟩⟩

def rowFiles : List (Content × Bytes) :=
  [modelContent, rowContent, normContent, bqContent, modelBqContent].map fun content =>
    (content, content.file)

theorem rowFiles_ok : TableOk rowFiles := by decide +kernel

/-- A `Safetensors` that is the real one on these tensors. -/
def rowSafetensors : Safetensors where
  safeOpen := tableLoads rowFiles
  saveFile := fun content => tableDumps rowFiles content.sorted
  open_save := fun content =>
    have hloads := tableLoads_tableDumps rowFiles_ok content.sorted 0
    ⟨content.sorted, by simpa using hloads, content.get?_sorted⟩

def rowIndex : Index where
  metadata := ⟨[("total_size", .int 128)], by decide⟩
  weight_map := ⟨[("model.embed_tokens.weight", "model-00001-of-00002.safetensors"),
    ("model.norm.weight", "model-00002-of-00002.safetensors")], by decide⟩

theorem rowIndex_ok : TableOk (Compose.indexTable [rowIndex]) := by decide +kernel

/-- `json.dump(qc, f, indent=2)` of the one entry. -/
def configText (mod : String) (entry : StorageEntry) : String :=
  let number (n : Nat) : String := "\n            " ++ toString n
  let tensor (t : String × List Nat × Nat × String) : String :=
    Compose.quoted t.1 ++ ": " ++ Compose.object "\n          " ",\n          " "\n        " [
      "\"shape\": [" ++ ",".intercalate (t.2.1.map number) ++ "\n          ]",
      "\"n_bytes\": " ++ toString t.2.2.1, "\"dtype\": " ++ Compose.quoted t.2.2.2]
  Compose.object "\n  " "" "\n" ["\"tensor_storage\": " ++ Compose.object "\n    " "" "\n  " [
    Compose.quoted mod ++ ": " ++ Compose.object "\n      " ",\n      " "\n    "
      (["\"stored_tensors\": " ++ Compose.object "\n        " ",\n        " "\n      "
          (entry.stored_tensors.map tensor),
        "\"quant_format\": " ++ Compose.quoted entry.quant_format,
        "\"bits_per_weight\": " ++ toString entry.bits_per_weight] ++
      (entry.block_size.map fun n => "\"block_size\": " ++ toString n).toList ++
      ["\"dense_embedding_retained\": " ++ toString entry.dense_embedding_retained])]]

/-- What the tool calls, on these checkpoints. -/
def rowEnv : Env where
  safetensors := rowSafetensors
  json := Json.ofDocuments [] [rowIndex] (by decide) rowIndex_ok
  tieFlags := fun _ => none
  blockqEncode := fun weight =>
    if weight = rowWeight then .ok rowParts else .error (.value "embedding must be 2-D")
  trellisEncode := fun _ _ => .error (.runtime "No CUDA GPUs are available")
  describe := fun old mod entry => if old.isSome then none else some (Compose.utf8 (configText mod entry))

/-- `quantize_embedding.py model model-bq` -/
def rowArgs : Args := ⟨"model", "model-bq", 16384, false, none⟩

/-- The source and nothing else. -/
def rowDisk (src : Dir) : Disk := fun dir => if dir = "model" then some src else none

/-- What is settled about a source whose first shard is `embed_file`. -/
def rowPlan (shards : List String) (embed_file : String) : Plan :=
  ⟨shards, embed_file, "model.embed_tokens.weight",
    [("bq_q", rowParts.bq_q), ("bq_s", rowParts.bq_s), ("bq_r", rowParts.bq_r)]⟩

def oneShard : Dir := ⟨[("model.safetensors", modelContent.file)], by decide⟩

def twoShards : Dir :=
  ⟨[("model-00001-of-00002.safetensors", rowContent.file),
    ("model-00002-of-00002.safetensors", normContent.file),
    (INDEX_NAME, Compose.utf8 (Compose.indexText rowIndex))], by decide⟩

def twoShardsPlan : Plan :=
  rowPlan ["model-00001-of-00002.safetensors", "model-00002-of-00002.safetensors"]
    "model-00001-of-00002.safetensors"

/-- What the tool makes of the two shards: the index is the source's. -/
def twoShardsOut : Dir :=
  ⟨[("model-00001-of-00002.safetensors", bqContent.file),
    ("model-00002-of-00002.safetensors", normContent.file),
    (INDEX_NAME, Compose.utf8 (Compose.indexText rowIndex)),
    ("quantization_config.json",
      Compose.utf8 (configText "model.embed_tokens" (storageEntry rowArgs twoShardsPlan)))], by decide⟩

/-- The index of the two shards maps the embedding to a shard without it, and the blocks nowhere. -/
theorem twoShards_index_drifts :
    SelfConsistent rowEnv twoShards ∧
    planOf rowEnv (rowDisk twoShards) rowArgs = .ok twoShardsPlan ∧
    main rowEnv (rowDisk twoShards) rowArgs = .ok twoShardsOut ∧
    ¬Leaves rowEnv twoShards twoShardsOut (some "model.embed_tokens.weight") twoShardsPlan.named := by
  refine ⟨by decide +kernel, by decide +kernel, by decide +kernel, fun hleaves => ?_⟩
  exact absurd hleaves.consistent (by decide +kernel)

/-- The one shard has no index to drift. -/
theorem oneShard_leaves : ∃ out, main rowEnv (rowDisk oneShard) rowArgs = .ok out ∧
    (Leaves rowEnv oneShard out (if rowArgs.sidecar then none else some "model.embed_tokens.weight")
        (rowPlan ["model.safetensors"] "model.safetensors").named ↔
      Fresh rowEnv oneShard rowArgs (rowPlan ["model.safetensors"] "model.safetensors") ∧
        (rowArgs.sidecar = false → rowArgs.trellis = none → oneShard.get? INDEX_NAME = none)) :=
  quantize_embedding_leaves_iff
    (show planOf rowEnv (rowDisk oneShard) rowArgs =
      .ok (rowPlan ["model.safetensors"] "model.safetensors") by decide +kernel)
    rfl (show SelfConsistent rowEnv oneShard by decide +kernel) rfl

end OneRow

end VllmExl3.QuantizeEmbedding
