/-
# VllmExl3.Tools.SelfConsistent — when the output of `quantize_embedding.py` is a checkpoint again

A checkpoint directory is self-consistent when its shards open, no tensor is in two of them, and its
index, where it has one, maps each tensor to the shard that holds it. From a self-consistent source
the tool's three modes are described by what each shard of the output holds and by the index written.
The index is regenerated by `--sidecar` and patched by `--trellis`; the rewrite to `bq_*` carries the
source's, which still names the embedding that is gone and none of the new tensors. New names that
the source already has are the other case: they end up in two shards, or with other bytes.
-/
import VllmExl3.Tools.QuantizeEmbedding

namespace VllmExl3.QuantizeEmbedding

open PyStr (endswith dropEnd)
open Names (EMBED_WEIGHT_SUFFIX)
open Compose (Stored Dir Disk Json Index INDEX_NAME outputIndex)

/-! ## Checkpoints -/

/-- The tensor a shard of the directory holds under a name. -/
def tensorAt (env : Env) (dir : Dir) (s n : String) : Option Stored :=
  if endswith s ".safetensors" then
    ((dir.get? s).bind env.safetensors.safeOpen).bind fun content => content.tensors.get? n
  else none

/-- The shards open, a tensor is in one of them, and the index is the map from tensors to shards. -/
structure SelfConsistent (env : Env) (dir : Dir) : Prop where
  readable : ∀ s file, endswith s ".safetensors" = true → dir.get? s = some file →
    ∃ content, env.safetensors.safeOpen file = some content
  unique : ∀ n s s', (tensorAt env dir s n).isSome → (tensorAt env dir s' n).isSome → s = s'
  indexed : ∀ file, dir.get? INDEX_NAME = some file → ∃ index, env.json.loadsIndex file = some index ∧
    ∀ n s, index.weight_map.get? n = some s ↔ (tensorAt env dir s n).isSome

/-- What the tool is for: the source's tensors, but for the replaced one, with their bytes; the new
tensors; and a self-consistent directory. -/
structure Leaves (env : Env) (src out : Dir) (replaced : Option String) (new : PyDict String Stored) :
    Prop where
  kept : ∀ s n t, tensorAt env src s n = some t → replaced ≠ some n → ∃ s', tensorAt env out s' n = some t
  added : ∀ n t, new.get? n = some t → ∃ s, tensorAt env out s n = some t
  consistent : SelfConsistent env out

variable {env : Env} {src : Dir}

theorem tensorAt_shard {s n : String} {t : Stored} (h : tensorAt env src s n = some t) :
    endswith s ".safetensors" = true ∧ ∃ file content, src.get? s = some file ∧
      env.safetensors.safeOpen file = some content ∧ content.tensors.get? n = some t := by
  unfold tensorAt at h
  split at h
  · next hs =>
    obtain ⟨content, hopen, ht⟩ := Option.bind_eq_some_iff.mp h
    obtain ⟨file, hfile, hopen⟩ := Option.bind_eq_some_iff.mp hopen
    exact ⟨hs, file, content, hfile, hopen, ht⟩
  · cases h

theorem tensorAt_of {s n : String} (hs : endswith s ".safetensors" = true) {file : Bytes}
    {content : Content} (hfile : src.get? s = some file)
    (hopen : env.safetensors.safeOpen file = some content) :
    tensorAt env src s n = content.tensors.get? n := by
  simp [tensorAt, hs, hfile, hopen]

/-- Directories that agree on a shard hold the same tensors in it. -/
theorem tensorAt_congr {out : Dir} {s : String}
    (h : endswith s ".safetensors" = true → out.get? s = src.get? s) (n : String) :
    tensorAt env out s n = tensorAt env src s n := by
  unfold tensorAt
  split
  · next hs => rw [h hs]
  · rfl

theorem mem_shardsOf {s : String} : s ∈ shardsOf src ↔ s ∈ src.keys ∧ endswith s ".safetensors" = true := by
  simp [shardsOf, List.mem_insertionSort]

theorem nodup_shardsOf : (shardsOf src).Nodup :=
  (List.perm_insertionSort _ _).nodup_iff.mpr (src.nodup.filter _)

theorem tensorAt_mem {s n : String} (h : (tensorAt env src s n).isSome) : s ∈ shardsOf src := by
  obtain ⟨t, ht⟩ := Option.isSome_iff_exists.mp h
  obtain ⟨hs, file, content, hfile, -, -⟩ := tensorAt_shard ht
  exact mem_shardsOf.mpr ⟨PyDict.mem_keys_of_get? hfile, hs⟩

/-- A shard of a self-consistent source opens. -/
theorem SelfConsistent.opens (h : SelfConsistent env src) {s : String} (hs : s ∈ shardsOf src) :
    ∃ file content, src.get? s = some file ∧ env.safetensors.safeOpen file = some content := by
  obtain ⟨hkey, hend⟩ := mem_shardsOf.mp hs
  obtain ⟨file, hfile⟩ := Option.isSome_iff_exists.mp (PyDict.isSome_get?_iff.mpr hkey)
  obtain ⟨content, hopen⟩ := h.readable s file hend hfile
  exact ⟨file, content, hfile, hopen⟩

/-! ## Checking a directory -/

/-- Every tensor of the directory and the shard it is in. -/
def holdings (env : Env) (dir : Dir) : List (String × String) :=
  (shardsOf dir).flatMap fun s =>
    ((dir.get? s).bind env.safetensors.safeOpen).elim [] fun content =>
      content.tensors.keys.map fun n => (n, s)

theorem mem_holdings {n s : String} : (n, s) ∈ holdings env src ↔ (tensorAt env src s n).isSome := by
  simp only [holdings, List.mem_flatMap]
  constructor
  · rintro ⟨s', hs', hmem⟩
    cases hopen : (src.get? s').bind env.safetensors.safeOpen with
    | none => simp [hopen] at hmem
    | some content =>
      rw [hopen] at hmem
      obtain ⟨n', hn', heq⟩ := List.mem_map.mp hmem
      obtain ⟨rfl, rfl⟩ := Prod.mk.inj heq
      simp [tensorAt, (mem_shardsOf.mp hs').2, hopen, PyDict.isSome_get?_iff.mpr hn']
  · intro hsome
    refine ⟨s, tensorAt_mem hsome, ?_⟩
    obtain ⟨t, ht⟩ := Option.isSome_iff_exists.mp hsome
    obtain ⟨-, file, content, hfile, hopen, ht⟩ := tensorAt_shard ht
    rw [hfile, Option.bind_some, hopen]
    exact List.mem_map.mpr ⟨n, PyDict.mem_keys_of_get? ht, rfl⟩

/-- Self-consistency as a check of the files there are. -/
theorem selfConsistent_iff : SelfConsistent env src ↔
    (∀ s ∈ shardsOf src, ((src.get? s).bind env.safetensors.safeOpen).isSome) ∧
    (∀ p ∈ holdings env src, ∀ q ∈ holdings env src, p.1 = q.1 → p.2 = q.2) ∧
    ∀ file ∈ src.get? INDEX_NAME, ∃ index ∈ env.json.loadsIndex file,
      (∀ p ∈ index.weight_map.items, p ∈ holdings env src) ∧
      ∀ p ∈ holdings env src, p ∈ index.weight_map.items := by
  constructor
  · intro h
    refine ⟨?_, ?_, ?_⟩
    · intro s hs
      obtain ⟨file, content, hfile, hopen⟩ := h.opens hs
      simp [hfile, hopen]
    · rintro ⟨n, s⟩ hp ⟨n', s'⟩ hq rfl
      exact h.unique n s s' (mem_holdings.mp hp) (mem_holdings.mp hq)
    · intro file hfile
      obtain ⟨index, hloads, hmap⟩ := h.indexed file hfile
      refine ⟨index, hloads, ?_, ?_⟩
      · rintro ⟨n, s⟩ hp
        rw [mem_holdings, ← hmap]
        exact PyDict.get?_eq_some_iff.mpr hp
      · rintro ⟨n, s⟩ hp
        rw [mem_holdings, ← hmap] at hp
        exact PyDict.get?_eq_some_iff.mp hp
  · rintro ⟨hreadable, hunique, hindexed⟩
    refine ⟨?_, ?_, ?_⟩
    · intro s file hs hfile
      have hsome := hreadable s (mem_shardsOf.mpr ⟨PyDict.mem_keys_of_get? hfile, hs⟩)
      rw [hfile, Option.bind_some] at hsome
      exact Option.isSome_iff_exists.mp hsome
    · intro n s s' hs hs'
      exact hunique (n, s) (mem_holdings.mpr hs) (n, s') (mem_holdings.mpr hs') rfl
    · intro file hfile
      obtain ⟨index, hloads, hlisted, hheld⟩ := hindexed file hfile
      refine ⟨index, hloads, fun n s => ?_⟩
      rw [PyDict.get?_eq_some_iff, ← mem_holdings]
      exact ⟨hlisted (n, s), hheld (n, s)⟩

instance : Decidable (SelfConsistent env src) := decidable_of_iff _ selfConsistent_iff.symm

/-! ## The plan -/

/-- What a plan says about the source it was made from. -/
structure Planned (env : Env) (src : Dir) (plan : Plan) : Prop where
  shards : plan.shards = shardsOf src
  file : plan.embed_file ∈ shardsOf src
  key : endswith plan.embed_key EMBED_WEIGHT_SUFFIX = true
  present : (tensorAt env src plan.embed_file plan.embed_key).isSome
  names : ∀ p ∈ plan.stored, p.1 ≠ "weight"

theorem orExit_eq_ok {α : Type} {exit : Exit} {o : Option α} {a : α} :
    orExit exit o = .ok a ↔ o = some a := by
  cases o <;> simp [orExit]

theorem findEmbedding_spec {total : Nat} {names : List String} {found : String × String × Stored}
    (hnames : ∀ s ∈ names, s ∈ shardsOf src) (h : findEmbedding env src total names = .ok found) :
    found.1 ∈ shardsOf src ∧ endswith found.2.1 EMBED_WEIGHT_SUFFIX = true ∧
      (tensorAt env src found.1 found.2.1).isSome := by
  induction names with
  | nil => cases h
  | cons name names ih =>
    obtain ⟨content, hopen, h⟩ := bind_eq_ok h
    split at h
    · next key weight hfind =>
      obtain rfl := Except.ok.inj h
      have hmem := hnames name List.mem_cons_self
      obtain ⟨file, hfile, hsafe⟩ := Option.bind_eq_some_iff.mp (orExit_eq_ok.mp hopen)
      have hget : content.tensors.get? key = some weight :=
        PyDict.get?_eq_some_iff.mpr (List.mem_of_find?_eq_some hfind)
      refine ⟨hmem, by simpa using List.find?_some hfind, ?_⟩
      rw [tensorAt_of (mem_shardsOf.mp hmem).2 hfile hsafe, hget]
      rfl
    · exact ih (fun s hs => hnames s (List.mem_cons_of_mem _ hs)) h

theorem encodeEmbedding_names {weight : Stored} {vocab hidden : Nat} {chunk : Int}
    {stored : List (String × Stored)} (h : encodeEmbedding env weight vocab hidden chunk = .ok stored) :
    ∀ p ∈ stored, p.1 ≠ "weight" := by
  obtain ⟨-, -, h⟩ := bind_eq_ok h
  obtain ⟨starts, -, h⟩ := bind_eq_ok h
  obtain ⟨parts, -, h⟩ := bind_eq_ok h
  obtain ⟨bq_q, -, h⟩ := bind_eq_ok h
  obtain ⟨bq_s, -, h⟩ := bind_eq_ok h
  obtain ⟨bq_r, -, h⟩ := bind_eq_ok h
  obtain rfl := Except.ok.inj h
  simp

theorem encodeTrellis_names {weight : Stored} {k : Int} {stored : List (String × Stored)}
    (h : encodeTrellis env weight k = .ok stored) : ∀ p ∈ stored, p.1 ≠ "weight" := by
  obtain ⟨⟨trellis, signs⟩, -, h⟩ := bind_eq_ok h
  obtain rfl := Except.ok.inj h
  simp

/-- What `main` settles before it writes. -/
theorem planOf_spec {disk : Disk} {args : Args} {plan : Plan} (h : planOf env disk args = .ok plan) :
    ∃ src, disk args.checkpoint = some src ∧ Planned env src plan := by
  obtain ⟨-, -, h⟩ := bind_eq_ok h
  obtain ⟨tied, -, h⟩ := bind_eq_ok h
  obtain ⟨-, -, h⟩ := bind_eq_ok h
  obtain ⟨-, -, h⟩ := bind_eq_ok h
  obtain ⟨src, hsrc, h⟩ := bind_eq_ok h
  obtain ⟨-, -, h⟩ := bind_eq_ok h
  obtain ⟨⟨embed_file, embed_key, weight⟩, hfind, h⟩ := bind_eq_ok h
  obtain ⟨⟨vocab, hidden⟩, -, h⟩ := bind_eq_ok h
  obtain ⟨stored, hstored, h⟩ := bind_eq_ok h
  obtain rfl := Except.ok.inj h
  obtain ⟨hfile, hkey, hpresent⟩ := findEmbedding_spec (fun _ hs => hs) hfind
  refine ⟨src, orExit_eq_ok.mp hsrc, rfl, hfile, hkey, hpresent, ?_⟩
  unfold encode at hstored
  split at hstored
  · exact encodeTrellis_names hstored
  · exact encodeEmbedding_names hstored

section Writing

variable {args : Args} {plan : Plan}

/-- The new tensors take the place of the embedding under other names. -/
theorem Planned.named_ne (h : Planned env src plan) {n : String}
    (hn : (plan.named.get? n).isSome) : n ≠ plan.embed_key := by
  rw [PyDict.isSome_get?_iff, Plan.named, PyDict.mem_keys_ofList, List.map_map] at hn
  obtain ⟨p, hp, rfl⟩ := List.mem_map.mp hn
  obtain ⟨stem, hkey⟩ := PyStr.endswith_iff.mp h.key
  have hweight : EMBED_WEIGHT_SUFFIX = ".embed_tokens" ++ ".weight" := rfl
  -- `prefix.name` is `prefix.weight` only for the name `weight`
  intro heq
  apply h.names p hp
  rw [Function.comp_apply, Plan.module, hkey, hweight, ← String.append_assoc,
    PyStr.dropEnd_append, String.append_assoc, String.append_assoc, String.append_assoc] at heq
  apply String.toList_injective
  have := congrArg String.toList heq
  simpa using this

/-- The loop without `--sidecar`: the shard of the embedding is rewritten, the others are the source's. -/
theorem rewriteShards_spec (h : Planned env src plan) (hsrc : SelfConsistent env src) :
    ∃ out file content, rewriteShards env src plan = .ok out ∧
      src.get? plan.embed_file = some file ∧ env.safetensors.safeOpen file = some content ∧
      out.get? plan.embed_file = some (env.safetensors.saveFile
        ⟨content.metadata, (content.tensors.pop plan.embed_key).update plan.named⟩) ∧
      (∀ s, endswith s ".safetensors" = true → s ≠ plan.embed_file → out.get? s = src.get? s) ∧
      out.get? INDEX_NAME = none := by
  obtain ⟨file, content, hfile, hopen⟩ := hsrc.opens h.file
  let saved := env.safetensors.saveFile
    ⟨content.metadata, (content.tensors.pop plan.embed_key).update plan.named⟩
  -- each shard is written under its own name, once
  let act : String → Option Bytes := fun s => if s = plan.embed_file then some saved else src.get? s
  have hstep : ∀ s ∈ plan.shards, ∀ d : Dir,
      rewriteStep env src plan d s = .ok ((act s).elim d (d.set (id s))) := by
    intro s hs d
    rw [h.shards] at hs
    by_cases heq : s = plan.embed_file
    · simp [rewriteStep, heq, openShard, hfile, hopen, orExit, act, saved, bind, Except.bind, pure,
        Except.pure]
    · obtain ⟨other, -, hother, -⟩ := hsrc.opens hs
      simp [rewriteStep, heq, hother, orExit, act, bind, Except.bind, pure, Except.pure]
  have hkeys : (plan.shards.map id).Nodup := by
    rw [List.map_id, h.shards]
    exact nodup_shardsOf
  obtain ⟨out, hfold, hother, hself⟩ := PyDict.foldlM_assign hstep hkeys .empty
  rw [List.map_id, h.shards] at hother
  rw [h.shards] at hself
  refine ⟨out, file, content, hfold, hfile, hopen, ?_, ?_, ?_⟩
  · have := hself plan.embed_file h.file
    simpa [act, saved] using this
  · intro s hs hne
    by_cases hmem : s ∈ shardsOf src
    · have := hself s hmem
      simpa [act, hne] using this
    · have hnone : src.get? s = none := by
        rw [PyDict.get?_eq_none_iff]
        exact fun hkey => hmem (mem_shardsOf.mpr ⟨hkey, hs⟩)
      rw [hother s hmem, hnone]
      rfl
  · have hmem : INDEX_NAME ∉ shardsOf src := fun hmem => absurd (mem_shardsOf.mp hmem).2 (by decide)
    rw [hother _ hmem]
    rfl

/-- The index an output of the other loop starts from. -/
theorem patchIndex_spec (h : Planned env src plan) {index : Index}
    (hindex : ∀ n s, index.weight_map.get? n = some s ↔ (tensorAt env src s n).isSome) :
    ∃ patched, patchIndex plan index = .ok patched ∧ ∀ n, patched.weight_map.get? n =
      if (plan.named.get? n).isSome then some plan.embed_file
      else if n = plan.embed_key then none else index.weight_map.get? n := by
  -- an index of every tensor has the embedding, so the lookup does not raise
  have hkey : index.weight_map.get? plan.embed_key = some plan.embed_file := (hindex _ _).mpr h.present
  refine ⟨⟨index.metadata, plan.named.keys.foldl (fun weight_map k => weight_map.set k plan.embed_file)
    (index.weight_map.pop plan.embed_key)⟩, ?_, ?_⟩
  · simp [patchIndex, hkey, orExit, bind, Except.bind, pure, Except.pure]
  · intro n
    simp only [PyDict.get?_foldl_set_const, PyDict.get?_pop, PyDict.isSome_get?_iff]

/-- What the loop over the other files makes of the index. -/
theorem carried_index (file : Bytes) :
    carried env args plan (INDEX_NAME, file) =
      if args.sidecar then .ok none
      else if args.trellis.isSome then
        (orExit (.unreadable INDEX_NAME) (env.json.loadsIndex file)).bind fun index =>
          (patchIndex plan index).bind fun patched => .ok (some (env.json.dumpsIndex patched))
      else .ok (some file) := by
  have hskipped : skipped INDEX_NAME = false := by decide
  simp [carried, hskipped, bind, pure, Except.pure]

/-- From a self-consistent source the loop over the other files goes through. -/
theorem carried_ok (h : Planned env src plan) (hsrc : SelfConsistent env src)
    {f : String × Bytes} (hf : f ∈ src.items) : ∃ r, carried env args plan f = .ok r := by
  by_cases hindex : f.1 = INDEX_NAME
  · obtain ⟨name, file⟩ := f
    obtain rfl : name = INDEX_NAME := hindex
    obtain ⟨index, hloads, hmap⟩ := hsrc.indexed file (PyDict.get?_eq_some_iff.mpr hf)
    obtain ⟨patched, hpatch, -⟩ := patchIndex_spec h hmap
    rw [carried_index, hloads]
    split
    · exact ⟨_, rfl⟩
    · split
      · exact ⟨some (env.json.dumpsIndex patched), by simp [orExit, Except.bind, hpatch]⟩
      · exact ⟨_, rfl⟩
  · unfold carried
    split
    · exact ⟨_, rfl⟩
    · exact ⟨some f.2, by simp [hindex]⟩

/-- The loop over the other files: the shards stay as they are, and so does the index where nothing is
carried for it. -/
theorem others_spec (h : Planned env src plan) (hsrc : SelfConsistent env src) (out : Dir) :
    ∃ out', src.items.foldlM (otherStep env args plan) out = .ok out' ∧
      (∀ s, endswith s ".safetensors" = true → out'.get? s = out.get? s) ∧
      (src.get? INDEX_NAME = none → out'.get? INDEX_NAME = out.get? INDEX_NAME) ∧
      ∀ file r, src.get? INDEX_NAME = some file → carried env args plan (INDEX_NAME, file) = .ok r →
        out'.get? INDEX_NAME = r.or (out.get? INDEX_NAME) := by
  let act : String × Bytes → Option Bytes := fun f => ((carried env args plan f).toOption).join
  have hact : ∀ f r, carried env args plan f = .ok r → act f = r := by
    intro f r hr
    simp [act, hr, Except.toOption]
  have hstep : ∀ f ∈ src.items, ∀ d : Dir,
      otherStep env args plan d f = .ok ((act f).elim d (d.set f.1)) := by
    intro f hf d
    obtain ⟨r, hr⟩ := carried_ok h hsrc hf
    rw [hact f r hr]
    simp [otherStep, hr, bind, Except.bind, pure, Except.pure]
  obtain ⟨out', hfold, hother, hself⟩ := PyDict.foldlM_assign hstep src.nodup out
  refine ⟨out', hfold, ?_, ?_, ?_⟩
  · -- the loop leaves the shards out, and what it writes is under other names
    intro s hs
    by_cases hmem : s ∈ src.items.map Prod.fst
    · obtain ⟨f, hf, rfl⟩ := List.mem_map.mp hmem
      have hnone : carried env args plan f = .ok none := by simp [carried, skipped, hs]
      rw [hself f hf, hact f none hnone]
      rfl
    · exact hother s hmem
  · intro hnone
    exact hother _ (PyDict.get?_eq_none_iff.mp hnone)
  · intro file r hfile hr
    have := hself (INDEX_NAME, file) (PyDict.get?_eq_some_iff.mp hfile)
    rwa [hact _ r hr] at this

/-! ## The sidecar's shards -/

theorem endswith_shardName (total i : Nat) : endswith (shardName total i) ".safetensors" = true := by
  simp [shardName]

theorem shardName_injective {total i j : Nat} (h : shardName total i = shardName total j) : i = j := by
  have hpad : PyStr.zeroPad 5 i = PyStr.zeroPad 5 j := by
    apply String.toList_injective
    have := congrArg String.toList h
    simpa [shardName] using this
  exact PyStr.zeroPad_injective hpad

/-- The loop over the shards: each is linked under its number, and a tensor of one of them is mapped to
that shard. -/
theorem sidecarLoop_spec (total : Nat) {xs : List String} (i : Nat)
    (hopens : ∀ x ∈ xs, endswith x ".safetensors" = true ∧
      ∃ file content, src.get? x = some file ∧ env.safetensors.safeOpen file = some content)
    (acc : Dir × PyDict String String) :
    ∃ acc', (xs.zipIdx i).foldlM (sidecarStep env src total) acc = .ok acc' ∧
      (∀ s, (∀ j < xs.length, s ≠ shardName total (i + j)) → acc'.1.get? s = acc.1.get? s) ∧
      (∀ j (hj : j < xs.length), acc'.1.get? (shardName total (i + j)) = src.get? xs[j]) ∧
      (∀ n, (∀ x ∈ xs, (tensorAt env src x n).isSome = false) → acc'.2.get? n = acc.2.get? n) ∧
      ∀ n j (hj : j < xs.length), (tensorAt env src xs[j] n).isSome →
        (∀ j' (hj' : j' < xs.length), (tensorAt env src xs[j'] n).isSome → j' = j) →
        acc'.2.get? n = some (shardName total (i + j)) := by
  induction xs generalizing i acc with
  | nil =>
    exact ⟨acc, rfl, fun _ _ => rfl, fun _ hj => by simp at hj, fun _ _ => rfl,
      fun _ _ hj => by simp at hj⟩
  | cons x xs ih =>
    obtain ⟨hx, file, content, hfile, hopen⟩ := hopens x List.mem_cons_self
    have hhas : ∀ n, (tensorAt env src x n).isSome ↔ n ∈ content.tensors.keys := by
      intro n
      rw [tensorAt_of hx hfile hopen, PyDict.isSome_get?_iff]
    have hfirst : sidecarStep env src total acc (x, i) = .ok (acc.1.set (shardName total i) file,
        content.tensors.keys.foldl (fun weight_map k => weight_map.set k (shardName total i)) acc.2) := by
      simp [sidecarStep, openShard, hfile, hopen, orExit, bind, Except.bind, pure, Except.pure]
    obtain ⟨acc', hfold, hother, hself, hmapOther, hmapSelf⟩ :=
      ih (i + 1) (fun y hy => hopens y (List.mem_cons_of_mem x hy))
        (acc.1.set (shardName total i) file,
          content.tensors.keys.foldl (fun weight_map k => weight_map.set k (shardName total i)) acc.2)
    refine ⟨acc', ?_, ?_, ?_, ?_, ?_⟩
    · rw [List.zipIdx_cons, List.foldlM_cons, hfirst]
      exact hfold
    · intro s hs
      rw [hother s fun j hj => ?_]
      · exact PyDict.get?_set_ne _ _ (hs 0 (by simp))
      · have := hs (j + 1) (by simpa using hj)
        rwa [show i + (j + 1) = i + 1 + j by omega] at this
    · intro j hj
      cases j with
      | zero =>
        -- the shards after this one have other numbers
        rw [Nat.add_zero, hother _ fun j _ heq => ?_]
        · simp [hfile]
        · have := shardName_injective heq
          omega
      | succ j =>
        have := hself j (by simpa using hj)
        rwa [show i + 1 + j = i + (j + 1) by omega] at this
    · intro n hn
      rw [hmapOther n fun y hy => hn y (List.mem_cons_of_mem x hy), PyDict.get?_foldl_set_const,
        if_neg fun hmem => ?_]
      have := hn x List.mem_cons_self
      rw [(hhas n).mpr hmem] at this
      cases this
    · intro n j hj hn honly
      cases j with
      | zero =>
        -- no later shard has the tensor
        rw [hmapOther n, PyDict.get?_foldl_set_const, if_pos ((hhas n).mp hn), Nat.add_zero]
        intro y hy
        obtain ⟨j', hj', rfl⟩ := List.getElem_of_mem hy
        by_contra hsome
        have := honly (j' + 1) (by simpa using hj') (Bool.not_eq_false _ ▸ hsome)
        omega
      | succ j =>
        have hlater := hmapSelf n j (by simpa using hj) hn fun j' hj' hn' => by
          have := honly (j' + 1) (by simpa using hj') hn'
          omega
        rwa [show i + 1 + j = i + (j + 1) by omega] at hlater

/-- A file saved by the tool holds what was saved. -/
theorem tensorAt_saved {out : Dir} {s : String} (hs : endswith s ".safetensors" = true) {content : Content}
    (h : out.get? s = some (env.safetensors.saveFile content)) (n : String) :
    tensorAt env out s n = content.tensors.get? n := by
  obtain ⟨opened, hopen, htensors⟩ := env.safetensors.open_save content
  rw [tensorAt_of hs h hopen, htensors]

/-- The index `--sidecar` writes, if the source's opens. -/
theorem writeIndex_spec (hsrc : SelfConsistent env src) (out : Dir) (weight_map : PyDict String String) :
    ∃ index : Index, index.weight_map = weight_map ∧
      writeIndex env src out weight_map = .ok (out.set INDEX_NAME (env.json.dumpsIndex index)) := by
  cases hfile : src.get? INDEX_NAME with
  | none => exact ⟨outputIndex out .empty weight_map, rfl, by
      simp [writeIndex, hfile, bind, Except.bind, pure, Except.pure]⟩
  | some file =>
    obtain ⟨index, hloads, -⟩ := hsrc.indexed file hfile
    exact ⟨outputIndex out index.metadata weight_map, rfl, by
      simp [writeIndex, hfile, hloads, orExit, bind, Except.bind, pure, Except.pure]⟩

/-- What `--sidecar` writes: every shard of the source under its number, a last one with the new
tensors, and the index of them. -/
structure SidecarOut (env : Env) (src : Dir) (plan : Plan) (out : Dir) (index : Index) : Prop where
  linked : ∀ j (hj : j < plan.shards.length),
    out.get? (shardName (plan.shards.length + 1) (1 + j)) = src.get? plan.shards[j]
  side : out.get? (shardName (plan.shards.length + 1) (plan.shards.length + 1))
    = some (env.safetensors.saveFile ⟨some [("format", "pt")], plan.named⟩)
  nothingElse : ∀ s, endswith s ".safetensors" = true →
    (∀ j < plan.shards.length + 1, s ≠ shardName (plan.shards.length + 1) (1 + j)) → out.get? s = none
  written : out.get? INDEX_NAME = some (env.json.dumpsIndex index)
  mapsNew : ∀ n, (plan.named.get? n).isSome →
    index.weight_map.get? n = some (shardName (plan.shards.length + 1) (plan.shards.length + 1))
  mapsOld : ∀ n j (hj : j < plan.shards.length), plan.named.get? n = none →
    (tensorAt env src plan.shards[j] n).isSome →
    index.weight_map.get? n = some (shardName (plan.shards.length + 1) (1 + j))
  mapsNothingElse : ∀ n, plan.named.get? n = none →
    (∀ x ∈ plan.shards, (tensorAt env src x n).isSome = false) → index.weight_map.get? n = none

theorem sidecarShards_spec (h : Planned env src plan) (hsrc : SelfConsistent env src) :
    ∃ out index, sidecarShards env src plan = .ok out ∧ SidecarOut env src plan out index := by
  have hopens : ∀ x ∈ plan.shards, endswith x ".safetensors" = true ∧
      ∃ file content, src.get? x = some file ∧ env.safetensors.safeOpen file = some content := by
    intro x hx
    rw [h.shards] at hx
    exact ⟨(mem_shardsOf.mp hx).2, hsrc.opens hx⟩
  have hnodup : plan.shards.Nodup := h.shards ▸ nodup_shardsOf
  obtain ⟨⟨linked, weight_map⟩, hfold, hother, hself, hmapOther, hmapSelf⟩ :=
    sidecarLoop_spec (plan.shards.length + 1) 1 hopens (.empty, .empty)
  let side := shardName (plan.shards.length + 1) (plan.shards.length + 1)
  let out := linked.set side (env.safetensors.saveFile ⟨some [("format", "pt")], plan.named⟩)
  obtain ⟨index, hmap, hindex⟩ := writeIndex_spec hsrc out
    (plan.named.keys.foldl (fun weight_map k => weight_map.set k side) weight_map)
  have hnotIndex : ∀ i, shardName (plan.shards.length + 1) i ≠ INDEX_NAME := by
    intro i heq
    have := endswith_shardName (plan.shards.length + 1) i
    rw [heq] at this
    exact absurd this (by decide)
  have hmapped : ∀ n, index.weight_map.get? n =
      if (plan.named.get? n).isSome then some side else weight_map.get? n := by
    intro n
    simp only [hmap, PyDict.get?_foldl_set_const, PyDict.isSome_get?_iff]
  refine ⟨out.set INDEX_NAME (env.json.dumpsIndex index), index, ?_, ?_⟩
  · simp only [sidecarShards, hfold]
    exact hindex
  · refine ⟨?_, ?_, ?_, ?_, ?_, ?_, ?_⟩
    · intro j hj
      have hne : shardName (plan.shards.length + 1) (1 + j) ≠ side := fun heq => by
        have := shardName_injective heq
        omega
      rw [PyDict.get?_set_ne _ _ (hnotIndex _), PyDict.get?_set_ne _ _ hne]
      exact hself j hj
    · rw [PyDict.get?_set_ne _ _ (hnotIndex _), PyDict.get?_set, if_pos rfl]
    · intro s hs hnone
      have hne : s ≠ INDEX_NAME := by
        rintro rfl
        exact absurd hs (by decide)
      have hside : s ≠ side := by
        have := hnone plan.shards.length (by omega)
        rwa [Nat.add_comm 1 plan.shards.length] at this
      rw [PyDict.get?_set_ne _ _ hne, PyDict.get?_set_ne _ _ hside,
        hother s fun j hj => hnone j (by omega)]
      rfl
    · rw [PyDict.get?_set, if_pos rfl]
    · intro n hn
      rw [hmapped, if_pos hn]
    · intro n j hj hnone hn
      rw [hmapped, hnone, if_neg (by simp)]
      apply hmapSelf n j hj hn
      intro j' hj' hn'
      exact (hnodup.getElem_inj_iff).mp (hsrc.unique n _ _ hn' hn)
    · intro n hnone hn
      rw [hmapped, hnone, if_neg (by simp)]
      exact hmapOther n hn

end Writing

end VllmExl3.QuantizeEmbedding
