/-
# VllmExl3.Config.Routing — whether the tensors that arrive are the parameters that exist

vLLM constructs a model's embeddings and its head, each with the parameters its method registers, and
then streams the checkpoint through the mapper. `Coherent` says the two agree: what arrives has a
parameter to go to, what is dropped has none, and every parameter is filled once.

They do not agree on every checkpoint. A tied model's head is renamed onto the embedding constructed
last, while every embedding registers parameters for it; and the two suffix rules need a component in
front of `embed_tokens` where the pattern beside them does not. `coherent_iff` is the exact condition,
on what the checkpoint stores under which path.
-/
import VllmExl3.Config.Arrival

namespace VllmExl3.Config

open PyStr Names EXL3Config

/-! ## A model under construction -/

/-- A `VocabParallelEmbedding`: where it is, and the prefix it is constructed with (empty in the
families that pass none). It is not part of the head. -/
structure Embedding where
  path : String
  pre : String
  outside : path ≠ "lm_head" ∧ startswith path "lm_head." = false

/-- The vocabulary layers of a model, in the order they are constructed. -/
structure Model where
  embeddings : List Embedding
  hasHead : Bool

/-- A constructed layer and the parameters it registers. -/
structure Module where
  path : String
  params : List String
  deriving DecidableEq, Repr

/-- Construct the embeddings; each records its prefix in the config. -/
def constructEmbeddings (cfg : EXL3Config) :
    List Embedding → Except PyError (List Module × EXL3Config)
  | [] => .ok ([], cfg)
  | e :: rest => do
    let (method, cfg) ← cfg.getQuantMethod .vocabEmbedding e.pre
    let params ← cfg.embeddingParams method
    let (modules, cfg) ← constructEmbeddings cfg rest
    return (⟨e.path, params⟩ :: modules, cfg)

/-- Construct the head, where the model has one of its own. -/
def constructHead (cfg : EXL3Config) (hasHead : Bool) : Except PyError (List Module) :=
  if hasHead then do
    let (method, cfg) ← cfg.getQuantMethod .lmHead "lm_head"
    let params ← cfg.headParams method
    return [⟨"lm_head", params⟩]
  else .ok []

/-- Construct the embeddings, then the head. -/
def construct (cfg : EXL3Config) (model : Model) : Except PyError (List Module × EXL3Config) := do
  let (modules, cfg) ← constructEmbeddings cfg model.embeddings
  let head ← constructHead cfg model.hasHead
  return (modules ++ head, cfg)

/-! ## The property -/

/-- A tensor of the head or of an embedding, by name. -/
def IsRouted (name : String) : Prop :=
  isCacheScale name = false ∧ (startswith name "lm_head." = true ∨
    ∃ nest rest, (nest = "" ∨ endswith nest "." = true) ∧ name = nest ++ "embed_tokens." ++ rest)

/-- `new` is the name of a parameter. -/
def Registered (modules : List Module) (new : String) : Prop :=
  ∃ m ∈ modules, ∃ param ∈ m.params, new = dotted m.path param

/-- The tensors the mapper sends to a name. -/
def arriving (vllm : Vllm) (rules : MapperRules) (names : List String) (new : String) : List String :=
  names.filter fun name => vllm.mapName rules name = some new

/-- The tensors a parameter is filled from. The loader of `bq_src` stores what it encodes into the
three `bq_*` beside it. -/
def Module.delivered (vllm : Vllm) (rules : MapperRules) (names : List String) (m : Module)
    (param : String) : List String :=
  arriving vllm rules names (dotted m.path param) ++
    if param ∈ blockqNames ∧ "bq_src" ∈ m.params then
      arriving vllm rules names (dotted m.path "bq_src")
    else []

/-- The weight stream fits the modules. Of a tied model's head vLLM skips `lm_head.weight`, the alias
of the embedding's. -/
structure Coherent (vllm : Vllm) (tied : Bool) (rules : MapperRules) (modules : List Module)
    (names : List String) : Prop where
  arrives : ∀ name ∈ names, IsRouted name → ∀ new, vllm.mapName rules name = some new →
    Registered modules new ∨ (tied = true ∧ new = "lm_head.weight")
  keeps : ∀ name ∈ names, IsRouted name → vllm.mapName rules name = none →
    ∀ new, vllm.mapName { rules with orig_to_new_regex := [] } name = some new →
      ¬Registered modules new
  fills : ∀ m ∈ modules, ∀ param ∈ m.params, (m.delivered vllm rules names param).length = 1

/-! ## The condition -/

/-- The prefix the config holds once the embeddings are constructed: the last one that was passed. -/
def recorded ( embed_prefix : String) (embeddings : List Embedding) : String :=
  embeddings.foldl (fun recorded e => if e.pre.isEmpty then recorded else e.pre) embed_prefix

/-- A tensor of the head: one of a quantized head, or the dense one. -/
def HeadTensor (cfg : EXL3Config) (stored : List String) (name : String) : Prop :=
  if cfg.headStorageExists then ∃ x ∈ stored, name = dotted "lm_head" x
  else name = "lm_head.weight"

/-- A checkpoint that fits a model. -/
structure Routable (cfg : EXL3Config) (model : Model) (stored names : List String) : Prop where
  /-- each tensor an embedding is filled from is stored once, under the embedding's own path -/
  own : ∀ e ∈ model.embeddings, ∀ param ∈ cfg.serving.own,
    ∃! name, name ∈ names ∧ name ∈ cfg.serving.storedAs e.path param
  /-- what is encoded on load is not stored as well -/
  encoded : cfg.serving = .onLoad → ∀ e ∈ model.embeddings, ∀ param ∈ blockqNames,
    dotted e.path param ∉ names
  /-- the head a tied model is served from goes to the embedding recorded last, and every other
  embedding has one of its own -/
  shared : cfg.serving.fromHead = true →
    (∃ e ∈ model.embeddings, e.path = recorded cfg.embed_prefix model.embeddings) ∧
    ∀ e ∈ model.embeddings, ∀ x ∈ stored,
      (dotted e.path x ∈ names ↔ e.path ≠ recorded cfg.embed_prefix model.embeddings)
  /-- the dense head of an untied model is stored -/
  head : cfg.tied = false → cfg.headStorageExists = false → model.hasHead = true →
    "lm_head.weight" ∈ names
  /-- and no head where an untied model has none -/
  headless : cfg.tied = false → model.hasHead = false →
    ∀ name ∈ names, ¬HeadTensor cfg stored name
  /-- nothing more is stored, but for the encoding that is not served -/
  known : ∀ name ∈ names, IsRouted name →
    (∃ e ∈ model.embeddings,
      (∃ param ∈ cfg.serving.own, name ∈ cfg.serving.storedAs e.path param) ∨
      (cfg.serving.fromHead = true ∧ ∃ x ∈ stored, name = dotted e.path x)) ∨
    HeadTensor cfg stored name ∨ Unread cfg name

/-! ## What construction gives -/

variable {cfg cfg' : EXL3Config} {trellis : Bool} {stored names : List String} {modules : List Module}

/-- The parameters of an embedding are those of the way it is served. -/
theorem embeddingParams_serving (hok : cfg.embeddingIsTrellis = .ok trellis)
    (hstored : cfg.serving.fromHead = true → cfg.storedTensorNames = .ok stored)
    {pre : String} {method : Option Method} {params : List String}
    (hmethod : cfg.getQuantMethod .vocabEmbedding pre = .ok (method, cfg'))
    (hparams : cfg'.embeddingParams method = .ok params) :
    params = cfg.serving.params stored ∧
      cfg' = { cfg with embed_prefix := if pre.isEmpty then cfg.embed_prefix else pre } := by
  have hspec := serving_spec hok
  rw [getQuantMethod_embedding, hok] at hmethod
  obtain ⟨hmethod, hcfg⟩ := Prod.mk.inj (Except.ok.inj hmethod)
  refine ⟨?_, hcfg.symm⟩
  -- no parameter depends on the prefix
  have hsame : cfg'.embeddingParams method = cfg.embeddingParams method := by
    rw [← hcfg]
    rfl
  rw [hsame, ← hmethod] at hparams
  have honload : cfg.blockqIsOnLoad = (!cfg.blockqEvidence.1 && cfg.embeddingIsBlockq) := rfl
  unfold embeddingMethod at hparams
  cases hserving : cfg.serving <;> rw [hserving] at hspec hstored
  case trellis =>
    obtain ⟨rfl, _⟩ := hspec
    exact (Except.ok.inj hparams).symm
  case onLoad =>
    obtain ⟨rfl, hblockq, hnone, hquant, _⟩ := hspec
    rw [hblockq, hquant] at hparams
    rw [hblockq, hnone] at honload
    obtain rfl := Except.ok.inj hparams
    rw [blockqWeights, honload]
    rfl
  case blockq =>
    obtain ⟨rfl, hblockq, hbq, hquant⟩ := hspec
    rw [hblockq, hquant] at hparams
    rw [hblockq, hbq] at honload
    obtain rfl := Except.ok.inj hparams
    rw [blockqWeights, honload]
    rfl
  case tiedHead =>
    obtain ⟨rfl, hblockq, _, hquant⟩ := hspec
    rw [hblockq, hquant] at hparams
    have heq : Except.ok stored = Except.ok params := (hstored rfl).symm.trans hparams
    obtain rfl := Except.ok.inj heq
    exact (List.append_nil _).symm
  case blockqTied =>
    obtain ⟨rfl, hblockq, hbq, hquant⟩ := hspec
    rw [hblockq, hquant] at hparams
    rw [hblockq, hbq] at honload
    obtain ⟨names, hnames, hparams⟩ := bind_eq_ok hparams
    have heq : Except.ok stored = Except.ok names := (hstored rfl).symm.trans hnames
    obtain rfl := Except.ok.inj heq
    obtain rfl := Except.ok.inj hparams
    rw [blockqWeights, honload]
    rfl
  all_goals
    obtain ⟨rfl, hblockq, _, hquant⟩ := hspec
    rw [hblockq, hquant] at hparams
    exact (Except.ok.inj hparams).symm

/-- All embeddings are served the same way, and the last prefix is recorded. -/
theorem constructEmbeddings_ok {embeddings : List Embedding}
    (hok : cfg.embeddingIsTrellis = .ok trellis)
    (hstored : cfg.serving.fromHead = true → cfg.storedTensorNames = .ok stored)
    (h : constructEmbeddings cfg embeddings = .ok (modules, cfg')) :
    modules = embeddings.map (fun e => ⟨e.path, cfg.serving.params stored⟩) ∧
      cfg' = { cfg with embed_prefix := recorded cfg.embed_prefix embeddings } := by
  induction embeddings generalizing cfg modules with
  | nil =>
    obtain ⟨rfl, rfl⟩ := Prod.mk.inj (Except.ok.inj h)
    exact ⟨rfl, rfl⟩
  | cons e rest ih =>
    obtain ⟨⟨method, cfg₁⟩, hmethod, h⟩ := bind_eq_ok h
    obtain ⟨params, hparams, h⟩ := bind_eq_ok h
    obtain ⟨⟨modules₁, cfg₂⟩, hrest, h⟩ := bind_eq_ok h
    obtain ⟨rfl, rfl⟩ := Prod.mk.inj (Except.ok.inj h)
    obtain ⟨rfl, rfl⟩ := embeddingParams_serving hok hstored hmethod hparams
    -- the recorded prefix changes neither the way nor the stored names
    have hok₁ : EXL3Config.embeddingIsTrellis
        { cfg with embed_prefix := if e.pre.isEmpty then cfg.embed_prefix else e.pre } =
          .ok trellis := hok
    obtain ⟨rfl, rfl⟩ := ih hok₁ hstored hrest
    exact ⟨rfl, rfl⟩

/-- The parameters of the head: none in a tied model. -/
def headModuleParams (cfg : EXL3Config) (stored : List String) : List String :=
  if cfg.tied then [] else if cfg.headStorageExists then stored else ["weight"]

theorem constructHead_ok {hasHead : Bool}
    (hstored : cfg.headStorageExists = true → cfg.storedTensorNames = .ok stored)
    (h : constructHead cfg hasHead = .ok modules) :
    modules = if hasHead then [⟨"lm_head", headModuleParams cfg stored⟩] else [] := by
  unfold constructHead at h
  cases hasHead with
  | false => exact (Except.ok.inj h).symm
  | true =>
    obtain ⟨⟨method, cfg₁⟩, hmethod, h⟩ := bind_eq_ok h
    obtain ⟨params, hparams, h⟩ := bind_eq_ok h
    obtain rfl := Except.ok.inj h
    rw [if_pos rfl]
    congr 2
    unfold getQuantMethod at hmethod
    dsimp only at hmethod
    unfold headModuleParams
    cases hquant : cfg.embeddingIsQuantized with
    | true =>
      rw [hquant] at hmethod
      obtain ⟨rfl, rfl⟩ := Prod.mk.inj (Except.ok.inj hmethod)
      rw [(embeddingIsQuantized_iff.mp hquant).2.1]
      exact (Except.ok.inj hparams).symm
    | false =>
      rw [hquant] at hmethod
      unfold headIsQuantized at hmethod
      cases htied : cfg.tied <;> cases hhead : cfg.headStorageExists <;>
        rw [htied, hhead] at hmethod <;>
        obtain ⟨rfl, rfl⟩ := Prod.mk.inj (Except.ok.inj hmethod)
      · unfold headParams at hparams
        rw [htied] at hparams
        exact (Except.ok.inj hparams).symm
      · have heq : Except.ok stored = Except.ok params := (hstored hhead).symm.trans hparams
        exact (Except.ok.inj heq).symm
      all_goals
        unfold headParams at hparams
        rw [htied] at hparams
        exact (Except.ok.inj hparams).symm

/-- The modules of a model whose embeddings are served one way. -/
def builtModules (cfg : EXL3Config) (model : Model) (stored : List String) : List Module :=
  model.embeddings.map (fun e => ⟨e.path, cfg.serving.params stored⟩) ++
    if model.hasHead then [⟨"lm_head", headModuleParams cfg stored⟩] else []

theorem construct_ok {model : Model} (hok : cfg.embeddingIsTrellis = .ok trellis)
    (hstored : cfg.headStorageExists = true → cfg.storedTensorNames = .ok stored)
    (h : construct cfg model = .ok (modules, cfg')) :
    modules = builtModules cfg model stored ∧
      cfg' = { cfg with embed_prefix := recorded cfg.embed_prefix model.embeddings } := by
  obtain ⟨⟨embeddings, cfg₁⟩, hembeddings, h⟩ := bind_eq_ok h
  obtain ⟨head, hhead, h⟩ := bind_eq_ok h
  obtain ⟨rfl, rfl⟩ := Prod.mk.inj (Except.ok.inj h)
  have hserved : cfg.serving.fromHead = true → cfg.storedTensorNames = .ok stored := by
    intro hfrom
    rw [fromHead_serving hok] at hfrom
    exact hstored (embeddingIsQuantized_iff.mp hfrom).2.2
  obtain ⟨rfl, hcfg⟩ := constructEmbeddings_ok hok hserved hembeddings
  have hstored₁ : cfg₁.headStorageExists = true → cfg₁.storedTensorNames = .ok stored := by
    rw [hcfg]
    exact hstored
  obtain rfl := constructHead_ok hstored₁ hhead
  rw [hcfg]
  exact ⟨rfl, rfl⟩

/-- Where neither decider raises, the embedding is no trellis one of a tied model. -/
theorem embeddingIsTrellis_of_built {model : Model} {rules : MapperRules}
    (hbuilt : construct cfg model = .ok (modules, cfg'))
    (hrules : cfg'.getCacheScaleMapper = .ok rules) :
    ∃ trellis, cfg.embeddingIsTrellis = .ok trellis := by
  obtain ⟨⟨embeddings, cfg₁⟩, hembeddings, h⟩ := bind_eq_ok hbuilt
  obtain ⟨head, _, h⟩ := bind_eq_ok h
  obtain ⟨-, rfl⟩ := Prod.mk.inj (Except.ok.inj h)
  cases hlist : model.embeddings with
  | nil =>
    rw [hlist] at hembeddings
    obtain ⟨-, rfl⟩ := Prod.mk.inj (Except.ok.inj hembeddings)
    obtain ⟨trellis, htrellis, _⟩ := bind_eq_ok hrules
    exact ⟨trellis, htrellis⟩
  | cons e rest =>
    rw [hlist] at hembeddings
    obtain ⟨_, hmethod, _⟩ := bind_eq_ok hembeddings
    rw [getQuantMethod_embedding] at hmethod
    obtain ⟨trellis, htrellis, _⟩ := bind_eq_ok hmethod
    exact ⟨trellis, htrellis⟩

/-! ## Parameters -/

variable {vllm : Vllm} {model : Model} {rules : MapperRules}

theorem mem_params {s : Serving} {param : String} :
    param ∈ s.params stored ↔ (s.fromHead = true ∧ param ∈ stored) ∨ param ∈ s.params [] := by
  cases s <;> simp [Serving.params, Serving.fromHead, Serving.own]

theorem own_subset {s : Serving} {param : String} (h : param ∈ s.own) : param ∈ s.params [] := by
  cases s
  case onLoad => exact List.mem_append_right _ h
  all_goals exact List.mem_append_right _ h

/-- Every parameter that is not filled from the head is filled from a tensor of the embedding's own,
but for what is encoded on load. -/
theorem own_or_encoded {s : Serving} {param : String} (h : param ∈ s.params []) :
    param ∈ s.own ∨ (s = .onLoad ∧ param ∈ blockqNames) := by
  cases s
  case onLoad => exact (List.mem_append.mp h).symm.imp id (fun hbq => ⟨rfl, hbq⟩)
  all_goals exact .inl (by simpa [Serving.params, Serving.fromHead] using h)

theorem registered_iff {new : String} :
    Registered (builtModules cfg model stored) new ↔
      (∃ e ∈ model.embeddings, ∃ param ∈ cfg.serving.params stored, new = dotted e.path param) ∨
      (model.hasHead = true ∧ ∃ param ∈ headModuleParams cfg stored, new = dotted "lm_head" param) := by
  unfold Registered builtModules
  constructor
  · rintro ⟨m, hm, param, hparam, rfl⟩
    rcases List.mem_append.mp hm with hm | hm
    · obtain ⟨e, he, rfl⟩ := List.mem_map.mp hm
      exact .inl ⟨e, he, param, hparam, rfl⟩
    · split_ifs at hm with hhead
      · obtain rfl := List.mem_singleton.mp hm
        exact .inr ⟨hhead, param, hparam, rfl⟩
      · cases hm
  · rintro (⟨e, he, param, hparam, rfl⟩ | ⟨hhead, param, hparam, rfl⟩)
    · exact ⟨_, List.mem_append_left _ (List.mem_map.mpr ⟨e, he, rfl⟩), param, hparam, rfl⟩
    · refine ⟨⟨"lm_head", headModuleParams cfg stored⟩, List.mem_append_right _ ?_, param, hparam, rfl⟩
      rw [if_pos hhead]
      exact List.mem_singleton_self _

/-- One tensor arrives exactly when one stored tensor is sent there. -/
theorem arriving_eq_one {new : String} {sent : String → Prop} (hnodup : names.Nodup)
    (hsent : ∀ n ∈ names, vllm.mapName rules n = some new ↔ sent n) :
    (arriving vllm rules names new).length = 1 ↔ ∃! n, n ∈ names ∧ sent n := by
  have hmem : ∀ n, n ∈ arriving vllm rules names new ↔ n ∈ names ∧ sent n := by
    intro n
    rw [arriving, List.mem_filter, decide_eq_true_eq]
    exact and_congr_right (hsent n)
  constructor
  · intro hlen
    obtain ⟨n, hsingle⟩ := List.length_eq_one_iff.mp hlen
    refine ⟨n, (hmem n).mp (hsingle ▸ List.mem_singleton_self n), fun k hk => ?_⟩
    have hk' := (hmem k).mpr hk
    rw [hsingle] at hk'
    exact List.mem_singleton.mp hk'
  · rintro ⟨n, hn, hunique⟩
    have hnodup' : (arriving vllm rules names new).Nodup := hnodup.filter _
    have hperm : (arriving vllm rules names new).Perm [n] := by
      refine (List.perm_ext_iff_of_nodup hnodup' (List.nodup_singleton n)).mpr fun k => ?_
      rw [hmem, List.mem_singleton]
      exact ⟨hunique k, fun hk => hk ▸ hn⟩
    exact hperm.length_eq

theorem arriving_eq_zero {new : String} (h : ∀ n ∈ names, vllm.mapName rules n ≠ some new) :
    (arriving vllm rules names new).length = 0 := by
  rw [List.length_eq_zero_iff, arriving, List.filter_eq_nil_iff]
  intro n hn
  rw [decide_eq_true_eq]
  exact h n hn

/-- Only what is encoded on load is filled through another parameter. -/
theorem delivered_eq {m : Module} {param : String} (h : param ∉ blockqNames ∨ "bq_src" ∉ m.params) :
    m.delivered vllm rules names param = arriving vllm rules names (dotted m.path param) := by
  unfold Module.delivered
  rw [if_neg (fun hboth => h.elim (fun hno => hno hboth.1) (fun hno => hno hboth.2)),
    List.append_nil]

/-- The rules that rename leave a tensor its name, and no layer there registers it. -/
structure Unclaimed (cfg : EXL3Config) (stored : List String) ( embed_prefix p t : String) : Prop where
  target_eq : cfg.serving.target embed_prefix p t = dotted p t
  params : t ∉ cfg.serving.params stored
  head : p = "lm_head" → t ∉ headModuleParams cfg stored

namespace Stream

variable { embed_prefix : String} (h : Stream vllm cfg stored names embed_prefix rules)

include h

theorem params_known {param : String} (hparam : param ∈ cfg.serving.params stored) :
    param ∈ knownNames := by
  rcases mem_params.mp hparam with ⟨hfrom, hx⟩ | hown
  · exact h.stored_known (h.fromHead_spec hfrom).2.2 hx
  · exact known_of_params (List.nil_subset _) hown

/-- The head of an untied model stores what it registers under known names, and none of an
embedding's. -/
theorem headModuleParams_spec {param : String} (hparam : param ∈ headModuleParams cfg stored) :
    cfg.tied = false ∧ param ∈ ["trellis", "suh", "svh", "mul1", "mcg", "weight"] := by
  unfold headModuleParams at hparam
  split_ifs at hparam with htied hhead
  · cases hparam
  · have hsub : ["trellis", "suh", "svh", "mul1", "mcg"] ⊆
        ["trellis", "suh", "svh", "mul1", "mcg", "weight"] := by decide
    exact ⟨by simpa using htied, hsub (h.stored_subset hhead hparam)⟩
  · obtain rfl := List.mem_singleton.mp hparam
    exact ⟨by simpa using htied, by decide⟩

/-- `bq_src` is registered only where the embedding is encoded on load. -/
theorem src_of_params (hsrc : "bq_src" ∈ cfg.serving.params stored) : cfg.serving = .onLoad := by
  have hno : "bq_src" ∉ ["trellis", "suh", "svh", "mul1", "mcg"] := by decide
  rcases mem_params.mp hsrc with ⟨hfrom, hx⟩ | hown
  · exact absurd (h.stored_subset (h.fromHead_spec hfrom).2.2 hx) hno
  · revert hown
    cases cfg.serving <;> decide

theorem fromHead_of_untied (htied : cfg.tied = false) : cfg.serving.fromHead = false := by
  by_contra hfrom
  have htied' := (h.fromHead_spec (by simpa using hfrom)).2.1
  rw [htied] at htied'
  cases htied'

omit h in
/-- The head of an untied model is read. -/
theorem lmHead_read (htied : cfg.tied = false) {x : String}
    (hx : x ∈ ["trellis", "suh", "svh", "mul1", "mcg", "weight"]) :
    ¬Unread cfg (dotted "lm_head" x) := by
  have hplain : Undotted x := by
    have hall : ∀ x ∈ ["trellis", "suh", "svh", "mul1", "mcg", "weight"], Undotted x := by decide
    exact hall x hx
  rintro (⟨htied', _⟩ | hunread)
  · rw [htied] at htied'
    cases htied'
  · revert hunread
    cases cfg.serving
    case blockq | tiedHead | blockqTied =>
      intro hsearch
      have hpath := (search_denseEmbed hplain hsearch).1
      revert hpath
      decide
    case sidecar =>
      intro hsearch
      obtain ⟨a, ha, hxa⟩ := search_blockq hplain hsearch
      have hne : ∀ x ∈ ["trellis", "suh", "svh", "mul1", "mcg", "weight"], ∀ a ∈ blockqNames,
          x ≠ a ∧ x ≠ a ++ "\n" := by decide
      exact hxa.elim (hne x hx a ha).1 (hne x hx a ha).2
    all_goals exact fun hfalse => hfalse

/-- The head a tied model does not serve is dropped. -/
theorem unread_of_declined (hstored : cfg.headStorageExists = true) (htied : cfg.tied = true)
    (hfrom : cfg.serving.fromHead = false) {x : String} (hx : x ∈ stored) :
    Unread cfg (dotted "lm_head" x) := by
  obtain ⟨_, hok⟩ := h.ok
  have hdense : cfg.dense_embed = true := by
    by_contra hdense
    rw [fromHead_serving hok, embeddingIsQuantized_iff.mpr ⟨by simpa using hdense, htied, hstored⟩]
      at hfrom
    cases hfrom
  have hsearch : ∀ x ∈ ["trellis", "suh", "svh", "mul1", "mcg"],
      Pattern.headStorage.search (dotted "lm_head" x) = true := by decide
  exact .inl ⟨htied, hdense, hstored, hsearch x (h.stored_subset hstored hx)⟩

/-- The tensors that fill a parameter of the head. -/
theorem fills_headModule {n param : String} (hn : n ∈ names)
    (hparam : param ∈ headModuleParams cfg stored) :
    vllm.mapName rules n = some (dotted "lm_head" param) ↔ n = dotted "lm_head" param := by
  obtain ⟨htied, hmem⟩ := h.headModuleParams_spec hparam
  have hsub : ["trellis", "suh", "svh", "mul1", "mcg", "weight"] ⊆ knownNames := by decide
  rw [h.fills_lmHead (h.fromHead_of_untied htied) hn (hsub hmem)]
  exact and_iff_left (lmHead_read htied hmem)

/-- What is sent to `lm_head.weight` is the dense head. -/
theorem fills_alias {n : String} (hn : n ∈ names)
    (hmap : vllm.mapName rules n = some (dotted "lm_head" "weight")) :
    n = dotted "lm_head" "weight" ∧ cfg.headStorageExists = false := by
  have hnot : "weight" ∉ ["trellis", "suh", "svh", "mul1", "mcg"] := by decide
  -- a quantized head stores no such tensor
  have hdense : ∀ t, dotted "lm_head" t ∈ names → Undotted t → t = "weight" →
      cfg.headStorageExists = false := by
    rintro t hmem ht rfl
    by_contra hhead
    have hstored : cfg.headStorageExists = true := by simpa using hhead
    have hx := (h.head_flat hstored ht hmem (startswith_iff.mpr ⟨_, rfl⟩)).2
    exact hnot (h.stored_subset hstored hx)
  cases hfrom : cfg.serving.fromHead with
  | false =>
    obtain ⟨rfl, _⟩ := (h.fills_lmHead hfrom hn (by decide)).mp hmap
    exact ⟨rfl, hdense _ hn (by decide) rfl⟩
  | true =>
    obtain ⟨path, t, ht, _, rfl, _, htarget⟩ := h.arrives hn (by decide) hmap
    have hquant := (h.fromHead_spec hfrom).2.2
    unfold Serving.target at htarget
    by_cases hp : path = "lm_head"
    · rw [if_pos ⟨hfrom, hp⟩, dotted_inj ht (by decide)] at htarget
      subst hp
      rw [hdense t hn ht htarget.2] at hquant
      cases hquant
    · rw [if_neg (fun hboth => hp hboth.2),
        dotted_inj (Serving.undotted_renamed ht) (by decide)] at htarget
      exact absurd htarget.1 hp

omit h in
/-- A routed name has a last component, and is no scale. -/
theorem exists_of_routed {n : String} (hn : IsRouted n) :
    ∃ p t, Undotted t ∧ isCacheScale t = false ∧ n = dotted p t := by
  obtain ⟨hscale, hrouted⟩ := hn
  have hdot : ¬Undotted n := by
    rcases hrouted with hstart | ⟨nest, rest, -, rfl⟩
    · obtain ⟨rest, rfl⟩ := startswith_iff.mp hstart
      exact not_undotted_dotted (p := "lm_head") (x := rest)
    · have heq : nest ++ "embed_tokens." ++ rest = dotted (nest ++ "embed_tokens") rest := by
        rw [String.append_assoc]
        show nest ++ dotted "embed_tokens" rest = _
        exact append_dotted nest
      rw [heq]
      exact not_undotted_dotted
  obtain ⟨p, t, ht, rfl⟩ := exists_dotted hdot
  exact ⟨p, t, ht, isCacheScale_dotted.symm.trans hscale, rfl⟩

/-! ### From the property to the condition -/

section Necessary

variable (hnodup : names.Nodup)
  (hcoherent : Coherent vllm cfg.tied rules (builtModules cfg model stored) names)

include hcoherent

/-- A parameter of an embedding is filled once. -/
theorem filled_once (hnodup : names.Nodup) {e : Embedding} (he : e ∈ model.embeddings)
    {param : String} (hparam : param ∈ cfg.serving.params stored)
    (hnot : param ∉ blockqNames ∨ cfg.serving ≠ .onLoad) {sent : String → Prop}
    (hsent : ∀ n ∈ names, vllm.mapName rules n = some (dotted e.path param) ↔ sent n) :
    ∃! n, n ∈ names ∧ sent n := by
  have hmem : (⟨e.path, cfg.serving.params stored⟩ : Module) ∈ builtModules cfg model stored :=
    List.mem_append_left _ (List.mem_map.mpr ⟨e, he, rfl⟩)
  have hlen := hcoherent.fills _ hmem param hparam
  rw [delivered_eq (hnot.imp id (fun hne hsrc => hne (h.src_of_params hsrc)))] at hlen
  exact (arriving_eq_one hnodup hsent).mp hlen

include hnodup

theorem own_of_coherent {e : Embedding} (he : e ∈ model.embeddings) {param : String}
    (hparam : param ∈ cfg.serving.own) :
    ∃! name, name ∈ names ∧ name ∈ cfg.serving.storedAs e.path param := by
  have hnot : param ∉ blockqNames ∨ cfg.serving ≠ .onLoad := by
    revert hparam
    cases cfg.serving
    case onLoad =>
      intro hparam
      obtain rfl := List.mem_singleton.mp hparam
      exact .inl (by decide)
    all_goals exact fun _ => .inr (by decide)
  exact h.filled_once hcoherent hnodup he (mem_params.mpr (.inr (own_subset hparam))) hnot
    fun n hn => h.fills_own hn e.outside.1 (own_subset hparam)

omit hnodup in
theorem encoded_of_coherent (honload : cfg.serving = .onLoad) {e : Embedding}
    (he : e ∈ model.embeddings) {param : String} (hparam : param ∈ blockqNames) :
    dotted e.path param ∉ names := by
  intro hstoredName
  have hmem : (⟨e.path, cfg.serving.params stored⟩ : Module) ∈ builtModules cfg model stored :=
    List.mem_append_left _ (List.mem_map.mpr ⟨e, he, rfl⟩)
  have hparams : cfg.serving.params stored = blockqNames ++ ["bq_src"] := by
    rw [honload]
    rfl
  have hsrc : "bq_src" ∈ cfg.serving.params stored := by
    rw [hparams]
    decide
  have hown : param ∈ cfg.serving.params [] := by
    rw [honload]
    exact List.mem_append_left _ hparam
  -- one tensor fills the parameter through `bq_src` already
  have hthrough := hcoherent.fills _ hmem "bq_src" hsrc
  rw [delivered_eq (.inl (by decide))] at hthrough
  have hlen := hcoherent.fills _ hmem param (mem_params.mpr (.inr hown))
  unfold Module.delivered at hlen
  rw [if_pos ⟨hparam, hsrc⟩, List.length_append, hthrough] at hlen
  have hsum : (arriving vllm rules names (dotted e.path param)).length + 1 = 1 := hlen
  have hnil : (arriving vllm rules names (dotted e.path param)).length = 0 := by omega
  rw [List.length_eq_zero_iff] at hnil
  have hsent := (h.fills_own hstoredName e.outside.1 hown).mpr List.mem_cons_self
  have harrives : dotted e.path param ∈ arriving vllm rules names (dotted e.path param) :=
    List.mem_filter.mpr ⟨hstoredName, decide_eq_true hsent⟩
  rw [hnil] at harrives
  cases harrives

theorem shared_of_coherent (hfrom : cfg.serving.fromHead = true) :
    (∃ e ∈ model.embeddings, e.path = embed_prefix) ∧
      ∀ e ∈ model.embeddings, ∀ x ∈ stored, (dotted e.path x ∈ names ↔ e.path ≠ embed_prefix) := by
  obtain ⟨_, htied, hstored⟩ := h.fromHead_spec hfrom
  have hinHead : ∀ x ∈ stored, dotted "lm_head" x ∈ names := by
    intro x hx
    exact ((h.exact hstored).2 _ (startswith_iff.mpr ⟨x, rfl⟩)).mpr ⟨x, hx, rfl⟩
  refine ⟨?_, fun e he x hx => ?_⟩
  · have htrellis := trellis_mem_stored (h.exact hstored).1
    have hrouted : IsRouted (dotted "lm_head" "trellis") :=
      ⟨by decide, .inl (startswith_iff.mpr ⟨"trellis", rfl⟩)⟩
    have hsent := h.head_sent hfrom htrellis (hinHead _ htrellis)
    rcases hcoherent.arrives _ (hinHead _ htrellis) hrouted _ hsent with hreg | ⟨_, hskip⟩
    · rcases registered_iff.mp hreg with ⟨e, he, param, hparam, heq⟩ | ⟨_, param, hparam, _⟩
      · have hplain := undotted_of_known (h.params_known hparam)
        exact ⟨e, he, ((dotted_inj (by decide) hplain).mp heq).1.symm⟩
      · have huntied := (h.headModuleParams_spec hparam).1
        rw [htied] at huntied
        cases huntied
    · have heq : dotted embed_prefix "trellis" = dotted "lm_head" "weight" := hskip
      have hname := ((dotted_inj (by decide) (by decide)).mp heq).2
      exact absurd hname (by decide)
  · have hne : cfg.serving ≠ .onLoad := by
      intro honload
      rw [honload] at hfrom
      cases hfrom
    obtain ⟨n, ⟨hn, hsent⟩, hunique⟩ := h.filled_once hcoherent hnodup he
      (mem_params.mpr (.inl ⟨hfrom, hx⟩)) (.inr hne)
      fun n hn => h.fills_head hfrom hn e.outside.1 hx
    constructor
    · -- beside the head's it would be the second
      intro hmem hpath
      have h₁ := hunique _ ⟨hmem, .inl rfl⟩
      have h₂ := hunique _ ⟨hinHead x hx, .inr ⟨hpath, rfl⟩⟩
      have hplain := undotted_of_known (h.stored_known hstored hx)
      exact e.outside.1 ((dotted_inj hplain hplain).mp (h₁.trans h₂.symm)).1
    · intro hpath
      rcases hsent with rfl | ⟨heq, _⟩
      · exact hn
      · exact absurd heq hpath

theorem head_of_coherent (htied : cfg.tied = false) (hdense : cfg.headStorageExists = false)
    (hhead : model.hasHead = true) : "lm_head.weight" ∈ names := by
  have hparams : headModuleParams cfg stored = ["weight"] := by
    rw [headModuleParams, htied, hdense]
    rfl
  have hparam : "weight" ∈ headModuleParams cfg stored := hparams ▸ List.mem_singleton_self _
  have hmem : (⟨"lm_head", headModuleParams cfg stored⟩ : Module) ∈ builtModules cfg model stored := by
    refine List.mem_append_right _ ?_
    rw [if_pos hhead]
    exact List.mem_singleton_self _
  have hlen := hcoherent.fills _ hmem "weight" hparam
  rw [delivered_eq (.inl (by decide))] at hlen
  obtain ⟨n, ⟨hn, rfl⟩, _⟩ :=
    (arriving_eq_one hnodup fun n hn => h.fills_headModule hn hparam).mp hlen
  exact hn

omit hnodup in
theorem headless_of_coherent (htied : cfg.tied = false) (hno : model.hasHead = false)
    {name : String} (hname : name ∈ names) : ¬HeadTensor cfg stored name := by
  intro htensor
  obtain ⟨x, hx, rfl⟩ : ∃ x ∈ ["trellis", "suh", "svh", "mul1", "mcg", "weight"],
      name = dotted "lm_head" x := by
    unfold HeadTensor at htensor
    split_ifs at htensor with hstored
    · obtain ⟨x, hx, rfl⟩ := htensor
      exact ⟨x, List.mem_append_left ["weight"] (h.stored_subset hstored hx), rfl⟩
    · exact ⟨"weight", by decide, htensor⟩
  have hsub : ["trellis", "suh", "svh", "mul1", "mcg", "weight"] ⊆ knownNames := by decide
  have hknown := hsub hx
  have hrouted : IsRouted (dotted "lm_head" x) :=
    ⟨isCacheScale_dotted.trans (not_cacheScale_of_known hknown), .inl (startswith_iff.mpr ⟨x, rfl⟩)⟩
  have hmap := (h.fills_lmHead (h.fromHead_of_untied htied) hname hknown).mpr
    ⟨rfl, lmHead_read htied hx⟩
  rcases hcoherent.arrives _ hname hrouted _ hmap with hreg | ⟨htied', _⟩
  · rcases registered_iff.mp hreg with ⟨e, _, param, hparam, heq⟩ | ⟨hhead, _⟩
    · have hplain := undotted_of_known (h.params_known hparam)
      exact e.outside.1 ((dotted_inj (undotted_of_known hknown) hplain).mp heq).1.symm
    · rw [hno] at hhead
      cases hhead
  · rw [htied] at htied'
    cases htied'

omit hnodup in
theorem known_of_coherent {name : String} (hname : name ∈ names) (hrouted : IsRouted name) :
    (∃ e ∈ model.embeddings,
      (∃ param ∈ cfg.serving.own, name ∈ cfg.serving.storedAs e.path param) ∨
      (cfg.serving.fromHead = true ∧ ∃ x ∈ stored, name = dotted e.path x)) ∨
    HeadTensor cfg stored name ∨ Unread cfg name := by
  by_cases hunread : Unread cfg name
  · exact .inr (.inr hunread)
  obtain ⟨p, t, ht, hscale, rfl⟩ := exists_of_routed hrouted
  have hmap := (h.mapName_dotted ht hscale hname).mpr ⟨hunread, rfl⟩
  rcases hcoherent.arrives _ hname hrouted _ hmap with hreg | ⟨htied, hskip⟩
  · rcases registered_iff.mp hreg with ⟨e, he, param, hparam, heq⟩ | ⟨_, param, hparam, heq⟩
    · rw [heq] at hmap
      rcases mem_params.mp hparam with ⟨hfrom, hx⟩ | hown
      · rcases (h.fills_head hfrom hname e.outside.1 hx).mp hmap with hself | ⟨_, hinHead⟩
        · exact .inl ⟨e, he, .inr ⟨hfrom, param, hx, hself⟩⟩
        · refine .inr (.inl ?_)
          rw [HeadTensor, if_pos (h.fromHead_spec hfrom).2.2]
          exact ⟨param, hx, hinHead⟩
      · have hstoredAs := (h.fills_own hname e.outside.1 hown).mp hmap
        rcases own_or_encoded hown with hparam | ⟨honload, hbq⟩
        · exact .inl ⟨e, he, .inl ⟨param, hparam, hstoredAs⟩⟩
        · have hself : dotted p t = dotted e.path param := by
            have htensor : Serving.tensorOf .onLoad param = none := by
              have hall : ∀ param ∈ blockqNames, Serving.tensorOf .onLoad param = none := by decide
              exact hall param hbq
            rw [honload, Serving.storedAs, htensor] at hstoredAs
            simpa using hstoredAs
          rw [hself] at hname
          exact absurd hname (h.encoded_of_coherent hcoherent honload he hbq)
    · rw [heq, h.fills_headModule hname hparam] at hmap
      refine .inr (.inl ?_)
      obtain ⟨htied, _⟩ := h.headModuleParams_spec hparam
      unfold headModuleParams at hparam
      rw [htied, if_neg Bool.false_ne_true] at hparam
      unfold HeadTensor
      split_ifs at hparam ⊢
      · exact ⟨param, hparam, hmap⟩
      · rw [hmap, List.mem_singleton.mp hparam]
        rfl
  · -- the skipped alias of a tied model
    rw [hskip] at hmap
    obtain ⟨hself, hdense⟩ := h.fills_alias hname hmap
    refine .inr (.inl ?_)
    rw [HeadTensor, hdense, if_neg Bool.false_ne_true]
    exact hself

end Necessary

/-! ### From the condition to the property -/

/-- A dropped head: a tied model registers none. -/
theorem unclaimed_head {p t : String} (ht : Undotted t) (htied : cfg.tied = true)
    (hdense : cfg.dense_embed = true) (hsearch : Pattern.headStorage.search (dotted p t) = true) :
    Unclaimed cfg stored embed_prefix p t := by
  obtain ⟨trellis, hok⟩ := h.ok
  have hfrom : cfg.serving.fromHead = false := by
    by_contra hfrom
    rw [(h.fromHead_spec (by simpa using hfrom)).1] at hdense
    cases hdense
  obtain ⟨a, ha, hta⟩ := search_headStorage ht hsearch
  have hne : cfg.serving ≠ .trellis := by
    intro htrellis
    have hspec := serving_spec hok
    rw [htrellis] at hspec
    rw [hspec.2] at htied
    cases htied
  have htensors : t ∉ cfg.serving.tensors := by
    intro hmem
    obtain ⟨hne₁, hne₂⟩ := Serving.tensors_ne_head hne t hmem a ha
    exact hta.elim hne₁ hne₂
  refine ⟨?_, ?_, fun _ hparam => ?_⟩
  · rw [Serving.target_own hfrom, Serving.paramOf_eq htensors, ite_self]
  · intro hparam
    rcases mem_params.mp hparam with ⟨hfrom', _⟩ | hown
    · rw [hfrom] at hfrom'
      cases hfrom'
    · exact htensors (List.mem_append_left _ hown)
  · rw [(h.headModuleParams_spec hparam).1] at htied
    cases htied

/-- A dropped dense copy: the embedding is served from an encoding, under the encoding's names. -/
theorem unclaimed_dense {p t : String} (ht : Undotted t)
    (hid : ∀ t, cfg.serving.paramOf t = t) (hsub : cfg.serving.params [] ⊆ blockqNames)
    (hsearch : Pattern.denseEmbed.search (dotted p t) = true) :
    Unclaimed cfg stored embed_prefix p t := by
  obtain ⟨hpath, hweight⟩ := search_denseEmbed ht hsearch
  have hp : p ≠ "lm_head" := by
    rintro rfl
    revert hpath
    decide
  have hno : ∀ x ∈ ["trellis", "suh", "svh", "mul1", "mcg"] ++ blockqNames,
      x ≠ "weight" ∧ x ≠ "weight\n" := by decide
  refine ⟨?_, fun hparam => ?_, fun heq => absurd heq hp⟩
  · unfold Serving.target
    rw [if_neg (fun hboth => hp hboth.2), hid, ite_self]
  · have hmem : t ∈ ["trellis", "suh", "svh", "mul1", "mcg"] ++ blockqNames := by
      rcases mem_params.mp hparam with ⟨hfrom, hx⟩ | hown
      · exact List.mem_append_left _ (h.stored_subset (h.fromHead_spec hfrom).2.2 hx)
      · exact List.mem_append_right _ (hsub hown)
    exact hweight.elim (hno t hmem).1 (hno t hmem).2

/-- A dropped encoding: the embedding is served dense, from its `weight`. -/
theorem unclaimed_blockq {p t : String} (ht : Undotted t) (hserving : cfg.serving = .sidecar)
    (hsearch : Pattern.blockq.search (dotted p t) = true) :
    Unclaimed cfg stored embed_prefix p t := by
  obtain ⟨a, ha, hta⟩ := search_blockq ht hsearch
  have hno : ∀ a ∈ blockqNames, ∀ x ∈ ["trellis", "suh", "svh", "mul1", "mcg", "weight"],
      x ≠ a ∧ x ≠ a ++ "\n" := by decide
  have hne : t ∉ ["trellis", "suh", "svh", "mul1", "mcg", "weight"] := by
    intro hmem
    obtain ⟨hne₁, hne₂⟩ := hno a ha t hmem
    exact hta.elim hne₁ hne₂
  have hsub : Serving.sidecar.params stored ⊆
      ["trellis", "suh", "svh", "mul1", "mcg", "weight"] := by
    show ["weight"] ⊆ _
    decide
  refine ⟨?_, fun hparam => ?_, fun _ hparam => hne (h.headModuleParams_spec hparam).2⟩
  · rw [hserving, Serving.target_own rfl]
    exact congrArg (dotted p) (ite_self t)
  · rw [hserving] at hparam
    exact hne (hsub hparam)

theorem unclaimed_of_unread {p t : String} (ht : Undotted t) (hunread : Unread cfg (dotted p t)) :
    Unclaimed cfg stored embed_prefix p t := by
  rcases hunread with ⟨htied, hdense, -, hsearch⟩ | hunread
  · exact h.unclaimed_head ht htied hdense hsearch
  · cases hserving : cfg.serving <;> rw [hserving] at hunread
    case blockq | tiedHead | blockqTied =>
      refine h.unclaimed_dense ht ?_ ?_ hunread
      · rw [hserving]
        exact fun _ => rfl
      · rw [hserving]
        decide
    case sidecar => exact h.unclaimed_blockq ht hserving hunread
    all_goals exact hunread.elim

/-- A tensor of the head is sent to the head, to the embedding recorded last, or skipped as the alias
of a tied model's `lm_head.weight`. -/
theorem head_arrives (hroutable : Routable cfg model stored names)
    (hlast : embed_prefix = recorded cfg.embed_prefix model.embeddings)
    {name new : String} (hname : name ∈ names) (htensor : HeadTensor cfg stored name)
    (hmap : vllm.mapName rules name = some new) :
    Registered (builtModules cfg model stored) new ∨ (cfg.tied = true ∧ new = "lm_head.weight") := by
  have hbuilt : cfg.tied = false → model.hasHead = true := by
    intro htied
    by_contra hno
    exact hroutable.headless htied (by simpa using hno) name hname htensor
  unfold HeadTensor at htensor
  split_ifs at htensor with hstored
  · obtain ⟨x, hx, rfl⟩ := htensor
    have hknown := h.stored_known hstored hx
    cases hfrom : cfg.serving.fromHead with
    | true =>
      -- the embedding recorded last takes the head
      obtain ⟨e, he, hpath⟩ := (hroutable.shared hfrom).1
      rw [h.head_sent hfrom hx hname, hlast] at hmap
      obtain rfl := Option.some.inj hmap
      rw [← hpath]
      exact .inl (registered_iff.mpr (.inl ⟨e, he, x, mem_params.mpr (.inl ⟨hfrom, hx⟩), rfl⟩))
    | false =>
      obtain ⟨hread, htarget⟩ := (h.mapName_dotted (undotted_of_known hknown)
        (not_cacheScale_of_known hknown) hname).mp hmap
      cases htied : cfg.tied with
      | true => exact absurd (h.unread_of_declined hstored htied hfrom hx) hread
      | false =>
        have hparam : x ∈ headModuleParams cfg stored := by
          rw [headModuleParams, htied, hstored]
          exact hx
        rw [(h.fills_headModule hname hparam).mpr rfl] at hmap
        obtain rfl := Option.some.inj hmap
        exact .inl (registered_iff.mpr (.inr ⟨hbuilt htied, x, hparam, rfl⟩))
  · obtain rfl : name = dotted "lm_head" "weight" := htensor
    have hfrom : cfg.serving.fromHead = false := by
      by_contra hfrom
      exact hstored (h.fromHead_spec (by simpa using hfrom)).2.2
    obtain ⟨hread, _⟩ := (h.mapName_dotted (by decide) (by decide) hname).mp hmap
    rw [(h.fills_lmHead hfrom hname (by decide)).mpr ⟨rfl, hread⟩] at hmap
    obtain rfl := Option.some.inj hmap
    cases htied : cfg.tied with
    | true => exact .inr ⟨rfl, rfl⟩
    | false =>
      refine .inl (registered_iff.mpr (.inr ⟨hbuilt htied, "weight", ?_, rfl⟩))
      rw [headModuleParams, htied, if_neg Bool.false_ne_true, if_neg hstored]
      exact List.mem_singleton_self _

/-- Every tensor the condition lists is sent to a parameter. -/
theorem arrives_of_routable (hroutable : Routable cfg model stored names)
    (hlast : embed_prefix = recorded cfg.embed_prefix model.embeddings)
    {name new : String} (hname : name ∈ names) (hrouted : IsRouted name)
    (hmap : vllm.mapName rules name = some new) :
    Registered (builtModules cfg model stored) new ∨ (cfg.tied = true ∧ new = "lm_head.weight") := by
  rcases hroutable.known name hname hrouted with ⟨e, he, hown | hshared⟩ | htensor | hunread
  · obtain ⟨param, hparam, hstoredAs⟩ := hown
    have hown := own_subset hparam
    rw [(h.fills_own hname e.outside.1 hown).mpr hstoredAs] at hmap
    obtain rfl := Option.some.inj hmap
    exact .inl (registered_iff.mpr (.inl ⟨e, he, param, mem_params.mpr (.inr hown), rfl⟩))
  · obtain ⟨hfrom, x, hx, rfl⟩ := hshared
    rw [(h.fills_head hfrom hname e.outside.1 hx).mpr (.inl rfl)] at hmap
    obtain rfl := Option.some.inj hmap
    exact .inl (registered_iff.mpr (.inl ⟨e, he, x, mem_params.mpr (.inl ⟨hfrom, hx⟩), rfl⟩))
  · exact h.head_arrives hroutable hlast hname htensor hmap
  · obtain ⟨p, t, ht, hscale, rfl⟩ := exists_of_routed hrouted
    rw [(h.mapName_eq_none ht hscale hname).mpr hunread] at hmap
    cases hmap

/-- What is dropped would have no parameter to go to. -/
theorem keeps_home {name new : String} (hname : name ∈ names) (hrouted : IsRouted name)
    (hnone : vllm.mapName rules name = none)
    (hmap : vllm.mapName { rules with orig_to_new_regex := [] } name = some new) :
    ¬Registered (builtModules cfg model stored) new := by
  obtain ⟨p, t, ht, hscale, rfl⟩ := exists_of_routed hrouted
  have hunread := (h.mapName_eq_none ht hscale hname).mp hnone
  obtain ⟨hpath, hparams, hheadParams⟩ := h.unclaimed_of_unread ht hunread
  rw [vllm.mapName_eq _ _ (isCacheScale_dotted.trans hscale), MapperRules.mapName, h.rules_eq] at hmap
  have hnew : cfg.serving.target embed_prefix p t = new := by
    rw [← rename_dotted ht (fun hfrom => h.not_below_head hfrom ht hname)]
    exact Option.some.inj hmap
  rw [hpath] at hnew
  subst hnew
  intro hreg
  rcases registered_iff.mp hreg with ⟨e, _, param, hparam, heq⟩ | ⟨_, param, hparam, heq⟩
  · have hplain := undotted_of_known (h.params_known hparam)
    obtain ⟨-, rfl⟩ := (dotted_inj ht hplain).mp heq
    exact hparams hparam
  · have hall : ∀ x ∈ ["trellis", "suh", "svh", "mul1", "mcg", "weight"], Undotted x := by decide
    have hplain := hall param (h.headModuleParams_spec hparam).2
    obtain ⟨rfl, rfl⟩ := (dotted_inj ht hplain).mp heq
    exact hheadParams rfl hparam

/-- A parameter the head serves is filled from the head at the prefix recorded last, and elsewhere
from a tensor of the embedding's own. -/
theorem shared_fills (hroutable : Routable cfg model stored names)
    (hlast : embed_prefix = recorded cfg.embed_prefix model.embeddings) (hnodup : names.Nodup)
    {e : Embedding} (he : e ∈ model.embeddings) {x : String} (hfrom : cfg.serving.fromHead = true)
    (hx : x ∈ stored) :
    (Module.delivered vllm rules names ⟨e.path, cfg.serving.params stored⟩ x).length = 1 := by
  have hne : cfg.serving ≠ .onLoad := by
    intro honload
    rw [honload] at hfrom
    cases hfrom
  have hhead := (h.fromHead_spec hfrom).2.2
  have hinHead : dotted "lm_head" x ∈ names :=
    ((h.exact hhead).2 _ (startswith_iff.mpr ⟨x, rfl⟩)).mpr ⟨x, hx, rfl⟩
  have hshared := (hroutable.shared hfrom).2 e he x hx
  rw [← hlast] at hshared
  rw [delivered_eq (.inr (fun hsrc => hne (h.src_of_params hsrc))),
    arriving_eq_one hnodup fun n hn => h.fills_head hfrom hn e.outside.1 hx]
  by_cases hpath : e.path = embed_prefix
  · refine ⟨_, ⟨hinHead, .inr ⟨hpath, rfl⟩⟩, ?_⟩
    rintro n ⟨hn, rfl | ⟨_, rfl⟩⟩
    · exact absurd hpath (hshared.mp hn)
    · rfl
  · refine ⟨_, ⟨hshared.mpr hpath, .inl rfl⟩, ?_⟩
    rintro n ⟨_, rfl | ⟨heq, _⟩⟩
    · rfl
    · exact absurd heq hpath

/-- A parameter that is loaded as stored is filled from its one stored tensor. -/
theorem own_fills (hroutable : Routable cfg model stored names) (hnodup : names.Nodup)
    {e : Embedding} (he : e ∈ model.embeddings) {param : String} (hself : param ∈ cfg.serving.own) :
    (Module.delivered vllm rules names ⟨e.path, cfg.serving.params stored⟩ param).length = 1 := by
  have hnot : param ∉ blockqNames ∨ "bq_src" ∉ cfg.serving.params stored := by
    by_cases honload : cfg.serving = .onLoad
    · rw [honload] at hself
      obtain rfl := List.mem_singleton.mp hself
      exact .inl (by decide)
    · exact .inr (fun hsrc => honload (h.src_of_params hsrc))
  rw [delivered_eq hnot,
    arriving_eq_one hnodup fun n hn => h.fills_own hn e.outside.1 (own_subset hself)]
  exact hroutable.own e he param hself

/-- A parameter encoded on load is filled through `bq_src`. -/
theorem encoded_fills (hroutable : Routable cfg model stored names) (hnodup : names.Nodup)
    {e : Embedding} (he : e ∈ model.embeddings) {param : String} (honload : cfg.serving = .onLoad)
    (hbq : param ∈ blockqNames) (hown : param ∈ cfg.serving.params []) :
    (Module.delivered vllm rules names ⟨e.path, cfg.serving.params stored⟩ param).length = 1 := by
  have hsrcOwn : "bq_src" ∈ cfg.serving.own := by
    rw [honload]
    exact List.mem_singleton_self _
  have hsrc := own_subset hsrcOwn
  have hnone : (arriving vllm rules names (dotted e.path param)).length = 0 := by
    apply arriving_eq_zero
    intro n hn hmap
    have hmem := (h.fills_own hn e.outside.1 hown).mp hmap
    have htensor : ∀ param ∈ blockqNames, Serving.tensorOf .onLoad param = none := by decide
    rw [honload, Serving.storedAs, htensor param hbq] at hmem
    have hself : n = dotted e.path param := by simpa using hmem
    rw [hself] at hn
    exact hroutable.encoded honload e he param hbq hn
  unfold Module.delivered
  rw [if_pos ⟨hbq, mem_params.mpr (.inr hsrc)⟩, List.length_append, hnone, Nat.zero_add,
    arriving_eq_one hnodup fun n hn => h.fills_own hn e.outside.1 hsrc]
  exact hroutable.own e he "bq_src" hsrcOwn

/-- Every parameter of an embedding is filled from one tensor. -/
theorem embedding_fills (hroutable : Routable cfg model stored names)
    (hlast : embed_prefix = recorded cfg.embed_prefix model.embeddings) (hnodup : names.Nodup)
    {e : Embedding} (he : e ∈ model.embeddings) {param : String}
    (hparam : param ∈ cfg.serving.params stored) :
    (Module.delivered vllm rules names ⟨e.path, cfg.serving.params stored⟩ param).length = 1 := by
  rcases mem_params.mp hparam with ⟨hfrom, hx⟩ | hown
  · exact h.shared_fills hroutable hlast hnodup he hfrom hx
  · rcases own_or_encoded hown with hself | ⟨honload, hbq⟩
    · exact h.own_fills hroutable hnodup he hself
    · exact h.encoded_fills hroutable hnodup he honload hbq hown

/-- So is every parameter of the head. -/
theorem headModule_fills (hroutable : Routable cfg model stored names) (hnodup : names.Nodup)
    (hhead : model.hasHead = true) {param : String}
    (hparam : param ∈ headModuleParams cfg stored) :
    (Module.delivered vllm rules names ⟨"lm_head", headModuleParams cfg stored⟩ param).length = 1 := by
  obtain ⟨htied, hmem⟩ := h.headModuleParams_spec hparam
  have hno : ∀ x ∈ ["trellis", "suh", "svh", "mul1", "mcg", "weight"], x ∉ blockqNames := by decide
  rw [delivered_eq (.inl (hno param hmem)),
    arriving_eq_one hnodup fun n hn => h.fills_headModule hn hparam]
  refine ⟨dotted "lm_head" param, ⟨?_, rfl⟩, fun n hn => hn.2⟩
  unfold headModuleParams at hparam
  rw [htied, if_neg Bool.false_ne_true] at hparam
  split_ifs at hparam with hstored
  · exact ((h.exact hstored).2 _ (startswith_iff.mpr ⟨param, rfl⟩)).mpr ⟨param, hparam, rfl⟩
  · obtain rfl := List.mem_singleton.mp hparam
    exact hroutable.head htied (by simpa using hstored) hhead

/-- The stream fits the modules exactly where the checkpoint fits the model. -/
theorem coherent_iff (hlast : embed_prefix = recorded cfg.embed_prefix model.embeddings)
    (hnodup : names.Nodup) :
    Coherent vllm cfg.tied rules (builtModules cfg model stored) names ↔
      Routable cfg model stored names := by
  constructor
  · intro hcoherent
    exact {
      own := fun e he param hparam => h.own_of_coherent hnodup hcoherent he hparam
      encoded := fun honload e he param hparam =>
        h.encoded_of_coherent hcoherent honload he hparam
      shared := fun hfrom => hlast ▸ h.shared_of_coherent hnodup hcoherent hfrom
      head := fun htied hdense hhead => h.head_of_coherent hnodup hcoherent htied hdense hhead
      headless := fun htied hno name hname => h.headless_of_coherent hcoherent htied hno hname
      known := fun name hname hrouted => h.known_of_coherent hcoherent hname hrouted }
  · intro hroutable
    exact {
      arrives := fun name hname hrouted new hmap =>
        h.arrives_of_routable hroutable hlast hname hrouted hmap
      keeps := fun name hname hrouted hnone new hmap => h.keeps_home hname hrouted hnone hmap
      fills := by
        intro m hm param hparam
        rcases List.mem_append.mp hm with hm | hm
        · obtain ⟨e, he, rfl⟩ := List.mem_map.mp hm
          exact h.embedding_fills hroutable hlast hnodup he hparam
        · split_ifs at hm with hhead
          · obtain rfl := List.mem_singleton.mp hm
            exact h.headModule_fills hroutable hnodup hhead hparam
          · cases hm }

end Stream

/-! ## The exact condition -/

/-- The weight stream fits the vocabulary layers exactly where the checkpoint stores, under each
embedding's own path and once, what its way of serving is filled from, the head of a tied model has
an embedding at the recorded prefix and every other embedding one of its own, an untied model's head
is stored, and nothing else is but for the encoding that is not served. For every config, model and
set of names for which neither decider raises and whose quantized head stores exactly
`stored_tensor_names()`. -/
theorem routing_coherent_iff (vllm : Vllm) (hnodup : names.Nodup)
    (hexact : HeadExact cfg stored names)
    (hbuilt : construct cfg model = .ok (modules, cfg'))
    (hrules : cfg'.getCacheScaleMapper = .ok rules) :
    Coherent vllm cfg.tied rules modules names ↔ Routable cfg model stored names := by
  obtain ⟨trellis, hok⟩ := embeddingIsTrellis_of_built hbuilt hrules
  obtain ⟨rfl, rfl⟩ := construct_ok hok (fun hstored => (hexact hstored).1) hbuilt
  have hstream : Stream vllm cfg stored names (recorded cfg.embed_prefix model.embeddings) rules := {
    ok := ⟨trellis, hok⟩
    exact := hexact
    rules_eq := by
      -- neither the way nor the head rules depend on the recorded prefix
      have hmapper : EXL3Config.getCacheScaleMapper
          { cfg with embed_prefix := recorded cfg.embed_prefix model.embeddings } = .ok _ :=
        getCacheScaleMapper_serving hok
      exact Except.ok.inj (hrules.symm.trans hmapper)
    scale := fun name new => vllm.mapName_scale _ rules name new hrules }
  exact hstream.coherent_iff rfl hnodup

/-- An embedding without a parent is not found by the suffix rule, so what is to be encoded on load
never reaches the encoder. -/
example : (Serving.onLoad.rules [] "embed_tokens").mapName "embed_tokens.weight" =
    some "embed_tokens.weight" := by decide

/-! ### Two tied models with a quantized head -/

/-- The tensors of a 3inst head. -/
def headTensors : List String := ["trellis", "suh", "svh"]

/-- A repaired checkpoint: `bq_*` beside the dense embedding, and the head. -/
def repairedNames : List String :=
  ["model.language_model.embed_tokens.weight", "model.language_model.embed_tokens.bq_q",
    "model.language_model.embed_tokens.bq_s", "model.language_model.embed_tokens.bq_r",
    "lm_head.trellis", "lm_head.suh", "lm_head.svh"]

/-- The embedding of a model that nests its language model. -/
def nestedEmbedding : Embedding where
  path := "model.language_model.embed_tokens"
  pre := "model.language_model.embed_tokens"
  outside := by decide

/-- A model of that one embedding, which serves as its head. -/
def nestedModel : Model where
  embeddings := [nestedEmbedding]
  hasHead := false

/-- The config of the repaired checkpoint. -/
def repairedConfig : EXL3Config :=
  { quantizedHeadConfig with blockq_modules := ["model.language_model.embed_tokens"] }

example : load tiedSettings (indexed repairedNames) some = .ok repairedConfig := by rfl

theorem headExact_of_names {cfg : EXL3Config} {names : List String}
    (hstored : cfg.storedTensorNames = .ok headTensors)
    (hhead : names.filter (fun name => startswith name "lm_head.") =
      headTensors.map (dotted "lm_head")) :
    HeadExact cfg headTensors names := by
  refine fun _ => ⟨hstored, fun name hstart => ?_⟩
  have hmem : name ∈ names.filter (fun name => startswith name "lm_head.") ↔ name ∈ names := by
    rw [List.mem_filter]
    exact and_iff_left hstart
  rw [← hmem, hhead, List.mem_map]
  exact exists_congr fun x => and_congr_right fun _ => eq_comm

theorem repaired_routable : Routable repairedConfig nestedModel headTensors repairedNames where
  own := by
    intro e he param hparam
    obtain rfl := List.mem_singleton.mp he
    have hbq : ∀ param ∈ blockqNames, dotted nestedEmbedding.path param ∈ repairedNames := by decide
    refine ⟨dotted nestedEmbedding.path param, ⟨hbq param hparam, List.mem_cons_self⟩, ?_⟩
    rintro name ⟨_, hname⟩
    exact List.mem_singleton.mp hname
  encoded := fun honload => nomatch honload
  shared := by
    intro _
    refine ⟨⟨nestedEmbedding, List.mem_singleton_self _, rfl⟩, fun e he x hx => ?_⟩
    obtain rfl := List.mem_singleton.mp he
    have hno : ∀ x ∈ headTensors, dotted nestedEmbedding.path x ∉ repairedNames := by decide
    exact iff_of_false (hno x hx) (fun hne => hne rfl)
  head := fun htied => nomatch htied
  headless := fun htied => nomatch htied
  known := by
    intro name hname _
    have hcases : name ∈ repairedNames.take 1 ∨ name ∈ blockqNames.map (dotted nestedEmbedding.path) ∨
        name ∈ headTensors.map (dotted "lm_head") := by
      have hall : ∀ name ∈ repairedNames, name ∈ repairedNames.take 1 ∨
          name ∈ blockqNames.map (dotted nestedEmbedding.path) ∨
          name ∈ headTensors.map (dotted "lm_head") := by decide
      exact hall name hname
    rcases hcases with hdense | hbq | hhead
    · obtain rfl := List.mem_singleton.mp hdense
      have hsearch : Pattern.denseEmbed.search "model.language_model.embed_tokens.weight" = true := by
        decide
      exact .inr (.inr (.inr hsearch))
    · obtain ⟨param, hparam, rfl⟩ := List.mem_map.mp hbq
      exact .inl ⟨nestedEmbedding, List.mem_singleton_self _, .inl ⟨param, hparam, List.mem_cons_self⟩⟩
    · obtain ⟨x, hx, rfl⟩ := List.mem_map.mp hhead
      exact .inr (.inl ⟨x, hx, rfl⟩)

/-- The repaired checkpoint fits the nested model. -/
theorem repaired_coherent :
    Coherent Vllm.plain true
      (Serving.blockqTied.rules [] "model.language_model.embed_tokens")
      [⟨"model.language_model.embed_tokens", headTensors ++ blockqNames⟩] repairedNames := by
  have hbuilt : construct repairedConfig nestedModel =
      .ok ([⟨"model.language_model.embed_tokens", headTensors ++ blockqNames⟩],
        { repairedConfig with embed_prefix := "model.language_model.embed_tokens" }) := rfl
  have hexact : HeadExact repairedConfig headTensors repairedNames :=
    headExact_of_names rfl (by decide)
  exact (routing_coherent_iff Vllm.plain (by decide) hexact hbuilt rfl).mpr repaired_routable

/-- A tied checkpoint of two embeddings. -/
def twoEmbeddingNames : List String :=
  ["model.language_model.embed_tokens.weight", "model.audio_tower.embed_tokens.weight",
    "lm_head.trellis", "lm_head.suh", "lm_head.svh"]

/-- The second embedding, constructed after the language model's. -/
def audioEmbedding : Embedding where
  path := "model.audio_tower.embed_tokens"
  pre := "model.audio_tower.embed_tokens"
  outside := by decide

def twoEmbeddings : Model where
  embeddings := [nestedEmbedding, audioEmbedding]
  hasHead := false

/-- Both embeddings register the head's parameters. -/
def twoModules : List Module :=
  [⟨"model.language_model.embed_tokens", headTensors⟩,
    ⟨"model.audio_tower.embed_tokens", headTensors⟩]

/-- The head goes to the second one. -/
theorem two_embeddings_incoherent :
    load tiedSettings (indexed twoEmbeddingNames) some = .ok quantizedHeadConfig ∧
      HeadExact quantizedHeadConfig headTensors twoEmbeddingNames ∧
      construct quantizedHeadConfig twoEmbeddings = .ok (twoModules,
        { quantizedHeadConfig with embed_prefix := "model.audio_tower.embed_tokens" }) ∧
      EXL3Config.getCacheScaleMapper
        { quantizedHeadConfig with embed_prefix := "model.audio_tower.embed_tokens" } =
          .ok ⟨[.denseEmbed], [("lm_head.", "model.audio_tower.embed_tokens.")], []⟩ ∧
      ¬Coherent Vllm.plain true
        ⟨[.denseEmbed], [("lm_head.", "model.audio_tower.embed_tokens.")], []⟩ twoModules
        twoEmbeddingNames := by
  refine ⟨rfl, headExact_of_names rfl (by decide), rfl, rfl, fun hcoherent => ?_⟩
  have hlen := hcoherent.fills ⟨"model.language_model.embed_tokens", headTensors⟩ (by decide)
    "trellis" (by decide)
  revert hlen
  decide

end VllmExl3.Config
