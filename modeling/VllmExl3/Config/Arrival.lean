/-
# VllmExl3.Config.Arrival — where the tensors of a checkpoint arrive

The rules of a way of serving, read name by name. A name is a path and a last component; a rule looks
at the end of the path and at the component, and changes one of them. `Serving.target` is where a name
goes, `Unread` which names are dropped, and the lemmas of `Stream` turn that around: which stored
tensors fill a given parameter of a given layer.
-/
import VllmExl3.Config.Serving

namespace VllmExl3.Config

open PyStr Names EXL3Config

/-! ## What is stored -/

/-- A quantized head stores exactly `stored_tensor_names()`. -/
def HeadExact (cfg : EXL3Config) (stored names : List String) : Prop :=
  cfg.headStorageExists = true → cfg.storedTensorNames = .ok stored ∧
    ∀ name, startswith name "lm_head." = true →
      (name ∈ names ↔ ∃ x ∈ stored, name = dotted "lm_head" x)

/-- The stored name of the tensor a parameter is filled from, where it is not the parameter's own. -/
def Serving.tensorOf : Serving → String → Option String
  | .trellis, param =>
    if param = "et_table" then some "trellis" else if param = "et_signs" then some "signs" else none
  | .onLoad, param => if param = "bq_src" then some "weight" else none
  | _, _ => none

/-- The names the tensor of an embedding's parameter can be stored under: the parameter's own, and
below a parent the checkpoint's. -/
def Serving.storedAs (s : Serving) (path param : String) : List String :=
  dotted path param ::
    if endswith path ".embed_tokens" then (s.tensorOf param).toList.map (dotted path) else []

/-- The encoding, or the head, that is stored beside the one that is served. -/
def Unread (cfg : EXL3Config) (name : String) : Prop :=
  (cfg.tied = true ∧ cfg.dense_embed = true ∧ cfg.headStorageExists = true ∧
      Pattern.headStorage.search name = true) ∨
    match cfg.serving with
    | .blockq | .tiedHead | .blockqTied => Pattern.denseEmbed.search name = true
    | .sidecar => Pattern.blockq.search name = true
    | .trellis | .onLoad | .dense => False

variable {cfg : EXL3Config} {stored names : List String}

theorem storedTensorNames_subset (h : cfg.storedTensorNames = .ok stored) :
    stored ⊆ ["trellis", "suh", "svh", "mul1", "mcg"] := by
  unfold storedTensorNames at h
  split at h
  case h_1 heq =>
    obtain rfl := Except.ok.inj h
    have hmem := List.mem_of_find?_eq_some heq
    simp only [CODEBOOK_TENSORS, List.mem_cons, Prod.mk.injEq, Option.some.injEq, List.not_mem_nil,
      or_false, reduceCtorEq, and_false] at hmem
    rcases hmem with ⟨-, rfl⟩ | ⟨-, rfl⟩ <;> decide
  case h_2 =>
    obtain rfl := Except.ok.inj h
    decide
  case h_3 => cases h

theorem trellis_mem_stored (h : cfg.storedTensorNames = .ok stored) : "trellis" ∈ stored := by
  unfold storedTensorNames at h
  split at h
  case h_3 => cases h
  all_goals
    obtain rfl := Except.ok.inj h
    exact List.mem_cons_self

/-! ## Where a name goes -/

/-- Where the rules send a name they do not drop. -/
def Serving.target (s : Serving) ( embed_prefix path name : String) : String :=
  if s.fromHead = true ∧ path = "lm_head" then dotted embed_prefix name
  else dotted path (if endswith path ".embed_tokens" then s.paramOf name else name)

theorem Serving.target_own {s : Serving} { embed_prefix p t : String} (h : s.fromHead = false) :
    s.target embed_prefix p t = dotted p (if endswith p ".embed_tokens" then s.paramOf t else t) := by
  unfold Serving.target
  rw [h]
  exact if_neg (fun hboth => Bool.false_ne_true hboth.1)

/-- One suffix rule, on a path and a last component. -/
theorem renameSuffix_dotted {p t s a b : String} (ht : Undotted t) (ha : Undotted a) :
    (if endswith (dotted p t) (dotted s a) then
        dropEnd (dotted p t) (dotted s a).toList.length ++ dotted s b
      else dotted p t) = dotted p (if endswith p s = true ∧ t = a then b else t) := by
  by_cases hmatch : endswith p s = true ∧ t = a
  · rw [if_pos ((endswith_dotted ht ha).mpr hmatch), if_pos hmatch]
    obtain ⟨hpath, rfl⟩ := hmatch
    obtain ⟨stem, rfl⟩ := endswith_iff.mp hpath
    rw [← append_dotted, dropEnd_append, append_dotted]
  · rw [if_neg (fun h => hmatch ((endswith_dotted ht ha).mp h)), if_neg hmatch]

/-- Where the head serves the embedding, what lies directly below `lm_head` moves to the embedding. -/
theorem renamePrefixes_head {s : Serving} { embed_prefix p t : String} (hfrom : s.fromHead = true)
    (hhead : startswith p "lm_head." = false) :
    renamePrefixes [("lm_head.", embed_prefix ++ ".")] (dotted p t) = s.target embed_prefix p t := by
  have hid : s.paramOf t = t := by
    cases s <;> first | rfl | cases hfrom
  unfold renamePrefixes Serving.target
  rw [List.foldl_cons, List.foldl_nil]
  by_cases hp : p = "lm_head"
  · subst hp
    have hsplit : dotted "lm_head" t = "lm_head." ++ t := rfl
    have hstart : startswith ("lm_head." ++ t) "lm_head." = true := startswith_iff.mpr ⟨t, rfl⟩
    rw [hsplit, if_pos hstart, if_pos ⟨hfrom, rfl⟩]
    show embed_prefix ++ "." ++ dropStart ("lm_head." ++ t) "lm_head.".toList.length = _
    rw [dropStart_append]
    rfl
  · have hno : ¬startswith (dotted p t) "lm_head." = true := by
      intro hstart
      rcases startswith_dotted (q := "lm_head") (by decide) hstart with heq | hdeeper
      · exact hp heq
      · exact Bool.false_ne_true (hhead.symm.trans hdeeper)
    rw [if_neg hno, if_neg (fun h => hp h.2), hid, ite_self]

theorem rename_dotted {s : Serving} {head : List Pattern} { embed_prefix p t : String}
    (ht : Undotted t) (hhead : s.fromHead = true → startswith p "lm_head." = false) :
    renameSuffixes (s.rules head embed_prefix).orig_to_new_suffix
        (renamePrefixes ( MapperRules.orig_to_new_prefix (s.rules head embed_prefix)) (dotted p t)) =
      s.target embed_prefix p t := by
  cases s
  case trellis =>
    show renameSuffixes [(dotted ".embed_tokens" "trellis", dotted ".embed_tokens" "et_table"),
      (dotted ".embed_tokens" "signs", dotted ".embed_tokens" "et_signs")] (dotted p t) = _
    unfold renameSuffixes
    rw [List.foldl_cons, renameSuffix_dotted ht (by decide), List.foldl_cons, List.foldl_nil]
    have ht₁ : Undotted
        (if endswith p ".embed_tokens" = true ∧ t = "trellis" then "et_table" else t) := by
      split_ifs
      · decide
      · exact ht
    rw [renameSuffix_dotted ht₁ (by decide)]
    rw [Serving.target_own rfl, Serving.paramOf]
    congr 1
    by_cases hnest : endswith p ".embed_tokens" = true
    · by_cases htable : t = "trellis"
      · simp [hnest, htable]
      · by_cases hsigns : t = "signs" <;> simp [hnest, htable, hsigns]
    · simp [hnest]
  case onLoad =>
    show renameSuffixes [(dotted ".embed_tokens" "weight", dotted ".embed_tokens" "bq_src")]
      (dotted p t) = _
    unfold renameSuffixes
    rw [List.foldl_cons, renameSuffix_dotted ht (by decide), List.foldl_nil]
    rw [Serving.target_own rfl, Serving.paramOf]
    congr 1
    by_cases hnest : endswith p ".embed_tokens" = true
    · by_cases hweight : t = "weight" <;> simp [hnest, hweight]
    · simp [hnest]
  case tiedHead | blockqTied => exact renamePrefixes_head rfl (hhead rfl)
  all_goals
    show dotted p t = _
    rw [Serving.target_own rfl]
    exact (congrArg (dotted p) (ite_self t)).symm

/-- No rule renames a name without a dot. -/
theorem rename_undotted {s : Serving} {head : List Pattern} { embed_prefix n : String}
    (hn : Undotted n) :
    renameSuffixes (s.rules head embed_prefix).orig_to_new_suffix
      (renamePrefixes ( MapperRules.orig_to_new_prefix (s.rules head embed_prefix)) n) = n := by
  have hsuffix : ∀ p t, endswith n (dotted p t) = false := by
    intro p t
    by_contra hmatch
    obtain ⟨stem, rfl⟩ := endswith_iff.mp (by simpa using hmatch)
    rw [append_dotted] at hn
    exact not_undotted_dotted hn
  have hstart : startswith n "lm_head." = false := by
    by_contra hmatch
    obtain ⟨rest, rfl⟩ := startswith_iff.mp (by simpa using hmatch)
    exact not_undotted_dotted (show Undotted (dotted "lm_head" rest) from hn)
  have htrellis : endswith n EMBED_TRELLIS_SUFFIX = false := hsuffix ".embed_tokens" "trellis"
  have hsigns : endswith n EMBED_SIGNS_SUFFIX = false := hsuffix ".embed_tokens" "signs"
  have hweight : endswith n ".embed_tokens.weight" = false := hsuffix ".embed_tokens" "weight"
  cases s <;> simp [Serving.rules, renameSuffixes, renamePrefixes, hstart, htrellis, hsigns, hweight]

/-! ## Which names are dropped -/

theorem unread_iff {name embed_prefix : String} :
    (cfg.serving.rules (headRules cfg) embed_prefix).orig_to_new_regex.any (Pattern.search name) =
        true ↔ Unread cfg name := by
  have hhead : (headRules cfg).any (Pattern.search name) = true ↔ cfg.tied = true ∧
      cfg.dense_embed = true ∧ cfg.headStorageExists = true ∧
        Pattern.headStorage.search name = true := by
    rw [headRules_eq]
    cases cfg.tied <;> cases cfg.dense_embed <;> cases cfg.headStorageExists <;> simp
  unfold Unread
  rw [← hhead]
  cases cfg.serving <;> simp [Serving.rules]

/-- The last components of a name that ends at a dotted literal. -/
theorem endsAt_dotted {p s t a : String} (ht : Undotted t) (ha : Undotted a) :
    endsAt (dotted p t) (dotted s a) = true ↔ endswith p s = true ∧ (t = a ∨ t = a ++ "\n") := by
  have hline : dotted s a ++ "\n" = dotted s (a ++ "\n") := String.append_assoc
  have ha' : Undotted (a ++ "\n") := by
    rw [Undotted, String.toList_append, List.mem_append]
    rintro (h | h)
    · exact ha h
    · exact absurd h (by decide)
  rw [endsAt, Bool.or_eq_true, hline, endswith_dotted ht ha, endswith_dotted ht ha', and_or_left]

/-- `EXL3_SUFFIXES`, each without its dot. -/
def headNames : List String := ["trellis", "suh", "svh", "mcg", "mul1", "su", "sv"]

theorem search_headStorage {p t : String} (ht : Undotted t)
    (h : Pattern.headStorage.search (dotted p t) = true) :
    ∃ a ∈ headNames, t = a ∨ t = a ++ "\n" := by
  have hsuffixes : EXL3_SUFFIXES = headNames.map (fun a => "." ++ a) := by decide
  rw [Pattern.search, hsuffixes, List.any_map, List.any_eq_true] at h
  obtain ⟨a, ha, hends⟩ := h
  have hplain : ∀ a ∈ headNames, Undotted a := by decide
  have hlit : "lm_head" ++ ("." ++ a) = dotted "lm_head" a := String.append_assoc.symm
  rw [Function.comp_apply, hlit, endsAt_dotted ht (hplain a ha)] at hends
  exact ⟨a, ha, hends.2⟩

theorem search_blockq {p t : String} (ht : Undotted t)
    (h : Pattern.blockq.search (dotted p t) = true) :
    ∃ a ∈ blockqNames, t = a ∨ t = a ++ "\n" := by
  have hsuffixes : BLOCKQ_SUFFIXES = blockqNames.map (dotted "") := by decide
  rw [Pattern.search, hsuffixes, List.any_map, List.any_eq_true] at h
  obtain ⟨a, ha, hends⟩ := h
  have hplain : ∀ a ∈ blockqNames, Undotted a := by decide
  rw [Function.comp_apply, endsAt_dotted ht (hplain a ha)] at hends
  exact ⟨a, ha, hends.2⟩

theorem search_denseEmbed {p t : String} (ht : Undotted t)
    (h : Pattern.denseEmbed.search (dotted p t) = true) :
    (endswith p ".embed_tokens" = true ∨ p = "embed_tokens") ∧ (t = "weight" ∨ t = "weight\n") := by
  rw [Pattern.search, Bool.or_eq_true, Bool.or_eq_true, decide_eq_true_eq, decide_eq_true_eq] at h
  rcases h with (h | h) | h
  · have hends : endsAt (dotted p t) (dotted ".embed_tokens" "weight") = true := h
    rw [endsAt_dotted ht (by decide)] at hends
    exact ⟨.inl hends.1, hends.2⟩
  · have heq : dotted p t = dotted "embed_tokens" "weight" := h
    rw [dotted_inj ht (by decide)] at heq
    exact ⟨.inr heq.1, .inl heq.2⟩
  · have heq : dotted p t = dotted "embed_tokens" "weight\n" := h
    rw [dotted_inj ht (by decide)] at heq
    exact ⟨.inr heq.1, .inr heq.2⟩

/-! ## Last components -/

/-- The last components of the parameters, and of the tensors they are filled from. -/
def knownNames : List String :=
  ["trellis", "suh", "svh", "mul1", "mcg", "bq_q", "bq_s", "bq_r", "bq_src", "weight", "et_table",
    "et_signs", "signs"]

theorem undotted_of_known {x : String} (h : x ∈ knownNames) : Undotted x := by
  have hall : ∀ x ∈ knownNames, Undotted x := by decide
  exact hall x h

theorem not_cacheScale_of_known {x : String} (h : x ∈ knownNames) : isCacheScale x = false := by
  have hall : ∀ x ∈ knownNames, isCacheScale x = false := by decide
  exact hall x h

theorem isCacheScale_dotted {p x : String} : isCacheScale (dotted p x) = isCacheScale x := by
  have hsame : ∀ suffix, Undotted suffix → endswith (dotted p x) suffix = endswith x suffix := by
    intro suffix hsuffix
    rw [Bool.eq_iff_iff]
    exact ⟨endswith_of_dotted hsuffix, endswith_dotted_of_name⟩
  rw [isCacheScale, isCacheScale, hsame "scale" (by decide), hsame "zero_point" (by decide)]

theorem known_of_params {s : Serving} {x : String}
    (hstored : stored ⊆ ["trellis", "suh", "svh", "mul1", "mcg"]) (h : x ∈ s.params stored) :
    x ∈ knownNames := by
  have hsub : ["trellis", "suh", "svh", "mul1", "mcg"] ⊆ knownNames := by decide
  have hown : ∀ s : Serving, s.own ⊆ knownNames := by
    intro s
    cases s <;> decide
  have hblockq : blockqNames ⊆ knownNames := by decide
  cases s
  case onLoad =>
    rcases List.mem_append.mp h with hx | hx
    · exact hblockq hx
    · exact hown .onLoad hx
  all_goals
    rcases List.mem_append.mp h with hx | hx
    · first | exact hsub (hstored hx) | cases hx
    · exact hown _ hx

/-! ## Where the tensors of a checkpoint arrive -/

/-- The tensor whose last component is `t` fills `param`. -/
def Serving.Fits (s : Serving) (path t param : String) : Prop :=
  (if endswith path ".embed_tokens" then s.paramOf t else t) = param

/-- A parameter that is not filled from the head is renamed to from its tensor, and from nothing
else. -/
theorem Serving.paramOf_iff {s : Serving} {t param : String} (hparam : param ∈ s.params []) :
    s.paramOf t = param ↔ t = param ∨ s.tensorOf param = some t := by
  cases s
  case trellis =>
    have hcases : param = "et_table" ∨ param = "et_signs" := by
      simpa [Serving.params, Serving.fromHead, Serving.own] using hparam
    rcases hcases with rfl | rfl <;> by_cases htable : t = "trellis" <;>
      by_cases hsigns : t = "signs" <;>
      simp_all [Serving.paramOf, Serving.tensorOf, eq_comm]
  case onLoad =>
    have hne : param ≠ "weight" := by
      rintro rfl
      revert hparam
      decide
    by_cases hsrc : param = "bq_src" <;> by_cases hweight : t = "weight" <;>
      simp_all [Serving.paramOf, Serving.tensorOf, eq_comm]
  all_goals simp [Serving.paramOf, Serving.tensorOf]

theorem mem_storedAs {s : Serving} {path t param : String} (hparam : param ∈ s.params []) :
    dotted path t ∈ s.storedAs path param ↔ s.Fits path t param := by
  unfold Serving.storedAs Serving.Fits
  rw [List.mem_cons, dotted_name_inj]
  cases endswith path ".embed_tokens" with
  | false => simp
  | true =>
    rw [if_pos rfl, if_pos rfl, Serving.paramOf_iff hparam, List.mem_map]
    simp only [Option.mem_toList, dotted_name_inj, exists_eq_right]

/-- The last components of the tensors an embedding's own parameters are filled from. -/
def Serving.tensors (s : Serving) : List String :=
  s.params [] ++ (s.params []).filterMap s.tensorOf

theorem Serving.mem_tensors {s : Serving} {p t param : String} (hparam : param ∈ s.params [])
    (hfits : s.Fits p t param) : t ∈ s.tensors := by
  have hmem : t = param ∨ s.tensorOf param = some t := by
    unfold Serving.Fits at hfits
    split_ifs at hfits
    · exact (Serving.paramOf_iff hparam).mp hfits
    · exact .inl hfits
  rcases hmem with rfl | htensor
  · exact List.mem_append_left _ hparam
  · exact List.mem_append_right _ (List.mem_filterMap.mpr ⟨param, hparam, htensor⟩)

theorem Serving.known_of_mem_tensors {s : Serving} {t : String} (h : t ∈ s.tensors) :
    t ∈ knownNames := by
  have hall : ∀ s : Serving, s.tensors ⊆ knownNames := by
    intro s
    cases s <;> decide
  exact hall s h

/-- Only a trellis embedding has a tensor named like one of a head's. -/
theorem Serving.tensors_ne_head {s : Serving} (hne : s ≠ .trellis) :
    ∀ t ∈ s.tensors, ∀ a ∈ headNames, t ≠ a ∧ t ≠ a ++ "\n" := by
  cases s
  case trellis => exact absurd rfl hne
  all_goals decide

/-- What an embedding serves the head from is none of its own. -/
theorem Serving.own_not_stored {s : Serving} (hfrom : s.fromHead = true) {x : String}
    (hx : x ∈ ["trellis", "suh", "svh", "mul1", "mcg"]) : x ∉ s.params [] := by
  have hall : ∀ s : Serving, s.fromHead = true →
      ∀ x ∈ ["trellis", "suh", "svh", "mul1", "mcg"], x ∉ s.params [] := by
    intro s
    cases s <;> decide
  exact hall s hfrom x hx

/-- The rules rename tensors of the embedding only. -/
theorem Serving.paramOf_eq {s : Serving} {t : String} (ht : t ∉ s.tensors) : s.paramOf t = t := by
  cases s
  case trellis =>
    have hne : t ≠ "trellis" ∧ t ≠ "signs" := by
      constructor
      · rintro rfl
        exact ht (by decide)
      · rintro rfl
        exact ht (by decide)
    simp [Serving.paramOf, hne.1, hne.2]
  case onLoad =>
    have hne : t ≠ "weight" := by
      rintro rfl
      exact ht (by decide)
    simp [Serving.paramOf, hne]
  all_goals rfl

theorem Serving.undotted_renamed {s : Serving} {p t : String} (ht : Undotted t) :
    Undotted (if endswith p ".embed_tokens" then s.paramOf t else t) := by
  have hparamOf : Undotted (s.paramOf t) := by
    cases s
    case trellis =>
      show Undotted (if t = "trellis" then "et_table" else if t = "signs" then "et_signs" else t)
      split_ifs
      · decide
      · decide
      · exact ht
    case onLoad =>
      show Undotted (if t = "weight" then "bq_src" else t)
      split_ifs
      · decide
      · exact ht
    all_goals exact ht
  split_ifs
  · exact hparamOf
  · exact ht

theorem Serving.dotted_of_mem_storedAs {s : Serving} {n p param : String}
    (h : n ∈ s.storedAs p param) : ∃ t, n = dotted p t := by
  rcases List.mem_cons.mp h with rfl | hrest
  · exact ⟨param, rfl⟩
  · split_ifs at hrest
    · obtain ⟨t, _, rfl⟩ := List.mem_map.mp hrest
      exact ⟨t, rfl⟩
    · cases hrest

/-- What the mapper is applied to, and by which rules. -/
structure Stream (vllm : Vllm) (cfg : EXL3Config) (stored names : List String)
    ( embed_prefix : String) (rules : MapperRules) : Prop where
  ok : ∃ trellis, cfg.embeddingIsTrellis = .ok trellis
  exact : HeadExact cfg stored names
  rules_eq : rules = cfg.serving.rules (headRules cfg) embed_prefix
  scale : ∀ name new, isCacheScale name = true → vllm.mapName rules name = some new →
    isCacheScale new = true

namespace Stream

variable {vllm : Vllm} { embed_prefix : String} {rules : MapperRules}
  (h : Stream vllm cfg stored names embed_prefix rules)

include h

/-- Where the head serves the embedding, the model is tied and its head is stored. -/
theorem fromHead_spec (hfrom : cfg.serving.fromHead = true) :
    cfg.dense_embed = false ∧ cfg.tied = true ∧ cfg.headStorageExists = true := by
  obtain ⟨_, hok⟩ := h.ok
  rw [fromHead_serving hok] at hfrom
  exact embeddingIsQuantized_iff.mp hfrom

theorem stored_subset (hhead : cfg.headStorageExists = true) :
    stored ⊆ ["trellis", "suh", "svh", "mul1", "mcg"] :=
  storedTensorNames_subset (h.exact hhead).1

theorem stored_known (hhead : cfg.headStorageExists = true) {x : String} (hx : x ∈ stored) :
    x ∈ knownNames := by
  have hsub : ["trellis", "suh", "svh", "mul1", "mcg"] ⊆ knownNames := by decide
  exact hsub (h.stored_subset hhead hx)

/-- A quantized head has no tensor below a component of its own. -/
theorem head_flat (hhead : cfg.headStorageExists = true) {p t : String} (ht : Undotted t)
    (hmem : dotted p t ∈ names) (hstart : startswith (dotted p t) "lm_head." = true) :
    p = "lm_head" ∧ t ∈ stored := by
  obtain ⟨x, hx, heq⟩ := (((h.exact hhead).2 _ hstart).mp hmem)
  rw [dotted_inj ht (undotted_of_known (h.stored_known hhead hx))] at heq
  obtain ⟨rfl, rfl⟩ := heq
  exact ⟨rfl, hx⟩

theorem not_below_head (hfrom : cfg.serving.fromHead = true) {p t : String} (ht : Undotted t)
    (hmem : dotted p t ∈ names) : startswith p "lm_head." = false := by
  by_contra hbelow
  obtain ⟨rest, rfl⟩ := startswith_iff.mp (by simpa using hbelow)
  have hstart : startswith (dotted ("lm_head." ++ rest) t) "lm_head." = true := by
    rw [← append_dotted]
    exact startswith_iff.mpr ⟨_, rfl⟩
  have heq := (h.head_flat (h.fromHead_spec hfrom).2.2 ht hmem hstart).1
  have hlist := congrArg String.toList heq
  have hlen := congrArg List.length hlist
  rw [String.toList_append, List.length_append] at hlen
  have h₁ : "lm_head.".toList.length = 8 := by decide
  have h₂ : "lm_head".toList.length = 7 := by decide
  omega

/-- What the mapper makes of a name of the stream. -/
theorem mapName_dotted {p t : String} (ht : Undotted t) (hscale : isCacheScale t = false)
    (hmem : dotted p t ∈ names) {new : String} :
    vllm.mapName rules (dotted p t) = some new ↔
      ¬Unread cfg (dotted p t) ∧ cfg.serving.target embed_prefix p t = new := by
  rw [vllm.mapName_eq rules _ (isCacheScale_dotted.trans hscale), MapperRules.mapName, h.rules_eq,
    rename_dotted ht (fun hfrom => h.not_below_head hfrom ht hmem)]
  by_cases hunread : Unread cfg (dotted p t)
  · rw [if_pos (unread_iff.mpr hunread)]
    simp [hunread]
  · rw [if_neg (fun hany => hunread (unread_iff.mp hany))]
    simp [hunread]

theorem mapName_eq_none {p t : String} (ht : Undotted t) (hscale : isCacheScale t = false)
    (hmem : dotted p t ∈ names) :
    vllm.mapName rules (dotted p t) = none ↔ Unread cfg (dotted p t) := by
  constructor
  · intro hnone
    by_contra hread
    have hsome := (h.mapName_dotted ht hscale hmem).mpr ⟨hread, rfl⟩
    rw [hnone] at hsome
    cases hsome
  · intro hunread
    cases hnew : vllm.mapName rules (dotted p t) with
    | none => rfl
    | some new => exact absurd hunread ((h.mapName_dotted ht hscale hmem).mp hnew).1

/-- What arrives at a parameter is a tensor the rules send there. -/
theorem arrives {n p x : String} (hn : n ∈ names) (hx : x ∈ knownNames)
    (hmap : vllm.mapName rules n = some (dotted p x)) :
    ∃ path t, Undotted t ∧ isCacheScale t = false ∧ n = dotted path t ∧ ¬Unread cfg n ∧
      cfg.serving.target embed_prefix path t = dotted p x := by
  have hscale : isCacheScale n = false := by
    by_contra hscale
    have hnew := h.scale n _ (by simpa using hscale) hmap
    rw [isCacheScale_dotted, not_cacheScale_of_known hx] at hnew
    cases hnew
  by_cases hdot : Undotted n
  · -- a name without a dot stays one
    rw [vllm.mapName_eq rules n hscale, MapperRules.mapName, h.rules_eq, rename_undotted hdot] at hmap
    split_ifs at hmap
    rw [Option.some.inj hmap] at hdot
    exact absurd hdot not_undotted_dotted
  · obtain ⟨path, t, ht, rfl⟩ := exists_dotted hdot
    rw [isCacheScale_dotted] at hscale
    obtain ⟨hread, htarget⟩ := (h.mapName_dotted ht hscale hn).mp hmap
    exact ⟨path, t, ht, hscale, rfl, hread, htarget⟩

/-- An embedding's own tensors are read. -/
theorem own_read {p t param : String} (ht : Undotted t) (hparam : param ∈ cfg.serving.params [])
    (hfits : cfg.serving.Fits p t param) : ¬Unread cfg (dotted p t) := by
  obtain ⟨trellis, hok⟩ := h.ok
  have hspec := serving_spec hok
  have hmem := Serving.mem_tensors hparam hfits
  rintro (⟨htied, hdense, _, hsearch⟩ | hunread)
  · -- the head's storage is dropped in tied models only
    obtain ⟨a, ha, hta⟩ := search_headStorage ht hsearch
    have htrellis : cfg.serving = .trellis := by
      by_contra hne
      obtain ⟨hne₁, hne₂⟩ := Serving.tensors_ne_head hne t hmem a ha
      exact hta.elim hne₁ hne₂
    rw [htrellis] at hspec
    rw [hspec.2] at htied
    cases htied
  · revert hunread hmem
    cases cfg.serving
    case blockq | tiedHead | blockqTied =>
      intro hmem hsearch
      have hweight := (search_denseEmbed ht hsearch).2
      have hne : ∀ t ∈ blockqNames, t ≠ "weight" ∧ t ≠ "weight\n" := by decide
      have hsub : t ∈ blockqNames := by
        revert hmem
        simp [Serving.tensors, Serving.params, Serving.own, Serving.fromHead, Serving.tensorOf]
      exact hweight.elim (hne t hsub).1 (hne t hsub).2
    case sidecar =>
      intro hmem hsearch
      obtain ⟨a, ha, hta⟩ := search_blockq ht hsearch
      have hne : ∀ a ∈ blockqNames, "weight" ≠ a ∧ "weight" ≠ a ++ "\n" := by decide
      obtain rfl : t = "weight" := by
        revert hmem
        simp [Serving.tensors, Serving.params, Serving.own, Serving.fromHead, Serving.tensorOf]
      exact hta.elim (hne a ha).1 (hne a ha).2
    all_goals exact fun _ hfalse => hfalse

/-- The tensors that fill an embedding's parameter, where it is not filled from the head. -/
theorem fills_own {n p param : String} (hn : n ∈ names) (hp : p ≠ "lm_head")
    (hparam : param ∈ cfg.serving.params []) :
    vllm.mapName rules n = some (dotted p param) ↔ n ∈ cfg.serving.storedAs p param := by
  have hknown := known_of_params (List.nil_subset _) hparam
  constructor
  · intro hmap
    obtain ⟨path, t, ht, _, rfl, _, htarget⟩ := h.arrives hn hknown hmap
    unfold Serving.target at htarget
    by_cases hhead : cfg.serving.fromHead = true ∧ path = "lm_head"
    · -- a tensor of the head is none of the embedding's own
      rw [if_pos hhead] at htarget
      obtain ⟨hfrom, rfl⟩ := hhead
      have hstored := (h.fromHead_spec hfrom).2.2
      rw [dotted_inj ht (undotted_of_known hknown)] at htarget
      obtain ⟨-, rfl⟩ := htarget
      have hmem := (h.head_flat hstored ht hn (startswith_iff.mpr ⟨t, rfl⟩)).2
      exact absurd hparam (Serving.own_not_stored hfrom (h.stored_subset hstored hmem))
    · rw [if_neg hhead,
        dotted_inj (Serving.undotted_renamed ht) (undotted_of_known hknown)] at htarget
      obtain ⟨rfl, hfits⟩ := htarget
      exact (mem_storedAs hparam).mpr hfits
  · intro hmem
    obtain ⟨t, rfl⟩ := Serving.dotted_of_mem_storedAs hmem
    have hfits := (mem_storedAs hparam).mp hmem
    have htensor := Serving.mem_tensors hparam hfits
    have ht := Serving.known_of_mem_tensors htensor
    refine (h.mapName_dotted (undotted_of_known ht) (not_cacheScale_of_known ht) hn).mpr
      ⟨h.own_read (undotted_of_known ht) hparam hfits, ?_⟩
    unfold Serving.target
    rw [if_neg (fun hboth => hp hboth.2)]
    exact congrArg (dotted p) hfits

/-- A head that serves the embedding is read. -/
theorem stored_read (hfrom : cfg.serving.fromHead = true) {p x : String} (hx : x ∈ stored) :
    ¬Unread cfg (dotted p x) := by
  obtain ⟨hdense, _, hstored⟩ := h.fromHead_spec hfrom
  rintro (⟨_, hdense', _⟩ | hunread)
  · rw [hdense] at hdense'
    cases hdense'
  · have hne : ∀ x ∈ ["trellis", "suh", "svh", "mul1", "mcg"], x ≠ "weight" ∧ x ≠ "weight\n" := by
      decide
    have hxne := hne x (h.stored_subset hstored hx)
    have hplain := undotted_of_known (h.stored_known hstored hx)
    revert hunread hfrom
    cases cfg.serving
    case tiedHead | blockqTied =>
      intro _ hsearch
      exact (search_denseEmbed hplain hsearch).2.elim hxne.1 hxne.2
    all_goals exact fun hfrom => absurd hfrom Bool.false_ne_true

/-- Its tensors are sent to the recorded prefix. -/
theorem head_sent (hfrom : cfg.serving.fromHead = true) {x : String} (hx : x ∈ stored)
    (hn : dotted "lm_head" x ∈ names) :
    vllm.mapName rules (dotted "lm_head" x) = some (dotted embed_prefix x) := by
  have hknown := h.stored_known (h.fromHead_spec hfrom).2.2 hx
  refine (h.mapName_dotted (undotted_of_known hknown) (not_cacheScale_of_known hknown) hn).mpr
    ⟨h.stored_read hfrom hx, ?_⟩
  unfold Serving.target
  rw [if_pos ⟨hfrom, rfl⟩]

/-- The tensors that fill what an embedding serves the head from: the head's, at the recorded
prefix, and any stored under the parameter's own name. -/
theorem fills_head {n p x : String} (hfrom : cfg.serving.fromHead = true) (hn : n ∈ names)
    (hp : p ≠ "lm_head") (hx : x ∈ stored) :
    vllm.mapName rules n = some (dotted p x) ↔
      n = dotted p x ∨ (p = embed_prefix ∧ n = dotted "lm_head" x) := by
  have hknown := h.stored_known (h.fromHead_spec hfrom).2.2 hx
  have hplain := undotted_of_known hknown
  have hid : ∀ t, cfg.serving.paramOf t = t := by
    intro t
    revert hfrom
    cases cfg.serving <;> simp [Serving.paramOf, Serving.fromHead]
  constructor
  · intro hmap
    obtain ⟨path, t, ht, _, rfl, _, htarget⟩ := h.arrives hn hknown hmap
    unfold Serving.target at htarget
    rw [hid, ite_self] at htarget
    split_ifs at htarget with hhead
    · obtain ⟨-, rfl⟩ := hhead
      obtain ⟨rfl, rfl⟩ := (dotted_inj ht hplain).mp htarget
      exact .inr ⟨rfl, rfl⟩
    · exact .inl htarget
  · rintro (rfl | ⟨rfl, rfl⟩)
    · refine (h.mapName_dotted hplain (not_cacheScale_of_known hknown) hn).mpr
        ⟨h.stored_read hfrom hx, ?_⟩
      unfold Serving.target
      rw [if_neg (fun hboth => hp hboth.2), hid, ite_self]
    · exact h.head_sent hfrom hx hn

/-- Elsewhere a tensor of the head stays where it is. -/
theorem fills_lmHead {n x : String} (hfrom : cfg.serving.fromHead = false) (hn : n ∈ names)
    (hx : x ∈ knownNames) :
    vllm.mapName rules n = some (dotted "lm_head" x) ↔
      n = dotted "lm_head" x ∧ ¬Unread cfg (dotted "lm_head" x) := by
  have hplain := undotted_of_known hx
  have hnest : endswith "lm_head" ".embed_tokens" = false := by decide
  constructor
  · intro hmap
    obtain ⟨path, t, ht, _, rfl, hread, htarget⟩ := h.arrives hn hx hmap
    rw [Serving.target_own hfrom] at htarget
    rw [dotted_inj (Serving.undotted_renamed ht) hplain] at htarget
    obtain ⟨rfl, htx⟩ := htarget
    rw [hnest, if_neg Bool.false_ne_true] at htx
    subst htx
    exact ⟨rfl, hread⟩
  · rintro ⟨rfl, hread⟩
    refine (h.mapName_dotted hplain (not_cacheScale_of_known hx) hn).mpr ⟨hread, ?_⟩
    rw [Serving.target_own hfrom, hnest, if_neg Bool.false_ne_true]

end Stream

end VllmExl3.Config
