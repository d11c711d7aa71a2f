/-
# VllmExl3.LinearMethod.Loading — what a linear layer holds after any order of arrivals

A checkpoint stores each output shard of a layer by itself or several of them in one matrix, and vLLM
delivers its tensors by the call the layer's kind asks for. A call cuts what it is handed for the output
shards it covers (`Call.parts`): not at all on one rank, to the rank's columns or rows on several, and on
any number for a matrix of several shards. Whatever arrived, in whatever order, a parameter holds only cuts
of its own tensor (`Loading`), and every cut that passed the checks is of whole Hadamard blocks.
-/
import VllmExl3.LinearMethod.Model
import VllmExl3.LMHead.VocabParallel

namespace VllmExl3.LinearMethod

open Format (TILE HAD_BLOCK checkTpSplit checkTpSplit_eq_ok fusedShardBounds fusedShardLoop)
open TensorParallel
open LMHead (Method)

variable {W R : Type}

/-! ## Cuts -/

/-- What a call takes of a stored tensor for one output shard. -/
inductive Cutting where
  | whole
  | columns (first last : Nat)
  | rows (first last : Nat)

/-- The tensor that is stored. -/
def Cutting.tensor (cut : Cutting) (role : Role) (t : Tensor W R) : Tensor W R :=
  match cut with
  | .whole => t
  | .columns first last => t.columns role first last
  | .rows first last => shardRow role t first last

/-- The first output channel that is kept. -/
def Cutting.first : Cutting → Nat
  | .columns first _ => first
  | _ => 0

section Parts

variable (layer : LinearBase) (input_size : Nat) (sizes : List Nat)

/-- A rank's columns of an output shard of its own. -/
def columnPart (index size : Nat) : Cutting :=
  if layer.tp_size = 1 then .whole else .columns (index * size) (index * size + size)

/-- A rank's columns of every output shard of a fused matrix. -/
def fusedParts (indices : List Nat) : List (Nat × Cutting) :=
  (fusedSpans sizes layer.tp_rank layer.tp_size indices 0).map fun b => (b.1, .columns b.2.1 b.2.2)

/-- The output shards a call covers, each with what is taken for it; fewer key and value heads than ranks are
held by `num_heads` ranks each. -/
def Call.parts : Call → List (Nat × Cutting)
  | .column => [(0, columnPart layer layer.tp_rank (sizes.headD 0))]
  | .row => [(0, if layer.tp_size = 1 then .whole else
      .rows (layer.tp_rank * input_size) (layer.tp_rank * input_size + input_size))]
  | .merged .none _ => fusedParts layer sizes (List.range sizes.length)
  | .merged (.tuple indices) _ => fusedParts layer sizes indices
  | .merged (.int index) size => [(index, columnPart layer layer.tp_rank (size.getD (sizes.headD 0)))]
  | .qkv .none _ _ => fusedParts layer sizes (List.range sizes.length)
  | .qkv (.tuple indices) _ _ => fusedParts layer sizes indices
  | .qkv .q size _ => [(0, columnPart layer layer.tp_rank (size.getD (sizes.headD 0)))]
  | .qkv .k size num_heads =>
    [(1, columnPart layer (layer.tp_rank / max (num_heads.getD 1) 1) (size.getD (sizes.headD 0)))]
  | .qkv .v size num_heads =>
    [(2, columnPart layer (layer.tp_rank / max (num_heads.getD 1) 1) (size.getD (sizes.headD 0)))]
  | .qkv (.int index) size num_heads =>
    [(index, columnPart layer (layer.tp_rank / max (num_heads.getD 1) 1) (size.getD (sizes.headD 0)))]

/-- The calls vLLM makes of a layer: a row-parallel layer's tensors are delivered whole for its one shard,
any other's with the shard's size on a rank. -/
def Call.Proper : Call → Prop
  | .column => layer.row_parallel = false
  | .row => layer.row_parallel = true
  | .merged (.int index) size => layer.row_parallel = false ∧ size.getD (sizes.headD 0) = sizes.getD index 0
  | .merged _ _ => layer.row_parallel = false
  | .qkv .q size _ => layer.row_parallel = false ∧ size.getD (sizes.headD 0) = sizes.getD 0 0
  | .qkv .k size _ => layer.row_parallel = false ∧ size.getD (sizes.headD 0) = sizes.getD 1 0
  | .qkv .v size _ => layer.row_parallel = false ∧ size.getD (sizes.headD 0) = sizes.getD 2 0
  | .qkv (.int index) size _ => layer.row_parallel = false ∧ size.getD (sizes.headD 0) = sizes.getD index 0
  | .qkv _ _ _ => layer.row_parallel = false

/-- A cut for output shard `index` is of whole Hadamard blocks. -/
def Aligned (index : Nat) : Cutting → Prop
  | .whole => layer.tp_size = 1
  | .columns first last => layer.row_parallel = false ∧ HAD_BLOCK ∣ first ∧ HAD_BLOCK ∣ sizes.getD index 0 ∧
      last = first + sizes.getD index 0
  | .rows first last => layer.row_parallel = true ∧ layer.tp_size ≠ 1 ∧ HAD_BLOCK ∣ input_size ∧
      first = layer.tp_rank * input_size ∧ last = first + input_size

end Parts

/-! ## One call -/

section Load

variable {layer : LinearBase} {input_size : Nat} {sizes : List Nat} {name : String} {t : Tensor W R}

/-- Every covered shard's cut, stored in order. -/
def storeParts (role : Role) (t : Tensor W R) (parts : List (Nat × Cutting))
    (shards : PyDict Nat (Tensor W R)) : PyDict Nat (Tensor W R) :=
  parts.foldl (fun shards part => shards.set part.1 (part.2.tensor role t)) shards

/-- What is stored afterwards was stored before or is one of the cuts. -/
theorem get?_storeParts {role : Role} {parts : List (Nat × Cutting)} {shards : PyDict Nat (Tensor W R)}
    {index : Nat} {u : Tensor W R} (h : (storeParts role t parts shards).get? index = some u) :
    (∃ cut, (index, cut) ∈ parts ∧ u = cut.tensor role t) ∨ shards.get? index = some u := by
  induction parts generalizing shards with
  | nil => exact .inr h
  | cons part rest ih =>
    rcases ih h with ⟨cut, hcut, hu⟩ | hbefore
    · exact .inl ⟨cut, List.mem_cons_of_mem _ hcut, hu⟩
    · rw [PyDict.get?_set] at hbefore
      split_ifs at hbefore with hindex
      · exact .inl ⟨part.2, by rw [hindex]; exact List.mem_cons_self, (Option.some.inj hbefore).symm⟩
      · exact .inr hbefore

/-- A parameter of the layer that holds `shards`. -/
def filled (layer : LinearBase) (input_size : Nat) (sizes : List Nat) (name : String)
    (shards : PyDict Nat (Tensor W R)) : EXL3Parameter (Tensor W R) :=
  { newParameter (Tensor W R) layer input_size (sizes.headD 0) sizes name with shards := shards }

variable {shards : PyDict Nat (Tensor W R)} {p : EXL3Parameter (Tensor W R)}

theorem takeColumn_some (p : EXL3Parameter (Tensor W R)) (hplays : Plays p.role t) (size index : Nat) :
    p.takeColumn t (some size) index = .ok (Cutting.tensor
      (if p.tp_size = 1 then .whole else .columns (index * size) (index * size + size)) p.role t) := by
  unfold EXL3Parameter.takeColumn
  dsimp only
  split_ifs
  · rfl
  · exact cut_shardColumn_eq hplays _ _

theorem takeColumn_filled (hplays : Plays (roleOf name) t) (size : Option Nat) (index : Nat) :
    (filled layer input_size sizes name shards).takeColumn t (size.or (some (sizes.headD 0))) index =
      .ok ((columnPart layer index (size.getD (sizes.headD 0))).tensor (roleOf name) t) := by
  have hor : size.or (some (sizes.headD 0)) = some (size.getD (sizes.headD 0)) := by
    cases size <;> rfl
  rw [hor]
  exact takeColumn_some (filled layer input_size sizes name shards) hplays _ index

/-- Bounds that were computed are the spans of the run, of whole blocks. -/
theorem fusedShardLoop_ok {rank tp_size : Nat} {indices : List Nat} {bounds out : List (Nat × Nat × Nat)}
    {offset : Nat} (hoffset : HAD_BLOCK ∣ offset)
    (h : fusedShardLoop sizes rank tp_size indices bounds offset = .ok out) :
    out = bounds ++ fusedSpans sizes rank tp_size indices offset ∧
      ∀ b ∈ fusedSpans sizes rank tp_size indices offset,
        HAD_BLOCK ∣ b.2.1 ∧ HAD_BLOCK ∣ sizes.getD b.1 0 ∧ b.2.2 = b.2.1 + sizes.getD b.1 0 := by
  induction indices generalizing bounds offset with
  | nil =>
    obtain rfl := Except.ok.inj h
    exact ⟨(List.append_nil _).symm, fun b hb => nomatch hb⟩
  | cons index rest ih =>
    rw [fusedShardLoop] at h
    cases hget : sizes[index]? with
    | none =>
      rw [hget] at h
      cases h
    | some per_rank =>
      rw [hget] at h
      dsimp only at h
      split_ifs at h with hblock
      have hsize : sizes.getD index 0 = per_rank := by
        rw [List.getD_eq_getElem?_getD, hget, Option.getD_some]
      have hdvd : HAD_BLOCK ∣ per_rank := Nat.dvd_of_mod_eq_zero (not_not.mp hblock)
      obtain ⟨rfl, haligned⟩ := ih (Nat.dvd_add hoffset (hdvd.mul_right tp_size)) h
      refine ⟨?_, fun b hb => ?_⟩
      · simp only [fusedSpans, storedWidth, hsize, List.append_assoc, List.cons_append, List.nil_append]
      · simp only [fusedSpans, storedWidth, hsize, List.mem_cons] at hb
        rcases hb with rfl | hb
        · exact ⟨Nat.dvd_add hoffset (hdvd.mul_left rank), by rwa [hsize], by rw [hsize]⟩
        · exact haligned b hb

/-- A fused matrix that was taken is cut at its spans. -/
theorem loadFusedIndices_ok (hplays : Plays (roleOf name) t) {indices : List Nat}
    (h : (filled layer input_size sizes name shards).loadFusedIndices t indices = .ok p) :
    p = filled layer input_size sizes name
        (storeParts (roleOf name) t (fusedParts layer sizes indices) shards) ∧
      (layer.row_parallel = false → ∀ part ∈ fusedParts layer sizes indices,
        Aligned layer input_size sizes part.1 part.2) := by
  obtain ⟨bounds, hbounds, h⟩ := bind_eq_ok h
  unfold fusedShardBounds at hbounds
  split_ifs at hbounds
  obtain ⟨rfl, haligned⟩ := fusedShardLoop_ok (Nat.dvd_zero _) hbounds
  rw [List.nil_append, EXL3Parameter.storeBounds_eq _ _ hplays] at h
  obtain rfl := Except.ok.inj h
  constructor
  · have hstore : ∀ (spans : List (Nat × Nat × Nat)) (shards : PyDict Nat (Tensor W R)),
        EXL3Parameter.storeSpans t spans (filled layer input_size sizes name shards) =
          filled layer input_size sizes name (storeParts (roleOf name) t
            (spans.map fun b => (b.1, .columns b.2.1 b.2.2)) shards) := by
      intro spans
      induction spans with
      | nil => exact fun _ => rfl
      | cons b rest ih => exact fun shards => ih _
    exact hstore _ shards
  · intro hcolumn part hpart
    obtain ⟨b, hb, rfl⟩ := List.mem_map.mp hpart
    exact ⟨hcolumn, haligned b hb⟩

/-- What `create_weights` accepted: whole Hadamard blocks for every rank, where there are several. -/
def Accepted (layer : LinearBase) (input_size : Nat) (sizes : List Nat) : Prop :=
  layer.tp_size ≠ 1 →
    if layer.row_parallel then HAD_BLOCK ∣ input_size else ∀ size ∈ sizes, HAD_BLOCK ∣ size

theorem columnPart_aligned (haccepted : Accepted layer input_size sizes) (hcolumn : layer.row_parallel = false)
    {shard size : Nat} (hsize : size = sizes.getD shard 0) (index : Nat) :
    Aligned layer input_size sizes shard (columnPart layer index size) := by
  unfold columnPart
  split_ifs with htp
  · exact htp
  · have hblocks := haccepted htp
    rw [hcolumn, if_neg Bool.false_ne_true] at hblocks
    have hdvd : HAD_BLOCK ∣ sizes.getD shard 0 := dvd_getD hblocks shard
    exact ⟨hcolumn, by rw [hsize]; exact hdvd.mul_left index, hdvd, by rw [hsize]⟩

theorem rowPart_aligned (haccepted : Accepted layer input_size sizes) (hrow : layer.row_parallel = true)
    (shard : Nat) : Aligned layer input_size sizes shard (if layer.tp_size = 1 then .whole else
      .rows (layer.tp_rank * input_size) (layer.tp_rank * input_size + input_size)) := by
  split_ifs with htp
  · exact htp
  · have hblocks := haccepted htp
    rw [hrow, if_pos rfl] at hblocks
    exact ⟨hrow, htp, hblocks, rfl, rfl⟩

/-- A call that succeeds stores the cuts of the shards it covers, of whole blocks. -/
theorem Call.load_ok {call : Call} (hplays : Plays (roleOf name) t) (hproper : call.Proper layer sizes)
    (haccepted : Accepted layer input_size sizes)
    (h : call.load (filled layer input_size sizes name shards) t = .ok p) :
    p = filled layer input_size sizes name
        (storeParts (roleOf name) t (call.parts layer input_size sizes) shards) ∧
      ∀ part ∈ call.parts layer input_size sizes, Aligned layer input_size sizes part.1 part.2 := by
  have hone : ∀ {shard : Nat} {cut : Cutting}, Aligned layer input_size sizes shard cut →
      ∀ part ∈ [(shard, cut)], Aligned layer input_size sizes part.1 part.2 := by
    intro shard cut haligned part hpart
    obtain rfl := List.mem_singleton.mp hpart
    exact haligned
  -- the entry points that take a rank's columns of one shard
  have htake : ∀ (size : Option Nat) (index shard : Nat),
      ((filled layer input_size sizes name shards).takeColumn t (size.or (some (sizes.headD 0))) index >>=
        fun u => Except.ok ((filled layer input_size sizes name shards).store u shard)) = .ok p →
      p = filled layer input_size sizes name (storeParts (roleOf name) t
        [(shard, columnPart layer index (size.getD (sizes.headD 0)))] shards) := by
    intro size index shard h
    rw [takeColumn_filled hplays size index] at h
    exact (Except.ok.inj h).symm
  cases call with
  | column => exact ⟨htake none _ 0 h, hone (columnPart_aligned haccepted hproper
      (by rw [List.headD_eq_head?_getD, List.head?_eq_getElem?, List.getD_eq_getElem?_getD]) _)⟩
  | row =>
    refine ⟨?_, hone (rowPart_aligned haccepted hproper 0)⟩
    obtain rfl := Except.ok.inj h
    show (filled layer input_size sizes name shards).store (if layer.tp_size = 1 then t else
      shardRow (roleOf name) t _ _) 0 = _
    simp only [Call.parts]
    split_ifs <;> rfl
  | merged shard_id size =>
    cases shard_id with
    | none =>
      obtain ⟨hp, haligned⟩ := loadFusedIndices_ok hplays h
      exact ⟨hp, haligned hproper⟩
    | tuple indices =>
      obtain ⟨hp, haligned⟩ := loadFusedIndices_ok hplays h
      exact ⟨hp, haligned hproper⟩
    | int index =>
      exact ⟨htake size _ index h, hone (columnPart_aligned haccepted hproper.1 hproper.2 _)⟩
  | qkv shard_id size num_heads =>
    cases shard_id with
    | none =>
      obtain ⟨hp, haligned⟩ := loadFusedIndices_ok hplays h
      exact ⟨hp, haligned hproper⟩
    | tuple indices =>
      obtain ⟨hp, haligned⟩ := loadFusedIndices_ok hplays h
      exact ⟨hp, haligned hproper⟩
    | q => exact ⟨htake size _ 0 h, hone (columnPart_aligned haccepted hproper.1 hproper.2 _)⟩
    | k => exact ⟨htake size _ 1 h, hone (columnPart_aligned haccepted hproper.1 hproper.2 _)⟩
    | v => exact ⟨htake size _ 2 h, hone (columnPart_aligned haccepted hproper.1 hproper.2 _)⟩
    | int index =>
      exact ⟨htake size _ index h, hone (columnPart_aligned haccepted hproper.1 hproper.2 _)⟩

end Load

/-! ## The checkpoint of a layer -/

/-- A stored matrix and the call its tensors are delivered by. -/
structure Piece (W R : Type) where
  linear : Linear W R
  call : Call

/-- What a checkpoint stores of one layer. -/
structure Plan (W R : Type) where
  names : List String
  pieces : List (Piece W R)
  stores : ∀ p ∈ pieces, p.linear.subTensors.map Prod.fst = names

/-- Every arrival is a tensor of a piece, delivered by the piece's call. -/
def Genuine (plan : Plan W R) (arrivals : List (Arrival W R)) : Prop :=
  ∀ a ∈ arrivals, ∃ p ∈ plan.pieces, a.call = p.call ∧ (a.name, a.weight) ∈ p.linear.subTensors

section Plan

variable {plan : Plan W R} {layer : LinearBase} {input_size : Nat} {sizes : List Nat} {L L' : Layer W R}
  {arrivals : List (Arrival W R)} {m : Method}

/-- The calls are those vLLM makes of the layer, and no two of them cover one output shard. -/
structure Plan.Fits (plan : Plan W R) (layer : LinearBase) (input_size : Nat) (sizes : List Nat) : Prop where
  proper : ∀ p ∈ plan.pieces, p.call.Proper layer sizes
  once : ∀ p ∈ plan.pieces, ∀ p' ∈ plan.pieces, ∀ index cut cut',
    (index, cut) ∈ p.call.parts layer input_size sizes →
    (index, cut') ∈ p'.call.parts layer input_size sizes → p = p' ∧ cut = cut'

/-- A piece's cut for an output shard. -/
structure Covers (plan : Plan W R) (layer : LinearBase) (input_size : Nat) (sizes : List Nat) (index : Nat)
    (p : Piece W R) (cut : Cutting) : Prop where
  mem : p ∈ plan.pieces
  part : (index, cut) ∈ p.call.parts layer input_size sizes
  aligned : Aligned layer input_size sizes index cut

/-- What a parameter holds: cuts of the pieces' tensors of its name. -/
def Holds (plan : Plan W R) (layer : LinearBase) (input_size : Nat) (sizes : List Nat) (name : String)
    (shards : PyDict Nat (Tensor W R)) : Prop :=
  ∀ index t, shards.get? index = some t → ∃ p cut u, Covers plan layer input_size sizes index p cut ∧
    (name, u) ∈ p.linear.subTensors ∧ t = cut.tensor (roleOf name) u

/-- The state of a layer while it loads. -/
structure Loading (plan : Plan W R) (layer : LinearBase) (input_size : Nat) (sizes : List Nat)
    (L : Layer W R) : Prop where
  input_eq : L.exl3_input_size = input_size
  sizes_eq : L.exl3_output_sizes = sizes
  params : ∀ name param, L.params.get? name = some param → ∃ shards,
    param = filled layer input_size sizes name shards ∧ Holds plan layer input_size sizes name shards

theorem accepted_of_validateTp (htp : 0 < layer.tp_size) (h : validateTp layer input_size sizes = .ok ()) :
    Accepted layer input_size sizes := by
  intro hone
  have hblock : ∀ n what, checkTpSplit (n * layer.tp_size) layer.tp_size what = .ok () → HAD_BLOCK ∣ n := by
    intro n what hcheck
    rcases checkTpSplit_eq_ok.mp hcheck with hle | ⟨-, hdvd⟩
    · omega
    · rwa [Nat.mul_div_cancel _ htp] at hdvd
  unfold validateTp at h
  split_ifs at h ⊢ with hrow
  · exact hblock _ _ h
  · intro size hsize
    obtain ⟨index, hindex⟩ := List.mem_iff_getElem?.mp hsize
    exact hblock size _ (forM_ok h (size, index) (List.mem_zipIdx_iff_getElem?.mpr hindex))

/-- A layer is registered with empty parameters. -/
theorem loading_registered (h : registerParameters W R m layer input_size sizes = .ok L) :
    Loading plan layer input_size sizes L := by
  cases sizes with
  | nil => cases h
  | cons size rest =>
    obtain rfl := Except.ok.inj h
    refine ⟨rfl, rfl, fun name param hparam => ⟨.empty, ?_, fun index t ht => nomatch ht⟩⟩
    obtain ⟨name', -, hname⟩ := List.mem_map.mp (PyDict.mem_of_get?_ofList hparam)
    obtain ⟨rfl, rfl⟩ := Prod.mk.inj hname
    rfl

/-- A layer that was created was accepted. -/
theorem loading_created (plan : Plan W R) (htp : 0 < layer.tp_size)
    (h : createWeights W R m layer input_size sizes = .ok L) :
    Accepted layer input_size sizes ∧ Loading plan layer input_size sizes L := by
  unfold createWeights at h
  split_ifs at h with hsplit
  · obtain ⟨_, hvalid, hregistered⟩ := bind_eq_ok h
    exact ⟨accepted_of_validateTp htp hvalid, loading_registered hregistered⟩
  · exact ⟨fun hone => by omega, loading_registered h⟩

theorem ne_nil_of_created (h : createWeights W R m layer input_size sizes = .ok L) : sizes ≠ [] := by
  rintro rfl
  unfold createWeights at h
  split_ifs at h
  · obtain ⟨_, _, hregistered⟩ := bind_eq_ok h
    cases hregistered
  · cases h

/-- An arrival of the checkpoint's keeps the invariant. -/
theorem Loading.receive {a : Arrival W R} (hloading : Loading plan layer input_size sizes L)
    (hfits : plan.Fits layer input_size sizes) (haccepted : Accepted layer input_size sizes)
    (ha : ∃ p ∈ plan.pieces, a.call = p.call ∧ (a.name, a.weight) ∈ p.linear.subTensors)
    (h : receive L a = .ok L') : Loading plan layer input_size sizes L' := by
  obtain ⟨piece, hpiece, hcall, hmem⟩ := ha
  unfold LinearMethod.receive at h
  cases hparam : L.params.get? a.name with
  | none =>
    rw [hparam] at h
    cases h
  | some param =>
    rw [hparam] at h
    obtain ⟨param', hload, h⟩ := bind_eq_ok h
    obtain rfl := Except.ok.inj h
    obtain ⟨shards, rfl, hholds⟩ := hloading.params _ _ hparam
    rw [hcall] at hload
    obtain ⟨rfl, haligned⟩ := Call.load_ok (LMHead.plays_subTensors hmem) (hfits.proper piece hpiece)
      haccepted hload
    refine ⟨hloading.input_eq, hloading.sizes_eq, fun name param hget => ?_⟩
    rw [PyDict.get?_set] at hget
    split_ifs at hget with hname
    · obtain rfl := Option.some.inj hget
      subst hname
      refine ⟨_, rfl, fun index t ht => ?_⟩
      rcases get?_storeParts ht with ⟨cut, hcut, rfl⟩ | hbefore
      · exact ⟨piece, cut, a.weight, ⟨hpiece, hcut, haligned _ hcut⟩, hmem, rfl⟩
      · exact hholds index t hbefore
    · exact hloading.params name param hget

theorem Loading.load (hloading : Loading plan layer input_size sizes L)
    (hfits : plan.Fits layer input_size sizes) (haccepted : Accepted layer input_size sizes)
    (hgenuine : Genuine plan arrivals) (h : load L arrivals = .ok L') :
    Loading plan layer input_size sizes L' :=
  foldlM_invariant (fun _ hL a ha _ hreceive => hL.receive hfits haccepted (hgenuine a ha) hreceive) hloading h

end Plan

end VllmExl3.LinearMethod
