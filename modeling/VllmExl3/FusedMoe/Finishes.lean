/-
# VllmExl3.FusedMoe.Finishes — when a layer of routed experts finishes loading

Whether `process_weights_after_loading` comes through is decided by the checkpoint alone: by its experts'
shapes, by the split and by the measured divisor, and neither by the rank nor by the order of arrivals
(`moe_load_iff`). A layer that came through is `Ready`: its tables are the rank's slices, of the widths
and the bit widths the grouped kernel is given.
-/
import VllmExl3.FusedMoe.Loading
import VllmExl3.Format.Trellis

namespace VllmExl3.FusedMoe

open Format (TILE HAD_BLOCK Bits bitsFromTrellisShape Splits)
open TensorParallel

variable {W R : Type}

/-- A layer that finished loading on a rank. -/
structure Ready (C : Checkpoint W R) (moe : FusedMoEConfig) (mul1 : Bool) (layer : Layer W R) : Prop where
  nonempty : C.experts ≠ []
  split : Splits C.interm moe.tp_size
  gate : SlicesOf C moe .w1 layer.gate
  up : SlicesOf C moe .w3 layer.up
  down : SlicesOf C moe .w2 layer.down
  gate_uniform : Uniform layer.gate layer.exl3_gate_bits mul1 C.experts.length C.hidden
    (C.interm / moe.tp_size)
  up_uniform : Uniform layer.up layer.exl3_gate_bits mul1 C.experts.length C.hidden
    (C.interm / moe.tp_size)
  down_uniform : Uniform layer.down layer.exl3_down_bits mul1 C.experts.length (C.interm / moe.tp_size)
    C.hidden
  stored : layer.exl3_stored_intermediate = C.interm / moe.tp_size

/-! ## Loading a layer -/

section Ready

variable {C : Checkpoint W R} {moe : FusedMoEConfig} {layer : Layer W R} {arrivals : List (Arrival W R)}
  {interm_divisor : List (Tensor W R) → List (Tensor W R) → Except PyError R}

/-- A layer as it is served: its collectors created, filled and processed. -/
def loadLayer (interm_divisor : List (Tensor W R) → List (Tensor W R) → Except PyError R)
    (names : List String) (num_experts : Nat) (moe : FusedMoEConfig) (arrivals : List (Arrival W R)) :
    Except PyError (Layer W R) := do
  let layer ← createWeights W R moe names num_experts
  let layer ← load layer arrivals
  processWeightsAfterLoading interm_divisor (decide ("mul1" ∈ names)) layer

/-- The input scales of the experts' `gate` projections. -/
def Checkpoint.gateSuh (C : Checkpoint W R) : List (Tensor W R) := C.experts.map fun E => .scale E.gate.suh

/-- The input scales of the experts' `up` projections. -/
def Checkpoint.upSuh (C : Checkpoint W R) : List (Tensor W R) := C.experts.map fun E => .scale E.up.suh

/-- The input scales of `gate` and `up` are whole on every rank. -/
theorem suh_table {shard_id : ShardId} (hcolumn : shard_id.column = true) {tensors : List (Tensor W R)}
    (h : TableOf C moe shard_id "suh" tensors) :
    tensors = C.experts.map fun E => .scale (linearOf E shard_id).suh := by
  apply List.ext_getElem?
  intro e
  rw [List.getElem?_map]
  cases hE : C.experts[e]? with
  | none =>
    rw [List.getElem?_eq_none_iff] at hE
    rw [Option.map_none, List.getElem?_eq_none_iff, h.length_eq]
    exact hE
  | some E =>
    obtain ⟨t, hget, ht⟩ := h.get hE (mem_subTensors_suh _)
    have hwhole : ¬Carries (shard_id, "suh", (.scale (linearOf E shard_id).suh : Tensor W R)) := by
      rw [carries_scale (.inl rfl)]
      simp [hcolumn]
    rw [Linear.tpShard_whole (mem_subTensors_suh (linearOf E shard_id)) hwhole] at ht
    rw [hget, ← Except.ok.inj ht, Option.map_some]

/-- A layer that finished loading is ready, and its divisor is measured on the checkpoint's scales. -/
theorem loadLayer_spec (hdelivers : Delivers C arrivals) (hrank : moe.tp_rank < moe.tp_size)
    (h : loadLayer interm_divisor C.names C.experts.length moe arrivals = .ok layer) :
    Ready C moe (decide ("mul1" ∈ C.names)) layer ∧
      interm_divisor C.gateSuh C.upSuh = .ok layer.exl3_interm_div := by
  obtain ⟨created, hcreate, h⟩ := bind_eq_ok h
  obtain ⟨collectors, hload, h⟩ := bind_eq_ok h
  have hloading := loading_of_load hdelivers
    (show createWeights W R moe C.names C.experts.length >>= (load · arrivals) = .ok collectors by
      rw [hcreate]
      exact hload)
  obtain ⟨⟨gate, gate_bits⟩, hgate, h⟩ := bind_eq_ok h
  obtain ⟨⟨up, up_bits⟩, hup, h⟩ := bind_eq_ok h
  obtain ⟨⟨down, down_bits⟩, hdown, hrest⟩ := bind_eq_ok h
  dsimp only at hrest
  split_ifs at hrest with hbits
  obtain rfl := not_not.mp hbits
  obtain ⟨interm_div, hdiv, hrest⟩ := bind_eq_ok hrest
  obtain ⟨shape, hshape, hrest⟩ := bind_eq_ok hrest
  obtain ⟨hne, hsplit, hgateslices, hgateU⟩ := projection_spec hdelivers hloading hrank hgate
  obtain ⟨-, -, hupslices, hupU⟩ := projection_spec hdelivers hloading hrank hup
  obtain ⟨-, -, hdownslices, hdownU⟩ := projection_spec hdelivers hloading hrank hdown
  -- the stored intermediate width is that of the first entry, as of every other
  obtain ⟨w, hw, -, hcols, -⟩ := hgateU.trellis 0 (List.length_pos_of_ne_nil hne)
  have hhead : gate.trellis.head? = some (.trellis w) := by rw [List.head?_eq_getElem?, hw]
  rw [firstShape, hhead] at hshape
  obtain rfl := Except.ok.inj hshape
  obtain rfl := Except.ok.inj hrest
  refine ⟨⟨hne, hsplit, hgateslices, hupslices, hdownslices, hgateU, hupU, hdownU, ?_⟩, ?_⟩
  · exact (Nat.mul_comm _ _).trans hcols
  · rw [← hdiv, suh_table rfl hgateslices.suh, suh_table rfl hupslices.suh]
    rfl

end Ready

/-! ## What loading asks of a checkpoint -/

section Finishes

variable {C : Checkpoint W R} {moe : FusedMoEConfig} {layer : Collectors W R} {arrivals : List (Arrival W R)}
  {shard_id : ShardId} {mul1 : Bool} {bits : Bits}
  {interm_divisor : List (Tensor W R) → List (Tensor W R) → Except PyError R}

/-- A projection's bit width, read off its own trellis. -/
def HasBits (L : Linear W R) (mul1 : Bool) (bits : Bits) : Prop :=
  bitsFromTrellisShape [L.trellis.rows, L.trellis.cols, L.trellis.words] (some mul1) = .ok bits

/-- What is asked of a checkpoint to be served on `tp_size` ranks: there are experts, the intermediate
width splits, all experts have one bit width in `gate` and `up` and one in `down`, and the divisor can be
measured. -/
structure Checkpoint.Servable (C : Checkpoint W R)
    (interm_divisor : List (Tensor W R) → List (Tensor W R) → Except PyError R) (mul1 : Bool)
    (tp_size : Nat) : Prop where
  nonempty : C.experts ≠ []
  split : Splits C.interm tp_size
  bits : ∃ gate_bits down_bits, ∀ E ∈ C.experts, HasBits E.gate mul1 gate_bits ∧
    HasBits E.up mul1 gate_bits ∧ HasBits E.down mul1 down_bits
  divisor : ∃ d, interm_divisor C.gateSuh C.upSuh = .ok d

theorem checkUniform_of_shape {tensors : List (Tensor W R)} (shape : List Nat) (what : String)
    (hne : tensors ≠ []) (h : ∀ t ∈ tensors, t.shape = shape) : checkUniform tensors what = .ok () := by
  obtain ⟨t, rest, rfl⟩ := List.exists_cons_of_ne_nil hne
  have hshapes : (t :: rest).map Tensor.shape = List.replicate (t :: rest).length shape := by
    rw [List.eq_replicate_iff, List.length_map]
    refine ⟨rfl, fun s hs => ?_⟩
    obtain ⟨t', ht', rfl⟩ := List.mem_map.mp hs
    exact h t' ht'
  have hdedup : ((t :: rest).map Tensor.shape).dedup = [shape] := by
    rw [hshapes, List.length_cons, List.replicate_dedup (Nat.succ_ne_zero _)]
  unfold checkUniform
  rw [hdedup]
  rfl

/-- Every entry of a table is a rank's slice of a tensor of an expert that is there. -/
theorem TableOf.mem {name : String} {tensors : List (Tensor W R)} (h : TableOf C moe shard_id name tensors)
    {t : Tensor W R} (ht : t ∈ tensors) : ∃ E ∈ C.experts, ∃ u, (name, u) ∈ (linearOf E shard_id).subTensors ∧
      tpShard name u shard_id moe.tp_rank moe.tp_size = .ok t := by
  obtain ⟨e, he⟩ := List.mem_iff_getElem?.mp ht
  obtain ⟨u, ⟨E, hE, hu⟩, hslice⟩ := h.entry e t he
  exact ⟨E, List.mem_of_getElem? hE, u, hu, hslice⟩

/-- A table of scale vectors is of one shape. -/
theorem TableOf.uniform_scale (hsplit : Splits C.interm moe.tp_size) (hrank : moe.tp_rank < moe.tp_size)
    {name : String} (hname : name = "suh" ∨ name = "svh") {tensors : List (Tensor W R)}
    (h : TableOf C moe shard_id name tensors) (hne : tensors ≠ []) (what : String) :
    checkUniform tensors what = .ok () := by
  refine checkUniform_of_shape [if name = "suh" then (C.widths moe.tp_size shard_id).1 else
    (C.widths moe.tp_size shard_id).2] what hne fun t ht => ?_
  obtain ⟨E, hE, u, hu, hslice⟩ := h.mem ht
  obtain ⟨v, hv⟩ : ∃ v, (name, .scale v) ∈ (linearOf E shard_id).subTensors := by
    rcases hname with rfl | rfl
    · exact ⟨_, mem_subTensors_suh _⟩
    · exact ⟨_, mem_subTensors_svh _⟩
  obtain rfl := subTensors_unique hu hv
  obtain ⟨v', rfl, hlen⟩ := tpShard_scale hE hsplit hrank hname hv hslice
  exact congrArg (fun n => [n]) hlen

/-- A projection of experts of one bit width is processed. -/
theorem projection_ok (shard_id : ShardId) (hdelivers : Delivers C arrivals)
    (hloading : Loading C moe arrivals layer)
    (hrank : moe.tp_rank < moe.tp_size) (hne : C.experts ≠ []) (hsplit : Splits C.interm moe.tp_size)
    (hbits : ∀ E ∈ C.experts, HasBits (linearOf E shard_id) mul1 bits) :
    ∃ tables : Tables W R, layer.projection mul1 shard_id = .ok (tables, bits) := by
  obtain ⟨E₀, hE₀⟩ := List.exists_mem_of_ne_nil _ hne
  have hcollect : ∀ name, (∃ t, (name, t) ∈ (linearOf E₀ shard_id).subTensors) → ∃ tensors,
      layer.collect (groupOf shard_id) shard_id name = .ok tensors ∧ TableOf C moe shard_id name tensors ∧
        tensors ≠ [] := by
    rintro name ⟨t, ht⟩
    have hname : name ∈ C.names := by
      rw [← C.stores E₀ hE₀ shard_id]
      exact List.mem_map_of_mem ht
    obtain ⟨tensors, hcollect, htable⟩ := collect_eq hdelivers hloading hname
    refine ⟨tensors, hcollect, htable, fun hnil => hne ?_⟩
    rw [← List.length_eq_zero_iff, ← htable.length_eq, hnil, List.length_nil]
  obtain ⟨trellis, htrellis, htrellisT, htrellisN⟩ := hcollect "trellis" ⟨_, mem_subTensors_trellis _⟩
  obtain ⟨suh, hsuh, hsuhT, hsuhN⟩ := hcollect "suh" ⟨_, mem_subTensors_suh _⟩
  obtain ⟨svh, hsvh, hsvhT, hsvhN⟩ := hcollect "svh" ⟨_, mem_subTensors_svh _⟩
  have hshape : ∀ t ∈ trellis, ∃ w : Trellis W, t = .trellis w ∧
      TILE * w.rows = (C.widths moe.tp_size shard_id).1 ∧
      TILE * w.cols = (C.widths moe.tp_size shard_id).2 ∧ w.words = bits.words := by
    intro t ht
    obtain ⟨E, hE, u, hu, hslice⟩ := htrellisT.mem ht
    obtain rfl := subTensors_unique hu (mem_subTensors_trellis _)
    obtain ⟨w, rfl, hwidths, hwords⟩ := tpShard_trellis hE hsplit hrank hslice
    obtain ⟨hrows, hcols⟩ := Prod.mk.inj hwidths
    exact ⟨w, rfl, hrows, hcols, hwords.trans (Format.words_of_bits (hbits E hE))⟩
  obtain ⟨t₀, rest, hcons⟩ := List.exists_cons_of_ne_nil htrellisN
  obtain ⟨w₀, rfl, hrows₀, hcols₀, hwords₀⟩ := hshape t₀ (by rw [hcons]; exact List.mem_cons_self)
  have huniform : checkUniform trellis (groupOf shard_id ++ "trellis") = .ok () := by
    refine checkUniform_of_shape [w₀.rows, w₀.cols, w₀.words] _ htrellisN fun t ht => ?_
    obtain ⟨w, rfl, hrows, hcols, hwords⟩ := hshape t ht
    have hr : w.rows = w₀.rows := Nat.eq_of_mul_eq_mul_left (by decide) (hrows.trans hrows₀.symm)
    have hc : w.cols = w₀.cols := Nat.eq_of_mul_eq_mul_left (by decide) (hcols.trans hcols₀.symm)
    rw [Tensor.shape, hr, hc, hwords, hwords₀]
  have hfirst : firstShape trellis = .ok [w₀.rows, w₀.cols, w₀.words] := by rw [hcons]; rfl
  have hread : bitsFromTrellisShape [w₀.rows, w₀.cols, w₀.words] (some mul1) = .ok bits := by
    have hE₀bits := hbits E₀ hE₀
    rw [HasBits, Format.words_of_bits hE₀bits, ← hwords₀] at hE₀bits
    exact Format.bitsFromTrellisShape_ok_congr hE₀bits
  refine ⟨⟨trellis, suh, svh⟩, ?_⟩
  rw [Collectors.projection]
  simp only [htrellis, huniform, hsuh, hsuhT.uniform_scale hsplit hrank (.inl rfl) hsuhN, hsvh,
    hsvhT.uniform_scale hsplit hrank (.inr rfl) hsvhN, hfirst, hread, ok_bind]
  rfl

/-- A checkpoint that is servable on a rank's configuration is served there, whatever the order its tensors
arrive in. -/
theorem loadLayer_ok (hdelivers : Delivers C arrivals) (hrank : moe.tp_rank < moe.tp_size)
    (hep : ¬moe.ep_size > 1) (h : C.Servable interm_divisor (decide ("mul1" ∈ C.names)) moe.tp_size) :
    ∃ layer, loadLayer interm_divisor C.names C.experts.length moe arrivals = .ok layer := by
  obtain ⟨hne, hsplit, ⟨gate_bits, down_bits, hbits⟩, d, hdiv⟩ := h
  have hcreate : createWeights W R moe C.names C.experts.length = .ok _ := if_neg hep
  have hcreated := loading_created hcreate
  obtain ⟨collectors, hload⟩ := hcreated.load_ok hdelivers.genuine hsplit
  have hloading : Loading C moe arrivals collectors := hcreated.load
    (fun a ha => ⟨hdelivers.genuine a ha, (hdelivers.genuine a ha).name_mem⟩) hload
  obtain ⟨gate, hgate⟩ := projection_ok .w1 hdelivers hloading hrank hne hsplit
    fun E hE => (hbits E hE).1
  obtain ⟨up, hup⟩ := projection_ok .w3 hdelivers hloading hrank hne hsplit
    fun E hE => (hbits E hE).2.1
  obtain ⟨down, hdown⟩ := projection_ok .w2 hdelivers hloading hrank hne hsplit
    fun E hE => (hbits E hE).2.2
  obtain ⟨-, -, hgateslices, hgateU⟩ := projection_spec hdelivers hloading hrank hgate
  obtain ⟨-, -, hupslices, -⟩ := projection_spec hdelivers hloading hrank hup
  have hgatesuh : gate.suh = C.gateSuh := suh_table rfl hgateslices.suh
  have hupsuh : up.suh = C.upSuh := suh_table rfl hupslices.suh
  rw [← hgatesuh, ← hupsuh] at hdiv
  obtain ⟨w, hw, -⟩ := hgateU.trellis 0 (List.length_pos_of_ne_nil hne)
  have hfirst : firstShape gate.trellis = .ok [w.rows, w.cols, w.words] := by
    rw [firstShape, List.head?_eq_getElem?, hw]
    rfl
  rw [loadLayer, hcreate, ok_bind, hload, ok_bind, processWeightsAfterLoading]
  simp only [hgate, hup, hdown, ok_bind, ne_eq, not_true_eq_false, if_false, hdiv, hfirst]
  exact ⟨_, rfl⟩

/-- A table of one bit width is of experts of that width. -/
theorem hasBits_of_uniform {tables : Tables W R} (hslices : SlicesOf C moe shard_id tables)
    {k n : Nat} (hU : Uniform tables bits mul1 C.experts.length k n)
    (hsplit : Splits C.interm moe.tp_size) (hrank : moe.tp_rank < moe.tp_size) {E : Expert W R}
    (hE : E ∈ C.experts) : HasBits (linearOf E shard_id) mul1 bits := by
  obtain ⟨e, he⟩ := List.mem_iff_getElem?.mp hE
  obtain ⟨t, hget, ht⟩ := hslices.trellis.get he (mem_subTensors_trellis _)
  obtain ⟨w, rfl, -, hwords⟩ := tpShard_trellis hE hsplit hrank ht
  obtain ⟨w', hget', -, -, hbits⟩ := hU.trellis e (List.getElem?_eq_some_iff.mp he).1
  obtain rfl := Tensor.trellis.inj (Option.some.inj (hget.symm.trans hget'))
  rw [hwords] at hbits
  exact Format.bitsFromTrellisShape_ok_congr hbits

/-- **When a layer of routed experts finishes loading.** For every checkpoint, every rank and every order of
arrivals, with any repetition: loading finishes exactly where expert parallelism is off and the checkpoint
is servable, which depends on neither the rank nor the order. -/
theorem moe_load_iff (C : Checkpoint W R)
    (interm_divisor : List (Tensor W R) → List (Tensor W R) → Except PyError R) (moe : FusedMoEConfig)
    (hrank : moe.tp_rank < moe.tp_size) (arrivals : List (Arrival W R)) (hdelivers : Delivers C arrivals) :
    (∃ layer, loadLayer interm_divisor C.names C.experts.length moe arrivals = .ok layer) ↔
      moe.ep_size ≤ 1 ∧ C.Servable interm_divisor (decide ("mul1" ∈ C.names)) moe.tp_size := by
  constructor
  · rintro ⟨layer, h⟩
    obtain ⟨hready, hdiv⟩ := loadLayer_spec hdelivers hrank h
    have hep : moe.ep_size ≤ 1 := by
      obtain ⟨created, hcreate, -⟩ := bind_eq_ok h
      unfold createWeights at hcreate
      split_ifs at hcreate with hep
      exact not_lt.mp hep
    refine ⟨hep, hready.nonempty, hready.split,
      ⟨layer.exl3_gate_bits, layer.exl3_down_bits, fun E hE => ⟨?_, ?_, ?_⟩⟩, _, hdiv⟩
    · exact hasBits_of_uniform hready.gate hready.gate_uniform hready.split hrank hE
    · exact hasBits_of_uniform hready.up hready.up_uniform hready.split hrank hE
    · exact hasBits_of_uniform hready.down hready.down_uniform hready.split hrank hE
  · rintro ⟨hep, hservable⟩
    exact loadLayer_ok hdelivers hrank (not_lt.mpr hep) hservable

end Finishes

/-! ### An expert of 256 channels on two ranks -/

/-- A checkpoint of one expert, of hidden width 128 and intermediate width 256. -/
def oneExpert : Checkpoint Nat Rat where
  names := ["trellis", "suh", "svh"]
  experts := [zeroExpert 16]
  hidden := 128
  interm := 256
  stores := by
    intro E hE shard_id
    obtain rfl := List.mem_singleton.mp hE
    cases shard_id <;> rfl
  hidden_eq := by
    intro E hE
    obtain rfl := List.mem_singleton.mp hE
    exact ⟨rfl, rfl⟩
  interm_eq := by
    intro E hE
    obtain rfl := List.mem_singleton.mp hE
    rfl
  hidden_dvd := by decide
  interm_dvd := by decide

theorem oneExpert_servable :
    oneExpert.Servable (fun _ _ => .ok 1) (decide ("mul1" ∈ oneExpert.names)) 2 where
  nonempty := List.cons_ne_nil _ _
  split := by decide
  bits := by
    refine ⟨.int 3, .int 3, fun E hE => ?_⟩
    obtain rfl := List.mem_singleton.mp hE
    exact ⟨rfl, rfl, rfl⟩
  divisor := ⟨1, rfl⟩

theorem oneExpert_loads : ∃ layer, loadLayer (fun _ _ => .ok 1) oneExpert.names oneExpert.experts.length
    ⟨2, 1, 1⟩ oneExpert.arrivals = .ok layer :=
  (moe_load_iff oneExpert (fun _ _ => .ok 1) ⟨2, 1, 1⟩ (by decide) oneExpert.arrivals
    (delivers_arrivals oneExpert)).mpr ⟨le_refl 1, oneExpert_servable⟩

end VllmExl3.FusedMoe
