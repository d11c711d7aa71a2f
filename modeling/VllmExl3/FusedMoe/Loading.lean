/-
# VllmExl3.FusedMoe.Loading — what the collectors hold after any order of arrivals

Every tensor of a checkpoint's experts arrives at least once, in any order and with any repetition, each
lifted on the way in where it is a trellis. A collector holds only slices of the tensors that are its
own, and one for every expert it was sent (`Loading`), so after the load each table a projection
collects lists the experts' slices in the order of their numbers (`collect_eq`). A projection whose
tables were built split its stored width evenly, and the slices have the widths the kernel multiplies by
(`projection_spec`).
-/
import VllmExl3.FusedMoe.Model

namespace VllmExl3.FusedMoe

open Format (TILE HAD_BLOCK Bits bitsFromTrellisShape Splits)
open TensorParallel PyStr

variable {W R : Type}

/-! ## The checkpoint -/

/-- The linear of a projection. -/
def linearOf (E : Expert W R) : ShardId → Linear W R
  | .w1 => E.gate
  | .w3 => E.up
  | .w2 => E.down

/-- The routed experts of one layer of a checkpoint: every projection stores the sub-tensors of `names`,
and the widths, padded by the converter, are whole Hadamard blocks. -/
structure Checkpoint (W R : Type) where
  names : List String
  experts : List (Expert W R)
  hidden : Nat
  interm : Nat
  stores : ∀ E ∈ experts, ∀ shard_id, (linearOf E shard_id).subTensors.map Prod.fst = names
  hidden_eq : ∀ E ∈ experts, TILE * E.gate.trellis.rows = hidden ∧ TILE * E.down.trellis.cols = hidden
  interm_eq : ∀ E ∈ experts, TILE * E.gate.trellis.cols = interm
  hidden_dvd : HAD_BLOCK ∣ hidden
  interm_dvd : HAD_BLOCK ∣ interm

/-- The sub-tensor of a projection of an expert. -/
def Checkpoint.Stores (C : Checkpoint W R) (shard_id : ShardId) (e : Nat) (name : String)
    (t : Tensor W R) : Prop :=
  ∃ E, C.experts[e]? = some E ∧ (name, t) ∈ (linearOf E shard_id).subTensors

/-- An arrival is a tensor of the checkpoint, lifted under the name it has there. -/
def Arrival.From (C : Checkpoint W R) (a : Arrival W R) : Prop :=
  ∃ path t, C.Stores a.shard_id a.expert_id a.name t ∧ a.weight = lift (path ++ "." ++ a.name) t

/-- Every tensor of the checkpoint arrives, and nothing else does. -/
structure Delivers (C : Checkpoint W R) (arrivals : List (Arrival W R)) : Prop where
  genuine : ∀ a ∈ arrivals, a.From C
  complete : ∀ e < C.experts.length, ∀ shard_id, ∀ name ∈ C.names,
    ∃ a ∈ arrivals, a.shard_id = shard_id ∧ a.expert_id = e ∧ a.name = name

/-- The tensors of a checkpoint, expert by expert. -/
def Checkpoint.arrivals (C : Checkpoint W R) : List (Arrival W R) :=
  C.experts.zipIdx.flatMap fun (E, e) => E.subTensors.map fun s =>
    ⟨s.2.1, s.1, e, lift (s.1.repr ++ "." ++ s.2.1) s.2.2⟩

theorem delivers_arrivals (C : Checkpoint W R) : Delivers C C.arrivals where
  genuine a ha := by
    obtain ⟨⟨E, e⟩, hE, ha⟩ := List.mem_flatMap.mp ha
    obtain ⟨⟨shard_id, name, t⟩, hs, rfl⟩ := List.mem_map.mp ha
    obtain ⟨L, hL, hproj⟩ := Expert.mem_subTensors.mp hs
    refine ⟨shard_id.repr, t, ⟨E, List.mem_zipIdx_iff_getElem?.mp hE, ?_⟩, rfl⟩
    rcases hproj with ⟨rfl, rfl⟩ | ⟨rfl, rfl⟩ | ⟨rfl, rfl⟩ <;> exact hL
  complete e he shard_id name hname := by
    rw [← C.stores C.experts[e] (List.getElem_mem he) shard_id] at hname
    obtain ⟨⟨name, t⟩, ht, rfl⟩ := List.mem_map.mp hname
    refine ⟨_, List.mem_flatMap.mpr ⟨(C.experts[e], e),
      List.mem_zipIdx_iff_getElem?.mpr (List.getElem?_eq_getElem he),
      List.mem_map_of_mem (a := (shard_id, name, t)) ?_⟩, rfl, rfl, rfl⟩
    rw [Expert.mem_subTensors]
    exact ⟨_, ht, by cases shard_id <;> simp [linearOf]⟩

/-! ## One tensor -/

/-- What was lifted is squeezed again. -/
@[simp] theorem squeeze_lift (name : String) (t : Tensor W R) : (lift name t).squeeze = t := by
  unfold lift
  split
  · split_ifs <;> rfl
  · rfl

/-- No lifted sub-tensor has the three axes by which vLLM takes a tensor for a packed one. -/
theorem lift_rank {L : Linear W R} {name : String} {t : Tensor W R} (h : (name, t) ∈ L.subTensors)
    (path : String) : (lift (path ++ "." ++ name) t).shape.length ≠ 3 := by
  have htrellis : endswith (path ++ "." ++ "trellis") ".trellis" = true := by
    rw [String.append_assoc]
    exact endswith_append path ".trellis"
  simp only [Linear.subTensors, List.mem_append, List.mem_cons, List.mem_map, List.not_mem_nil,
    or_false] at h
  rcases h with ((h | h | h) | ⟨v, -, h⟩) | ⟨v, -, h⟩
  · obtain ⟨rfl, rfl⟩ := Prod.mk.inj h
    simp [lift, htrellis, Loaded.shape]
  all_goals
    obtain ⟨rfl, rfl⟩ := Prod.mk.inj h
    simp [lift, Loaded.shape, Tensor.shape]

theorem Checkpoint.Stores.unique {C : Checkpoint W R} {shard_id : ShardId} {e : Nat} {name : String}
    {t u : Tensor W R} (ht : C.Stores shard_id e name t) (hu : C.Stores shard_id e name u) : t = u := by
  obtain ⟨E, hE, hmem⟩ := ht
  obtain ⟨E', hE', hmem'⟩ := hu
  obtain rfl := Option.some.inj (hE.symm.trans hE')
  exact subTensors_unique hmem hmem'

/-- The two groups of parameters share no name. -/
theorem group_append_inj {s s' : ShardId} {name name' : String}
    (h : groupOf s ++ name = groupOf s' ++ name') : groupOf s = groupOf s' ∧ name = name' := by
  have hchars := congrArg String.toList h
  clear h
  rw [String.toList_append, String.toList_append] at hchars
  cases s <;> cases s' <;> simp [groupOf, String.toList_inj] at hchars
  all_goals exact ⟨rfl, hchars⟩

/-! ## The invariant -/

section Invariant

/-- What a collector holds of a projection: a rank's slices of the checkpoint's tensors of its name, and
one for every expert that was sent. -/
structure Collects (C : Checkpoint W R) (moe : FusedMoEConfig) (shard_id : ShardId) (name : String)
    (sent : List (Arrival W R)) (param : EXL3MoEParameter W R) : Prop where
  exl3_name : param.exl3_name = name
  exl3_tp_rank : param.exl3_tp_rank = moe.tp_rank
  exl3_tp_size : param.exl3_tp_size = moe.tp_size
  genuine : ∀ e t, param.shards.get? (shard_id, e) = some t → ∃ u, C.Stores shard_id e name u ∧
    tpShard name u shard_id moe.tp_rank moe.tp_size = .ok t
  arrived : ∀ a ∈ sent, a.shard_id = shard_id → a.name = name →
    (param.shards.get? (shard_id, a.expert_id)).isSome

/-- The state of a load once `sent` has arrived. -/
structure Loading (C : Checkpoint W R) (moe : FusedMoEConfig) (sent : List (Arrival W R))
    (layer : Collectors W R) : Prop where
  num_experts : layer.num_experts = C.experts.length
  collects : ∀ shard_id, ∀ name ∈ C.names, ∃ param,
    layer.params.get? (groupOf shard_id ++ name) = some param ∧ Collects C moe shard_id name sent param

variable {C : Checkpoint W R} {moe : FusedMoEConfig} {sent arrivals : List (Arrival W R)}
  {layer layer' : Collectors W R}

/-- A layer is created with an empty collector for every name in both groups. -/
theorem loading_created
    (h : createWeights W R moe C.names C.experts.length = .ok layer) : Loading C moe [] layer := by
  unfold createWeights at h
  split_ifs at h
  obtain rfl := Except.ok.inj h
  refine ⟨rfl, fun shard_id name hname => ⟨⟨name, moe.tp_rank, moe.tp_size, .empty⟩, ?_, ?_⟩⟩
  · rw [PyDict.get?_ofList_eq_some_iff]
    · rw [List.mem_flatMap]
      exact ⟨groupOf shard_id, by cases shard_id <;> simp [groupOf],
        List.mem_map_of_mem (f := fun name => (groupOf shard_id ++ name, _)) hname⟩
    · -- the collectors registered under one key are the same
      intro v v' hv hv'
      simp only [List.mem_flatMap, List.mem_map, Prod.mk.injEq] at hv hv'
      obtain ⟨g, hg, n, -, hkey, rfl⟩ := hv
      obtain ⟨g', hg', n', -, hkey', rfl⟩ := hv'
      have hgroup : ∀ g ∈ ["w13_", "w2_"], ∃ s, groupOf s = g := by
        intro g hg
        rcases List.mem_pair.mp hg with rfl | rfl
        · exact ⟨.w1, rfl⟩
        · exact ⟨.w2, rfl⟩
      obtain ⟨s, rfl⟩ := hgroup g hg
      obtain ⟨s', rfl⟩ := hgroup g' hg'
      rw [(group_append_inj (hkey.trans hkey'.symm)).2]
  · exact ⟨rfl, rfl, rfl, fun _ _ hget => (nomatch hget), fun _ hmem => (nomatch hmem)⟩

/-- One arrival changes one collector, in one place. -/
theorem receive_cases {a : Arrival W R} (h : receive layer a = .ok layer') :
    ∃ param t, layer.params.get? (groupOf a.shard_id ++ a.name) = some param ∧
      tpShard param.exl3_name a.weight.squeeze a.shard_id param.exl3_tp_rank param.exl3_tp_size =
        .ok t ∧
      layer' = ⟨layer.params.set (groupOf a.shard_id ++ a.name)
        { param with shards := param.shards.set (a.shard_id, a.expert_id) t }, layer.num_experts⟩ := by
  unfold receive at h
  dsimp only at h
  cases hparam : layer.params.get? (groupOf a.shard_id ++ a.name) with
  | none =>
    rw [hparam] at h
    cases h
  | some param =>
    rw [hparam] at h
    obtain ⟨param', hload, h⟩ := bind_eq_ok h
    obtain ⟨t, ht, hload⟩ := bind_eq_ok hload
    obtain rfl := Except.ok.inj hload
    exact ⟨param, t, rfl, ht, (Except.ok.inj h).symm⟩

/-- An arrival of the checkpoint's keeps the invariant. -/
theorem Loading.receive {a : Arrival W R} (hloading : Loading C moe sent layer) (ha : a.From C)
    (hname : a.name ∈ C.names) (h : receive layer a = .ok layer') :
    Loading C moe (sent ++ [a]) layer' := by
  obtain ⟨param, t, hparam, ht, rfl⟩ := receive_cases h
  obtain ⟨path, u, hu, hweight⟩ := ha
  refine ⟨hloading.num_experts, fun shard_id name hmem => ?_⟩
  obtain ⟨param', hparam', hcollects⟩ := hloading.collects shard_id name hmem
  by_cases hkey : groupOf shard_id ++ name = groupOf a.shard_id ++ a.name
  · -- the collector that changed; `shard_id` may be the other projection of its group
    obtain ⟨-, rfl⟩ := group_append_inj hkey
    rw [hkey, hparam] at hparam'
    obtain rfl := Option.some.inj hparam'
    rw [hcollects.exl3_name, hcollects.exl3_tp_rank, hcollects.exl3_tp_size, hweight,
      squeeze_lift] at ht
    refine ⟨{ param with shards := param.shards.set (a.shard_id, a.expert_id) t },
      by rw [hkey, PyDict.get?_set_self], hcollects.exl3_name, hcollects.exl3_tp_rank,
      hcollects.exl3_tp_size, fun e t' hget => ?_, fun b hb hshard hbname => ?_⟩
    · rw [PyDict.get?_set] at hget
      split_ifs at hget with hplace
      · obtain ⟨rfl, rfl⟩ := Prod.mk.inj hplace
        obtain rfl := Option.some.inj hget
        exact ⟨u, hu, ht⟩
      · exact hcollects.genuine e t' hget
    · rw [PyDict.get?_set]
      split_ifs with hplace
      · rfl
      · rcases List.mem_append.mp hb with hb | hb
        · exact hcollects.arrived b hb hshard hbname
        · obtain rfl := List.mem_singleton.mp hb
          exact absurd (by rw [hshard]) hplace
  · refine ⟨param', by rw [PyDict.get?_set_ne _ _ hkey]; exact hparam', hcollects.exl3_name,
      hcollects.exl3_tp_rank, hcollects.exl3_tp_size, hcollects.genuine, fun b hb hshard hbname => ?_⟩
    rcases List.mem_append.mp hb with hb | hb
    · exact hcollects.arrived b hb hshard hbname
    · obtain rfl := List.mem_singleton.mp hb
      exact absurd (by rw [hshard, hbname]) hkey

/-- So does a whole load. -/
theorem Loading.load (hloading : Loading C moe sent layer)
    (harrivals : ∀ a ∈ arrivals, a.From C ∧ a.name ∈ C.names) (h : load layer arrivals = .ok layer') :
    Loading C moe (sent ++ arrivals) layer' := by
  induction arrivals generalizing sent layer with
  | nil =>
    obtain rfl := Except.ok.inj h
    rwa [List.append_nil]
  | cons a rest ih =>
    rw [FusedMoe.load, List.foldlM_cons] at h
    obtain ⟨layer₁, hreceive, h⟩ := bind_eq_ok h
    obtain ⟨ha, hname⟩ := harrivals a List.mem_cons_self
    have hrest := ih (hloading.receive ha hname hreceive)
      (fun b hb => harrivals b (List.mem_cons_of_mem a hb)) h
    rwa [List.append_assoc] at hrest

/-- A tensor that is stored is stored under one of the names, by an expert that is there. -/
theorem Arrival.From.name_mem {a : Arrival W R} (h : a.From C) : a.name ∈ C.names := by
  obtain ⟨path, t, ⟨E, hE, hmem⟩, -⟩ := h
  rw [← C.stores E (List.mem_of_getElem? hE) a.shard_id]
  exact List.mem_map_of_mem hmem

/-! ## The tables -/

/-- Numbered lookups that all succeed, listed in order. -/
theorem filterMap_range {α : Type*} {f : Nat → Option α} {n : Nat} (h : ∀ i < n, (f i).isSome) :
    ((List.range n).filterMap f).length = n ∧ ∀ i < n, ((List.range n).filterMap f)[i]? = f i := by
  induction n with
  | zero => simp
  | succ n ih =>
    obtain ⟨hlen, hget⟩ := ih fun i hi => h i (by omega)
    obtain ⟨v, hv⟩ := Option.isSome_iff_exists.mp (h n (by omega))
    rw [List.range_succ, List.filterMap_append, List.filterMap_cons_some hv, List.filterMap_nil]
    refine ⟨by simp [hlen], fun i hi => ?_⟩
    rcases Nat.lt_succ_iff_lt_or_eq.mp hi with hlt | rfl
    · rw [List.getElem?_append_left (by rwa [hlen]), hget i hlt]
    · rw [List.getElem?_append_right (by rw [hlen]), hlen, hv]
      simp

/-- A table: a rank's slices of the experts' tensors of one name, in the order of the experts. -/
structure TableOf (C : Checkpoint W R) (moe : FusedMoEConfig) (shard_id : ShardId) (name : String)
    (tensors : List (Tensor W R)) : Prop where
  length_eq : tensors.length = C.experts.length
  entry : ∀ e t, tensors[e]? = some t → ∃ u, C.Stores shard_id e name u ∧
    tpShard name u shard_id moe.tp_rank moe.tp_size = .ok t

/-- After a load to which every tensor arrived, every table is complete. -/
theorem collect_eq (hdelivers : Delivers C arrivals) (hloading : Loading C moe arrivals layer)
    {shard_id : ShardId} {name : String} (hname : name ∈ C.names) :
    ∃ tensors, layer.collect (groupOf shard_id) shard_id name = .ok tensors ∧
      TableOf C moe shard_id name tensors := by
  obtain ⟨param, hparam, hcollects⟩ := hloading.collects shard_id name hname
  have hall : ∀ e < layer.num_experts, (param.shards.get? (shard_id, e)).isSome := by
    intro e he
    rw [hloading.num_experts] at he
    obtain ⟨a, ha, hshard, rfl, haname⟩ := hdelivers.complete e he shard_id name hname
    exact hcollects.arrived a ha hshard haname
  obtain ⟨hlen, hget⟩ := filterMap_range hall
  have hmissing : (List.range layer.num_experts).filter
      (fun e => !param.shards.contains (shard_id, e)) = [] := by
    rw [List.filter_eq_nil_iff]
    intro e he
    simpa [PyDict.contains, Option.isSome_iff_ne_none] using hall e (List.mem_range.mp he)
  refine ⟨_, ?_, hlen.trans hloading.num_experts, fun e t ht => ?_⟩
  · rw [Collectors.collect, hparam]
    dsimp only
    rw [hmissing, if_neg (not_not.mpr rfl)]
  · have he : e < layer.num_experts := by
      rw [← hlen]
      exact (List.getElem?_eq_some_iff.mp ht).1
    rw [hget e he] at ht
    exact hcollects.genuine e t ht

/-- A load from the start, of arrivals that deliver the checkpoint. -/
theorem loading_of_load (hdelivers : Delivers C arrivals)
    (h : (createWeights W R moe C.names C.experts.length >>= (load · arrivals)) = .ok layer) :
    Loading C moe arrivals layer := by
  obtain ⟨created, hcreate, hload⟩ := bind_eq_ok h
  exact (loading_created hcreate).load
    (fun a ha => ⟨hdelivers.genuine a ha, (hdelivers.genuine a ha).name_mem⟩) hload

end Invariant

/-! ## A rank's slices -/

section Slices

variable {C : Checkpoint W R} {moe : FusedMoEConfig} {E : Expert W R} {shard_id : ShardId} {e : Nat}

/-- The stored widths of a projection, input and output, on one of `tp_size` ranks. -/
def Checkpoint.widths (C : Checkpoint W R) (tp_size : Nat) (shard_id : ShardId) : Nat × Nat :=
  if shard_id.column then (C.hidden, C.interm / tp_size) else (C.interm / tp_size, C.hidden)

/-- The unsplit widths of an expert's projection. -/
theorem linearOf_widths (hE : E ∈ C.experts) (shard_id : ShardId) :
    (TILE * (linearOf E shard_id).trellis.rows, TILE * (linearOf E shard_id).trellis.cols) =
      C.widths 1 shard_id := by
  obtain ⟨hin, hout⟩ := C.hidden_eq E hE
  have hinterm := C.interm_eq E hE
  rw [Checkpoint.widths, Nat.div_one]
  cases shard_id
  · show (TILE * E.gate.trellis.rows, TILE * E.gate.trellis.cols) = (C.hidden, C.interm)
    rw [hin, hinterm]
  · show (TILE * E.up.trellis.rows, TILE * E.up.trellis.cols) = (C.hidden, C.interm)
    rw [E.up_rows, E.up_cols, hin, hinterm]
  · show (TILE * E.down.trellis.rows, TILE * E.down.trellis.cols) = (C.interm, C.hidden)
    rw [E.down_rows, hinterm, hout]

/-- The split dimension of every projection is the stored intermediate width. -/
theorem linearOf_interm (hE : E ∈ C.experts) (shard_id : ShardId) :
    (linearOf E shard_id).interm shard_id = C.interm := by
  have hinterm := C.interm_eq E hE
  cases shard_id
  · exact hinterm
  · exact (congrArg (TILE * ·) E.up_cols).trans hinterm
  · exact (congrArg (TILE * ·) E.down_rows).trans hinterm

/-- The flags of a layer are those of each of its linears. -/
theorem flags_eq (hE : E ∈ C.experts) (shard_id : ShardId) :
    (linearOf E shard_id).mcg.isSome = decide ("mcg" ∈ C.names) ∧
      (linearOf E shard_id).mul1.isSome = decide ("mul1" ∈ C.names) := by
  rw [← C.stores E hE shard_id]
  cases hmcg : (linearOf E shard_id).mcg <;> cases hmul1 : (linearOf E shard_id).mul1 <;>
    simp [Linear.subTensors, hmcg, hmul1]

/-- A rank that was handed a trellis accepts the split. -/
theorem splits_of_accepted (hE : E ∈ C.experts) {rank tp_size : Nat} {t : Tensor W R}
    (h : tpShard "trellis" (.trellis (linearOf E shard_id).trellis) shard_id rank tp_size = .ok t) :
    Splits C.interm tp_size := by
  by_contra hsplit
  rw [← linearOf_interm hE shard_id] at hsplit
  exact Linear.tpShard_error (mem_subTensors_trellis _) hsplit (.inl rfl) ⟨t, h⟩

/-- What a rank's slice of a trellis is. -/
theorem tpShard_trellis (hE : E ∈ C.experts) {rank tp_size : Nat} (hsplit : Splits C.interm tp_size)
    (hrank : rank < tp_size) {t : Tensor W R}
    (h : tpShard "trellis" (.trellis (linearOf E shard_id).trellis) shard_id rank tp_size = .ok t) :
    ∃ w : Trellis W, t = .trellis w ∧ (TILE * w.rows, TILE * w.cols) = C.widths tp_size shard_id ∧
      w.words = (linearOf E shard_id).trellis.words := by
  have hwidths := linearOf_widths hE shard_id
  rcases eq_or_ne tp_size 1 with rfl | htp
  · -- a single rank slices nothing
    obtain rfl := Except.ok.inj h
    exact ⟨_, rfl, hwidths, rfl⟩
  · have hwidth := Linear.splitWidth_eq (mem_subTensors_trellis (linearOf E shard_id)) shard_id
    rw [if_pos (.inl rfl), linearOf_interm hE shard_id] at hwidth
    rw [tpShard_width htp hwidth, Format.shardBounds_ok hsplit] at h
    have hslice : ∀ n q, n = tp_size * q → min (((rank + 1) * (TILE * q)) / TILE) n -
        (rank * (TILE * q)) / TILE = q := by
      intro n q hn
      have hle : (rank + 1) * q ≤ tp_size * q := Nat.mul_le_mul_right q hrank
      rw [Nat.mul_left_comm (rank + 1), Nat.mul_left_comm rank, Nat.mul_div_cancel_left _ (by decide),
        Nat.mul_div_cancel_left _ (by decide), hn, Nat.min_eq_left hle, Nat.succ_mul,
        Nat.add_sub_cancel_left]
    rw [Checkpoint.widths, Nat.div_one] at hwidths
    rw [Checkpoint.widths]
    cases hcolumn : shard_id.column with
    | true =>
      rw [hcolumn, if_pos rfl] at hwidths
      obtain ⟨hrows, hcols⟩ := Prod.mk.inj hwidths
      rw [← hcols] at hsplit h ⊢
      obtain ⟨q, hq, hwidth', -⟩ := splits_tiles hsplit
      rw [hwidth'] at h ⊢
      simp only [hcolumn] at h
      obtain rfl := Except.ok.inj h
      refine ⟨_, rfl, ?_, rfl⟩
      exact Prod.ext hrows (congrArg (TILE * ·) (hslice _ q hq))
    | false =>
      rw [hcolumn, if_neg Bool.false_ne_true] at hwidths
      obtain ⟨hrows, hcols⟩ := Prod.mk.inj hwidths
      rw [← hrows] at hsplit h ⊢
      obtain ⟨q, hq, hwidth', -⟩ := splits_tiles hsplit
      rw [hwidth'] at h ⊢
      simp only [hcolumn] at h
      obtain rfl := Except.ok.inj h
      refine ⟨_, rfl, ?_, rfl⟩
      exact Prod.ext (congrArg (TILE * ·) (hslice _ q hq)) hcols

/-- The widths a rank works in are whole Hadamard blocks. -/
theorem widths_dvd {tp_size : Nat} (hsplit : Splits C.interm tp_size)
    (shard_id : ShardId) :
    HAD_BLOCK ∣ (C.widths tp_size shard_id).1 ∧ HAD_BLOCK ∣ (C.widths tp_size shard_id).2 := by
  have hinterm : HAD_BLOCK ∣ C.interm / tp_size := by
    rcases hsplit with hone | ⟨-, -, hdvd⟩
    · rw [hone, Nat.div_one]
      exact C.interm_dvd
    · exact hdvd
  have hhidden := C.hidden_dvd
  unfold Checkpoint.widths
  split_ifs
  · exact ⟨hhidden, hinterm⟩
  · exact ⟨hinterm, hhidden⟩

/-- Of a projection's two scale vectors, the one that follows the split. -/
theorem carries_scale {name : String} {v : List R} (hname : name = "suh" ∨ name = "svh") :
    Carries (shard_id, name, (.scale v : Tensor W R)) ↔ (name = "svh" ↔ shard_id.column = true) := by
  rcases hname with rfl | rfl <;> cases shard_id <;> simp [Carries, roleOf, ShardId.column]

/-- The lengths of a rank's scale vectors are the widths of its trellis. -/
theorem tpShard_scale (hE : E ∈ C.experts) {rank tp_size : Nat} (hsplit : Splits C.interm tp_size)
    (hrank : rank < tp_size) {name : String} {v : List R} {t : Tensor W R}
    (hname : name = "suh" ∨ name = "svh")
    (hmem : (name, .scale v) ∈ (linearOf E shard_id).subTensors)
    (h : tpShard name (.scale v : Tensor W R) shard_id rank tp_size = .ok t) :
    ∃ v', t = .scale v' ∧ v'.length =
      if name = "suh" then (C.widths tp_size shard_id).1 else (C.widths tp_size shard_id).2 := by
  have hlen : v.length = if name = "suh" then (C.widths 1 shard_id).1 else (C.widths 1 shard_id).2 := by
    rw [← linearOf_widths hE shard_id]
    rcases hname with rfl | rfl
    · obtain rfl := Tensor.scale.inj (subTensors_unique hmem (mem_subTensors_suh _))
      exact (linearOf E shard_id).suh_eq
    · obtain rfl := Tensor.scale.inj (subTensors_unique hmem (mem_subTensors_svh _))
      exact (linearOf E shard_id).svh_eq
  rcases eq_or_ne tp_size 1 with rfl | htp
  · obtain rfl := Except.ok.inj h
    exact ⟨v, rfl, hlen⟩
  have hwidth := Linear.splitWidth_eq hmem shard_id
  by_cases hcarries : Carries (shard_id, name, (.scale v : Tensor W R))
  · rw [if_pos hcarries, linearOf_interm hE shard_id] at hwidth
    rw [tpShard_width htp hwidth, Format.shardBounds_ok hsplit] at h
    have hpart : min ((rank + 1) * (C.interm / tp_size)) C.interm - rank * (C.interm / tp_size) =
        C.interm / tp_size := by
      have hle : (rank + 1) * (C.interm / tp_size) ≤ C.interm := by
        conv_rhs => rw [hsplit.eq_mul]
        exact Nat.mul_le_mul_right _ hrank
      rw [Nat.min_eq_left hle, Nat.succ_mul, Nat.add_sub_cancel_left]
    refine ⟨slice (rank * (C.interm / tp_size)) ((rank + 1) * (C.interm / tp_size)) v, ?_, ?_⟩
    · rcases hname with rfl | rfl <;> cases shard_id <;>
        simp [carries_scale, ShardId.column] at hcarries <;> exact (Except.ok.inj h).symm
    · rw [length_slice, hlen]
      rcases hname with rfl | rfl <;> cases shard_id <;>
        simp [carries_scale, ShardId.column] at hcarries <;>
        simpa [Checkpoint.widths, ShardId.column] using hpart
  · rw [Linear.tpShard_whole hmem hcarries] at h
    obtain rfl := Except.ok.inj h
    refine ⟨v, rfl, hlen.trans ?_⟩
    rcases hname with rfl | rfl <;> cases shard_id <;>
      simp [carries_scale, ShardId.column] at hcarries <;> simp [Checkpoint.widths, ShardId.column]

end Slices

/-! ## Nothing is refused where the width splits -/

section Accept

variable {C : Checkpoint W R} {moe : FusedMoEConfig} {sent arrivals : List (Arrival W R)}
  {layer : Collectors W R}

theorem Loading.receive_ok {a : Arrival W R} (hloading : Loading C moe sent layer) (ha : a.From C)
    (hsplit : Splits C.interm moe.tp_size) : ∃ layer', FusedMoe.receive layer a = .ok layer' := by
  obtain ⟨param, hparam, hcollects⟩ := hloading.collects a.shard_id a.name ha.name_mem
  obtain ⟨path, u, ⟨E, hE, hmem⟩, hweight⟩ := ha
  have hinterm := linearOf_interm (List.mem_of_getElem? hE) a.shard_id
  have haccepted : Accepted moe.tp_size moe.tp_rank (a.shard_id, a.name, u) :=
    Linear.tpShard_ok hmem (by rwa [hinterm])
  obtain ⟨t, ht⟩ := haccepted
  set param' : EXL3MoEParameter W R :=
    { param with shards := param.shards.set (a.shard_id, a.expert_id) t }
  have hshard : tpShard param.exl3_name a.weight.squeeze a.shard_id param.exl3_tp_rank
      param.exl3_tp_size = .ok t := by
    rw [hweight, squeeze_lift, hcollects.exl3_name, hcollects.exl3_tp_rank, hcollects.exl3_tp_size]
    exact ht
  have hload : moeWeightLoader param a.weight a.shard_id a.expert_id = .ok param' := by
    rw [moeWeightLoader, hshard]
    rfl
  refine ⟨{ layer with params := layer.params.set (groupOf a.shard_id ++ a.name) param' }, ?_⟩
  unfold FusedMoe.receive
  simp only [hparam, hload]
  rfl

theorem Loading.load_ok (hloading : Loading C moe sent layer) (harrivals : ∀ a ∈ arrivals, a.From C)
    (hsplit : Splits C.interm moe.tp_size) : ∃ layer', FusedMoe.load layer arrivals = .ok layer' := by
  induction arrivals generalizing sent layer with
  | nil => exact ⟨layer, rfl⟩
  | cons a rest ih =>
    have ha := harrivals a List.mem_cons_self
    obtain ⟨layer₁, hreceive⟩ := hloading.receive_ok ha hsplit
    obtain ⟨layer', hload⟩ := ih (hloading.receive ha ha.name_mem hreceive)
      fun b hb => harrivals b (List.mem_cons_of_mem a hb)
    refine ⟨layer', ?_⟩
    rw [FusedMoe.load, List.foldlM_cons, hreceive]
    exact hload

end Accept

/-! ## The tables of a served layer -/

section Tables

variable {C : Checkpoint W R} {moe : FusedMoEConfig} {shard_id : ShardId} {layer : Collectors W R}
  {arrivals : List (Arrival W R)} {tables : Tables W R} {bits : Bits} {mul1 : Bool}

/-- The three tables of a projection are a rank's slices. -/
structure SlicesOf (C : Checkpoint W R) (moe : FusedMoEConfig) (shard_id : ShardId)
    (tables : Tables W R) : Prop where
  trellis : TableOf C moe shard_id "trellis" tables.trellis
  suh : TableOf C moe shard_id "suh" tables.suh
  svh : TableOf C moe shard_id "svh" tables.svh

theorem checkUniform_ok {tensors : List (Tensor W R)} {what : String} {u : Unit}
    (h : checkUniform tensors what = .ok u) : tensors ≠ [] ∧ ∃ shape, ∀ t ∈ tensors, t.shape = shape := by
  unfold checkUniform at h
  dsimp only at h
  split_ifs at h with hlen
  obtain ⟨shape, hshape⟩ := List.length_eq_one_iff.mp (not_not.mp hlen)
  have hmem : ∀ t ∈ tensors, t.shape = shape := by
    intro t ht
    have hin : t.shape ∈ (tensors.map Tensor.shape).dedup := List.mem_dedup.mpr (List.mem_map_of_mem ht)
    rw [hshape] at hin
    exact List.mem_singleton.mp hin
  refine ⟨?_, shape, hmem⟩
  rintro rfl
  simp at hshape

/-- An entry of a table that is the slices of a tensor every expert stores. -/
theorem TableOf.get {name : String} {tensors : List (Tensor W R)}
    (h : TableOf C moe shard_id name tensors) {e : Nat} {E : Expert W R} (hE : C.experts[e]? = some E)
    {u : Tensor W R} (hu : (name, u) ∈ (linearOf E shard_id).subTensors) :
    ∃ t, tensors[e]? = some t ∧ tpShard name u shard_id moe.tp_rank moe.tp_size = .ok t := by
  have he : e < tensors.length := by
    rw [h.length_eq]
    exact (List.getElem?_eq_some_iff.mp hE).1
  obtain ⟨u', hstores, ht⟩ := h.entry e tensors[e] (List.getElem?_eq_getElem he)
  obtain rfl := hstores.unique ⟨E, hE, hu⟩
  exact ⟨_, List.getElem?_eq_getElem he, ht⟩

/-- Tables the kernel takes: a trellis and two scale vectors for every expert, all of one shape and one
bit width. -/
structure Uniform (table : Tables W R) (bits : Bits) (mul1 : Bool) (experts k n : Nat) : Prop where
  trellis : ∀ e < experts, ∃ t : Trellis W, table.trellis[e]? = some (.trellis t) ∧ TILE * t.rows = k ∧
    TILE * t.cols = n ∧ bitsFromTrellisShape [t.rows, t.cols, t.words] (some mul1) = .ok bits
  suh : ∀ e < experts, ∃ v, table.suh[e]? = some (.scale v) ∧ v.length = k
  svh : ∀ e < experts, ∃ v, table.svh[e]? = some (.scale v) ∧ v.length = n

/-- A table with an entry is one of experts that are there. -/
theorem experts_of_collect (hloading : Loading C moe arrivals layer) {group name : String}
    {tensors : List (Tensor W R)} (h : layer.collect group shard_id name = .ok tensors)
    (hne : tensors ≠ []) : C.experts ≠ [] := by
  rintro hnil
  unfold Collectors.collect at h
  rw [hloading.num_experts, hnil] at h
  split at h
  · cases h
  · dsimp only at h
    split_ifs at h
    exact hne (Except.ok.inj h).symm

/-- What `process_weights_after_loading` makes of a projection. -/
theorem projection_spec (hdelivers : Delivers C arrivals) (hloading : Loading C moe arrivals layer)
    (hrank : moe.tp_rank < moe.tp_size) (h : layer.projection mul1 shard_id = .ok (tables, bits)) :
    C.experts ≠ [] ∧ Splits C.interm moe.tp_size ∧ SlicesOf C moe shard_id tables ∧
      Uniform tables bits mul1 C.experts.length (C.widths moe.tp_size shard_id).1
        (C.widths moe.tp_size shard_id).2 := by
  obtain ⟨trellis, htrellis, h⟩ := bind_eq_ok h
  obtain ⟨_, huniform, h⟩ := bind_eq_ok h
  obtain ⟨suh, hsuh, h⟩ := bind_eq_ok h
  obtain ⟨-, -, h⟩ := bind_eq_ok h
  obtain ⟨svh, hsvh, h⟩ := bind_eq_ok h
  obtain ⟨-, -, h⟩ := bind_eq_ok h
  obtain ⟨shape, hshape, h⟩ := bind_eq_ok h
  obtain ⟨bits', hbits, h⟩ := bind_eq_ok h
  obtain ⟨rfl, rfl⟩ := Prod.mk.inj (Except.ok.inj h)
  obtain ⟨hne, common, hcommon⟩ := checkUniform_ok huniform
  have hexperts := experts_of_collect hloading htrellis hne
  -- an expert that is there stores all three tensors
  obtain ⟨E₀, hE₀⟩ := List.exists_mem_of_ne_nil _ hexperts
  have hname : ∀ name t, (name, t) ∈ (linearOf E₀ shard_id).subTensors → name ∈ C.names := by
    intro name t ht
    rw [← C.stores E₀ hE₀ shard_id]
    exact List.mem_map_of_mem ht
  have htable : ∀ name tensors, name ∈ C.names →
      layer.collect (groupOf shard_id) shard_id name = .ok tensors →
      TableOf C moe shard_id name tensors := by
    intro name tensors hmem hcollect
    obtain ⟨tensors', hcollect', htable⟩ := collect_eq hdelivers hloading hmem
    obtain rfl := Except.ok.inj (hcollect.symm.trans hcollect')
    exact htable
  have hslices : SlicesOf C moe shard_id ⟨trellis, suh, svh⟩ :=
    ⟨htable _ _ (hname _ _ (mem_subTensors_trellis _)) htrellis,
      htable _ _ (hname _ _ (mem_subTensors_suh _)) hsuh,
      htable _ _ (hname _ _ (mem_subTensors_svh _)) hsvh⟩
  obtain ⟨e₀, he₀⟩ := List.mem_iff_getElem?.mp hE₀
  obtain ⟨t₀, -, ht₀⟩ := hslices.trellis.get he₀ (mem_subTensors_trellis _)
  have hsplit := splits_of_accepted hE₀ ht₀
  have hfirst : shape = common := by
    unfold firstShape at hshape
    obtain ⟨t, rest, rfl⟩ := List.exists_cons_of_ne_nil hne
    obtain rfl := Except.ok.inj hshape
    exact hcommon t List.mem_cons_self
  refine ⟨hexperts, hsplit, hslices, ⟨fun e he => ?_, fun e he => ?_, fun e he => ?_⟩⟩
  · have hE := List.getElem_mem he
    obtain ⟨t, hget, ht⟩ :=
      hslices.trellis.get (List.getElem?_eq_getElem he) (mem_subTensors_trellis _)
    obtain ⟨w, rfl, hwidths, -⟩ := tpShard_trellis hE hsplit hrank ht
    obtain ⟨hrows, hcols⟩ := Prod.mk.inj hwidths
    refine ⟨w, hget, hrows, hcols, ?_⟩
    rw [hfirst, ← hcommon _ (List.mem_of_getElem? hget)] at hbits
    cases hb : bitsFromTrellisShape (Tensor.trellis (R := R) w).shape (some mul1) with
    | error err =>
      rw [hb] at hbits
      cases hbits
    | ok b =>
      rw [hb] at hbits
      obtain rfl := Except.ok.inj hbits
      exact hb
  · obtain ⟨t, hget, ht⟩ := hslices.suh.get (List.getElem?_eq_getElem he) (mem_subTensors_suh _)
    obtain ⟨v, rfl, hlen⟩ := tpShard_scale (List.getElem_mem he) hsplit hrank (.inl rfl)
      (mem_subTensors_suh _) ht
    exact ⟨v, hget, hlen⟩
  · obtain ⟨t, hget, ht⟩ := hslices.svh.get (List.getElem?_eq_getElem he) (mem_subTensors_svh _)
    obtain ⟨v, rfl, hlen⟩ := tpShard_scale (List.getElem_mem he) hsplit hrank (.inr rfl)
      (mem_subTensors_svh _) ht
    exact ⟨v, hget, hlen⟩

end Tables

end VllmExl3.FusedMoe
