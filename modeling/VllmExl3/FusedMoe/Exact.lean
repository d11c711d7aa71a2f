/-
# VllmExl3.FusedMoe.Exact — a layer of routed experts computes its experts' mixture

Whatever order the experts' tensors arrive in, on however many ranks, a layer that finished loading
returns for every token the weighted sum of the experts it is routed to (`moe_layer_exact`). A slot of
the grouped product runs one expert on a rank's slices (`slot_eq`), the last product adds up each token's
slots, and the ranks' sums are the unsharded experts', times the divisor that was measured.
-/
import VllmExl3.FusedMoe.Finishes

namespace VllmExl3.FusedMoe

open Format (TILE HAD_BLOCK Bits bitsFromTrellisShape Splits)
open TensorParallel

variable {W R : Type}

section Grouped

variable [CommRing R]

/-! ## The grouped product -/

/-- One slot: a row through the matrix its index selects. -/
def slotForward (ext : Exllamav3 W R) (table : Tables W R) (mcg mul1 : Bool) (slot : List R × Nat) :
    Except PyError (List R) :=
  match table.trellis[slot.2]?, table.suh[slot.2]?, table.svh[slot.2]? with
  | some trellis, some suh, some svh => exl3Mm ext slot.1 trellis suh svh mcg mul1
  | _, _, _ => .error .index

/-- The kernels' stated contracts. Every slot is multiplied by the matrix its index selects; with weights,
the slots of each of `num_tokens` tokens are weighted and added up in the leading rows, and what the
others hold is left open. Expert ranges are not filtered where `min_index` is negative. -/
structure Kernels.Contract (K : Kernels W R) : Prop where
  empty_rows : ∀ m n, (K.empty m n).length = m ∧ ∀ row ∈ K.empty m n, row.length = n
  slots : ∀ a table c indices bits mcg mul1 experts k n hi num_tokens,
    Uniform table bits mul1 experts k n → HAD_BLOCK ∣ k → HAD_BLOCK ∣ n → a.length = indices.length →
    c.length = a.length → (∀ row ∈ a, row.length = k) → (∀ row ∈ c, row.length = n) →
    (∀ e ∈ indices, e < experts) →
    K.exl3_mgemm a table c indices none bits mcg mul1 (-1) hi num_tokens =
      (a.zip indices).mapM (slotForward K.toExllamav3 table mcg mul1)
  reduced : ∀ a table c indices weights bits mcg mul1 experts k n hi num_tokens top_k ys,
    Uniform table bits mul1 experts k n → HAD_BLOCK ∣ k → HAD_BLOCK ∣ n → a.length = indices.length →
    c.length = a.length → (∀ row ∈ a, row.length = k) → (∀ row ∈ c, row.length = n) →
    (∀ e ∈ indices, e < experts) → weights.length = a.length → num_tokens * top_k = a.length →
    0 < top_k → (a.zip indices).mapM (slotForward K.toExllamav3 table mcg mul1) = .ok ys →
    ∃ out, K.exl3_mgemm a table c indices (some weights) bits mcg mul1 (-1) hi num_tokens = .ok out ∧
      out.length = a.length ∧ ∀ t < num_tokens, out[t]? = some (tabulate n fun col =>
        ((List.range top_k).map fun j =>
          weights.getD (t * top_k + j) 0 * (ys.getD (t * top_k + j) []).getD col 0).sum)

/-! ## The mixture -/

section Spec

variable (ext : Exllamav3 W R) (act : R → R)

/-- The output of expert `e`. -/
def expertForward (experts : List (Expert W R)) (row : List R) (e : Nat) : Except PyError (List R) :=
  match experts[e]? with
  | some E => E.forward ext act row
  | none => .error .index

/-- A token's output: those of its experts, each multiplied by its weight, added up. -/
def tokenMixture (C : Checkpoint W R) (row : List R) (ids : List Nat) (weights : List R) :
    Except PyError (List R) := do
  let ys ← ids.mapM (expertForward ext act C.experts row)
  return tabulate C.hidden fun col => (List.zipWith (fun w y => w * y.getD col 0) weights ys).sum

/-- A batch's. -/
def mixture (C : Checkpoint W R) (rows : List (List R)) (routing : Routing R) :
    Except PyError (List (List R)) :=
  (rows.zip (routing.topk_ids.zip routing.topk_weights)).mapM fun token =>
    tokenMixture ext act C token.1 token.2.1 token.2.2

end Spec

end Grouped

/-! ## One slot -/

section Slot

variable [CommRing R] (ext : Exllamav3 W R) {C : Checkpoint W R} {moe : FusedMoEConfig}
  {shard_id : ShardId} {tables : Tables W R} {bits : Bits} (mcg : Bool) {mul1 : Bool}

/-- A slot of a uniform table succeeds, with one value per output channel. -/
theorem slot_ok {experts k n : Nat} (hU : Uniform tables bits mul1 experts k n) (hk : HAD_BLOCK ∣ k)
    (hn : HAD_BLOCK ∣ n) {slot : List R × Nat} (he : slot.2 < experts) (hrow : slot.1.length = k) :
    ∃ y, slotForward ext tables mcg mul1 slot = .ok y ∧ y.length = n := by
  obtain ⟨t, ht, rfl, rfl, -⟩ := hU.trellis slot.2 he
  obtain ⟨u, hu, hulen⟩ := hU.suh slot.2 he
  obtain ⟨v, hv, hvlen⟩ := hU.svh slot.2 he
  have hslot : slotForward ext tables mcg mul1 slot =
      exl3Mm ext slot.1 (.trellis t) (.scale u) (.scale v) mcg mul1 := by
    rw [slotForward, ht, hu, hv]
  have hlayer := hslot.trans (layer_ok hrow hulen hvlen hk hn)
  exact ⟨_, hlayer, layer_length hrow hulen hvlen (hslot.symm.trans hlayer)⟩

/-- A slot runs a projection of its expert on a rank's slices. -/
theorem slot_eq (h : SlicesOf C moe shard_id tables) {row : List R} {e : Nat} {E : Expert W R}
    (hE : C.experts[e]? = some E) :
    slotForward ext tables (decide ("mcg" ∈ C.names)) (decide ("mul1" ∈ C.names)) (row, e) =
      (linearOf E shard_id).shardForward ext shard_id moe.tp_size moe.tp_rank row := by
  obtain ⟨t, htget, ht⟩ := h.trellis.get hE (mem_subTensors_trellis _)
  obtain ⟨u, huget, hu⟩ := h.suh.get hE (mem_subTensors_suh _)
  obtain ⟨v, hvget, hv⟩ := h.svh.get hE (mem_subTensors_svh _)
  obtain ⟨hmcg, hmul1⟩ := flags_eq (List.mem_of_getElem? hE) shard_id
  rw [slotForward, htget, huget, hvget, Linear.shardForward, ht, hu, hv, hmcg, hmul1]
  rfl

end Slot

/-! ## The slots of a batch -/

section Batch

variable {rows : List (List R)} {routing : Routing R}

/-- The slots of a batch: each token's row once for each of its experts. -/
def slotsOf (rows : List (List R)) (routing : Routing R) : List (List R × Nat) :=
  (rows.flatMap (List.replicate routing.top_k)).zip routing.topk_ids.flatten

theorem length_gathered (k : Nat) (rows : List (List R)) :
    (rows.flatMap (List.replicate k)).length = rows.length * k := by
  rw [List.flatMap, length_flatten_equal (p := k), List.length_map]
  intro piece hpiece
  obtain ⟨row, -, rfl⟩ := List.mem_map.mp hpiece
  exact List.length_replicate

theorem length_indices (hids : routing.topk_ids.length = rows.length) :
    routing.topk_ids.flatten.length = rows.length * routing.top_k := by
  rw [length_flatten_equal routing.ids_eq, hids]

theorem length_slotsOf (hids : routing.topk_ids.length = rows.length) :
    (slotsOf rows routing).length = rows.length * routing.top_k := by
  rw [slotsOf, List.length_zip, length_gathered, length_indices hids, Nat.min_self]

theorem map_snd_slotsOf (hids : routing.topk_ids.length = rows.length) :
    (slotsOf rows routing).map Prod.snd = routing.topk_ids.flatten := by
  apply List.map_snd_zip
  rw [length_gathered, length_indices hids]

/-- The slot of a token's `j`-th expert. -/
theorem slot_at (hids : routing.topk_ids.length = rows.length) {t j : Nat} (ht : t < rows.length)
    (hj : j < routing.top_k) : (slotsOf rows routing)[t * routing.top_k + j]? =
      some (rows.getD t [], (routing.topk_ids.getD t []).getD j 0) := by
  have hlt : t * routing.top_k + j < rows.length * routing.top_k := by
    calc t * routing.top_k + j < (t + 1) * routing.top_k := by rw [Nat.succ_mul]; omega
      _ ≤ rows.length * routing.top_k := Nat.mul_le_mul_right _ ht
  have hrow : (rows.flatMap (List.replicate routing.top_k))[t * routing.top_k + j]? =
      some (rows.getD t []) := by
    have hpieces : ∀ piece ∈ rows.map (List.replicate routing.top_k), piece.length = routing.top_k := by
      intro piece hpiece
      obtain ⟨row, -, rfl⟩ := List.mem_map.mp hpiece
      exact List.length_replicate
    rw [List.getElem?_eq_getElem (by rw [length_gathered]; exact hlt), ← List.getD_eq_getElem _ [],
      List.flatMap, getD_flatten_equal hpieces (by rwa [List.length_map]) hj]
    simp [List.getD_eq_getElem?_getD, ht, hj]
  have hid : routing.topk_ids.flatten[t * routing.top_k + j]? =
      some ((routing.topk_ids.getD t []).getD j 0) := by
    rw [List.getElem?_eq_getElem (by rw [length_indices hids]; exact hlt),
      ← List.getD_eq_getElem _ 0, getD_flatten_equal routing.ids_eq (by rwa [hids]) hj]
  rw [slotsOf, List.getElem?_zip_eq_some]
  exact ⟨hrow, hid⟩

/-- A slot's row is one of the batch's, its index one of the routing's. -/
theorem mem_slotsOf {slot : List R × Nat} (h : slot ∈ slotsOf rows routing) :
    slot.1 ∈ rows ∧ ∃ ids ∈ routing.topk_ids, slot.2 ∈ ids := by
  obtain ⟨row, e⟩ := slot
  obtain ⟨hrow, he⟩ := List.of_mem_zip h
  obtain ⟨row', hrow', hmem⟩ := List.mem_flatMap.mp hrow
  obtain rfl := List.eq_of_mem_replicate hmem
  exact ⟨hrow', List.mem_flatten.mp he⟩

end Batch

/-! ## One rank -/

/-- A batch a layer can be given: routed to experts that are there. -/
structure Batch (C : Checkpoint W R) (rows : List (List R)) (routing : Routing R) : Prop where
  width : ∀ row ∈ rows, row.length = C.hidden
  ids : routing.topk_ids.length = rows.length
  weights : routing.topk_weights.length = rows.length
  top_k : 0 < routing.top_k
  valid : ∀ ids ∈ routing.topk_ids, ∀ e ∈ ids, e < C.experts.length

section Rank

variable {C : Checkpoint W R} {rows : List (List R)} {routing : Routing R}

theorem Batch.slot (hbatch : Batch C rows routing) {slot : List R × Nat}
    (h : slot ∈ slotsOf rows routing) : slot.2 < C.experts.length ∧ slot.1.length = C.hidden := by
  obtain ⟨hrow, ids, hids, he⟩ := mem_slotsOf h
  exact ⟨hbatch.valid ids hids _ he, hbatch.width _ hrow⟩

theorem Batch.indices (hbatch : Batch C rows routing) :
    ∀ e ∈ routing.topk_ids.flatten, e < C.experts.length := by
  intro e he
  obtain ⟨ids, hids, hin⟩ := List.mem_flatten.mp he
  exact hbatch.valid ids hids e hin

variable [CommRing R] {K : Kernels W R} {moe : FusedMoEConfig} {layer : Layer W R} {act : R → R}
  {activation : String}

/-- An expert on one rank's slices, for a slot. -/
def rankForward (ext : Exllamav3 W R) (act : R → R) (C : Checkpoint W R) (moe : FusedMoEConfig)
    (slot : List R × Nat) : Except PyError (List R) :=
  match C.experts[slot.2]? with
  | some E => E.rankForward ext act slot.1 moe.tp_size moe.tp_rank
  | none => .error .index

/-- What a rank adds to a token's output, weights applied. -/
def rankRow (ext : Exllamav3 W R) (act : R → R) (C : Checkpoint W R) (moe : FusedMoEConfig)
    (routing : Routing R) (rows : List (List R)) (t : Nat) : List R :=
  tabulate C.hidden fun col => ((List.range routing.top_k).map fun j =>
    (routing.topk_weights.getD t []).getD j 0 * (valueOr [] (rankForward ext act C moe
      (rows.getD t [], (routing.topk_ids.getD t []).getD j 0))).getD col 0).sum

/-- The two first products and the activation, and then the third, run the slot's expert. -/
theorem rankForward_eq (K : Kernels W R) (act : R → R) (h : Ready C moe (decide ("mul1" ∈ C.names)) layer) {slot : List R × Nat}
    (he : slot.2 < C.experts.length) (hrow : slot.1.length = C.hidden) :
    ∃ g u y,
      slotForward K.toExllamav3 layer.gate (decide ("mcg" ∈ C.names)) (decide ("mul1" ∈ C.names)) slot =
        .ok g ∧
      slotForward K.toExllamav3 layer.up (decide ("mcg" ∈ C.names)) (decide ("mul1" ∈ C.names)) slot =
        .ok u ∧
      (gated act g u).length = C.interm / moe.tp_size ∧
      slotForward K.toExllamav3 layer.down (decide ("mcg" ∈ C.names)) (decide ("mul1" ∈ C.names))
        (gated act g u, slot.2) = .ok y ∧
      rankForward K.toExllamav3 act C moe slot = .ok y ∧ y.length = C.hidden := by
  obtain ⟨hhidden, hinterm⟩ := widths_dvd h.split .w1
  obtain ⟨g, hg, hglen⟩ := slot_ok K.toExllamav3 (decide ("mcg" ∈ C.names))
    h.gate_uniform hhidden hinterm he hrow
  obtain ⟨u, hu, hulen⟩ := slot_ok K.toExllamav3 (decide ("mcg" ∈ C.names))
    h.up_uniform hhidden hinterm he hrow
  have hlen : (gated act g u).length = C.interm / moe.tp_size := gated_length hglen hulen
  obtain ⟨y, hy, hylen⟩ := slot_ok K.toExllamav3 (decide ("mcg" ∈ C.names))
    h.down_uniform hinterm hhidden (show (gated act g u, slot.2).2 < _ from he) hlen
  refine ⟨g, u, y, hg, hu, hlen, hy, ?_, hylen⟩
  have hE := List.getElem?_eq_getElem he
  obtain ⟨row, e⟩ := slot
  rw [slot_eq _ h.gate hE] at hg
  rw [slot_eq _ h.up hE] at hu
  rw [slot_eq _ h.down hE] at hy
  rw [rankForward, hE]
  dsimp only
  rw [Expert.rankForward]
  simp only [linearOf] at hg hu hy
  rw [hg, hu]
  exact hy

/-- A slot's product, as the value it has where it succeeds. -/
def slotValue (ext : Exllamav3 W R) (C : Checkpoint W R) (table : Tables W R) (slot : List R × Nat) :
    List R :=
  valueOr [] (slotForward ext table (decide ("mcg" ∈ C.names)) (decide ("mul1" ∈ C.names)) slot)

/-- One of the two first products. -/
theorem product_eq (hK : K.Contract) (h : Ready C moe (decide ("mul1" ∈ C.names)) layer)
    (hbatch : Batch C rows routing) {table : Tables W R} (hi : Int)
    (hU : Uniform table layer.exl3_gate_bits (decide ("mul1" ∈ C.names)) C.experts.length C.hidden
      (C.interm / moe.tp_size)) :
    K.exl3_mgemm (rows.flatMap (List.replicate routing.top_k)) table
        (K.empty (rows.length * routing.top_k) layer.exl3_stored_intermediate)
        routing.topk_ids.flatten none layer.exl3_gate_bits (decide ("mcg" ∈ C.names))
        (decide ("mul1" ∈ C.names)) (-1) hi rows.length =
      .ok ((slotsOf rows routing).map (slotValue K.toExllamav3 C table)) := by
  obtain ⟨hhidden, hinterm⟩ := widths_dvd h.split .w1
  obtain ⟨hrows, hcols⟩ := hK.empty_rows (rows.length * routing.top_k) layer.exl3_stored_intermediate
  have hgathered : (rows.flatMap (List.replicate routing.top_k)).length =
      routing.topk_ids.flatten.length := by
    rw [length_gathered, length_indices hbatch.ids]
  have hwidth : ∀ row ∈ rows.flatMap (List.replicate routing.top_k), row.length = C.hidden := by
    intro row hrow
    obtain ⟨row', hrow', hin⟩ := List.mem_flatMap.mp hrow
    rw [List.eq_of_mem_replicate hin]
    exact hbatch.width row' hrow'
  rw [h.stored] at hrows hcols ⊢
  rw [hK.slots _ table _ _ _ _ _ _ _ _ _ _ hU hhidden hinterm hgathered
    (by rw [hrows, length_gathered]) hwidth hcols hbatch.indices]
  apply mapM_valueOr
  intro slot hslot
  obtain ⟨he, hrow⟩ := hbatch.slot hslot
  obtain ⟨y, hy, -⟩ := slot_ok K.toExllamav3 (decide ("mcg" ∈ C.names)) hU hhidden hinterm he hrow
  exact ⟨y, hy⟩

/-- What the third product is given for a slot. -/
def slotInterm (K : Kernels W R) (act : R → R) (C : Checkpoint W R) (layer : Layer W R)
    (slot : List R × Nat) : List R :=
  gated act (slotValue K.toExllamav3 C layer.gate slot) (slotValue K.toExllamav3 C layer.up slot)

/-- A slot that the third product is run on gives what its expert gives on this rank. -/
theorem slotInterm_spec (K : Kernels W R) (act : R → R)
    (h : Ready C moe (decide ("mul1" ∈ C.names)) layer) {slot : List R × Nat}
    (he : slot.2 < C.experts.length) (hrow : slot.1.length = C.hidden) :
    (slotInterm K act C layer slot).length = C.interm / moe.tp_size ∧ ∃ y,
      slotForward K.toExllamav3 layer.down (decide ("mcg" ∈ C.names)) (decide ("mul1" ∈ C.names))
        (slotInterm K act C layer slot, slot.2) = .ok y ∧
      rankForward K.toExllamav3 act C moe slot = .ok y := by
  obtain ⟨g, u, y, hg, hu, hlen, hy, hrank, -⟩ := rankForward_eq K act h he hrow
  have hslot : slotInterm K act C layer slot = gated act g u := by
    rw [slotInterm, slotValue, slotValue, hg, hu, valueOr_ok, valueOr_ok]
  rw [hslot]
  exact ⟨hlen, y, hy, hrank⟩

/-- The third product leaves each token's output on this rank in the leading rows. -/
theorem reduced_eq (hK : K.Contract) (act : R → R) (h : Ready C moe (decide ("mul1" ∈ C.names)) layer)
    (hbatch : Batch C rows routing) (hi : Int) :
    ∃ out, K.exl3_mgemm ((slotsOf rows routing).map (slotInterm K act C layer)) layer.down
        (K.empty (rows.length * routing.top_k) C.hidden) routing.topk_ids.flatten
        (some routing.topk_weights.flatten) layer.exl3_down_bits (decide ("mcg" ∈ C.names))
        (decide ("mul1" ∈ C.names)) (-1) hi rows.length = .ok out ∧
      out.take rows.length = tabulate rows.length (rankRow K.toExllamav3 act C moe routing rows) := by
  obtain ⟨hhidden, hinterm⟩ := widths_dvd h.split .w1
  obtain ⟨hrows, hcols⟩ := hK.empty_rows (rows.length * routing.top_k) C.hidden
  have hlen : ((slotsOf rows routing).map (slotInterm K act C layer)).length =
      rows.length * routing.top_k := by
    rw [List.length_map, length_slotsOf hbatch.ids]
  have hzip : ((slotsOf rows routing).map (slotInterm K act C layer)).zip routing.topk_ids.flatten =
      (slotsOf rows routing).map fun slot => (slotInterm K act C layer slot, slot.2) := by
    rw [← map_snd_slotsOf hbatch.ids, List.zip_map']
  have hslots : (((slotsOf rows routing).map (slotInterm K act C layer)).zip
      routing.topk_ids.flatten).mapM (slotForward K.toExllamav3 layer.down (decide ("mcg" ∈ C.names))
        (decide ("mul1" ∈ C.names))) =
      .ok ((slotsOf rows routing).map fun slot =>
        valueOr [] (rankForward K.toExllamav3 act C moe slot)) := by
    rw [hzip, mapM_valueOr [], List.map_map]
    · refine congrArg Except.ok (List.map_congr_left fun slot hslot => ?_)
      obtain ⟨he, hrow⟩ := hbatch.slot hslot
      obtain ⟨-, y, hy, hrank⟩ := slotInterm_spec K act h he hrow
      rw [Function.comp_apply, hy, hrank]
    · intro pair hpair
      obtain ⟨slot, hslot, rfl⟩ := List.mem_map.mp hpair
      obtain ⟨he, hrow⟩ := hbatch.slot hslot
      obtain ⟨-, y, hy, -⟩ := slotInterm_spec K act h he hrow
      exact ⟨y, hy⟩
  obtain ⟨out, hout, houtlen, hreduced⟩ := hK.reduced _ layer.down
    (K.empty (rows.length * routing.top_k) C.hidden) _ routing.topk_weights.flatten
    layer.exl3_down_bits (decide ("mcg" ∈ C.names)) (decide ("mul1" ∈ C.names)) _ _ _ hi rows.length
    routing.top_k _ h.down_uniform hinterm hhidden (by rw [hlen, length_indices hbatch.ids])
    (by rw [hrows, hlen])
    (by
      intro row hrow
      obtain ⟨slot, hslot, rfl⟩ := List.mem_map.mp hrow
      obtain ⟨he, hwidth⟩ := hbatch.slot hslot
      exact (slotInterm_spec K act h he hwidth).1)
    hcols hbatch.indices
    (by rw [hlen, length_flatten_equal routing.weights_eq, hbatch.weights]) hlen.symm hbatch.top_k hslots
  refine ⟨out, hout, List.ext_getElem? fun t => ?_⟩
  rcases Nat.lt_or_ge t rows.length with ht | ht
  · rw [List.getElem?_take_of_lt ht, hreduced t ht, List.getElem?_eq_getElem (by simpa using ht),
      getElem_tabulate, rankRow]
    refine congrArg some (tabulate_congr fun col _ => congrArg List.sum ?_)
    apply List.map_congr_left
    intro j hj
    have hj := List.mem_range.mp hj
    rw [getD_flatten_equal routing.weights_eq (by rwa [hbatch.weights]) hj,
      List.getD_eq_getElem?_getD (l := (slotsOf rows routing).map _), List.getElem?_map,
      slot_at hbatch.ids ht hj]
    rfl
  · rw [List.getElem?_eq_none (by rw [List.length_take]; omega),
      List.getElem?_eq_none (by rwa [length_tabulate])]

/-- A batch of a rank that finished loading. -/
theorem exl3MoeMm_eq (hK : K.Contract) (h : Ready C moe (decide ("mul1" ∈ C.names)) layer)
    (hact : gatedActivation K activation = .ok act) (hbatch : Batch C rows routing) :
    exl3MoeMm K rows C.hidden routing layer (decide ("mcg" ∈ C.names)) (decide ("mul1" ∈ C.names))
      activation = .ok (tabulate rows.length (rankRow K.toExllamav3 act C moe routing rows)) := by
  rcases Nat.eq_zero_or_pos rows.length with hempty | hpos
  · rw [exl3MoeMm, hempty]
    rfl
  obtain ⟨out, hout, htake⟩ := reduced_eq hK act h hbatch (layer.exl3_num_experts - 1)
  have hgated : List.zipWith (gated act)
      ((slotsOf rows routing).map (slotValue K.toExllamav3 C layer.gate))
      ((slotsOf rows routing).map (slotValue K.toExllamav3 C layer.up)) =
      (slotsOf rows routing).map (slotInterm K act C layer) := by
    rw [List.zipWith_map, List.zipWith_self]
    rfl
  rw [exl3MoeMm, if_neg (by omega)]
  simp only [product_eq hK h hbatch _ h.gate_uniform, product_eq hK h hbatch _ h.up_uniform, hact]
  show (K.exl3_mgemm (List.zipWith (gated act) _ _) _ _ _ _ _ _ _ _ _ _ >>= _) = _
  rw [hgated, hout, ← htake]
  rfl

end Rank

/-! ## All ranks -/

section Ranks

variable [CommRing R] {K : Kernels W R} {C : Checkpoint W R} {act : R → R} {rows : List (List R)}
  {routing : Routing R} {tp_size : Nat}

/-- The configuration of a rank. -/
def rankConfig (tp_size rank : Nat) : FusedMoEConfig := ⟨tp_size, rank, 1⟩

/-- The ranks' results for an expert add up to the expert's. -/
theorem expertForward_eq
    (hranks : ∀ rank < tp_size, ∃ layer : Layer W R,
      Ready C (rankConfig tp_size rank) (decide ("mul1" ∈ C.names)) layer) (htp : 0 < tp_size)
    {row : List R} {e : Nat} (he : e < C.experts.length) (hrow : row.length = C.hidden) :
    expertForward K.toExllamav3 act C.experts row e = .ok (allReduce C.hidden
      ((List.range tp_size).map fun rank =>
        valueOr [] (rankForward K.toExllamav3 act C (rankConfig tp_size rank) (row, e)))) := by
  have hE := List.getElem?_eq_getElem he
  have hmem := List.getElem_mem he
  obtain ⟨hin, hout⟩ := C.hidden_eq _ hmem
  obtain ⟨layer₀, hready₀⟩ := hranks 0 htp
  have hsplit : Splits C.interm tp_size := hready₀.split
  have hparts : (List.range tp_size).mapM (C.experts[e].rankForward K.toExllamav3 act row tp_size) =
      .ok ((List.range tp_size).map fun rank =>
        valueOr [] (rankForward K.toExllamav3 act C (rankConfig tp_size rank) (row, e))) := by
    apply mapM_ok
    intro rank hrank
    obtain ⟨layer, hready⟩ := hranks rank (List.mem_range.mp hrank)
    obtain ⟨-, -, y, -, -, -, -, hy, -⟩ := rankForward_eq K act hready
      (show (row, e).2 < _ from he) hrow
    rw [hy, valueOr_ok]
    rw [rankForward, hE] at hy
    exact hy
  rw [expertForward, hE]
  dsimp only
  have hparallel : C.experts[e].parallel K.toExllamav3 act row tp_size =
      C.experts[e].forward K.toExllamav3 act row :=
    Expert.parallel_eq (by rw [hin, hrow]) (by rwa [C.interm_eq _ hmem])
  rw [← hparallel, Expert.parallel, hparts, hout]
  rfl

/-- A token's output, as the sum over its experts of the sums over the ranks. -/
theorem tokenMixture_eq
    (hranks : ∀ rank < tp_size, ∃ layer : Layer W R,
      Ready C (rankConfig tp_size rank) (decide ("mul1" ∈ C.names)) layer) (htp : 0 < tp_size)
    (hbatch : Batch C rows routing) {t : Nat} (ht : t < rows.length) :
    tokenMixture K.toExllamav3 act C (rows.getD t []) (routing.topk_ids.getD t [])
        (routing.topk_weights.getD t []) =
      .ok (allReduce C.hidden ((List.range tp_size).map fun rank =>
        rankRow K.toExllamav3 act C (rankConfig tp_size rank) routing rows t)) := by
  have hrow : (rows.getD t []).length = C.hidden := by
    rw [List.getD_eq_getElem _ _ ht]
    exact hbatch.width _ (List.getElem_mem ht)
  have hids : routing.topk_ids.getD t [] ∈ routing.topk_ids := by
    rw [List.getD_eq_getElem _ _ (by rwa [hbatch.ids])]
    exact List.getElem_mem _
  have hweights : routing.topk_weights.getD t [] ∈ routing.topk_weights := by
    rw [List.getD_eq_getElem _ _ (by rwa [hbatch.weights])]
    exact List.getElem_mem _
  have hlen := routing.ids_eq _ hids
  have hforward : ∀ e ∈ routing.topk_ids.getD t [], expertForward K.toExllamav3 act C.experts
      (rows.getD t []) e = _ := fun e he =>
    expertForward_eq hranks htp (hbatch.valid _ hids e he) hrow
  rw [tokenMixture, mapM_ok hforward]
  refine congrArg Except.ok (tabulate_congr fun col hcol => ?_)
  rw [zipWith_eq_tabulate 0 [] (routing.weights_eq _ hweights) (by rw [List.length_map, hlen]), tabulate,
    sum_map_range, List.map_map, sum_map_range]
  -- on both sides the sum over `j` and over the ranks of a weight times a rank's value
  have hsum : ∀ j < routing.top_k,
      (((routing.topk_ids.getD t []).map fun e => allReduce C.hidden ((List.range tp_size).map fun rank =>
        valueOr [] (rankForward K.toExllamav3 act C (rankConfig tp_size rank) (rows.getD t [], e)))).getD j
          []).getD col 0 = ∑ rank ∈ Finset.range tp_size, (valueOr [] (rankForward K.toExllamav3 act C
            (rankConfig tp_size rank) (rows.getD t [], (routing.topk_ids.getD t []).getD j 0))).getD col 0 := by
    intro j hj
    rw [List.getD_eq_getElem _ [] (by rwa [List.length_map, hlen]), List.getElem_map, allReduce,
      getD_tabulate hcol, List.map_map, sum_map_range, List.getD_eq_getElem _ 0 (by rwa [hlen])]
    rfl
  simp only [Function.comp_apply, rankRow, getD_tabulate hcol, sum_map_range]
  rw [Finset.sum_comm]
  refine Finset.sum_congr rfl fun j hj => ?_
  rw [hsum j (Finset.mem_range.mp hj), Finset.mul_sum]

/-- A batch's output, token by token. -/
theorem mixture_eq
    (hranks : ∀ rank < tp_size, ∃ layer : Layer W R,
      Ready C (rankConfig tp_size rank) (decide ("mul1" ∈ C.names)) layer) (htp : 0 < tp_size)
    (hbatch : Batch C rows routing) : mixture K.toExllamav3 act C rows routing =
      .ok (tabulate rows.length fun t => allReduce C.hidden ((List.range tp_size).map fun rank =>
        rankRow K.toExllamav3 act C (rankConfig tp_size rank) routing rows t)) := by
  have htokens : rows.zip (routing.topk_ids.zip routing.topk_weights) = tabulate rows.length fun t =>
      (rows.getD t [], routing.topk_ids.getD t [], routing.topk_weights.getD t []) := by
    rw [List.zip, List.zip, zipWith_eq_tabulate [] ([], []) rfl
      (by rw [List.length_zipWith, hbatch.ids, hbatch.weights, Nat.min_self]),
      zipWith_eq_tabulate [] [] hbatch.ids hbatch.weights]
    refine tabulate_congr fun t ht => ?_
    rw [getD_tabulate ht]
  have hcalls : ∀ token ∈ rows.zip (routing.topk_ids.zip routing.topk_weights),
      ∃ y, tokenMixture K.toExllamav3 act C token.1 token.2.1 token.2.2 = .ok y := by
    intro token htoken
    rw [htokens] at htoken
    obtain ⟨t, ht, rfl⟩ := List.mem_map.mp htoken
    exact ⟨_, tokenMixture_eq hranks htp hbatch (List.mem_range.mp ht)⟩
  rw [mixture, mapM_valueOr [] hcalls, htokens, map_tabulate]
  refine congrArg Except.ok (tabulate_congr fun t ht => ?_)
  dsimp only
  rw [tokenMixture_eq hranks htp hbatch ht, valueOr_ok]

end Ranks

/-! ## The layer -/

section Whole

variable [CommRing R] [DecidableEq R]

/-- All ranks of a layer, summed: vLLM's all-reduce of what `apply` returns on each. -/
def parallel (K : Kernels W R) (served : Served) (layers : List (Layer W R)) (mcg mul1 : Bool)
    (x : Ops.Activations R) (routing : Routing R) : Except PyError (List (List R)) := do
  let parts ← layers.mapM fun layer => apply K served layer mcg mul1 x routing
  return tabulate x.rows.length fun t =>
    allReduce x.width (parts.map fun part => part.1.rows.getD t [])

variable {K : Kernels W R} {C : Checkpoint W R} {act : R → R} {routing : Routing R} {tp_size : Nat}
  {moe : FusedMoEConfig} {layer : Layer W R} {served : Served} {x : Ops.Activations R}

/-- `apply` on a rank: the rank's rows, times the divisor, in the shape of `x`. -/
theorem apply_eq (hK : K.Contract) (h : Ready C moe (decide ("mul1" ∈ C.names)) layer)
    (hserved : served.apply_router_weight_on_input = false)
    (hact : gatedActivation K served.activation = .ok act) (hx : x.width = C.hidden)
    (hbatch : Batch C x.rows routing) :
    ∃ part, apply K served layer (decide ("mcg" ∈ C.names)) (decide ("mul1" ∈ C.names)) x routing =
        .ok part ∧
      part.1.rows = (tabulate x.rows.length (rankRow K.toExllamav3 act C moe routing x.rows)).map
        (·.map (· * layer.exl3_interm_div)) := by
  set out := tabulate x.rows.length (rankRow K.toExllamav3 act C moe routing x.rows) with hout
  have hscaled : (if layer.exl3_interm_div ≠ 1 then out.map (·.map (· * layer.exl3_interm_div))
      else out) = out.map (·.map (· * layer.exl3_interm_div)) := by
    split_ifs with hdiv
    · rfl
    · rw [not_not.mp hdiv]
      simp
  have hlen : (out.map (·.map (· * layer.exl3_interm_div))).length = x.lead.prod := by
    rw [List.length_map, hout, length_tabulate, x.rows_eq]
  have hwidth : ∀ row ∈ out.map (·.map (· * layer.exl3_interm_div)), row.length = x.width := by
    intro row hrow
    obtain ⟨row', hrow', rfl⟩ := List.mem_map.mp hrow
    obtain ⟨t, -, rfl⟩ := List.mem_map.mp hrow'
    rw [List.length_map, rankRow, length_tabulate, hx]
  refine ⟨(⟨x.lead, x.width, out.map (·.map (· * layer.exl3_interm_div)), hlen, hwidth⟩,
    served.exl3_route.map fun route => copyRoute route routing.topk_ids x.rows.length), ?_, rfl⟩
  have hmm : exl3MoeMm K x.rows x.width routing layer (decide ("mcg" ∈ C.names))
      (decide ("mul1" ∈ C.names)) served.activation = .ok out := by
    rw [hx]
    exact exl3MoeMm_eq hK h hact hbatch
  have hview : Ops.Activations.view x.lead x.width (if layer.exl3_interm_div ≠ 1 then
        out.map (·.map (· * layer.exl3_interm_div)) else out) =
      .ok ⟨x.lead, x.width, out.map (·.map (· * layer.exl3_interm_div)), hlen, hwidth⟩ := by
    rw [hscaled]
    exact dif_pos ⟨hlen, hwidth⟩
  rw [apply, hserved]
  simp only [Bool.false_eq_true, if_false, hmm]
  exact congrArg (· >>= fun y => Except.ok (y, served.exl3_route.map fun route =>
    copyRoute route routing.topk_ids x.rows.length)) hview

/-- What the ranks' layers return adds up to the experts' mixture times their divisor. -/
theorem parallel_eq (hK : K.Contract) (htp : 0 < tp_size) {d : R} {layers : List (Layer W R)}
    (hlayers : List.Forall₂ (fun rank layer =>
      Ready C (rankConfig tp_size rank) (decide ("mul1" ∈ C.names)) layer ∧ layer.exl3_interm_div = d)
      (List.range tp_size) layers)
    (hserved : served.apply_router_weight_on_input = false)
    (hact : gatedActivation K served.activation = .ok act) (hx : x.width = C.hidden)
    (hbatch : Batch C x.rows routing) :
    ∃ rows, mixture K.toExllamav3 act C x.rows routing = .ok rows ∧
      parallel K served layers (decide ("mcg" ∈ C.names)) (decide ("mul1" ∈ C.names)) x routing =
        .ok (rows.map (·.map (· * d))) := by
  have hranks : ∀ rank < tp_size, ∃ layer : Layer W R,
      Ready C (rankConfig tp_size rank) (decide ("mul1" ∈ C.names)) layer := by
    intro rank hrank
    obtain ⟨hlen, hget⟩ := List.forall₂_iff_get.mp hlayers
    rw [List.length_range] at hlen
    have hready := hget rank (by rwa [List.length_range]) (by rwa [← hlen])
    rw [List.get_eq_getElem, List.getElem_range] at hready
    exact ⟨_, hready.1⟩
  refine ⟨_, mixture_eq hranks htp hbatch, ?_⟩
  obtain ⟨parts, hparts, hrows⟩ := mapM_forall₂ (Q := fun rank part => part.1.rows = (tabulate x.rows.length
      (rankRow K.toExllamav3 act C (rankConfig tp_size rank) routing x.rows)).map (·.map (· * d)))
    (f := fun layer => apply K served layer (decide ("mcg" ∈ C.names)) (decide ("mul1" ∈ C.names)) x routing)
    hlayers fun rank _ layer ⟨hready, hdiv⟩ => by
      obtain ⟨part, hpart, hview⟩ := apply_eq hK hready hserved hact hx hbatch
      rw [hdiv] at hview
      exact ⟨part, hpart, hview⟩
  rw [parallel, hparts]
  refine congrArg Except.ok ?_
  rw [map_tabulate, hx]
  refine tabulate_congr fun t ht => ?_
  have hparts' : parts.map (fun part => part.1.rows.getD t []) = (List.range tp_size).map fun rank =>
      (rankRow K.toExllamav3 act C (rankConfig tp_size rank) routing x.rows t).map (· * d) := by
    apply map_eq_of_forall₂ hrows
    intro rank part hpart
    rw [hpart, map_tabulate, getD_tabulate ht]
  rw [hparts', allReduce, allReduce, map_tabulate]
  refine tabulate_congr fun col hcol => ?_
  rw [List.map_map, List.map_map, ← List.sum_map_mul_right]
  refine congrArg List.sum (List.map_congr_left fun rank _ => ?_)
  rw [Function.comp_apply, Function.comp_apply, rankRow, map_tabulate, getD_tabulate hcol,
    getD_tabulate hcol]

omit [CommRing R] [DecidableEq R] in
/-- Layers that finished loading on all ranks are ready. The scales of `gate` and `up` are whole on every
rank, so every rank measures one divisor. -/
theorem layers_ready (htp : 0 < tp_size)
    {interm_divisor : List (Tensor W R) → List (Tensor W R) → Except PyError R}
    {arrivals : Nat → List (Arrival W R)} (harrivals : ∀ rank < tp_size, Delivers C (arrivals rank))
    {layers : List (Layer W R)}
    (hload : (List.range tp_size).mapM (fun rank => loadLayer interm_divisor C.names C.experts.length
      (rankConfig tp_size rank) (arrivals rank)) = .ok layers) :
    ∃ d, interm_divisor C.gateSuh C.upSuh = .ok d ∧
      List.Forall₂ (fun rank layer =>
        Ready C (rankConfig tp_size rank) (decide ("mul1" ∈ C.names)) layer ∧ layer.exl3_interm_div = d)
        (List.range tp_size) layers := by
  have hspec : ∀ rank ∈ List.range tp_size, ∀ layer, loadLayer interm_divisor C.names C.experts.length
      (rankConfig tp_size rank) (arrivals rank) = .ok layer → _ := fun rank hrank layer hlayer =>
    loadLayer_spec (harrivals rank (List.mem_range.mp hrank)) (List.mem_range.mp hrank) hlayer
  obtain ⟨layer₀, -, hlayer₀⟩ := exists_of_mapM_ok hload (List.mem_range.mpr htp)
  obtain ⟨-, hdiv⟩ := hspec 0 (List.mem_range.mpr htp) layer₀ hlayer₀
  refine ⟨_, hdiv, ?_⟩
  obtain ⟨hlen, hpairs⟩ := List.forall₂_iff_zip.mp (mapM_eq_ok hload)
  refine List.forall₂_iff_zip.mpr ⟨hlen, fun {rank layer} hmem => ?_⟩
  obtain ⟨hready, hldiv⟩ := hspec rank (List.of_mem_zip hmem).1 layer (hpairs hmem)
  exact ⟨hready, Except.ok.inj (hldiv.symm.trans hdiv)⟩

/-- **A layer of routed experts computes its experts' mixture.** For every checkpoint and every number
of ranks: if on every rank the experts' tensors arrive in some order, with any repetition, and loading
finishes, then for every batch of tokens the ranks' outputs add up to the sum of each token's experts,
weighted, times the divisor measured on the checkpoint's scales. -/
theorem moe_layer_exact (K : Kernels W R) (hK : K.Contract) (C : Checkpoint W R)
    (interm_divisor : List (Tensor W R) → List (Tensor W R) → Except PyError R) (tp_size : Nat)
    (htp : 0 < tp_size) (arrivals : Nat → List (Arrival W R))
    (harrivals : ∀ rank < tp_size, Delivers C (arrivals rank)) (layers : List (Layer W R))
    (hload : (List.range tp_size).mapM (fun rank => loadLayer interm_divisor C.names C.experts.length
      (rankConfig tp_size rank) (arrivals rank)) = .ok layers)
    (served : Served) (hserved : served.apply_router_weight_on_input = false) (act : R → R)
    (hact : gatedActivation K served.activation = .ok act) (x : Ops.Activations R)
    (hx : x.width = C.hidden) (routing : Routing R) (hbatch : Batch C x.rows routing) :
    ∃ d rows, interm_divisor C.gateSuh C.upSuh = .ok d ∧
      mixture K.toExllamav3 act C x.rows routing = .ok rows ∧
      parallel K served layers (decide ("mcg" ∈ C.names)) (decide ("mul1" ∈ C.names)) x routing =
        .ok (rows.map (·.map (· * d))) := by
  obtain ⟨d, hdiv, hlayers⟩ := layers_ready htp harrivals hload
  obtain ⟨rows, hrows, hparallel⟩ := parallel_eq hK htp hlayers hserved hact hx hbatch
  exact ⟨d, rows, hdiv, hrows, hparallel⟩

end Whole

/-! ### Two tokens through an expert of 256 channels on two ranks -/

section OneExpert

/-- Each token's slots, weighted and added up. -/
def reduceSlots [CommRing R] (num_tokens top_k n : Nat) (weights : List R) (ys : List (List R)) :
    List (List R) :=
  tabulate num_tokens fun t => tabulate n fun col => ((List.range top_k).map fun j =>
    weights.getD (t * top_k + j) 0 * (ys.getD (t * top_k + j) []).getD col 0).sum

/-- The kernels computed as their contract states them. -/
def Kernels.exact [CommRing R] (ext : Exllamav3 W R) : Kernels W R where
  toExllamav3 := ext
  empty m n := List.replicate m (List.replicate n 0)
  exl3_mgemm a table c indices weights _ mcg mul1 _ _ num_tokens := do
    let ys ← (a.zip indices).mapM (slotForward ext table mcg mul1)
    match weights with
    | none => return ys
    | some weights =>
      return reduceSlots num_tokens (a.length / num_tokens) (c.headD []).length weights ys ++
        ys.drop num_tokens
  silu := id
  gelu := id
  gelu_tanh := id

theorem Kernels.exact_contract [CommRing R] (ext : Exllamav3 W R) : (Kernels.exact ext).Contract where
  empty_rows m n := ⟨List.length_replicate, fun row hrow => by
    rw [List.eq_of_mem_replicate hrow, List.length_replicate]⟩
  slots a table c indices _ mcg mul1 _ _ _ _ _ _ _ _ _ _ _ _ _ := by
    simp only [Kernels.exact]
    cases (a.zip indices).mapM (slotForward ext table mcg mul1) <;> rfl
  reduced a table c indices weights bits mcg mul1 experts k n hi num_tokens top_k ys _ _ _ hindices hc _
      hcols _ _ htokens htop hys := by
    have hyslen : ys.length = a.length := by
      rw [← (mapM_eq_ok hys).length_eq, List.length_zip, ← hindices, Nat.min_self]
    have hle : num_tokens ≤ a.length := by
      rw [← htokens]
      exact Nat.le_mul_of_pos_right _ htop
    have hout : (Kernels.exact ext).exl3_mgemm a table c indices (some weights) bits mcg mul1 (-1) hi
        num_tokens = .ok (reduceSlots num_tokens (a.length / num_tokens) (c.headD []).length weights ys ++
          ys.drop num_tokens) := by
      change ((a.zip indices).mapM (slotForward ext table mcg mul1) >>= _) = _
      change (a.zip indices).mapM (slotForward ext table mcg mul1) = _ at hys
      rw [hys]
      rfl
    refine ⟨_, hout, ?_, fun t ht => ?_⟩
    · rw [List.length_append, reduceSlots, length_tabulate, List.length_drop, hyslen]
      omega
    · have hn : (c.headD []).length = n := by
        cases c with
        | nil => rw [List.length_nil] at hc; omega
        | cons row rest => exact hcols row List.mem_cons_self
      have hdiv : a.length / num_tokens = top_k := by
        rw [← htokens]
        exact Nat.mul_div_cancel_left _ (by omega)
      have hlt : t < (reduceSlots num_tokens top_k n weights ys).length := by
        rwa [reduceSlots, length_tabulate]
      rw [hn, hdiv, List.getElem?_append_left hlt, List.getElem?_eq_getElem hlt]
      exact congrArg some (getElem_tabulate hlt)

/-- Two tokens of ones. -/
def twoTokens : Ops.Activations Rat where
  lead := [2]
  width := 128
  rows := [List.replicate 128 1, List.replicate 128 1]
  rows_eq := rfl
  width_eq := by
    intro row hrow
    rcases List.mem_pair.mp hrow with rfl | rfl <;> exact List.length_replicate

/-- Both routed to the one expert. -/
def twoRoutes : Routing Rat where
  top_k := 1
  topk_ids := [[0], [0]]
  topk_weights := [[1], [1]]
  ids_eq := by decide
  weights_eq := by
    intro row hrow
    rcases List.mem_pair.mp hrow with rfl | rfl <;> rfl

theorem twoTokens_batch : Batch oneExpert twoTokens.rows twoRoutes where
  width := twoTokens.width_eq
  ids := rfl
  weights := rfl
  top_k := by decide
  valid := by decide

theorem oneExpert_exact :
    ∃ layers rows, mixture zeroStateExt id oneExpert twoTokens.rows twoRoutes = .ok rows ∧
      parallel (Kernels.exact zeroStateExt) ⟨false, "silu", none⟩ layers false false twoTokens twoRoutes =
        .ok (rows.map (·.map (· * 1))) := by
  have hloads : ∀ rank ∈ List.range 2, ∃ layer, loadLayer (fun _ _ => .ok 1) oneExpert.names
      oneExpert.experts.length (rankConfig 2 rank) oneExpert.arrivals = .ok layer := fun rank hrank =>
    loadLayer_ok (delivers_arrivals oneExpert) (List.mem_range.mp hrank) (lt_irrefl 1) oneExpert_servable
  obtain ⟨layers, hload⟩ := exists_mapM_ok hloads
  obtain ⟨d, rows, hd, hrows, hserved⟩ := moe_layer_exact (Kernels.exact zeroStateExt)
    (Kernels.exact_contract zeroStateExt) oneExpert (fun _ _ => .ok 1) 2 (by decide)
    (fun _ => oneExpert.arrivals) (fun _ _ => delivers_arrivals oneExpert) layers hload ⟨false, "silu", none⟩ rfl
    id rfl twoTokens rfl twoRoutes twoTokens_batch
  obtain rfl := Except.ok.inj hd
  exact ⟨layers, rows, hrows, hserved⟩

end OneExpert

end VllmExl3.FusedMoe
