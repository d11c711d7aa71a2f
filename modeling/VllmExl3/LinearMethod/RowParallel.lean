/-
# VllmExl3.LinearMethod.RowParallel — a linear layer whose input is split

A row-parallel layer's ranks each hold some tile rows of the stored matrix and see the columns of the input
that meet them. A cut of whole Hadamard blocks makes their products the parts of one sum, so the all-reduce of
the ranks is the product with the whole matrix, and the bias is added once.
-/
import VllmExl3.LinearMethod.Exact

namespace VllmExl3.LinearMethod

open Format (TILE HAD_BLOCK PAD_TO padDim padDim_spec)
open TensorParallel
open Ops (Activations Kernels servedRow)
open LMHead (Method Stored biasAt)

variable {W R : Type}

/-! ## All ranks -/

section RowParallel

variable [CommRing R] {K : Kernels W R} {m : Method} {L : Linear W R}

/-- `x[..., first:last]` -/
def columnsOf (x : Activations R) (first last : Nat) : Activations R where
  lead := x.lead
  width := min last x.width - first
  rows := x.rows.map (slice first last)
  rows_eq := by rw [List.length_map, x.rows_eq]
  width_eq := by
    intro row hrow
    obtain ⟨row', hrow', rfl⟩ := List.mem_map.mp hrow
    rw [length_slice, x.width_eq row' hrow']

/-- A row-parallel layer of a rank. -/
def rowLayer (name : String) (tp_size rank : Nat) : LinearBase := ⟨name, rank, tp_size, true⟩

/-- The checkpoint of a row-parallel layer: one matrix, delivered whole. -/
def rowPlan (L : Linear W R) : Plan W R where
  names := L.subTensors.map Prod.fst
  pieces := [⟨L, .row⟩]
  stores := by
    intro p hp
    rw [List.mem_singleton.mp hp]

/-- A row-parallel layer over its ranks: each on its columns of the input, the bias added on the first, and
their outputs summed. -/
def rowParallel (K : Kernels W R) (m : Method) (reconstruct_threshold reconstruct_tile_mb : Int)
    (served : Nat → Served W R) (tp_size input_size out_size : Nat) (x : Activations R)
    (bias : Option (List R)) : Except PyError (List (List R)) := do
  let parts ← (List.range tp_size).mapM fun rank =>
    apply K m reconstruct_threshold reconstruct_tile_mb (served rank)
      (columnsOf x (rank * input_size) (rank * input_size + input_size)) (if rank = 0 then bias else none)
  return tabulate x.rows.length fun i => allReduce out_size (parts.map fun y => y.rows.getD i [])

/-- The cut a rank makes of the stored matrix. -/
def rowCut (tp_size input_size rank : Nat) : Cutting :=
  if tp_size = 1 then .whole else .rows (rank * input_size) (rank * input_size + input_size)

omit [CommRing R] in
theorem rowPlan_fits (name : String) (tp_size rank input_size out_size : Nat) :
    (rowPlan L).Fits (rowLayer name tp_size rank) input_size [out_size] where
  proper := by
    intro p hp
    rw [List.mem_singleton.mp hp]
    rfl
  once := by
    intro p hp p' hp' index cut cut' hpart hpart'
    rw [List.mem_singleton.mp hp] at hpart ⊢
    rw [List.mem_singleton.mp hp'] at hpart' ⊢
    simp only [Call.parts, List.mem_singleton, Prod.mk.injEq] at hpart hpart'
    exact ⟨rfl, hpart.2.trans hpart'.2.symm⟩

/-- The pieces of a row split sum to the whole product. -/
theorem sum_servedRow (K : Kernels W R) {tp_size q : Nat} (hpos : 0 < tp_size)
    (hrows : L.trellis.rows = tp_size * q)
    (hq : HAD_BLOCK ∣ TILE * q) (hn : HAD_BLOCK ∣ TILE * L.trellis.cols) {row : List R}
    (hrow : row.length = TILE * L.trellis.rows) {j : Nat} (hj : j < TILE * L.trellis.cols) :
    ((List.range tp_size).map fun rank => (servedRow K.toExllamav3
        (Linear.sliceRows L (rank * q) ((rank + 1) * q))
        (slice (TILE * (rank * q)) (TILE * ((rank + 1) * q)) row)).getD j 0).sum =
      (servedRow K.toExllamav3 L row).getD j 0 := by
  have hk : HAD_BLOCK ∣ TILE * L.trellis.rows := by
    rw [hrows, Nat.mul_left_comm]
    exact hq.mul_left _
  have hsum : _ = layer K.toExllamav3 row L.trellis L.suh L.svh L.mcg.isSome L.mul1.isSome :=
    sum_layer_sliceRows hpos hrow L.suh_eq L.svh_eq hrows hq
  have hpiece : ∀ rank ∈ List.range tp_size,
      layer K.toExllamav3 (slice (TILE * (rank * q)) (TILE * ((rank + 1) * q)) row)
        (L.trellis.sliceRows (rank * q) ((rank + 1) * q))
        (slice (TILE * (rank * q)) (TILE * ((rank + 1) * q)) L.suh) L.svh L.mcg.isSome L.mul1.isSome =
      .ok (servedRow K.toExllamav3 (Linear.sliceRows L (rank * q) ((rank + 1) * q))
        (slice (TILE * (rank * q)) (TILE * ((rank + 1) * q)) row)) := by
    intro rank hrank
    have hlast : (rank + 1) * q ≤ L.trellis.rows := by
      rw [hrows]
      exact Nat.mul_le_mul_right q (List.mem_range.mp hrank)
    have hheight : (Linear.sliceRows L (rank * q) ((rank + 1) * q)).trellis.rows = q := by
      show min ((rank + 1) * q) L.trellis.rows - rank * q = q
      rw [Nat.min_eq_left hlast, Nat.succ_mul, Nat.add_sub_cancel_left]
    refine Ops.layer_servedRow (L := Linear.sliceRows L (rank * q) ((rank + 1) * q)) ?_ hn ?_
    · rwa [hheight]
    · rw [hheight, length_slice, hrow, Nat.min_eq_left (Nat.mul_le_mul_left _ hlast), ← Nat.mul_sub,
        Nat.succ_mul, Nat.add_sub_cancel_left]
  rw [mapM_ok hpiece, Ops.layer_servedRow hk hn hrow] at hsum
  rw [← Except.ok.inj hsum, allReduce, getD_tabulate hj, List.map_map]
  rfl

/-- A rank of a row-parallel layer serves its tile rows of the stored matrix. -/
theorem rank_apply (hK : K.Contract) (hm : m.Names L) {name : String} {tp_size rank input_size out_size : Nat}
    (htp : 0 < tp_size) (hpos : 0 < input_size) {arrivals : List (Arrival W R)}
    (hgenuine : Genuine (rowPlan L) arrivals) {served : Served W R}
    (hload : loadLayer K m (rowLayer name tp_size rank) input_size [out_size] arrivals = .ok served)
    {x : Activations R} (hx : x.width = input_size) (reconstruct_threshold reconstruct_tile_mb : Int)
    {bias : Option (List R)} (hbias : ∀ b ∈ bias, b.length = out_size) :
    (tp_size ≠ 1 → HAD_BLOCK ∣ input_size) ∧
      Stored ((rowCut tp_size input_size rank).linear L) out_size input_size ∧
      ∃ y, apply K m reconstruct_threshold reconstruct_tile_mb served x bias = .ok y ∧
        RowsOf x out_size (fun row => tabulate out_size fun j => (servedRow K.toExllamav3
          ((rowCut tp_size input_size rank).linear L) row).getD j 0 + biasAt bias j) y := by
  have hfits := rowPlan_fits (L := L) name tp_size rank input_size out_size
  have hnames : m.names = (rowPlan L).names := hm
  obtain ⟨layer, rfl, hsizes, hne, hprocessed, hshards⟩ := loadLayer_ok hnames htp hfits hgenuine hload
  -- the one piece there is, with the one cut there is
  have hcut : ∀ {s : ShardTensors W R}, layer.processShard m out_size 0 = .ok s →
      Processed (rowPlan L) (rowLayer name tp_size rank) layer.exl3_input_size [out_size] 0 out_size
        ⟨L, .row⟩ (rowCut tp_size layer.exl3_input_size rank) s := by
    intro s hs
    obtain ⟨p, cut, hp⟩ := hshards 0 out_size s hs
    obtain rfl := List.mem_singleton.mp hp.covers.mem
    obtain ⟨-, rfl⟩ := Prod.mk.inj (List.mem_singleton.mp hp.covers.part)
    exact hp
  obtain ⟨tensors, htensors, -⟩ := bind_eq_ok hprocessed
  rw [hsizes] at htensors
  obtain ⟨s, -, hs⟩ := exists_of_mapM_ok htensors (x := (out_size, 0)) (by simp)
  have hp := hcut hs
  refine ⟨fun hone => ?_, hp.stored, ?_⟩
  · have haligned := hp.covers.aligned
    rw [rowCut, if_neg hone] at haligned
    exact haligned.2.2.1
  · have hgives : ∀ shard ∈ layer.exl3_output_sizes.zipIdx, ∀ s, layer.processShard m shard.1 shard.2 = .ok s →
        Gives K.toExllamav3 m layer.exl3_input_size shard.1
          (fun row => slice 0 out_size (servedRow K.toExllamav3
          ((rowCut tp_size layer.exl3_input_size rank).linear L) row)) s := by
      rw [hsizes]
      intro shard hshard s hs
      obtain rfl : shard = (out_size, 0) := by simpa using hshard
      exact (hcut hs).gives hnames fun _ => rfl
    obtain ⟨y, hy, hrows⟩ := apply_ok hK hgives (hsizes ▸ hne) hprocessed hx hpos reconstruct_threshold
      reconstruct_tile_mb (by simpa [hsizes] using hbias)
    refine ⟨y, hy, hrows.lead_eq, ?_, ?_⟩
    · rw [hrows.width_eq, hsizes, List.sum_singleton]
    · rw [hrows.rows_eq]
      refine List.map_congr_left fun row _ => ?_
      simp only [hsizes, List.sum_singleton, List.zipIdx_singleton, List.map_cons, List.map_nil,
        List.flatten_singleton]
      refine tabulate_congr fun j hj => ?_
      rw [getD_slice (by omega), Nat.zero_add]

/-- What the ranks' cuts serve of their columns of a row sums to the whole product. -/
theorem sum_rowCut (K : Kernels W R) {tp_size input_size out_size : Nat} (htp : 0 < tp_size)
    (hblock : tp_size ≠ 1 → HAD_BLOCK ∣ input_size)
    (hstored : ∀ rank < tp_size, Stored ((rowCut tp_size input_size rank).linear L) out_size input_size)
    (hwidth : TILE * L.trellis.rows = padDim (tp_size * input_size) PAD_TO) {row : List R}
    (hrow : row.length = tp_size * input_size) {j : Nat} (hj : j < out_size) :
    ((List.range tp_size).map fun rank => (servedRow K.toExllamav3 ((rowCut tp_size input_size rank).linear L)
        (slice (rank * input_size) (rank * input_size + input_size) row)).getD j 0).sum =
      (servedRow K.toExllamav3 L row).getD j 0 := by
  by_cases hone : tp_size = 1
  · subst hone
    rw [List.range_one, List.map_singleton, List.sum_singleton, Nat.zero_mul, Nat.zero_add,
      slice_zero_length (by omega)]
    rfl
  · obtain ⟨n, hn⟩ := hblock hone
    have hq : input_size = TILE * (8 * n) := by
      rw [hn]
      show 128 * n = 16 * (8 * n)
      omega
    have hfirst : ∀ rank, rank * input_size = TILE * (rank * (8 * n)) := by
      intro rank
      rw [hq, Nat.mul_left_comm]
    have hlast : ∀ rank, rank * input_size + input_size = TILE * ((rank + 1) * (8 * n)) := by
      intro rank
      rw [← Nat.succ_mul, hfirst]
    have hrows : TILE * L.trellis.rows = tp_size * input_size := by
      rw [hwidth, padDim_of_block (Dvd.dvd.mul_left (hblock hone) tp_size)]
    have hcut : ∀ rank, (rowCut tp_size input_size rank).linear L =
        Linear.sliceRows L (rank * (8 * n)) ((rank + 1) * (8 * n)) := by
      intro rank
      rw [rowCut, if_neg hone, Cutting.linear, hlast, hfirst, Nat.mul_div_cancel_left _ (by decide),
        Nat.mul_div_cancel_left _ (by decide)]
    have hout := (hstored 0 htp).out_eq
    rw [hcut] at hout
    rw [← sum_servedRow K htp (q := 8 * n) ?_ ?_ ?_ ?_ ?_]
    · refine congrArg List.sum (List.map_congr_left fun rank _ => ?_)
      rw [hcut, hfirst, ← hlast, ← hfirst]
    · refine Nat.eq_of_mul_eq_mul_left (show 0 < TILE by decide) ?_
      rw [hrows, hfirst]
    · rw [← hq]
      exact hblock hone
    · exact hout ▸ (padDim_spec (by decide)).1
    · rw [hrow, hrows]
    · exact hout ▸ Nat.lt_of_lt_of_le hj (padDim_spec (by decide)).2.1

/-- A row-parallel layer is exact: for every stored matrix of the layer's padded width, every number of ranks,
and every order and repetition of each rank's arrivals, where all ranks finished loading, the sum of what they
give of their columns of the input, with the bias added on the first, is the stored matrix's product with the
whole input plus the bias. Both serving paths give it, at every threshold and tile budget. -/
theorem row_parallel_layer_exact (K : Kernels W R) (hK : K.Contract) (m : Method) (L : Linear W R)
    (hm : m.Names L) (name : String) (tp_size : Nat) (htp : 0 < tp_size) (input_size : Nat)
    (hpos : 0 < input_size) (out_size : Nat)
    (hwidth : TILE * L.trellis.rows = padDim (tp_size * input_size) PAD_TO)
    (arrivals : Nat → List (Arrival W R)) (hgenuine : ∀ rank < tp_size, Genuine (rowPlan L) (arrivals rank))
    (served : Nat → Served W R)
    (hload : ∀ rank < tp_size, loadLayer K m (rowLayer name tp_size rank) input_size [out_size]
      (arrivals rank) = .ok (served rank))
    (reconstruct_threshold reconstruct_tile_mb : Int) (x : Activations R) (hx : x.width = tp_size * input_size)
    (bias : Option (List R)) (hbias : ∀ b ∈ bias, b.length = out_size) :
    rowParallel K m reconstruct_threshold reconstruct_tile_mb served tp_size input_size out_size x bias =
      .ok (x.rows.map fun row => tabulate out_size fun j =>
        (servedRow K.toExllamav3 L row).getD j 0 + biasAt bias j) := by
  have hcolumns : ∀ rank < tp_size,
      (columnsOf x (rank * input_size) (rank * input_size + input_size)).width = input_size := by
    intro rank hrank
    have hend : (rank + 1) * input_size ≤ tp_size * input_size := Nat.mul_le_mul_right _ hrank
    rw [Nat.succ_mul] at hend
    show min (rank * input_size + input_size) x.width - rank * input_size = input_size
    omega
  have hbiases : ∀ rank, ∀ b ∈ (if rank = 0 then bias else none), b.length = out_size := by
    intro rank b hb
    split_ifs at hb
    · exact hbias b hb
    · cases hb
  have hranks : ∀ rank (hrank : rank < tp_size), _ := fun rank hrank =>
    rank_apply hK hm htp hpos (hgenuine rank hrank) (hload rank hrank) (hcolumns rank hrank)
      reconstruct_threshold reconstruct_tile_mb (hbiases rank)
  obtain ⟨parts, hparts, hrows⟩ := mapM_forall₂ (P := Eq)
    (Q := fun rank y => y.rows = (x.rows.map (slice (rank * input_size) (rank * input_size + input_size))).map
      fun row => tabulate out_size fun j => (servedRow K.toExllamav3
        ((rowCut tp_size input_size rank).linear L) row).getD j 0 + biasAt (if rank = 0 then bias else none) j)
    (f := fun rank => apply K m reconstruct_threshold reconstruct_tile_mb (served rank)
      (columnsOf x (rank * input_size) (rank * input_size + input_size)) (if rank = 0 then bias else none))
    (List.forall₂_same.mpr fun rank _ => rfl) (by
      rintro rank hrank _ rfl
      obtain ⟨-, -, y, hy, hrow⟩ := hranks rank (List.mem_range.mp hrank)
      exact ⟨y, hy, hrow.rows_eq⟩)
  rw [rowParallel, hparts]
  refine congrArg Except.ok (List.ext_getElem (by simp) fun i hi hi' => ?_)
  rw [length_tabulate] at hi
  have hparts' : parts.map (fun y => y.rows.getD i []) = (List.range tp_size).map fun rank =>
      tabulate out_size fun j => (servedRow K.toExllamav3 ((rowCut tp_size input_size rank).linear L)
        (slice (rank * input_size) (rank * input_size + input_size) x.rows[i])).getD j 0 +
          biasAt (if rank = 0 then bias else none) j := by
    refine map_eq_of_forall₂ hrows fun rank y hy => ?_
    rw [hy, List.getD_eq_getElem _ _ (by simpa using hi), List.getElem_map, List.getElem_map]
  rw [getElem_tabulate, List.getElem_map, hparts', allReduce]
  refine tabulate_congr fun j hj => ?_
  have hbias_sum : ((List.range tp_size).map fun rank => biasAt (if rank = 0 then bias else none) j).sum =
      biasAt bias j := by
    rw [sum_map_range, Finset.sum_eq_single_of_mem 0 (Finset.mem_range.mpr htp), if_pos rfl]
    intro rank _ hrank
    rw [if_neg hrank]
    rfl
  rw [List.map_map, ← hbias_sum, ← sum_rowCut K htp (hranks 0 htp).1 (fun rank hrank => (hranks rank hrank).2.1)
    hwidth ((x.width_eq _ (List.getElem_mem hi)).trans hx) hj, ← List.sum_map_add]
  refine congrArg List.sum (List.map_congr_left fun rank _ => ?_)
  rw [Function.comp_apply, getD_tabulate hj]

end RowParallel

/-! ### Two ranks of 128 channels of a 256 × 256 matrix -/

set_option maxRecDepth 20000 in
theorem zeroLinear_rank_loads (rank : Nat) : ∃ served, rank < 2 → loadLayer (Kernels.exact zeroStateExt)
    LMHead.headMethod (rowLayer "mlp.down_proj" 2 rank) 128 [256] (rowPlan zeroLinear).arrivals = .ok served := by
  match rank with
  | 0 => exact ⟨_, fun _ => rfl⟩
  | 1 => exact ⟨_, fun _ => rfl⟩
  | n + 2 => exact ⟨⟨[], .quantized []⟩, fun h => by omega⟩

theorem zeroLinear_two_ranks :
    ∃ served : Nat → Served Nat Rat, rowParallel (Kernels.exact zeroStateExt) LMHead.headMethod 144 32
      served 2 128
      256 (Ops.oneToken 256) none = .ok ((Ops.oneToken 256).rows.map fun row => tabulate 256 fun j =>
        (servedRow zeroStateExt zeroLinear row).getD j 0 + biasAt none j) := by
  choose served hserved using zeroLinear_rank_loads
  exact ⟨served, row_parallel_layer_exact (Kernels.exact zeroStateExt) (Kernels.exact_contract zeroStateExt)
    LMHead.headMethod zeroLinear rfl "mlp.down_proj" 2 (by decide) 128 (by decide) 256 (by decide)
    (fun _ => (rowPlan zeroLinear).arrivals) (fun _ _ => genuine_arrivals _) served hserved 144 32
    (Ops.oneToken 256) rfl none nofun⟩

end VllmExl3.LinearMethod
