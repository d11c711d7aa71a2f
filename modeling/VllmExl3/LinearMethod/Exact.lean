/-
# VllmExl3.LinearMethod.Exact — a loaded linear layer computes what the checkpoint stores

A layer that finished loading holds, for each of its output shards, one cut of one stored matrix, with the
trellis and both scales cut alike (`processShard_ok`). Serving a cut of whole Hadamard blocks is cutting what
the whole matrix would serve, so each output shard is the rank's columns of the stored matrix's product
(`linear_layer_exact`). Both serving paths, and every threshold and tile budget, give the same.
-/
import VllmExl3.LinearMethod.Loading

namespace VllmExl3.LinearMethod

open Format (TILE HAD_BLOCK PAD_TO padDim padDim_spec bitsFromTrellisShape)
open TensorParallel
open Ops (Activations Kernels Loaded served servedRow)
open LMHead (Method Stored checkShapes linear addBias catLast biased biasAt)

variable {W R : Type}

/-! ## The matrix of a cut -/

/-- Tile rows `[a, b)` of a stored matrix. -/
def Linear.sliceRows (L : Linear W R) (a b : Nat) : Linear W R where
  trellis := L.trellis.sliceRows a b
  suh := slice (TILE * a) (TILE * b) L.suh
  svh := L.svh
  mcg := L.mcg
  mul1 := L.mul1
  suh_eq := by
    rw [length_slice, L.suh_eq]
    show min (TILE * b) (TILE * L.trellis.rows) - TILE * a = TILE * (min b L.trellis.rows - a)
    unfold TILE
    omega
  svh_eq := L.svh_eq

/-- The part of a stored matrix that a cut takes. -/
def Cutting.linear (cut : Cutting) (L : Linear W R) : Linear W R :=
  match cut with
  | .whole => L
  | .columns first last => LMHead.Linear.sliceCols L (first / TILE) (last / TILE)
  | .rows first last => Linear.sliceRows L (first / TILE) (last / TILE)

theorem Cutting.linear_selectors (cut : Cutting) (L : Linear W R) :
    (cut.linear L).mcg = L.mcg ∧ (cut.linear L).mul1 = L.mul1 := by
  cases cut <;> exact ⟨rfl, rfl⟩

theorem tile_mul_div_of_block {n : Nat} (h : HAD_BLOCK ∣ n) : TILE * (n / TILE) = n :=
  Nat.mul_div_cancel' (Dvd.dvd.trans ⟨8, rfl⟩ h)

section Cut

variable {layer : LinearBase} {input_size index : Nat} {sizes : List Nat} {cut : Cutting} {L : Linear W R}

/-- The cuts of a matrix's tensors are the tensors of its cut. -/
theorem Aligned.tensors (h : Aligned layer input_size sizes index cut) (L : Linear W R) :
    cut.tensor (roleOf "trellis") (.trellis L.trellis) = (.trellis (cut.linear L).trellis : Tensor W R) ∧
    cut.tensor (roleOf "suh") (.scale L.suh) = (.scale (cut.linear L).suh : Tensor W R) ∧
    cut.tensor (roleOf "svh") (.scale L.svh) = (.scale (cut.linear L).svh : Tensor W R) := by
  cases cut with
  | whole => exact ⟨rfl, rfl, rfl⟩
  | columns first last =>
    obtain ⟨_, hfirst, hsize, rfl⟩ := h
    refine ⟨rfl, rfl, ?_⟩
    show Tensor.scale (slice _ _ L.svh) = Tensor.scale (slice (TILE * (first / TILE)) (TILE * (_ / TILE)) L.svh)
    rw [tile_mul_div_of_block hfirst, tile_mul_div_of_block (Nat.dvd_add hfirst hsize)]
  | rows first last =>
    obtain ⟨_, _, hinput, rfl, rfl⟩ := h
    have hfirst : HAD_BLOCK ∣ layer.tp_rank * input_size := hinput.mul_left _
    refine ⟨rfl, ?_, rfl⟩
    show Tensor.scale (slice _ _ L.suh) = Tensor.scale (slice (TILE * (_ / TILE)) (TILE * (_ / TILE)) L.suh)
    rw [tile_mul_div_of_block hfirst, tile_mul_div_of_block (Nat.dvd_add hfirst hinput)]

/-- A width of whole blocks is its own padding. -/
theorem padDim_of_block {n : Nat} (h : HAD_BLOCK ∣ n) : padDim n PAD_TO = n := by
  obtain ⟨⟨c, hc⟩, hle, hlt⟩ := padDim_spec (n := n) (show 0 < PAD_TO by decide)
  obtain ⟨m, hm⟩ := h
  simp only [HAD_BLOCK, PAD_TO] at hm hc hle hlt ⊢
  omega

end Cut

/-! ## After loading -/

section Process

variable {plan : Plan W R} {layer : LinearBase} {input_size index out_size : Nat} {sizes : List Nat}
  {L : Layer W R} {m : Method}

/-- An output shard that passed the checks: one cut of one piece, of the padded widths. -/
structure Processed (plan : Plan W R) (layer : LinearBase) (input_size : Nat) (sizes : List Nat)
    (index out_size : Nat) (p : Piece W R) (cut : Cutting) (s : ShardTensors W R) : Prop where
  covers : Covers plan layer input_size sizes index p cut
  tensors : s = ⟨.trellis (cut.linear p.linear).trellis, .scale (cut.linear p.linear).suh,
    .scale (cut.linear p.linear).svh⟩
  stored : Stored (cut.linear p.linear) out_size input_size

/-- A tensor that is found is a cut of a piece's tensor of the name. -/
theorem Loading.shard_ok (hloading : Loading plan layer input_size sizes L) {name : String} {t : Tensor W R}
    (h : L.shard name index = .ok t) : ∃ p cut u, Covers plan layer input_size sizes index p cut ∧
      (name, u) ∈ p.linear.subTensors ∧ t = cut.tensor (roleOf name) u := by
  unfold Layer.shard at h
  cases hparam : L.params.get? name with
  | none =>
    rw [hparam] at h
    cases h
  | some param =>
    obtain ⟨shards, rfl, hholds⟩ := hloading.params name param hparam
    rw [hparam] at h
    cases hget : shards.get? index with
    | none =>
      simp only [filled, hget] at h
      cases h
    | some u =>
      simp only [filled, hget] at h
      obtain rfl := Except.ok.inj h
      exact hholds index u hget

/-- A shape check that passed. -/
theorem widths_of_checkShapes {stored_in stored_out : Nat} {suh svh : Tensor W R} {u : Unit}
    (h : checkShapes input_size index stored_in stored_out out_size suh svh = .ok u) :
    stored_in = padDim input_size PAD_TO ∧ stored_out = padDim out_size PAD_TO := by
  unfold checkShapes at h
  dsimp only at h
  split_ifs at h with hwidths
  rw [not_or, not_not, not_not] at hwidths
  exact hwidths

/-- A round of the loop over the output shards that passes found one cut of one piece. -/
theorem processShard_ok (hm : m.names = plan.names) (hloading : Loading plan layer input_size sizes L)
    (hfits : plan.Fits layer input_size sizes) {s : ShardTensors W R}
    (h : L.processShard m out_size index = .ok s) :
    ∃ p cut, Processed plan layer input_size sizes index out_size p cut s := by
  obtain ⟨trellis, htrellis, h⟩ := bind_eq_ok h
  obtain ⟨suh, hsuh, h⟩ := bind_eq_ok h
  obtain ⟨svh, hsvh, h⟩ := bind_eq_ok h
  obtain ⟨bits, hbits, h⟩ := bind_eq_ok h
  obtain ⟨⟨stored_in, stored_out⟩, hdims, h⟩ := bind_eq_ok h
  obtain ⟨_, hshapes, h⟩ := bind_eq_ok h
  obtain rfl := Except.ok.inj h
  obtain ⟨p, cut, _, hcovers, hmem, rfl⟩ := hloading.shard_ok htrellis
  obtain ⟨p₁, cut₁, _, hcovers₁, hmem₁, rfl⟩ := hloading.shard_ok hsuh
  obtain ⟨p₂, cut₂, _, hcovers₂, hmem₂, rfl⟩ := hloading.shard_ok hsvh
  -- the three tensors are of the one piece that covers the shard
  obtain ⟨rfl, rfl⟩ := hfits.once p hcovers.mem p₁ hcovers₁.mem index cut cut₁ hcovers.part hcovers₁.part
  obtain ⟨rfl, rfl⟩ := hfits.once p hcovers.mem p₂ hcovers₂.mem index cut cut₂ hcovers.part hcovers₂.part
  obtain rfl := subTensors_unique hmem (mem_subTensors_trellis _)
  obtain rfl := subTensors_unique hmem₁ (mem_subTensors_suh _)
  obtain rfl := subTensors_unique hmem₂ (mem_subTensors_svh _)
  obtain ⟨htrellis', hsuh', hsvh'⟩ := hcovers.aligned.tensors p.linear
  rw [htrellis'] at hbits hdims ⊢
  rw [hsuh', hsvh'] at hshapes ⊢
  have hnames : m.Names p.linear := hm.trans (plan.stores p hcovers.mem).symm
  have hflag : m.mul1 = (cut.linear p.linear).mul1.isSome := by
    rw [hnames.mul1_eq, (cut.linear_selectors _).2]
  obtain ⟨hin, hout⟩ := widths_of_checkShapes hshapes
  rw [hloading.input_eq] at hin
  obtain ⟨rfl, rfl⟩ := Prod.mk.inj (Except.ok.inj hdims)
  refine ⟨p, cut, hcovers, rfl, ?_, ?_, bits, ?_⟩
  · rw [Nat.mul_comm]
    exact hin
  · rw [Nat.mul_comm]
    exact hout
  · rwa [← hflag]

end Process

/-! ## Serving -/

section Serve

variable [CommRing R] {K : Kernels W R} {m : Method} {plan : Plan W R} {layer : LinearBase}
  {input_size : Nat} {sizes : List Nat} {x : Activations R}

/-- The piece that covers an output shard, and what is taken of it. -/
def Plan.home (plan : Plan W R) (layer : LinearBase) (input_size : Nat) (sizes : List Nat) (index : Nat) :
    Option (Linear W R × Cutting) :=
  (plan.pieces.flatMap fun p => (p.call.parts layer input_size sizes).map fun part =>
    (part.1, p.linear, part.2)).lookup index

/-- A rank's output shard of one row of the input: the columns its cut keeps, of the product with the whole
stored matrix. -/
def Plan.shardRow (plan : Plan W R) (ext : Exllamav3 W R) (layer : LinearBase) (input_size : Nat)
    (sizes : List Nat) (row : List R) (shard : Nat × Nat) : List R :=
  match plan.home layer input_size sizes shard.2 with
  | none => []
  | some (L, cut) => slice cut.first (cut.first + shard.1) (servedRow ext L row)

/-- A rank's output of one row: the columns of every output shard, side by side. -/
def Plan.row (plan : Plan W R) (ext : Exllamav3 W R) (layer : LinearBase) (input_size : Nat)
    (sizes : List Nat) (row : List R) : List R :=
  (sizes.zipIdx.map (plan.shardRow ext layer input_size sizes row)).flatten

omit [CommRing R] in
theorem Covers.home (hfits : plan.Fits layer input_size sizes) {index : Nat} {p : Piece W R} {cut : Cutting}
    (h : Covers plan layer input_size sizes index p cut) :
    plan.home layer input_size sizes index = some (p.linear, cut) := by
  unfold Plan.home
  have hsome : ((plan.pieces.flatMap fun p => (p.call.parts layer input_size sizes).map fun part =>
      (part.1, p.linear, part.2)).lookup index).isSome := by
    rw [List.lookup_isSome_iff]
    exact ⟨(index, p.linear, cut), List.mem_flatMap.mpr ⟨p, h.mem, List.mem_map.mpr ⟨_, h.part, rfl⟩⟩,
      beq_self_eq_true index⟩
  obtain ⟨⟨L, cut'⟩, hlookup⟩ := Option.isSome_iff_exists.mp hsome
  obtain ⟨l₁, l₂, hsplit, -⟩ := List.lookup_eq_some_iff.mp hlookup
  have hmem : (index, L, cut') ∈ plan.pieces.flatMap fun p =>
      (p.call.parts layer input_size sizes).map fun part => (part.1, p.linear, part.2) := by
    rw [hsplit]
    exact List.mem_append_right _ List.mem_cons_self
  obtain ⟨p', hp', hmap⟩ := List.mem_flatMap.mp hmem
  obtain ⟨part, hpart, heq⟩ := List.mem_map.mp hmap
  obtain ⟨rfl, rfl, rfl⟩ := heq
  obtain ⟨rfl, rfl⟩ := hfits.once p h.mem p' hp' part.1 cut part.2 h.part hpart
  exact hlookup

/-- Serving a rank's columns is taking its columns of what the whole matrix serves. -/
theorem servedRow_linear (ext : Exllamav3 W R) {L : Linear W R} {cut : Cutting} {index : Nat}
    (haligned : Aligned layer input_size sizes index cut)
    (hcolumn : layer.row_parallel = true → layer.tp_size = 1)
    (hstored : Stored (cut.linear L) (sizes.getD index 0) input_size) (row : List R) :
    slice 0 (sizes.getD index 0) (servedRow ext (cut.linear L) row) =
      slice cut.first (cut.first + sizes.getD index 0) (servedRow ext L row) := by
  cases cut with
  | whole =>
    show _ = slice 0 (0 + _) _
    rw [Nat.zero_add]
    rfl
  | rows first last => exact absurd (hcolumn haligned.1) haligned.2.1
  | columns first last =>
    obtain ⟨_, hfirst, hsize, rfl⟩ := haligned
    have hout := hstored.out_eq
    have hin := hstored.loaded.in_aligned
    rw [padDim_of_block hsize] at hout
    have ha := tile_mul_div_of_block hfirst
    have hb := tile_mul_div_of_block (Nat.dvd_add hfirst hsize)
    generalize sizes.getD index 0 = width at hsize hout hb hin ⊢
    generalize hfa : first / TILE = a at ha
    generalize hfb : (first + width) / TILE = b at hb
    have hcut : (Cutting.columns first (first + width)).linear L = LMHead.Linear.sliceCols L a b := by
      rw [Cutting.linear, hfa, hfb]
    rw [hcut] at hout hin ⊢
    show _ = slice first (first + width) _
    rcases Nat.eq_zero_or_pos width with rfl | hpos
    · rw [Nat.add_zero, slice, slice, List.take_zero, List.drop_nil, List.drop_take, Nat.sub_self,
        List.take_zero]
    · -- a cut of that many columns reaches no further than the matrix
      have hcols : TILE * (min b L.trellis.cols - a) = width := hout
      have hab : a ≤ b ∧ b ≤ L.trellis.cols ∧ TILE * (b - a) = width := by
        unfold TILE at hcols ha hb ⊢
        omega
      obtain ⟨hab, hle, hwidth⟩ := hab
      rw [LMHead.servedRow_sliceCols ext hab hle hin (by rwa [ha]) (by rwa [hwidth]), ha, hb, slice_slice,
        Nat.add_zero, Nat.min_self]

/-! ## Both paths -/

/-- `y` has the leading dimensions of `x`, and every row of it is `f` of the row of `x`. -/
structure RowsOf (x : Activations R) (width : Nat) (f : List R → List R) (y : Activations R) : Prop where
  lead_eq : y.lead = x.lead
  width_eq : y.width = width
  rows_eq : y.rows = x.rows.map f

omit [CommRing R] in
theorem RowsOf.length {width : Nat} {f : List R → List R} {y : Activations R} (h : RowsOf x width f y)
    {row : List R} (hrow : row ∈ x.rows) : (f row).length = width := by
  rw [← h.width_eq]
  apply y.width_eq
  rw [h.rows_eq]
  exact List.mem_map_of_mem hrow

theorem RowsOf.addBias {width : Nat} {f : List R → List R} {y : Activations R} (h : RowsOf x width f y)
    {bias : Option (List R)} (hbias : ∀ b ∈ bias, b.length = width) :
    ∃ z, addBias y bias = .ok z ∧
      RowsOf x width (fun row => tabulate width fun j => (f row).getD j 0 + biasAt bias j) z := by
  refine ⟨biased y bias, LMHead.addBias_ok fun b hb => (hbias b hb).trans h.width_eq.symm, h.lead_eq,
    h.width_eq, ?_⟩
  show y.rows.map _ = _
  rw [h.rows_eq, h.width_eq, List.map_map]
  rfl

omit [CommRing R] in
/-- Shards side by side. -/
theorem catLast_rowsOf {rows : Nat × Nat → List R → List R} {shards : List (Nat × Nat)}
    {parts : List (Activations R)}
    (h : List.Forall₂ (fun shard y => RowsOf x shard.1 (rows shard) y) shards parts) :
    ∃ y, catLast x.lead parts = .ok y ∧
      RowsOf x (shards.map Prod.fst).sum (fun row => (shards.map (rows · row)).flatten) y := by
  have hwidths : parts.map Activations.width = shards.map Prod.fst :=
    map_eq_of_forall₂ h fun _ _ hy => hy.width_eq
  have hlength : ∀ row ∈ x.rows, ((shards.map (rows · row)).flatten).length = (shards.map Prod.fst).sum := by
    intro row hrow
    rw [List.length_flatten, List.map_map]
    refine congrArg List.sum (List.map_congr_left fun shard hshard => ?_)
    obtain ⟨y, -, hy⟩ := exists_of_forall₂ h hshard
    exact hy.length hrow
  have hcolumns : ∀ i (hi : i < x.rows.length), (parts.map fun y => y.rows.getD i []).flatten =
      (shards.map (rows · x.rows[i])).flatten := by
    intro i hi
    refine congrArg List.flatten (map_eq_of_forall₂ h fun shard y hy => ?_)
    simp only [hy.rows_eq, List.getD_eq_getElem?_getD, List.getElem?_map, List.getElem?_eq_getElem hi,
      Option.map_some, Option.getD_some]
  let z : Activations R :=
    { lead := x.lead
      width := (shards.map Prod.fst).sum
      rows := x.rows.map fun row => (shards.map (rows · row)).flatten
      rows_eq := by rw [List.length_map, x.rows_eq]
      width_eq := by
        intro row hrow
        obtain ⟨row', hrow', rfl⟩ := List.mem_map.mp hrow
        exact hlength row' hrow' }
  refine ⟨z, ?_, rfl, rfl, rfl⟩
  have hrows : (tabulate x.lead.prod fun i => (parts.map fun y => y.rows.getD i []).flatten) = z.rows := by
    refine List.ext_getElem (by simp [z, x.rows_eq]) fun i hi hi' => ?_
    rw [length_tabulate, ← x.rows_eq] at hi
    rw [getElem_tabulate, hcolumns i hi]
    simp only [z, List.getElem_map]
  rw [catLast, hwidths, hrows]
  exact Ops.view_eq z

omit [CommRing R] in
/-- One shard is not concatenated, and is its own concatenation. -/
theorem catParts_rowsOf {rows : Nat × Nat → List R → List R} {shards : List (Nat × Nat)}
    {parts : List (Activations R)} (hne : shards ≠ [])
    (h : List.Forall₂ (fun shard y => RowsOf x shard.1 (rows shard) y) shards parts) :
    ∃ y, catParts x.lead parts = .ok y ∧
      RowsOf x (shards.map Prod.fst).sum (fun row => (shards.map (rows · row)).flatten) y := by
  cases h with
  | nil => exact absurd rfl hne
  | @cons shard y shards parts hy hrest =>
    cases hrest with
    | nil => exact ⟨y, rfl, by simpa using hy⟩
    | cons hz hrest => exact catLast_rowsOf (.cons hy (.cons hz hrest))

/-- The tensors of an output shard, whose `f` of a row is what the shard serves of it. -/
structure Gives (ext : Exllamav3 W R) (m : Method) (input_size out_size : Nat) (f : List R → List R)
    (s : ShardTensors W R) : Prop where
  part : ∃ P : Linear W R, s = ⟨.trellis P.trellis, .scale P.suh, .scale P.svh⟩ ∧
    Stored P out_size input_size ∧ m.mcg = P.mcg.isSome ∧ m.mul1 = P.mul1.isSome ∧
    ∀ row, slice 0 out_size (servedRow ext P row) = f row

section Shard

variable {out_size : Nat} {f : List R → List R} {s : ShardTensors W R}

omit [CommRing R] in
/-- A trim to the width a tensor has keeps it. -/
theorem trim_width (y : Activations R) : y.trim y.width = y := by
  refine Activations.eq_of_rows rfl (Nat.min_self _) ?_
  refine (List.map_congr_left fun row hrow => ?_).trans (List.map_id _)
  exact slice_zero_length (y.width_eq row hrow).le

theorem served_trim (ext : Exllamav3 W R) {P : Linear W R} (hP : Stored P out_size input_size)
    (hf : ∀ row, slice 0 out_size (servedRow ext P row) = f row) :
    RowsOf x out_size f ((served ext P x).trim out_size) := by
  refine ⟨rfl, ?_, ?_⟩
  · show min out_size (TILE * P.trellis.cols) = out_size
    rw [hP.out_eq]
    exact Nat.min_eq_left (padDim_spec (by decide)).2.1
  · show (x.rows.map (servedRow ext P)).map (slice 0 out_size) = _
    rw [List.map_map]
    exact List.map_congr_left fun row _ => hf row

/-- The kernel's product, trimmed. -/
theorem Gives.serve (hK : K.Contract) (h : Gives K.toExllamav3 m input_size out_size f s)
    (hx : x.width = input_size) (hpos : 0 < input_size) (reconstruct_threshold reconstruct_tile_mb : Int) :
    ∃ y, serveShard K m reconstruct_threshold reconstruct_tile_mb x s out_size = .ok y ∧
      RowsOf x out_size f y := by
  obtain ⟨P, rfl, hP, hmcg, hmul1, hf⟩ := h.part
  have hwidth : x.width ≤ TILE * P.trellis.rows := by
    rw [hx, hP.in_eq]
    exact (padDim_spec (by decide)).2.1
  refine ⟨_, ?_, served_trim K.toExllamav3 hP hf⟩
  rw [serveShard]
  dsimp only
  rw [hmcg, hmul1, Ops.exl3Mm_ok hK hP.loaded (by omega) hwidth]
  refine congrArg Except.ok ?_
  split_ifs with hout
  · rw [← hout, trim_width]
  · rfl

/-- The shard's dense weight gives the same rows. -/
theorem Gives.dense (h : Gives K.toExllamav3 m input_size out_size f s) :
    ∃ weight, denseShard K m input_size out_size s = .ok weight ∧ weight.length = out_size ∧
      ∀ x : Activations R, x.width = input_size → ∀ row ∈ x.rows, Ops.linearRow weight row = f row := by
  obtain ⟨P, rfl, hP, hmcg, hmul1, hf⟩ := h.part
  have hweight : Ops.denseOf K.toExllamav3 P = _ :=
    Ops.denseOf_ok hP.loaded.in_aligned hP.loaded.out_aligned
  refine ⟨(slice 0 out_size (tabulate (TILE * P.trellis.cols) fun j => tabulate (TILE * P.trellis.rows) fun i =>
    Ops.effective K.toExllamav3 P i j)).map (slice 0 input_size), ?_, ?_, fun x hx row hrow => ?_⟩
  · rw [denseShard]
    dsimp only
    rw [Ops.denseOf, ← hmcg, ← hmul1] at hweight
    rw [hweight]
    rfl
  · rw [List.length_map, length_slice, length_tabulate, hP.out_eq, Nat.sub_zero]
    exact Nat.min_eq_left (padDim_spec (by decide)).2.1
  · have hwidth : x.width ≤ TILE * P.trellis.rows := by
      rw [hx, hP.in_eq]
      exact (padDim_spec (by decide)).2.1
    have hdense : Ops.denseLinear K.toExllamav3 P out_size x = _ := Ops.denseLinear_ok hP.loaded hwidth out_size
    rw [Ops.denseLinear, hweight] at hdense
    obtain ⟨-, -, hrows⟩ := LMHead.view_eq_ok hdense
    rw [(served_trim K.toExllamav3 hP hf).rows_eq, hx] at hrows
    exact (List.map_inj_left.mp hrows row hrow).symm

end Shard

/-- Shards that were processed, each with the size it is served at. -/
theorem zip_gives {ext : Exllamav3 W R} {rows : Nat × Nat → List R → List R} {shards : List (Nat × Nat)}
    {tensors : List (ShardTensors W R)}
    (h : List.Forall₂ (fun shard s => Gives ext m input_size shard.1 (rows shard) s) shards tensors) :
    List.Forall₂ (fun shard s => s.2 = shard.1 ∧ Gives ext m input_size shard.1 (rows shard) s.1) shards
      (tensors.zip (shards.map Prod.fst)) := by
  induction h with
  | nil => exact .nil
  | cons hs _ ih => exact .cons ⟨rfl, hs⟩ ih

/-- A layer that was processed gives, on either path, its output shards side by side. -/
theorem apply_ok (hK : K.Contract) {L : Layer W R} {served : Served W R} {rows : Nat × Nat → List R → List R}
    (hshards : ∀ shard ∈ L.exl3_output_sizes.zipIdx, ∀ s, L.processShard m shard.1 shard.2 = .ok s →
      Gives K.toExllamav3 m L.exl3_input_size shard.1 (rows shard) s)
    (hne : L.exl3_output_sizes ≠ []) (h : processWeightsAfterLoading K m L = .ok served)
    (hx : x.width = L.exl3_input_size) (hpos : 0 < L.exl3_input_size)
    (reconstruct_threshold reconstruct_tile_mb : Int) {bias : Option (List R)}
    (hbias : ∀ b ∈ bias, b.length = L.exl3_output_sizes.sum) :
    ∃ y, apply K m reconstruct_threshold reconstruct_tile_mb served x bias = .ok y ∧
      RowsOf x L.exl3_output_sizes.sum (fun row => tabulate L.exl3_output_sizes.sum fun j =>
        ((L.exl3_output_sizes.zipIdx.map (rows · row)).flatten).getD j 0 + biasAt bias j) y := by
  obtain ⟨tensors, htensors, h⟩ := bind_eq_ok h
  have hsizes : L.exl3_output_sizes.zipIdx.map Prod.fst = L.exl3_output_sizes := List.zipIdx_map_fst 0 _
  have hgives : List.Forall₂ (fun shard s => Gives K.toExllamav3 m L.exl3_input_size shard.1 (rows shard) s)
      L.exl3_output_sizes.zipIdx tensors :=
    forall₂_imp_mem (mapM_eq_ok htensors) fun shard hshard s hs => hshards shard hshard s hs
  have hzip := zip_gives hgives
  rw [hsizes] at hzip
  obtain ⟨weights, hweights, h⟩ := bind_eq_ok h
  obtain rfl := Except.ok.inj h
  unfold storeWeights at hweights
  split_ifs at hweights with hdense
  · -- the dense weight's rows are the shards' rows, one shard after the other
    obtain ⟨dense, hdense, hrows⟩ := mapM_forall₂ (Q := fun shard weight => weight.length = shard.1 ∧
        ∀ x : Activations R, x.width = L.exl3_input_size → ∀ row ∈ x.rows,
          Ops.linearRow weight row = rows shard row)
      (f := fun s : ShardTensors W R × Nat => denseShard K m L.exl3_input_size s.2 s.1) hzip
      fun shard _ s ⟨hs, hgive⟩ => by rw [hs]; exact hgive.dense
    have hstore : storeDense K m L tensors = .ok (.dense L.exl3_input_size dense.flatten) := by
      show ((tensors.zip L.exl3_output_sizes).mapM _ >>= _) = _
      rw [hdense]
      rfl
    obtain rfl := Except.ok.inj (hstore.symm.trans hweights)
    have hlength : dense.flatten.length = L.exl3_output_sizes.sum := by
      rw [List.length_flatten, map_eq_of_forall₂ hrows fun _ _ hweight => hweight.1, hsizes]
    let z : Activations R :=
      { lead := x.lead
        width := dense.flatten.length
        rows := x.rows.map (Ops.linearRow dense.flatten)
        rows_eq := by rw [List.length_map, x.rows_eq]
        width_eq := by
          intro row hrow
          obtain ⟨row', -, rfl⟩ := List.mem_map.mp hrow
          exact List.length_map _ }
    have hz : RowsOf x L.exl3_output_sizes.sum
        (fun row => (L.exl3_output_sizes.zipIdx.map (rows · row)).flatten) z := by
      refine ⟨rfl, hlength, List.map_congr_left fun row hrow => ?_⟩
      rw [Ops.linearRow, List.map_flatten]
      exact congrArg List.flatten (map_eq_of_forall₂ hrows fun _ _ hweight => hweight.2 x hx row hrow)
    show ∃ y, linear x L.exl3_input_size dense.flatten bias = .ok y ∧ _
    rw [linear, if_neg (not_not.mpr hx)]
    show ∃ y, (Activations.view z.lead z.width z.rows >>= _) = .ok y ∧ _
    rw [Ops.view_eq z]
    exact hz.addBias hbias
  · obtain rfl := Except.ok.inj hweights
    obtain ⟨parts, hparts, hrows⟩ := mapM_forall₂ (Q := fun shard y => RowsOf x shard.1 (rows shard) y)
      (f := fun s : ShardTensors W R × Nat =>
        serveShard K m reconstruct_threshold reconstruct_tile_mb x s.1 s.2) hzip
      fun shard _ s ⟨hs, hgive⟩ => by rw [hs]; exact hgive.serve hK hx hpos _ _
    obtain ⟨y, hcat, hy⟩ := catParts_rowsOf (by simpa using hne) hrows
    rw [hsizes] at hy
    have hout : apply K m reconstruct_threshold reconstruct_tile_mb
        ⟨L.exl3_output_sizes, .quantized tensors⟩ x bias = LMHead.addBias y bias := by
      rw [apply]
      show ((tensors.zip L.exl3_output_sizes).mapM _ >>= _) = _
      rw [hparts]
      show (catParts x.lead parts >>= _) = _
      rw [hcat]
      rfl
    rw [hout]
    exact hy.addBias hbias

/-- What a finished load leaves: the layer's sizes, and output shards that are cuts of the plan's pieces. -/
theorem loadLayer_ok (hm : m.names = plan.names) (htp : 0 < layer.tp_size)
    (hfits : plan.Fits layer input_size sizes) {arrivals : List (Arrival W R)}
      (hgenuine : Genuine plan arrivals)
    {served : Served W R} (h : loadLayer K m layer input_size sizes arrivals = .ok served) :
    ∃ L : Layer W R, L.exl3_input_size = input_size ∧ L.exl3_output_sizes = sizes ∧ sizes ≠ [] ∧
      processWeightsAfterLoading K m L = .ok served ∧
      ∀ index out_size s, L.processShard m out_size index = .ok s →
        ∃ p cut, Processed plan layer input_size sizes index out_size p cut s := by
  obtain ⟨L₀, hcreated, h⟩ := bind_eq_ok h
  obtain ⟨L, hloaded, hprocessed⟩ := bind_eq_ok h
  obtain ⟨haccepted, hloading⟩ := loading_created plan htp hcreated
  have hL := hloading.load hfits haccepted hgenuine hloaded
  exact ⟨L, hL.input_eq, hL.sizes_eq, ne_nil_of_created hcreated, hprocessed,
    fun index out_size s hs => processShard_ok hm hL hfits hs⟩

theorem Processed.gives {ext : Exllamav3 W R} (hm : m.names = plan.names) {index out_size : Nat} {p : Piece W R}
    {cut : Cutting} {s : ShardTensors W R} (h : Processed plan layer input_size sizes index out_size p cut s)
    {f : List R → List R} (hf : ∀ row, slice 0 out_size (servedRow ext (cut.linear p.linear) row) = f row) :
    Gives ext m input_size out_size f s := by
  have hnames : m.Names p.linear := hm.trans (plan.stores p h.covers.mem).symm
  obtain ⟨hmcg, hmul1⟩ := cut.linear_selectors p.linear
  refine ⟨cut.linear p.linear, h.tensors, h.stored, ?_, ?_, hf⟩
  · rw [hnames.mcg_eq, hmcg]
  · rw [hnames.mul1_eq, hmul1]

/-- A linear layer is exact: for every way a checkpoint groups the layer's output shards into stored matrices,
every rank, and every order and repetition of the arrivals, a layer that finished loading gives of each row
the columns that are the rank's of every stored matrix's product, side by side, plus the bias. Both serving
paths give it, at every threshold and tile budget. -/
theorem linear_layer_exact (K : Kernels W R) (hK : K.Contract) (m : Method) (plan : Plan W R)
    (hm : m.names = plan.names) (layer : LinearBase) (htp : 0 < layer.tp_size)
    (hcolumn : layer.row_parallel = true → layer.tp_size = 1) (input_size : Nat) (hpos : 0 < input_size)
    (sizes : List Nat) (hfits : plan.Fits layer input_size sizes) (arrivals : List (Arrival W R))
    (hgenuine : Genuine plan arrivals) (served : Served W R)
    (hload : loadLayer K m layer input_size sizes arrivals = .ok served)
    (reconstruct_threshold reconstruct_tile_mb : Int) (x : Activations R) (hx : x.width = input_size)
    (bias : Option (List R)) (hbias : ∀ b ∈ bias, b.length = sizes.sum) :
    ∃ y, apply K m reconstruct_threshold reconstruct_tile_mb served x bias = .ok y ∧
      y.lead = x.lead ∧ y.width = sizes.sum ∧
      y.rows = x.rows.map fun row => tabulate sizes.sum fun j =>
        (plan.row K.toExllamav3 layer input_size sizes row).getD j 0 + biasAt bias j := by
  obtain ⟨L, hinput, rfl, hne, hprocessed, hshards⟩ := loadLayer_ok hm htp hfits hgenuine hload
  have hgives : ∀ shard ∈ L.exl3_output_sizes.zipIdx, ∀ s, L.processShard m shard.1 shard.2 = .ok s →
      Gives K.toExllamav3 m L.exl3_input_size shard.1
        (fun row => plan.shardRow K.toExllamav3 layer input_size L.exl3_output_sizes row shard) s := by
    rintro ⟨out_size, index⟩ hshard s hs
    obtain ⟨p, cut, hp⟩ := hshards index out_size s hs
    have hsize : L.exl3_output_sizes.getD index 0 = out_size := by
      rw [List.getD_eq_getElem?_getD, List.mem_zipIdx_iff_getElem?.mp hshard, Option.getD_some]
    rw [hinput]
    apply hp.gives hm
    intro row
    rw [Plan.shardRow, hp.covers.home hfits]
    subst hsize
    exact servedRow_linear _ hp.covers.aligned hcolumn hp.stored row
  obtain ⟨y, hy, hrows⟩ := apply_ok hK hgives hne hprocessed (hx.trans hinput.symm) (hinput ▸ hpos)
    reconstruct_threshold reconstruct_tile_mb hbias
  exact ⟨y, hy, hrows.lead_eq, hrows.width_eq, hrows.rows_eq⟩

end Serve

/-! ### A rank of two of an attention layer whose one key and value head both ranks hold -/

def qkvLayer : LinearBase := ⟨"self_attn.qkv_proj", 1, 2, false⟩

/-- Queries of 256 channels, keys and values of 128. -/
def qkvPlan : Plan Nat Rat where
  names := ["trellis", "suh", "svh"]
  pieces := [⟨zeroLinear, .qkv .q (some 128) none⟩,
    ⟨LMHead.Linear.sliceCols zeroLinear 0 8, .qkv .k (some 128) (some 2)⟩,
    ⟨LMHead.Linear.sliceCols zeroLinear 0 8, .qkv .v (some 128) (some 2)⟩]
  stores := by
    intro p hp
    simp only [List.mem_cons, List.not_mem_nil, or_false] at hp
    rcases hp with rfl | rfl | rfl <;> rfl

theorem qkvPlan_fits : qkvPlan.Fits qkvLayer 256 [128, 128, 128] where
  proper := by
    intro p hp
    simp only [qkvPlan, List.mem_cons, List.not_mem_nil, or_false] at hp
    rcases hp with rfl | rfl | rfl <;> exact ⟨rfl, rfl⟩
  once := by
    intro p hp p' hp' index cut cut' h h'
    simp only [qkvPlan, List.mem_cons, List.not_mem_nil, or_false] at hp hp'
    rcases hp with rfl | rfl | rfl <;> rcases hp' with rfl | rfl | rfl <;>
      simp only [Call.parts, List.mem_singleton, Prod.mk.injEq] at h h'
    all_goals first
      | exact ⟨rfl, h.2.trans h'.2.symm⟩
      | omega

/-- A plan's tensors, its last piece first. -/
def Plan.arrivals (plan : Plan W R) : List (Arrival W R) :=
  plan.pieces.reverse.flatMap fun p => p.linear.subTensors.map fun s => ⟨p.call, s.1, s.2⟩

theorem genuine_arrivals (plan : Plan W R) : Genuine plan plan.arrivals := by
  intro a ha
  obtain ⟨p, hp, ha⟩ := List.mem_flatMap.mp ha
  obtain ⟨s, hs, rfl⟩ := List.mem_map.mp ha
  exact ⟨p, List.mem_reverse.mp hp, rfl, hs⟩

set_option maxRecDepth 20000 in
theorem qkvPlan_loads : ∃ served, loadLayer (Kernels.exact zeroStateExt) LMHead.headMethod qkvLayer 256
    [128, 128, 128] qkvPlan.arrivals = .ok served :=
  ⟨_, rfl⟩

theorem qkvPlan_exact :
    ∃ served, loadLayer (Kernels.exact zeroStateExt) LMHead.headMethod qkvLayer 256 [128, 128, 128]
        qkvPlan.arrivals = .ok served ∧
      ∃ y, apply (Kernels.exact zeroStateExt) LMHead.headMethod 144 32 served (Ops.oneToken 256) none = .ok y ∧
        y.width = 384 ∧ y.rows = [tabulate 384 fun j => (qkvPlan.row zeroStateExt qkvLayer 256 [128, 128, 128]
          (List.replicate 256 1)).getD j 0 + biasAt none j] := by
  obtain ⟨served, hload⟩ := qkvPlan_loads
  obtain ⟨y, hy, -, hwidth, hrows⟩ := linear_layer_exact (Kernels.exact zeroStateExt)
    (Kernels.exact_contract zeroStateExt) LMHead.headMethod qkvPlan rfl qkvLayer (by decide) nofun 256
      (by decide)
    [128, 128, 128] qkvPlan_fits qkvPlan.arrivals (genuine_arrivals qkvPlan) served hload 144 32
    (Ops.oneToken 256) rfl none nofun
  exact ⟨served, hload, y, hy, hwidth, hrows⟩

end VllmExl3.LinearMethod
