/-
# VllmExl3.TensorParallel.Dense — tensor parallelism of a dense linear is exact

The two splits of a stored linear over `tp_size` ranks and what their combination gives: the
concatenation of the column-parallel ranks and the sum of the row-parallel ranks are the unsplit
layer, whenever `check_tp_split` accepts. The argument is `regularized_columns` and
`regularized_rows` at a cut that is both tile-aligned (so that slicing tiles slices the decode) and
Hadamard-aligned (so that no transform block is cut). A single rank slices nothing and needs neither.
-/
import VllmExl3.TensorParallel.Ops
import VllmExl3.Lib.Except
import Mathlib.Algebra.Ring.Rat

namespace VllmExl3.TensorParallel

open Format (TILE HAD_BLOCK checkTpSplit shardBounds Splits)

/-! ## Ranks -/

/-- A stored linear, with the scale vectors its trellis asks for and the codebook selectors it
stores, if any. -/
structure Linear (W R : Type) where
  trellis : Trellis W
  suh : List R
  svh : List R
  mcg : Option Int
  mul1 : Option Int
  suh_eq : suh.length = TILE * trellis.rows
  svh_eq : svh.length = TILE * trellis.cols

section Ranks

variable {W R : Type} [CommRing R] (ext : Exllamav3 W R)

/-- The layer on sub-tensors of the right kinds. -/
def exl3Mm (x : List R) (trellis suh svh : Tensor W R) (mcg mul1 : Bool) :
    Except PyError (List R) :=
  match trellis, suh, svh with
  | .trellis t, .scale u, .scale v => layer ext x t u v mcg mul1
  | _, _, _ => .error .index

/-- The unsplit layer. -/
def Linear.forward (L : Linear W R) (x : List R) : Except PyError (List R) :=
  exl3Mm ext x (.trellis L.trellis) (.scale L.suh) (.scale L.svh) L.mcg.isSome L.mul1.isSome

/-- One rank of a column (output) split. -/
def Linear.columnRank (L : Linear W R) (x : List R) (what : String) (tp_size rank : Nat) :
    Except PyError (List R) := do
  let (first, last) ← shardBounds (TILE * L.trellis.cols) rank tp_size what
  let trellis ← shardColumn (roleOf "trellis") (.trellis L.trellis) first last
  let suh ← shardColumn (roleOf "suh") (.scale L.suh) first last
  let svh ← shardColumn (roleOf "svh") (.scale L.svh) first last
  exl3Mm ext x trellis suh svh L.mcg.isSome L.mul1.isSome

/-- One rank of a row (input) split, on its slice of the input. -/
def Linear.rowRank (L : Linear W R) (x : List R) (what : String) (tp_size rank : Nat) :
    Except PyError (List R) := do
  let (first, last) ← shardBounds (TILE * L.trellis.rows) rank tp_size what
  exl3Mm ext (slice first last x)
    (shardRow (roleOf "trellis") (.trellis L.trellis) first last)
    (shardRow (roleOf "suh") (.scale L.suh) first last)
    (shardRow (roleOf "svh") (.scale L.svh) first last) L.mcg.isSome L.mul1.isSome

/-- The elementwise sum of the ranks' partial results of width `n`. -/
def allReduce (n : Nat) (parts : List (List R)) : List R :=
  tabulate n fun j => (parts.map (·.getD j 0)).sum

/-- All ranks of a column split, concatenated. -/
def Linear.columnParallel (L : Linear W R) (x : List R) (what : String) (tp_size : Nat) :
    Except PyError (List R) := do
  let parts ← (List.range tp_size).mapM (L.columnRank ext x what tp_size)
  return parts.flatten

/-- All ranks of a row split, summed. -/
def Linear.rowParallel (L : Linear W R) (x : List R) (what : String) (tp_size : Nat) :
    Except PyError (List R) := do
  let parts ← (List.range tp_size).mapM (L.rowRank ext x what tp_size)
  return allReduce (TILE * L.trellis.cols) parts

end Ranks

variable {W R : Type} [CommRing R] {ext : Exllamav3 W R} {x suh svh : List R} {t : Trellis W}
  {mcg mul1 : Bool}

/-! ## One rank -/

/-- The layer's coordinates on aligned tile columns `[a, b)` are those of the layer from `TILE * a` on. -/
theorem layerAt_sliceCols {a b j : Nat} {x suh : Nat → R} (hk : HAD_BLOCK ∣ TILE * t.rows)
    (ha : HAD_BLOCK ∣ TILE * a) (hw : HAD_BLOCK ∣ TILE * (b - a)) (hj : j < TILE * (b - a)) :
    layerAt ext (TILE * t.rows) x suh (weight ext (t.sliceCols a b) mcg mul1)
        ((slice (TILE * a) (TILE * b) svh).getD · 0) j =
      layerAt ext (TILE * t.rows) x suh (weight ext t mcg mul1) (svh.getD · 0) (TILE * a + j) := by
  have hwidth : TILE * b - TILE * a = TILE * (b - a) := (Nat.mul_sub _ _ _).symm
  rw [layerAt, layerAt, ← regularized_columns ha]
  refine regularized_congr hk hw (fun _ _ => rfl) (fun _ _ => rfl) (fun i _ j hj => ?_)
    (fun j hj => ?_) hj
  · exact weight_sliceCols hj
  · exact getD_slice (by rwa [hwidth])

/-- The layer on aligned tile columns `[a, b)` is the slice of the layer. -/
theorem layer_sliceCols {a b : Nat} (hx : x.length = TILE * t.rows)
    (hsuh : suh.length = TILE * t.rows) (hsvh : svh.length = TILE * t.cols) (hab : a ≤ b)
    (hb : b ≤ t.cols) (ha : HAD_BLOCK ∣ TILE * a) (hw : HAD_BLOCK ∣ TILE * (b - a))
    (hn : HAD_BLOCK ∣ TILE * t.cols) :
    layer ext x (t.sliceCols a b) suh (slice (TILE * a) (TILE * b) svh) mcg mul1 =
      (slice (TILE * a) (TILE * b)) <$> layer ext x t suh svh mcg mul1 := by
  have hcols : (t.sliceCols a b).cols = b - a := by
    show min b t.cols - a = b - a
    omega
  have hwidth : TILE * b - TILE * a = TILE * (b - a) := (Nat.mul_sub _ _ _).symm
  have hlast : TILE * b ≤ TILE * t.cols := Nat.mul_le_mul_left _ hb
  rcases Decidable.em (HAD_BLOCK ∣ TILE * t.rows) with hk | hk
  · rw [layer_ok hx hsuh hsvh hk hn, layer_ok (t := t.sliceCols a b) hx hsuh
      (by rw [length_slice, hsvh, hcols]; omega) hk (by rwa [hcols])]
    show _ = Except.ok _
    rw [slice_tabulate hlast, hcols, hwidth]
    exact congrArg Except.ok (tabulate_congr fun j hj => layerAt_sliceCols hk ha hw hj)
  · rw [layer_error_in hx hsuh hk, layer_error_in (t := t.sliceCols a b) hx hsuh hk]
    rfl

/-- The layer on aligned tile rows `[a, b)` is the layer's coordinates over a shifted piece of the
input. -/
theorem layer_sliceRows {a b : Nat} (hx : x.length = TILE * t.rows)
    (hsuh : suh.length = TILE * t.rows) (hsvh : svh.length = TILE * t.cols) (hab : a ≤ b)
    (hb : b ≤ t.rows) (hw : HAD_BLOCK ∣ TILE * (b - a)) (hn : HAD_BLOCK ∣ TILE * t.cols) :
    layer ext (slice (TILE * a) (TILE * b) x) (t.sliceRows a b) (slice (TILE * a) (TILE * b) suh)
        svh mcg mul1 =
      .ok (tabulate (TILE * t.cols) (layerAt ext (TILE * (b - a)) (fun i => x.getD (TILE * a + i) 0)
        (fun i => suh.getD (TILE * a + i) 0) (fun i => weight ext t mcg mul1 (TILE * a + i))
        (svh.getD · 0))) := by
  have hrows : (t.sliceRows a b).rows = b - a := by
    show min b t.rows - a = b - a
    omega
  have hwidth : TILE * b - TILE * a = TILE * (b - a) := (Nat.mul_sub _ _ _).symm
  have hlast : TILE * b ≤ TILE * t.rows := Nat.mul_le_mul_left _ hb
  rw [layer_ok (t := t.sliceRows a b) (by rw [length_slice, hx, hrows]; omega)
    (by rw [length_slice, hsuh, hrows]; omega) hsvh (by rwa [hrows]) hn]
  refine congrArg Except.ok (tabulate_congr fun j hj => ?_)
  rw [hrows]
  refine regularized_congr hw hn (fun i hi => ?_) (fun i hi => ?_) (fun i hi j _ => ?_)
    (fun _ _ => rfl) hj
  · exact getD_slice (by rwa [hwidth])
  · exact getD_slice (by rwa [hwidth])
  · exact weight_sliceRows hi

/-! ## All ranks -/

/-- A forward pass that succeeds has one value per output channel. -/
theorem layer_length {y : List R} (hx : x.length = TILE * t.rows)
    (hsuh : suh.length = TILE * t.rows) (hsvh : svh.length = TILE * t.cols)
    (h : layer ext x t suh svh mcg mul1 = .ok y) : y.length = TILE * t.cols := by
  rcases Decidable.em (HAD_BLOCK ∣ TILE * t.rows) with hk | hk
  · rcases Decidable.em (HAD_BLOCK ∣ TILE * t.cols) with hn | hn
    · rw [layer_ok hx hsuh hsvh hk hn] at h
      rw [← Except.ok.inj h, length_tabulate]
    · rw [layer_error_out hx hsuh hk hn] at h
      cases h
  · rw [layer_error_in hx hsuh hk] at h
    cases h

/-- An accepted split of tile-granular storage, in tiles: every rank has `q` of them, and more than
one rank means whole Hadamard blocks. -/
theorem splits_tiles {c tp_size : Nat} (h : Splits (TILE * c) tp_size) :
    ∃ q, c = tp_size * q ∧ TILE * c / tp_size = TILE * q ∧
      (1 < tp_size → HAD_BLOCK ∣ TILE * q) := by
  rcases h with rfl | ⟨hlt, hdvd, m, hm⟩
  · exact ⟨c, (Nat.one_mul c).symm, Nat.div_one _, fun hlt => absurd hlt (Nat.lt_irrefl 1)⟩
  · have hwidth : TILE * c / tp_size = TILE * (8 * m) := by
      rw [hm, ← Nat.mul_assoc]
      rfl
    have hmul := (Splits.eq_mul (.inr ⟨hlt, hdvd, m, hm⟩)).trans (congrArg (tp_size * ·) hwidth)
    refine ⟨8 * m, ?_, hwidth, fun _ => hwidth ▸ ⟨m, hm⟩⟩
    refine Nat.eq_of_mul_eq_mul_left (by decide : 0 < TILE) (hmul.trans ?_)
    exact Nat.mul_left_comm _ _ _

section Exact

variable {L : Linear W R} {what : String} {tp_size : Nat}

/-- A rank of an accepted column split computes its slice of the unsplit output. -/
theorem Linear.columnRank_eq (hx : x.length = TILE * L.trellis.rows)
    (h : Splits (TILE * L.trellis.cols) tp_size) {r : Nat} (hr : r < tp_size) :
    L.columnRank ext x what tp_size r =
      (slice (r * (TILE * L.trellis.cols / tp_size)) ((r + 1) * (TILE * L.trellis.cols / tp_size))) <$>
        L.forward ext x := by
  obtain ⟨q, hc, hq, hhad⟩ := splits_tiles h
  have hfirst : r * (TILE * q) = TILE * (r * q) := Nat.mul_left_comm _ _ _
  have hlast : (r + 1) * (TILE * q) = TILE * ((r + 1) * q) := Nat.mul_left_comm _ _ _
  have hdiv : ∀ a, TILE * a / TILE = a := fun a => Nat.mul_div_cancel_left a (by decide)
  have hrank : L.columnRank ext x what tp_size r =
      layer ext x (L.trellis.sliceCols (r * q) ((r + 1) * q)) L.suh
        (slice (TILE * (r * q)) (TILE * ((r + 1) * q)) L.svh) L.mcg.isSome L.mul1.isSome := by
    rw [Linear.columnRank, Format.shardBounds_ok h, hq, hfirst, hlast]
    show layer ext x (L.trellis.sliceCols (TILE * (r * q) / TILE) (TILE * ((r + 1) * q) / TILE)) _ _ _ _
      = _
    rw [hdiv, hdiv]
  rw [hrank, hq, hfirst, hlast]
  rcases Nat.lt_or_ge 1 tp_size with hlt | hle
  · have hstep : (r + 1) * q - r * q = q := by
      rw [Nat.succ_mul, Nat.add_sub_cancel_left]
    refine layer_sliceCols hx L.suh_eq L.svh_eq (Nat.mul_le_mul_right _ (Nat.le_succ r)) ?_ ?_ ?_ ?_
    · rw [hc]
      exact Nat.mul_le_mul_right _ hr
    · rw [← hfirst]
      exact Dvd.dvd.mul_left (hhad hlt) r
    · rw [hstep]
      exact hhad hlt
    · rw [hc, Nat.mul_left_comm]
      exact Dvd.dvd.mul_left (hhad hlt) _
  · -- a single rank slices nothing
    obtain rfl : tp_size = 1 := by omega
    obtain rfl : r = 0 := by omega
    obtain rfl : L.trellis.cols = q := hc.trans (Nat.one_mul q)
    rw [Nat.zero_mul, Nat.mul_zero, Nat.zero_add, Nat.one_mul, Trellis.sliceCols_whole,
      slice_zero_length L.svh_eq.le]
    show L.forward ext x = _
    rcases hy : L.forward ext x with err | y
    · rfl
    · exact congrArg Except.ok (slice_zero_length (layer_length hx L.suh_eq L.svh_eq hy).le).symm

/-- Concatenating the ranks of an accepted column split gives the unsplit layer. -/
theorem Linear.columnParallel_eq (hx : x.length = TILE * L.trellis.rows)
    (h : Splits (TILE * L.trellis.cols) tp_size) :
    L.columnParallel ext x what tp_size = L.forward ext x := by
  have hpos : List.range tp_size ≠ [] := by
    have := (Format.splits_iff_check what).mp h
    rw [Ne, List.range_eq_nil]
    omega
  have hranks : ∀ r ∈ List.range tp_size, L.columnRank ext x what tp_size r = _ := fun r hr =>
    L.columnRank_eq hx h (List.mem_range.mp hr)
  rw [Linear.columnParallel]
  rcases hy : L.forward ext x with err | y
  · rw [mapM_error hpos fun r hr => by rw [hranks r hr, hy]; rfl]
    rfl
  · rw [mapM_ok fun r hr => by rw [hranks r hr, hy]; rfl]
    refine congrArg Except.ok (flatten_slices tp_size ?_)
    rw [layer_length hx L.suh_eq L.svh_eq hy]
    exact h.eq_mul

/-- A rank of an accepted row split runs the layer on tile rows `[r * q, (r + 1) * q)`. -/
theorem Linear.rowRank_eq {q : Nat} (h : Splits (TILE * L.trellis.rows) tp_size)
    (hq : TILE * L.trellis.rows / tp_size = TILE * q) (r : Nat) :
    L.rowRank ext x what tp_size r =
      layer ext (slice (TILE * (r * q)) (TILE * ((r + 1) * q)) x)
        (L.trellis.sliceRows (r * q) ((r + 1) * q))
        (slice (TILE * (r * q)) (TILE * ((r + 1) * q)) L.suh) L.svh L.mcg.isSome L.mul1.isSome := by
  have hfirst : ∀ r, r * (TILE * q) = TILE * (r * q) := fun r => Nat.mul_left_comm _ _ _
  have hdiv : ∀ a, TILE * a / TILE = a := fun a => Nat.mul_div_cancel_left a (by decide)
  rw [Linear.rowRank, Format.shardBounds_ok h, hq, hfirst, hfirst]
  show layer ext _ (L.trellis.sliceRows (TILE * (r * q) / TILE) (TILE * ((r + 1) * q) / TILE)) _ _ _ _
    = _
  rw [hdiv, hdiv]

/-- Summing the layer over `n` pieces of `q` tile rows of its input, each whole Hadamard blocks. -/
theorem sum_layer_sliceRows {n q : Nat} (hn : 0 < n) (hx : x.length = TILE * t.rows)
    (hsuh : suh.length = TILE * t.rows) (hsvh : svh.length = TILE * t.cols) (hrows : t.rows = n * q)
    (hq : HAD_BLOCK ∣ TILE * q) :
    (do
      let parts ← (List.range n).mapM fun r =>
        layer ext (slice (TILE * (r * q)) (TILE * ((r + 1) * q)) x)
          (t.sliceRows (r * q) ((r + 1) * q))
          (slice (TILE * (r * q)) (TILE * ((r + 1) * q)) suh) svh mcg mul1
      return allReduce (TILE * t.cols) parts) = layer ext x t suh svh mcg mul1 := by
  have hstep : ∀ r, (r + 1) * q - r * q = q := fun r => by
    rw [Nat.succ_mul, Nat.add_sub_cancel_left]
  have hk : HAD_BLOCK ∣ TILE * t.rows := by
    rw [hrows, Nat.mul_left_comm]
    exact Dvd.dvd.mul_left hq _
  have hbound : ∀ r ∈ List.range n, (r + 1) * q ≤ t.rows := fun r hr => by
    rw [hrows]
    exact Nat.mul_le_mul_right _ (List.mem_range.mp hr)
  have hle : ∀ r, r * q ≤ (r + 1) * q := fun r => Nat.mul_le_mul_right _ (Nat.le_succ r)
  rcases Decidable.em (HAD_BLOCK ∣ TILE * t.cols) with hcols | hcols
  · rw [mapM_ok fun r hr => layer_sliceRows hx hsuh hsvh (hle r) (hbound r hr)
      (by rw [hstep]; exact hq) hcols, layer_ok hx hsuh hsvh hk hcols]
    refine congrArg Except.ok (tabulate_congr fun j hj => ?_)
    rw [List.map_map, layerAt, hrows, Nat.mul_left_comm, ← regularized_rows n _ hq, ← sum_map_range]
    refine congrArg List.sum (List.map_congr_left fun r _ => ?_)
    have hshift : r * (TILE * q) = TILE * (r * q) := Nat.mul_left_comm _ _ _
    simp only [Function.comp_apply, getD_tabulate hj, layerAt, hstep, hshift]
  · -- every rank fails the assertion on the unsplit output width, as the unsplit layer does
    have hfail : ∀ r ∈ List.range n, layer ext (slice (TILE * (r * q)) (TILE * ((r + 1) * q)) x)
        (t.sliceRows (r * q) ((r + 1) * q)) (slice (TILE * (r * q)) (TILE * ((r + 1) * q)) suh) svh
        mcg mul1 = .error (hadError (TILE * t.cols)) := by
      intro r hr
      have hlen : (t.sliceRows (r * q) ((r + 1) * q)).rows = q := by
        show min ((r + 1) * q) t.rows - r * q = q
        rw [Nat.min_eq_left (hbound r hr), hstep]
      have hpiece : ∀ v : List R, v.length = TILE * t.rows →
          (slice (TILE * (r * q)) (TILE * ((r + 1) * q)) v).length =
            TILE * (t.sliceRows (r * q) ((r + 1) * q)).rows := by
        intro v hv
        rw [length_slice, hv, Nat.min_eq_left (Nat.mul_le_mul_left _ (hbound r hr)), hlen,
          ← Nat.mul_sub, hstep]
      exact layer_error_out (hpiece x hx) (hpiece suh hsuh) (by rwa [hlen]) hcols
    rw [mapM_error (by rw [Ne, List.range_eq_nil]; omega) hfail, layer_error_out hx hsuh hk hcols]
    rfl

theorem allReduce_singleton {n : Nat} {y : List R} (h : y.length = n) : allReduce n [y] = y := by
  refine (tabulate_congr fun j _ => ?_).trans (tabulate_getD 0 h)
  simp

/-- Summing the ranks of an accepted row split gives the unsplit layer. -/
theorem Linear.rowParallel_eq (hx : x.length = TILE * L.trellis.rows)
    (h : Splits (TILE * L.trellis.rows) tp_size) :
    L.rowParallel ext x what tp_size = L.forward ext x := by
  obtain ⟨q, hc, hq, hhad⟩ := splits_tiles h
  have hpos := ((Format.splits_iff_check what).mp h).1
  rw [Linear.rowParallel, funext (f := L.rowRank ext x what tp_size) fun r => L.rowRank_eq h hq r]
  rcases Nat.lt_or_ge 1 tp_size with hlt | hle
  · exact sum_layer_sliceRows hpos hx L.suh_eq L.svh_eq hc (hhad hlt)
  · -- a single rank slices nothing
    obtain rfl : tp_size = 1 := by omega
    obtain rfl : L.trellis.rows = q := hc.trans (Nat.one_mul q)
    have hwhole : layer ext (slice (TILE * (0 * L.trellis.rows)) (TILE * ((0 + 1) * L.trellis.rows)) x)
        (L.trellis.sliceRows (0 * L.trellis.rows) ((0 + 1) * L.trellis.rows))
        (slice (TILE * (0 * L.trellis.rows)) (TILE * ((0 + 1) * L.trellis.rows)) L.suh) L.svh L.mcg.isSome
        L.mul1.isSome = L.forward ext x := by
      rw [Nat.zero_mul, Nat.mul_zero, Nat.zero_add, Nat.one_mul, Trellis.sliceRows_whole,
        slice_zero_length hx.le, slice_zero_length L.suh_eq.le]
      rfl
    rw [List.range_one, List.mapM_cons, hwhole, List.mapM_nil]
    rcases hy : L.forward ext x with err | y
    · rfl
    · exact congrArg Except.ok (allReduce_singleton (layer_length hx L.suh_eq L.svh_eq hy))

/-- Tensor parallelism of a dense linear is exact: for every stored linear over every commutative
ring, every tile decoder and every input, whenever `check_tp_split` accepts the output width, the
concatenation of the column-parallel ranks is the unsplit layer, and whenever it accepts the input
width, the sum of the row-parallel ranks is. Where the unsplit layer fails an assertion, so does the
split one, with the same message. -/
theorem dense_tp_exact (ext : Exllamav3 W R) (L : Linear W R) (x : List R) (what : String)
    (tp_size : Nat) (hx : x.length = TILE * L.trellis.rows) (htp : 0 < tp_size) :
    (checkTpSplit (TILE * L.trellis.cols) tp_size what = .ok () →
      L.columnParallel ext x what tp_size = L.forward ext x) ∧
    (checkTpSplit (TILE * L.trellis.rows) tp_size what = .ok () →
      L.rowParallel ext x what tp_size = L.forward ext x) :=
  ⟨fun h => Linear.columnParallel_eq hx ((Format.splits_iff_check what).mpr ⟨htp, h⟩),
    fun h => Linear.rowParallel_eq hx ((Format.splits_iff_check what).mpr ⟨htp, h⟩)⟩

end Exact

/-! ### A 256 × 256 linear on two ranks -/

/-- A trellis of all-zero words at `bits` bits. -/
def zeroTrellis (rows cols bits : Nat) : Trellis Nat where
  rows := rows
  cols := cols
  words := TILE * bits
  tiles := List.replicate rows (List.replicate cols (List.replicate (TILE * bits) 0))
  rows_eq := List.length_replicate
  cols_eq := by
    intro row hrow
    rw [List.eq_of_mem_replicate hrow, List.length_replicate]
  words_eq := by
    intro row hrow tile htile
    rw [List.eq_of_mem_replicate hrow] at htile
    rw [List.eq_of_mem_replicate htile, List.length_replicate]

/-- On all-zero words every window of the trellis is the zero state, so the default codebook decodes
a tile to one constant; the normaliser is the fp32 value of `1 / sqrt(128)`. -/
def zeroStateExt : Exllamav3 Nat Rat where
  decodeTile := fun _ _ _ _ _ => 1573 / 2048
  rsqrt := fun _ => 11863283 / 134217728

def zeroLinear : Linear Nat Rat where
  trellis := zeroTrellis 16 16 3
  suh := List.replicate 256 1
  svh := List.replicate 256 1
  mcg := none
  mul1 := none
  suh_eq := List.length_replicate
  svh_eq := List.length_replicate

theorem zeroLinear_tp_exact :
    zeroLinear.columnParallel zeroStateExt (List.replicate 256 1) "q_proj" 2 =
        zeroLinear.forward zeroStateExt (List.replicate 256 1) ∧
      zeroLinear.rowParallel zeroStateExt (List.replicate 256 1) "o_proj" 2 =
        zeroLinear.forward zeroStateExt (List.replicate 256 1) :=
  ⟨(dense_tp_exact zeroStateExt zeroLinear _ "q_proj" 2 List.length_replicate (by decide)).1
      (by decide),
    (dense_tp_exact zeroStateExt zeroLinear _ "o_proj" 2 List.length_replicate (by decide)).2
      (by decide)⟩

end VllmExl3.TensorParallel
