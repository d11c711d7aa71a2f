/-
# VllmExl3.Ops.Matmul — one linear, three ways to multiply (`ops.py`)

`_exl3_mm` runs the fused kernel at small row counts and decodes the inner weight above a threshold,
whole or one column tile at a time; the dequantized reference multiplies by `dense_weight`, trimmed.
exllamav3's kernels are parameters with their documented contracts, on the aligned shapes they
accept; what they do elsewhere is left open.
-/
import VllmExl3.Ops.Matrix
import Mathlib.Data.List.GetD

namespace VllmExl3.Ops

open Format (TILE HAD_BLOCK Bits bitsFromTrellisShape)
open TensorParallel

variable {W R : Type}

/-! ## Activations -/

/-- A tensor of shape `lead ++ [width]`, as its rows along the last dimension. -/
structure Activations (R : Type) where
  lead : List Nat
  width : Nat
  rows : List (List R)
  rows_eq : rows.length = lead.prod
  width_eq : ∀ row ∈ rows, row.length = width

namespace Activations

theorem eq_of_rows {y z : Activations R} (hlead : y.lead = z.lead) (hwidth : y.width = z.width)
    (hrows : y.rows = z.rows) : y = z := by
  cases y
  cases z
  subst hlead hwidth hrows
  rfl

/-- `y.view(lead + (width,))` -/
def view (lead : List Nat) (width : Nat) (rows : List (List R)) : Except PyError (Activations R) :=
  if h : rows.length = lead.prod ∧ ∀ row ∈ rows, row.length = width then
    .ok ⟨lead, width, rows, h.1, h.2⟩
  else .error (.runtime "shape is invalid for input")

/-- `y[..., :out_size]` -/
def trim (y : Activations R) (out_size : Nat) : Activations R where
  lead := y.lead
  width := min out_size y.width
  rows := y.rows.map (slice 0 out_size)
  rows_eq := by rw [List.length_map, y.rows_eq]
  width_eq := by
    intro row hrow
    obtain ⟨row', hrow', rfl⟩ := List.mem_map.mp hrow
    rw [length_slice, y.width_eq row' hrow', Nat.sub_zero]

variable [Zero R]

/-- `F.pad(row, (0, n))` -/
def padRow (n : Nat) (row : List R) : List R := row ++ List.replicate n 0

/-- The tensor zero-padded on the right to width `width`. -/
def pad (x : Activations R) (width : Nat) : Activations R where
  lead := x.lead
  width := x.width + (width - x.width)
  rows := x.rows.map (padRow (width - x.width))
  rows_eq := by rw [List.length_map, x.rows_eq]
  width_eq := by
    intro row hrow
    obtain ⟨row', hrow', rfl⟩ := List.mem_map.mp hrow
    rw [padRow, List.length_append, List.length_replicate, x.width_eq row' hrow']

end Activations

/-! ## Kernels -/

/-- What torch and exllamav3's extension supply: uninitialised memory, and the kernels beyond the
decoder itself. -/
structure Kernels (W R : Type) extends Exllamav3 W R where
  empty : Nat → Nat → List (List R)
  exl3_gemm : List (List R) → Trellis W → List R → List R → Bool → Bool → Except PyError (List (List R))
  had_r_128 : List (List R) → Option (List R) → Option (List R) → Except PyError (List (List R))
  reconstruct_slice : Nat → Trellis W → Bits → Bool → Bool → Nat → Except PyError (List (List R))

section Contracts

variable [CommRing R]

/-- One row through `had_r_128`: scale, transform, scale. -/
def hadRow (rsqrt : Nat → R) (pre post : Option (List R)) (row : List R) : Except PyError (List R) := do
  let scaled := match pre with
    | some s => List.zipWith (· * ·) row s
    | none => row
  let y ← hadRight rsqrt HAD_BLOCK scaled
  return match post with
    | some s => List.zipWith (· * ·) y s
    | none => y

/-- The kernels' stated contracts. -/
structure Kernels.Contract (K : Kernels W R) : Prop where
  empty_rows : ∀ m n, (K.empty m n).length = m ∧ ∀ row ∈ K.empty m n, row.length = n
  gemm : ∀ a t suh svh mcg mul1, (∀ row ∈ a, row.length = TILE * t.rows) →
    suh.length = TILE * t.rows → svh.length = TILE * t.cols → HAD_BLOCK ∣ TILE * t.rows →
    HAD_BLOCK ∣ TILE * t.cols →
    K.exl3_gemm a t suh svh mcg mul1 = a.mapM fun row => layer K.toExllamav3 row t suh svh mcg mul1
  had : ∀ a pre post n, HAD_BLOCK ∣ n → (∀ row ∈ a, row.length = n) →
    (∀ s ∈ pre, s.length = n) → (∀ s ∈ post, s.length = n) →
    K.had_r_128 a pre post = a.mapM (hadRow K.rsqrt pre post)
  slice : ∀ width t bits mcg mul1 start, bitsFromTrellisShape [t.rows, t.cols, t.words] (some mul1) = .ok bits →
    HAD_BLOCK ∣ width → HAD_BLOCK ∣ start → start + width ≤ TILE * t.cols →
    K.reconstruct_slice width t bits mcg mul1 start = .ok (tabulate (TILE * t.rows) fun i =>
      tabulate width fun j => weight K.toExllamav3 t mcg mul1 i (start + j))

end Contracts

/-! ## The reconstruct path -/

/-- `-(-a // b)` -/
def ceilDiv (a b : Nat) : Nat := (a + b - 1) / b

/-- `_reconstruct_tile_n` -/
def reconstructTileN (reconstruct_tile_mb : Int) (k n : Nat) : Except PyError Nat :=
  if reconstruct_tile_mb ≤ 0 ∨ n % HAD_BLOCK ≠ 0 then .ok n
  else if k * 2 = 0 then .error .zeroDivision
  else
    let budget := reconstruct_tile_mb.toNat * 1024 * 1024 / (k * 2)
    if budget ≥ n then .ok n
    else
      let count := ceilDiv n (max budget HAD_BLOCK)
      let tile := ceilDiv (ceilDiv n count) HAD_BLOCK * HAD_BLOCK
      .ok (min (max tile HAD_BLOCK) n)

theorem whole_blocks {tile n : Nat} (htile : HAD_BLOCK ∣ tile) (hlt : min (max tile HAD_BLOCK) n < n) :
    0 < min (max tile HAD_BLOCK) n ∧ HAD_BLOCK ∣ min (max tile HAD_BLOCK) n := by
  have hmin : min (max tile HAD_BLOCK) n = max tile HAD_BLOCK := by omega
  rw [hmin]
  refine ⟨Nat.lt_of_lt_of_le (by decide) (Nat.le_max_right _ _), ?_⟩
  rcases Nat.le_total tile HAD_BLOCK with hle | hle
  · rw [Nat.max_eq_right hle]
  · rwa [Nat.max_eq_left hle]

/-- A tile narrower than the weight is a whole number of blocks, and so is the weight's width. -/
theorem reconstructTileN_lt {reconstruct_tile_mb : Int} {k n tile_n : Nat}
    (h : reconstructTileN reconstruct_tile_mb k n = .ok tile_n) (hlt : tile_n < n) :
    (0 < tile_n ∧ HAD_BLOCK ∣ tile_n) ∧ HAD_BLOCK ∣ n := by
  unfold reconstructTileN at h
  split_ifs at h with hwhole hzero
  · cases h
    exact absurd hlt (Nat.lt_irrefl n)
  · dsimp only at h
    rw [not_or, not_not] at hwhole
    split_ifs at h with hbudget
    · cases h
      exact absurd hlt (Nat.lt_irrefl n)
    · obtain rfl := Except.ok.inj h
      exact ⟨whole_blocks (Nat.dvd_mul_left _ _) hlt, Nat.dvd_of_mod_eq_zero hwhole.2⟩

/-- The tile width is computed for every weight with input rows, and for every weight without a budget. -/
theorem reconstructTileN_ok {reconstruct_tile_mb : Int} {k : Nat} (hk : 0 < k ∨ reconstruct_tile_mb ≤ 0)
    (n : Nat) : ∃ tile_n, reconstructTileN reconstruct_tile_mb k n = .ok tile_n := by
  unfold reconstructTileN
  split_ifs with hwhole hzero
  · exact ⟨n, rfl⟩
  · omega
  · dsimp only
    split_ifs
    · exact ⟨n, rfl⟩
    · exact ⟨_, rfl⟩

section Model

variable [CommRing R] (K : Kernels W R)

/-- `y[:, start : start + tile_n] = product` -/
def setCols (start : Nat) (y product : List (List R)) : List (List R) :=
  List.zipWith (fun row new => row.take start ++ new ++ row.drop (start + new.length)) y product

/-- The tile loop of `_reconstruct_mm`. -/
def reconstructLoop (a_had : List (List R)) (trellis : Trellis W) (bits : Bits) (mcg mul1 : Bool)
    (n tile_n : Nat) (hpos : 0 < tile_n) (y : List (List R)) (off : Nat) :
    Except PyError (List (List R)) :=
  if off < n then
    let start := min off (n - tile_n)
    match K.reconstruct_slice tile_n trellis bits mcg mul1 start with
    | .error err => .error err
    | .ok w =>
      reconstructLoop a_had trellis bits mcg mul1 n tile_n hpos
        (setCols start y (a_had.map fun row => matmul row w tile_n)) (start + tile_n)
  else .ok y
termination_by n - off
decreasing_by omega

/-- `_reconstruct_mm` -/
def reconstructMm (reconstruct_tile_mb : Int) (a : List (List R)) (trellis : Trellis W)
    (suh svh : List R) (mcg mul1 : Bool) : Except PyError (List (List R)) := do
  let bits ← bitsFromTrellisShape [trellis.rows, trellis.cols, trellis.words] (some mul1)
  let k := TILE * trellis.rows
  let n := TILE * trellis.cols
  let a_had ← K.had_r_128 a (some suh) none
  match htile : reconstructTileN reconstruct_tile_mb k n with
  | .error err => .error err
  | .ok tile_n =>
    let y ← if hwhole : n ≤ tile_n then
        .ok (a_had.map fun row => matmul row (reconstruct K.toExllamav3 trellis mcg mul1) n)
      else
        reconstructLoop K a_had trellis bits mcg mul1 n tile_n
          (reconstructTileN_lt htile (Nat.lt_of_not_le hwhole)).1.1 (K.empty a.length n) 0
    K.had_r_128 y none (some svh)

/-! ## The serving paths -/

/-- The rows of `x`, zero-extended where they are narrower than the weight. -/
def inputRows (x : Activations R) (k : Nat) : List (List R) :=
  if x.width < k then x.rows.map (Activations.padRow (k - x.width)) else x.rows

/-- `_exl3_mm`; the casts to and from fp16 are the identity over exact arithmetic. -/
def exl3Mm (reconstruct_threshold reconstruct_tile_mb : Int) (x : Activations R) (trellis : Trellis W)
    (suh svh : List R) (mcg mul1 : Bool) : Except PyError (Activations R) := do
  let n := TILE * trellis.cols
  let k := TILE * trellis.rows
  if x.width = 0 then throw .zeroDivision
  let rows := x.lead.prod * x.width / x.width
  if rows = 0 then Activations.view x.lead n []
  else
    let a := inputRows x k
    let y ← if reconstruct_threshold ≠ 0 ∧ (rows : Int) > reconstruct_threshold then
        reconstructMm K reconstruct_tile_mb a trellis suh svh mcg mul1
      else K.exl3_gemm a trellis suh svh mcg mul1
    Activations.view x.lead n y

/-- `F.linear(row, weight)` -/
def linearRow (weight : List (List R)) (row : List R) : List R :=
  weight.map fun w => (List.zipWith (· * ·) row w).sum

/-- The dequantized reference: `F.linear(x, weight)` for the `weight[:out_size, :input_size]` that
`_store_dense` keeps, at the width of `x`. -/
def denseLinear (ext : Exllamav3 W R) (L : Linear W R) (out_size : Nat) (x : Activations R) :
    Except PyError (Activations R) := do
  let weight ← denseOf ext L
  let weight := (slice 0 out_size weight).map (slice 0 x.width)
  Activations.view x.lead weight.length (x.rows.map (linearRow weight))

end Model

/-! ## What the paths compute, row by row -/

section Rows

variable [CommRing R] {K : Kernels W R} {L : Linear W R} {row : List R}

/-- One row of the layer's output; coordinates past the row's end read as zero. -/
def servedRow (ext : Exllamav3 W R) (L : Linear W R) (row : List R) : List R :=
  tabulate (TILE * L.trellis.cols) (layerAt ext (TILE * L.trellis.rows) (row.getD · 0) (L.suh.getD · 0)
    (weight ext L.trellis L.mcg.isSome L.mul1.isSome) (L.svh.getD · 0))

/-- One row of the product with the inner weight. -/
def innerRow (ext : Exllamav3 W R) (L : Linear W R) (h : List R) : List R :=
  tabulate (TILE * L.trellis.cols) (vecMul (TILE * L.trellis.rows) (h.getD · 0)
    (weight ext L.trellis L.mcg.isSome L.mul1.isSome))

/-- One row of the transformed input. -/
def inputRow (rsqrt : Nat → R) (L : Linear W R) (row : List R) : List R :=
  tabulate (TILE * L.trellis.rows)
    (blockMul HAD_BLOCK (entry (had128 rsqrt)) fun i => row.getD i 0 * L.suh.getD i 0)

theorem getD_padRow (n i : Nat) (row : List R) : (Activations.padRow n row).getD i 0 = row.getD i 0 := by
  simp only [Activations.padRow, List.getD_eq_getElem?_getD, List.getElem?_append]
  split_ifs with hi
  · rfl
  · rw [List.getElem?_eq_none (Nat.le_of_not_lt hi), List.getElem?_replicate]
    split_ifs <;> rfl

/-- Zero-padding a row changes nothing. -/
theorem servedRow_padRow (ext : Exllamav3 W R) (n : Nat) (row : List R) :
    servedRow ext L (Activations.padRow n row) = servedRow ext L row := by
  simp only [servedRow, getD_padRow]

theorem hadRow_pre (hk : HAD_BLOCK ∣ TILE * L.trellis.rows) (hrow : row.length = TILE * L.trellis.rows) :
    hadRow K.rsqrt (some L.suh) none row = .ok (inputRow K.rsqrt L row) := by
  have hscaled := zipWith_eq_tabulate (f := (· * ·)) 0 0 hrow L.suh_eq
  rw [hadRow]
  dsimp only
  rw [hscaled, hadRight_ok (by rwa [length_tabulate]), length_tabulate]
  refine congrArg Except.ok (tabulate_congr fun j hj => ?_)
  exact blockMul_congr hk (fun i hi => getD_tabulate hi) hj

theorem hadRow_post {f : Nat → R} (hn : HAD_BLOCK ∣ TILE * L.trellis.cols) :
    hadRow K.rsqrt none (some L.svh) (tabulate (TILE * L.trellis.cols) f) =
      .ok (tabulate (TILE * L.trellis.cols) fun j =>
        blockMul HAD_BLOCK (entry (had128 K.rsqrt)) f j * L.svh.getD j 0) := by
  rw [hadRow]
  dsimp only
  rw [hadRight_ok (by rwa [length_tabulate]), length_tabulate]
  show Except.ok (List.zipWith _ _ _) = _
  rw [zipWith_eq_tabulate 0 0 (length_tabulate _ _) L.svh_eq]
  refine congrArg Except.ok (tabulate_congr fun j hj => ?_)
  rw [getD_tabulate hj, blockMul_congr hn (fun i hi => getD_tabulate hi) hj]

/-- The output transform turns the inner product of the transformed input into the layer. -/
theorem hadRow_innerRow (hn : HAD_BLOCK ∣ TILE * L.trellis.cols) (row : List R) :
    hadRow K.rsqrt none (some L.svh) (innerRow K.toExllamav3 L (inputRow K.rsqrt L row)) =
      .ok (servedRow K.toExllamav3 L row) := by
  rw [innerRow, hadRow_post hn]
  refine congrArg Except.ok (tabulate_congr fun j hj => ?_)
  rw [layerAt, regularized]
  refine congrArg (· * L.svh.getD j 0) (blockMul_congr hn (fun j _ => ?_) hj)
  exact vecMul_congr (fun i hi => getD_tabulate hi) fun _ _ => rfl

theorem layer_servedRow (hk : HAD_BLOCK ∣ TILE * L.trellis.rows)
    (hn : HAD_BLOCK ∣ TILE * L.trellis.cols) (hrow : row.length = TILE * L.trellis.rows) :
    layer K.toExllamav3 row L.trellis L.suh L.svh L.mcg.isSome L.mul1.isSome =
      .ok (servedRow K.toExllamav3 L row) :=
  layer_ok hrow L.suh_eq L.svh_eq hk hn

/-- A product reads its matrix up to the number of rows, at any length of `h`. -/
theorem matmul_tabulate {k width : Nat} {f : Nat → Nat → R} (h : List R) :
    matmul h (tabulate k fun i => tabulate width (f i)) width =
      tabulate width (vecMul k (h.getD · 0) f) := by
  refine tabulate_congr fun j hj => ?_
  have hrow : ∀ i, entry (tabulate k fun i => tabulate width (f i)) i j = if i < k then f i j else 0 := by
    intro i
    split_ifs with hi
    · exact entry_tabulate hi hj
    · have hnil : (tabulate k fun i => tabulate width (f i)).getD i [] = [] :=
        List.getD_eq_default _ _ (by rw [length_tabulate]; omega)
      rw [entry, hnil, List.getD_nil]
  have hcut : ∀ m, vecMul m (h.getD · 0) (entry (tabulate k fun i => tabulate width (f i))) j =
      vecMul m (fun i => if i < k then h.getD i 0 else 0) f j := by
    intro m
    refine Finset.sum_congr rfl fun i _ => ?_
    show h.getD i 0 * entry _ i j = (if i < k then h.getD i 0 else 0) * f i j
    rw [hrow]
    split_ifs
    · rfl
    · rw [mul_zero, zero_mul]
  calc vecMul h.length (h.getD · 0) (entry (tabulate k fun i => tabulate width (f i))) j
      = vecMul (max h.length k) (h.getD · 0) (entry (tabulate k fun i => tabulate width (f i))) j :=
        (vecMul_of_le (Nat.le_max_left _ _) fun i hi => List.getD_eq_default _ _ hi).symm
    _ = vecMul (max h.length k) (fun i => if i < k then h.getD i 0 else 0) f j := hcut _
    _ = vecMul k (fun i => if i < k then h.getD i 0 else 0) f j :=
        vecMul_of_le (Nat.le_max_right _ _) fun i hi => if_neg (by omega)
    _ = vecMul k (h.getD · 0) f j := vecMul_congr (fun i hi => if_pos hi) fun _ _ => rfl

/-- Multiplying by a tile of the inner weight gives a stretch of the inner product. -/
theorem matmul_tile {start width : Nat} (h : List R) :
    matmul h (tabulate (TILE * L.trellis.rows) fun i => tabulate width fun j =>
        weight K.toExllamav3 L.trellis L.mcg.isSome L.mul1.isSome i (start + j)) width =
      tabulate width fun j => vecMul (TILE * L.trellis.rows) (h.getD · 0)
        (weight K.toExllamav3 L.trellis L.mcg.isSome L.mul1.isSome) (start + j) :=
  matmul_tabulate h

theorem matmul_whole (h : List R) :
    matmul h (reconstruct K.toExllamav3 L.trellis L.mcg.isSome L.mul1.isSome) (TILE * L.trellis.cols) =
      innerRow K.toExllamav3 L h :=
  matmul_tabulate h

/-! ## The tile loop -/

/-- The buffer holds the inner product of every row in the columns below `off`. -/
structure RightBelow (ext : Exllamav3 W R) (L : Linear W R) (a_had y : List (List R)) (off : Nat) :
    Prop where
  length_eq : y.length = a_had.length
  width_eq : ∀ r < a_had.length, (y.getD r []).length = TILE * L.trellis.cols
  done : ∀ r < a_had.length, ∀ j < TILE * L.trellis.cols, j < off →
    (y.getD r []).getD j 0 = (innerRow ext L (a_had.getD r [])).getD j 0

/-- The columns from `start` on of the inner product, for every row. -/
def innerTile (ext : Exllamav3 W R) (L : Linear W R) (start width : Nat) (h : List R) : List R :=
  tabulate width fun j => vecMul (TILE * L.trellis.rows) (h.getD · 0)
    (weight ext L.trellis L.mcg.isSome L.mul1.isSome) (start + j)

omit [CommRing R] in
/-- Row `r` after a tile is written. -/
theorem getD_setCols {y product : List (List R)} {start r : Nat} (hr : r < y.length)
    (hp : r < product.length) : (setCols start y product).getD r [] =
      (y.getD r []).take start ++ product.getD r [] ++
        (y.getD r []).drop (start + (product.getD r []).length) := by
  simp [setCols, List.getD_eq_getElem?_getD, hr, hp]

/-- Writing a tile that starts no later than `off` extends the columns that are right. -/
theorem RightBelow.tile {ext : Exllamav3 W R} {a_had y : List (List R)} {off start width : Nat}
    (h : RightBelow ext L a_had y off) (hstart : start ≤ off)
    (hbound : start + width ≤ TILE * L.trellis.cols) :
    RightBelow ext L a_had (setCols start y (a_had.map (innerTile ext L start width)))
      (start + width) := by
  have hlen := h.length_eq
  have hproduct : ∀ r < a_had.length, (a_had.map (innerTile ext L start width)).getD r [] =
      innerTile ext L start width (a_had.getD r []) := fun r hr => by
    rw [List.getD_eq_getElem _ _ (by rwa [List.length_map]), List.getElem_map,
      List.getD_eq_getElem _ _ hr]
  have hwidth : ∀ row : List R, (innerTile ext L start width row).length = width :=
    fun row => length_tabulate _ _
  refine ⟨?_, fun r hr => ?_, fun r hr j hj hjoff => ?_⟩
  · rw [setCols, List.length_zipWith, List.length_map, hlen, Nat.min_self]
  · rw [getD_setCols (by omega) (by rwa [List.length_map]), hproduct r hr]
    simp only [List.length_append, List.length_take, List.length_drop, hwidth, h.width_eq r hr]
    omega
  · rw [getD_setCols (by omega) (by rwa [List.length_map]), hproduct r hr, getD_splice
      (by rw [hwidth, h.width_eq r hr]; exact hbound), hwidth]
    split_ifs with hin
    · -- a column of this tile
      rw [innerTile, getD_tabulate (by omega), innerRow, getD_tabulate hj, Nat.add_sub_cancel' hin.1]
    · exact h.done r hr j hj (by omega)

/-- A buffer that is right in every column is the inner product. -/
theorem RightBelow.complete {ext : Exllamav3 W R} {a_had y : List (List R)} {off : Nat}
    (h : RightBelow ext L a_had y off) (hoff : TILE * L.trellis.cols ≤ off) :
    y = a_had.map (innerRow ext L) := by
  have hlen := h.length_eq
  refine List.ext_getElem (by rw [hlen, List.length_map]) fun r hr hr' => ?_
  have hra : r < a_had.length := by omega
  have hwidth := h.width_eq r hra
  have hdone := h.done r hra
  rw [List.getD_eq_getElem _ _ hr] at hwidth hdone
  have hrow : tabulate _ (y[r].getD · 0) = y[r] := tabulate_getD 0 hwidth
  rw [List.getElem_map, ← hrow, innerRow]
  refine tabulate_congr fun j hj => ?_
  rw [hdone j hj (by omega), List.getD_eq_getElem _ _ hra, innerRow, getD_tabulate hj]

/-- From a buffer that is right below `off`, the loop completes the inner product: every tile is whole
blocks inside the weight, and the last one is pulled back to end at its edge. -/
theorem reconstructLoop_ok (hK : K.Contract) {bits : Bits} {tile_n : Nat} (hpos : 0 < tile_n)
    (hbits : bitsFromTrellisShape [L.trellis.rows, L.trellis.cols, L.trellis.words]
      (some L.mul1.isSome) = .ok bits)
    (hn : HAD_BLOCK ∣ TILE * L.trellis.cols) (htile : HAD_BLOCK ∣ tile_n)
    (hle : tile_n ≤ TILE * L.trellis.cols) {a_had y : List (List R)} {off : Nat}
    (hoff : HAD_BLOCK ∣ off) (hinv : RightBelow K.toExllamav3 L a_had y off) :
    reconstructLoop K a_had L.trellis bits L.mcg.isSome L.mul1.isSome (TILE * L.trellis.cols) tile_n hpos
      y off = .ok (a_had.map (innerRow K.toExllamav3 L)) := by
  induction hm : TILE * L.trellis.cols - off using Nat.strong_induction_on generalizing y off with
  | _ m ih =>
    rw [reconstructLoop]
    split_ifs with hlt
    · have hbound : min off (TILE * L.trellis.cols - tile_n) + tile_n ≤ TILE * L.trellis.cols := by omega
      have hstart : HAD_BLOCK ∣ min off (TILE * L.trellis.cols - tile_n) := by
        rcases Nat.le_total off (TILE * L.trellis.cols - tile_n) with h | h
        · rwa [Nat.min_eq_left h]
        · rw [Nat.min_eq_right h]
          exact Nat.dvd_sub hn htile
      dsimp only
      rw [hK.slice tile_n L.trellis bits _ _ _ hbits htile hstart hbound]
      dsimp only
      rw [List.map_congr_left fun h _ => matmul_tile h]
      exact ih _ (by omega) (Nat.dvd_add hstart htile) (hinv.tile (Nat.min_le_left _ _) hbound) rfl
    · exact congrArg Except.ok (hinv.complete (Nat.le_of_not_lt hlt))

/-! ## The three results -/

/-- A stored linear the loader has accepted: both widths padded to whole blocks, and a bit width the
format knows. -/
structure Loaded (L : Linear W R) : Prop where
  in_aligned : HAD_BLOCK ∣ TILE * L.trellis.rows
  out_aligned : HAD_BLOCK ∣ TILE * L.trellis.cols
  bits_ok : ∃ bits, bitsFromTrellisShape [L.trellis.rows, L.trellis.cols, L.trellis.words]
    (some L.mul1.isSome) = .ok bits

variable {a : List (List R)}

theorem exl3_gemm_ok (hK : K.Contract) (hL : Loaded L)
    (ha : ∀ row ∈ a, row.length = TILE * L.trellis.rows) :
    K.exl3_gemm a L.trellis L.suh L.svh L.mcg.isSome L.mul1.isSome =
      .ok (a.map (servedRow K.toExllamav3 L)) := by
  rw [hK.gemm a L.trellis L.suh L.svh _ _ ha L.suh_eq L.svh_eq hL.in_aligned hL.out_aligned]
  exact mapM_ok fun row hrow => layer_servedRow hL.in_aligned hL.out_aligned (ha row hrow)

/-- `_reconstruct_mm` with the inner weight decoded whole. -/
def wholeMm (K : Kernels W R) (a : List (List R)) (trellis : Trellis W) (suh svh : List R)
    (mcg mul1 : Bool) : Except PyError (List (List R)) := do
  let _ ← bitsFromTrellisShape [trellis.rows, trellis.cols, trellis.words] (some mul1)
  let a_had ← K.had_r_128 a (some suh) none
  K.had_r_128 (a_had.map fun row => matmul row (reconstruct K.toExllamav3 trellis mcg mul1)
    (TILE * trellis.cols)) none (some svh)

/-- At every budget the product is the whole one. -/
theorem reconstructMm_whole (hK : K.Contract) (hn : HAD_BLOCK ∣ TILE * L.trellis.cols)
    {reconstruct_tile_mb : Int} (hpos : 0 < TILE * L.trellis.rows ∨ reconstruct_tile_mb ≤ 0)
    (hcount : ∀ a_had, K.had_r_128 a (some L.suh) none = .ok a_had → a_had.length = a.length) :
    reconstructMm K reconstruct_tile_mb a L.trellis L.suh L.svh L.mcg.isSome L.mul1.isSome =
      wholeMm K a L.trellis L.suh L.svh L.mcg.isSome L.mul1.isSome := by
  rw [reconstructMm, wholeMm]
  cases hbits : bitsFromTrellisShape [L.trellis.rows, L.trellis.cols, L.trellis.words]
    (some L.mul1.isSome) with
  | error err => rfl
  | ok bits =>
    show K.had_r_128 a (some L.suh) none >>= _ = K.had_r_128 a (some L.suh) none >>= _
    cases hhad : K.had_r_128 a (some L.suh) none with
    | error err => rfl
    | ok a_had =>
      show (match htile : reconstructTileN reconstruct_tile_mb (TILE * L.trellis.rows)
        (TILE * L.trellis.cols) with | .error err => _ | .ok tile_n => _) = K.had_r_128 _ none _
      split
      · next err herr =>
        obtain ⟨tile_n, hok⟩ := reconstructTileN_ok hpos (TILE * L.trellis.cols)
        rw [hok] at herr
        cases herr
      · next tile_n htile =>
        have hempty := hK.empty_rows a.length (TILE * L.trellis.cols)
        split_ifs with hwhole
        · rfl
        · have hlt := Nat.lt_of_not_le hwhole
          rw [reconstructLoop_ok hK _ hbits hn (reconstructTileN_lt htile hlt).1.2 hlt.le
            (Nat.dvd_zero _), List.map_congr_left fun h _ => matmul_whole h]
          · rfl
          · have hlen := hcount a_had hhad
            exact
              { length_eq := by rw [hempty.1, hlen]
                width_eq := fun r hr => by
                  rw [List.getD_eq_getElem _ _ (by rw [hempty.1]; omega)]
                  exact hempty.2 _ (List.getElem_mem _)
                done := fun r _ j _ hj => absurd hj (Nat.not_lt_zero j) }

theorem reconstructMm_ok (hK : K.Contract) (hL : Loaded L) {reconstruct_tile_mb : Int}
    (hpos : 0 < TILE * L.trellis.rows ∨ reconstruct_tile_mb ≤ 0)
    (ha : ∀ row ∈ a, row.length = TILE * L.trellis.rows) :
    reconstructMm K reconstruct_tile_mb a L.trellis L.suh L.svh L.mcg.isSome L.mul1.isSome =
      .ok (a.map (servedRow K.toExllamav3 L)) := by
  obtain ⟨bits, hbits⟩ := hL.bits_ok
  have hpre : K.had_r_128 a (some L.suh) none = .ok (a.map (inputRow K.rsqrt L)) := by
    rw [hK.had a (some L.suh) none _ hL.in_aligned ha (by simp [L.suh_eq]) (by simp)]
    exact mapM_ok fun row hrow => hadRow_pre hL.in_aligned (ha row hrow)
  have hcount : ∀ a_had, K.had_r_128 a (some L.suh) none = .ok a_had → a_had.length = a.length := by
    intro a_had hhad
    rw [hpre] at hhad
    rw [← Except.ok.inj hhad, List.length_map]
  rw [reconstructMm_whole hK hL.out_aligned hpos hcount, wholeMm, hbits]
  show K.had_r_128 a (some L.suh) none >>= _ = _
  rw [hpre]
  show K.had_r_128 _ none _ = _
  rw [List.map_congr_left fun h _ => matmul_whole h, List.map_map,
    hK.had _ none (some L.svh) _ hL.out_aligned (fun row hrow => ?_) (by simp) (by simp [L.svh_eq]),
    List.mapM_map]
  · exact mapM_ok fun row _ => hadRow_innerRow hL.out_aligned row
  · obtain ⟨row', _, rfl⟩ := List.mem_map.mp hrow
    exact length_tabulate _ _

/-- The layer's output for every row of `x`. -/
def served (ext : Exllamav3 W R) (L : Linear W R) (x : Activations R) : Activations R where
  lead := x.lead
  width := TILE * L.trellis.cols
  rows := x.rows.map (servedRow ext L)
  rows_eq := by rw [List.length_map, x.rows_eq]
  width_eq := by
    intro row hrow
    obtain ⟨row', _, rfl⟩ := List.mem_map.mp hrow
    exact length_tabulate _ _

omit [CommRing R] in
theorem view_eq (y : Activations R) : Activations.view y.lead y.width y.rows = .ok y := by
  rw [Activations.view, dif_pos ⟨y.rows_eq, y.width_eq⟩]

theorem served_pad (ext : Exllamav3 W R) (x : Activations R) (width : Nat) :
    served ext L (x.pad width) = served ext L x := by
  refine Activations.eq_of_rows rfl rfl ?_
  show (x.rows.map (Activations.padRow (width - x.width))).map (servedRow ext L) =
    x.rows.map (servedRow ext L)
  rw [List.map_map]
  exact List.map_congr_left fun row _ => servedRow_padRow ext _ row

theorem length_inputRows {x : Activations R} {k : Nat} (hwidth : x.width ≤ k) :
    ∀ row ∈ inputRows x k, row.length = k := by
  intro row hrow
  unfold inputRows at hrow
  split at hrow
  · obtain ⟨row', hrow', rfl⟩ := List.mem_map.mp hrow
    rw [Activations.padRow, List.length_append, List.length_replicate, x.width_eq row' hrow']
    omega
  · rw [x.width_eq row hrow]
    omega

theorem servedRow_inputRows (ext : Exllamav3 W R) (x : Activations R) (k : Nat) :
    (inputRows x k).map (servedRow ext L) = x.rows.map (servedRow ext L) := by
  unfold inputRows
  split
  · rw [List.map_map]
    exact List.map_congr_left fun row _ => servedRow_padRow ext _ row
  · rfl

/-- Both paths of `_exl3_mm` give the layer's output. -/
theorem exl3Mm_ok (hK : K.Contract) (hL : Loaded L) {x : Activations R} (hpos : 0 < x.width)
    (hwidth : x.width ≤ TILE * L.trellis.rows) (reconstruct_threshold reconstruct_tile_mb : Int) :
    exl3Mm K reconstruct_threshold reconstruct_tile_mb x L.trellis L.suh L.svh L.mcg.isSome
      L.mul1.isSome = .ok (served K.toExllamav3 L x) := by
  have hview := view_eq (served K.toExllamav3 L x)
  have hrows := length_inputRows hwidth
  rw [exl3Mm, if_neg (by omega)]
  show (if x.lead.prod * x.width / x.width = 0 then _ else _) = _
  rw [Nat.mul_div_cancel _ hpos]
  rcases eq_or_ne x.lead.prod 0 with hzero | hzero
  · have hnil : x.rows = [] := List.length_eq_zero_iff.mp (x.rows_eq.trans hzero)
    rw [if_pos hzero, ← hview]
    simp only [served, hnil]
    rfl
  · rw [if_neg hzero]
    dsimp only
    rw [reconstructMm_ok hK hL (Or.inl (by omega)) hrows, exl3_gemm_ok hK hL hrows, servedRow_inputRows]
    split_ifs <;> exact hview

/-- The dense reference, trimmed to any width, gives the layer's output trimmed to that width. -/
theorem denseLinear_ok {ext : Exllamav3 W R} (hL : Loaded L) {x : Activations R}
    (hwidth : x.width ≤ TILE * L.trellis.rows) (out_size : Nat) :
    denseLinear ext L out_size x = .ok ((served ext L x).trim out_size) := by
  have hweight : (slice 0 out_size (tabulate (TILE * L.trellis.cols) fun j =>
      tabulate (TILE * L.trellis.rows) fun i => effective ext L i j)).map (slice 0 x.width) =
        tabulate (min out_size (TILE * L.trellis.cols)) fun j =>
          tabulate x.width fun i => effective ext L i j := by
    rw [slice_tabulate_min, Nat.sub_zero, tabulate, List.map_map]
    refine List.map_congr_left fun j _ => ?_
    rw [Function.comp_apply, slice_tabulate hwidth, Nat.sub_zero, Nat.zero_add]
    exact tabulate_congr fun i _ => by rw [Nat.zero_add]
  have hrow : ∀ row ∈ x.rows, linearRow (tabulate (min out_size (TILE * L.trellis.cols)) fun j =>
      tabulate x.width fun i => effective ext L i j) row = slice 0 out_size (servedRow ext L row) := by
    intro row hrow
    have hlen := x.width_eq row hrow
    rw [servedRow, slice_tabulate_min, Nat.sub_zero, linearRow, tabulate, List.map_map]
    refine List.map_congr_left fun j _ => ?_
    rw [Function.comp_apply, Nat.zero_add, zipWith_eq_tabulate 0 0 hlen (length_tabulate _ _), layerAt,
      ← vecMul_unregularized hL.in_aligned, vecMul_of_le hwidth fun i hi => List.getD_eq_default _ _ (by omega),
      tabulate, sum_map_range]
    refine Finset.sum_congr rfl fun i hi => ?_
    rw [getD_tabulate (Finset.mem_range.mp hi)]
    rfl
  rw [denseLinear, denseOf_ok hL.in_aligned hL.out_aligned]
  show Activations.view _ _ _ = _
  have hmap : x.rows.map (fun row => slice 0 out_size (servedRow ext L row)) =
      (x.rows.map (servedRow ext L)).map (slice 0 out_size) := by
    rw [List.map_map]
    rfl
  rw [hweight, length_tabulate, List.map_congr_left hrow, hmap]
  exact view_eq ((served ext L x).trim out_size)

theorem trim_served (ext : Exllamav3 W R) (L : Linear W R) (x : Activations R) :
    (served ext L x).trim (TILE * L.trellis.cols) = served ext L x := by
  refine Activations.eq_of_rows rfl (Nat.min_self _) ?_
  refine (List.map_congr_left fun row hrow => ?_).trans (List.map_id _)
  exact slice_zero_length ((served ext L x).width_eq row hrow).le

/-- One result `y` on every path: at every threshold and tile budget `_exl3_mm` returns it, the dense
reference trimmed to `out_size` returns its first `out_size` columns, and neither changes when the
input is zero-padded up to the weight's width. -/
theorem exl3_mm_exact (K : Kernels W R) (hK : K.Contract) (L : Linear W R) (hL : Loaded L)
    (x : Activations R) (hpos : 0 < x.width) (hwidth : x.width ≤ TILE * L.trellis.rows) :
    ∃ y : Activations R, y.lead = x.lead ∧ y.width = TILE * L.trellis.cols ∧
      (∀ reconstruct_threshold reconstruct_tile_mb, exl3Mm K reconstruct_threshold reconstruct_tile_mb x
        L.trellis L.suh L.svh L.mcg.isSome L.mul1.isSome = .ok y) ∧
      denseLinear K.toExllamav3 L (TILE * L.trellis.cols) x = .ok y ∧
      (∀ out_size, denseLinear K.toExllamav3 L out_size x = .ok (y.trim out_size)) ∧
      ∀ width, x.width ≤ width → width ≤ TILE * L.trellis.rows →
        (∀ reconstruct_threshold reconstruct_tile_mb, exl3Mm K reconstruct_threshold reconstruct_tile_mb
          (x.pad width) L.trellis L.suh L.svh L.mcg.isSome L.mul1.isSome = .ok y) ∧
        ∀ out_size, denseLinear K.toExllamav3 L out_size (x.pad width) = .ok (y.trim out_size) := by
  refine ⟨served K.toExllamav3 L x, rfl, rfl, exl3Mm_ok hK hL hpos hwidth, ?_,
    denseLinear_ok hL hwidth, fun width hle hin => ⟨?_, ?_⟩⟩
  · rw [denseLinear_ok hL hwidth, trim_served]
  · have hpad : (x.pad width).width ≤ TILE * L.trellis.rows := by
      show x.width + (width - x.width) ≤ _
      omega
    rw [← served_pad K.toExllamav3 x width]
    exact exl3Mm_ok hK hL (by show 0 < x.width + _; omega) hpad
  · have hpad : (x.pad width).width ≤ TILE * L.trellis.rows := by
      show x.width + (width - x.width) ≤ _
      omega
    rw [← served_pad K.toExllamav3 x width]
    exact denseLinear_ok hL hpad

/-- The kernels computed as their contracts state them. -/
def Kernels.exact (ext : Exllamav3 W R) : Kernels W R where
  toExllamav3 := ext
  empty m n := List.replicate m (List.replicate n 0)
  exl3_gemm a t suh svh mcg mul1 := a.mapM fun row => layer ext row t suh svh mcg mul1
  had_r_128 a pre post := a.mapM (hadRow ext.rsqrt pre post)
  reconstruct_slice width t _ mcg mul1 start := .ok (tabulate (TILE * t.rows) fun i =>
    tabulate width fun j => weight ext t mcg mul1 i (start + j))

theorem Kernels.exact_contract (ext : Exllamav3 W R) : (Kernels.exact ext).Contract where
  empty_rows m n := ⟨List.length_replicate, fun row hrow => by
    rw [List.eq_of_mem_replicate hrow, List.length_replicate]⟩
  gemm _ _ _ _ _ _ _ _ _ _ _ := rfl
  had _ _ _ _ _ _ _ _ := rfl
  slice _ _ _ _ _ _ _ _ _ _ := rfl

end Rows

/-! ### One token of 200 channels into a 256 × 256 linear, and one of no channels -/

theorem zeroLinear_loaded : Loaded zeroLinear where
  in_aligned := by decide
  out_aligned := by decide
  bits_ok := ⟨.int 3, by decide⟩

def oneToken (width : Nat) : Activations Rat where
  lead := [1]
  width := width
  rows := [List.replicate width 1]
  rows_eq := rfl
  width_eq := by
    intro row hrow
    rw [List.mem_singleton.mp hrow, List.length_replicate]

theorem oneToken_paths_exact :
    ∃ y : Activations Rat, (∀ threshold tile_mb, exl3Mm (Kernels.exact zeroStateExt) threshold tile_mb
        (oneToken 200) zeroLinear.trellis zeroLinear.suh zeroLinear.svh false false = .ok y) ∧
      denseLinear zeroStateExt zeroLinear 256 (oneToken 200) = .ok y := by
  obtain ⟨y, _, _, hserved, hdense, _⟩ :=
    exl3_mm_exact (Kernels.exact zeroStateExt) (Kernels.exact_contract zeroStateExt) zeroLinear
      zeroLinear_loaded (oneToken 200) (by decide) (by decide)
  exact ⟨y, hserved, hdense⟩

/-- At width zero the row count `x.numel() // x.shape[-1]` divides by zero, and the dense product is
a row of zeros. -/
theorem noChannels_paths_differ :
    (Kernels.exact zeroStateExt).Contract ∧ Loaded zeroLinear ∧ (oneToken 0).width ≤ 256 ∧
      exl3Mm (Kernels.exact zeroStateExt) 144 32 (oneToken 0) zeroLinear.trellis zeroLinear.suh
        zeroLinear.svh false false = .error .zeroDivision ∧
      ∃ y, denseLinear zeroStateExt zeroLinear 256 (oneToken 0) = .ok y :=
  ⟨Kernels.exact_contract zeroStateExt, zeroLinear_loaded, by decide, rfl,
    ⟨_, denseLinear_ok zeroLinear_loaded (by decide) 256⟩⟩

end VllmExl3.Ops
