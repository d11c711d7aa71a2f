/-
# VllmExl3.TensorParallel.Ops — the EXL3 layer over exact arithmetic (`ops.py`)

`H_n(H_k(x * suh) @ W) * svh`, computed on lists over a commutative ring. `H` is the blockwise
Hadamard of `had_right`, with the source's Sylvester doubling; its normaliser `1 / math.sqrt(n)` is an
arbitrary ring element. `W` is decoded tile by tile: what one tile of words decodes to is exllamav3's
and a parameter here, so decoding a slice of the tiles is slicing the decoded matrix.

Each operation of the layer acts on the rows of its input separately; `x` is one such row.
-/
import VllmExl3.TensorParallel.Tp
import VllmExl3.Lib.BlockLinear

namespace VllmExl3.TensorParallel

open Format (TILE HAD_BLOCK)

/-! ## Definitions -/

section Ops

variable {W R : Type} [CommRing R]

/-- What exllamav3 supplies: the decoder of one 16×16 tile of words under the two codebook flags, and
the normaliser of a Hadamard transform of a given order. -/
structure Exllamav3 (W R : Type) where
  decodeTile : List W → Bool → Bool → Nat → Nat → R
  rsqrt : Nat → R

/-- One doubling of `_hadamard`'s loop: `[[had, had], [had, -had]]`. -/
def hadamardDouble (had : List (List R)) : List (List R) :=
  had.map (fun row => row ++ row) ++ had.map fun row => row ++ row.map fun a => -a

/-- `while had.shape[0] < n`. Every doubling adds a row, so `n` iterations suffice. -/
def hadamardLoop (n : Nat) : Nat → List (List R) → List (List R)
  | 0, had => had
  | fuel + 1, had => if had.length < n then hadamardLoop n fuel (hadamardDouble had) else had

/-- `_hadamard` -/
def hadamard (rsqrt : Nat → R) (n : Nat) : Except PyError (List (List R)) :=
  if n &&& (n - 1) ≠ 0 then .error (.value s!"Hadamard order {n} is not a power of two")
  else if n = 0 then .error .zeroDivision
  else .ok ((hadamardLoop n n [[1]]).map fun row => row.map fun a => a * rsqrt n)

/-- Entry `(i, j)` of a matrix given by its rows. -/
def entry (m : List (List R)) (i j : Nat) : R := (m.getD i []).getD j 0

/-- `had_right` on one row. -/
def hadRight (rsqrt : Nat → R) (block : Nat) (x : List R) : Except PyError (List R) :=
  if x.length % block ≠ 0 then .error (.assertion
    s!"{x.length} is not a multiple of the Hadamard block size {block}")
  else do
    let had ← hadamard rsqrt block
    return tabulate x.length (blockMul block (entry had) (x.getD · 0))

/-- `reconstruct`: the inner weight, `16 * rows` by `16 * cols`. -/
def reconstruct (ext : Exllamav3 W R) (t : Trellis W) (mcg mul1 : Bool) : List (List R) :=
  tabulate (TILE * t.rows) fun i => tabulate (TILE * t.cols) fun j =>
    ext.decodeTile (t.tile (i / TILE) (j / TILE)) mcg mul1 (i % TILE) (j % TILE)

/-- `x @ w` for one row `x` and a matrix with `n` columns. -/
def matmul (x : List R) (w : List (List R)) (n : Nat) : List R :=
  tabulate n (vecMul x.length (x.getD · 0) (entry w))

/-- The layer: `H_n(H_k(x * suh) @ W) * svh`. -/
def layer (ext : Exllamav3 W R) (x : List R) (trellis : Trellis W) (suh svh : List R)
    (mcg mul1 : Bool) : Except PyError (List R) := do
  let h ← hadRight ext.rsqrt HAD_BLOCK (List.zipWith (· * ·) x suh)
  let y ← hadRight ext.rsqrt HAD_BLOCK
    (matmul h (reconstruct ext trellis mcg mul1) (TILE * trellis.cols))
  return List.zipWith (· * ·) y svh

end Ops

/-! ## The layer as a function of its coordinates -/

section Weight

variable {W R : Type} {ext : Exllamav3 W R}

/-- The inner weight's entries, as a function of the two indices. -/
def weight (ext : Exllamav3 W R) (t : Trellis W) (mcg mul1 : Bool) (i j : Nat) : R :=
  ext.decodeTile (t.tile (i / TILE) (j / TILE)) mcg mul1 (i % TILE) (j % TILE)

/-- Decoding a slice of tile rows is slicing the rows of the decode. -/
theorem weight_sliceRows {t : Trellis W} {mcg mul1 : Bool} {a b i j : Nat}
    (hi : i < TILE * (b - a)) :
    weight ext (t.sliceRows a b) mcg mul1 i j = weight ext t mcg mul1 (TILE * a + i) j := by
  have hdiv : (TILE * a + i) / TILE = a + i / TILE := by
    simp only [TILE]
    omega
  have hmod : (TILE * a + i) % TILE = i % TILE := Nat.mul_add_mod _ _ _
  have hlt : i / TILE < b - a := Nat.div_lt_of_lt_mul hi
  rw [weight, weight, hdiv, hmod, Trellis.tile_sliceRows hlt]

/-- Decoding a slice of tile columns is slicing the columns of the decode. -/
theorem weight_sliceCols {t : Trellis W} {mcg mul1 : Bool} {a b i j : Nat}
    (hj : j < TILE * (b - a)) :
    weight ext (t.sliceCols a b) mcg mul1 i j = weight ext t mcg mul1 i (TILE * a + j) := by
  have hdiv : (TILE * a + j) / TILE = a + j / TILE := by
    simp only [TILE]
    omega
  have hmod : (TILE * a + j) % TILE = j % TILE := Nat.mul_add_mod _ _ _
  have hlt : j / TILE < b - a := Nat.div_lt_of_lt_mul hj
  rw [weight, weight, hdiv, hmod, Trellis.tile_sliceCols hlt]

end Weight

variable {W R : Type} [CommRing R] {ext : Exllamav3 W R}

theorem entry_reconstruct {t : Trellis W} {mcg mul1 : Bool} {i j : Nat} (hi : i < TILE * t.rows)
    (hj : j < TILE * t.cols) :
    entry (reconstruct ext t mcg mul1) i j = weight ext t mcg mul1 i j := by
  rw [entry, reconstruct, getD_tabulate hi, getD_tabulate hj, weight]

/-- The normalised Hadamard matrix of order `HAD_BLOCK`. -/
def had128 (rsqrt : Nat → R) : List (List R) :=
  (hadamardLoop HAD_BLOCK HAD_BLOCK [[1]]).map fun row => row.map fun a => a * rsqrt HAD_BLOCK

/-- The assertion error of a transform of width `k`. -/
def hadError (k : Nat) : PyError :=
  .assertion s!"{k} is not a multiple of the Hadamard block size {HAD_BLOCK}"

theorem hadRight_error {rsqrt : Nat → R} {x : List R} (h : ¬HAD_BLOCK ∣ x.length) :
    hadRight rsqrt HAD_BLOCK x = .error (hadError x.length) := by
  rw [hadRight, if_pos fun hmod => h (Nat.dvd_of_mod_eq_zero hmod)]
  rfl

theorem hadRight_ok {rsqrt : Nat → R} {x : List R} (h : HAD_BLOCK ∣ x.length) :
    hadRight rsqrt HAD_BLOCK x =
      .ok (tabulate x.length (blockMul HAD_BLOCK (entry (had128 rsqrt)) (x.getD · 0))) := by
  rw [hadRight, if_neg (not_not.mpr (Nat.mod_eq_zero_of_dvd h))]
  rfl

/-- Coordinate `j` of the layer's output, over index functions. -/
def layerAt (ext : Exllamav3 W R) (k : Nat) (x suh : Nat → R) (w : Nat → Nat → R) (svh : Nat → R)
    (j : Nat) : R :=
  regularized HAD_BLOCK (entry (had128 ext.rsqrt)) k x suh w svh j

section Layer

variable {x suh svh : List R} {t : Trellis W} {mcg mul1 : Bool}

theorem layer_error_in (hx : x.length = TILE * t.rows) (hsuh : suh.length = TILE * t.rows)
    (hk : ¬HAD_BLOCK ∣ TILE * t.rows) :
    layer ext x t suh svh mcg mul1 = .error (hadError (TILE * t.rows)) := by
  have hlen : (List.zipWith (· * ·) x suh).length = TILE * t.rows := by simp [hx, hsuh]
  rw [layer, hadRight_error (by rwa [hlen]), hlen]
  rfl

theorem layer_error_out (hx : x.length = TILE * t.rows) (hsuh : suh.length = TILE * t.rows)
    (hk : HAD_BLOCK ∣ TILE * t.rows) (hn : ¬HAD_BLOCK ∣ TILE * t.cols) :
    layer ext x t suh svh mcg mul1 = .error (hadError (TILE * t.cols)) := by
  have hlen : (List.zipWith (· * ·) x suh).length = TILE * t.rows := by simp [hx, hsuh]
  rw [layer, hadRight_ok (by rwa [hlen])]
  show hadRight _ _ _ >>= _ = _
  rw [hadRight_error (by rwa [matmul, length_tabulate]), matmul, length_tabulate]
  rfl

/-- The layer on tensors whose shapes fit, over index functions. -/
theorem layer_ok (hx : x.length = TILE * t.rows) (hsuh : suh.length = TILE * t.rows)
    (hsvh : svh.length = TILE * t.cols) (hk : HAD_BLOCK ∣ TILE * t.rows)
    (hn : HAD_BLOCK ∣ TILE * t.cols) :
    layer ext x t suh svh mcg mul1 =
      .ok (tabulate (TILE * t.cols) (layerAt ext (TILE * t.rows) (x.getD · 0) (suh.getD · 0)
        (weight ext t mcg mul1) (svh.getD · 0))) := by
  have hscaled := zipWith_eq_tabulate (f := (· * ·)) 0 0 hx hsuh
  rw [layer, hscaled, hadRight_ok (by rwa [length_tabulate]), length_tabulate]
  show hadRight _ _ _ >>= _ = _
  rw [hadRight_ok (by rwa [matmul, length_tabulate]), matmul, length_tabulate, length_tabulate]
  show Except.ok (List.zipWith _ _ _) = _
  rw [zipWith_eq_tabulate 0 0 (length_tabulate _ _) hsvh]
  refine congrArg Except.ok (tabulate_congr fun j hj => ?_)
  rw [getD_tabulate hj, layerAt, regularized]
  -- inside the bounds, reading a tabulated list is reading the function it was tabulated from
  refine congrArg (· * svh.getD j 0) (blockMul_congr hn (fun j hj => ?_) hj)
  rw [getD_tabulate hj]
  refine vecMul_congr (fun i hi => ?_) fun i hi => entry_reconstruct hi hj
  rw [getD_tabulate hi]
  exact blockMul_congr hk (fun i hi => getD_tabulate hi) hi

end Layer

end VllmExl3.TensorParallel
