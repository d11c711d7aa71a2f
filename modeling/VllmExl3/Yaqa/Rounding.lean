/-
# VllmExl3.Yaqa.Rounding — the wavefront sweep of two-sided rounding

`yaqa_round` (`tools/yaqa/rounding.py`) rounds a `(k, n)` weight in 16 × 16 tiles, in anti-diagonal
waves from the bottom-right corner. A wave hands its tiles to the quantizer in one batch, each with
the feedback of what is already rounded, and then writes the rounded tiles, their errors and their
codes.

The arithmetic is exact, over any ring. A tensor is given by its entries and the sizes travel beside
it; a slice keeps its offsets, and every use reads inside its sizes. The quantizer and the two
permutations of `exllamav3` are parameters. `stats` and the progress lines are left out: nothing that
is returned depends on them.
-/
import Mathlib.Algebra.BigOperators.Intervals
import Mathlib.Algebra.BigOperators.Ring.Finset
import Mathlib.Algebra.Ring.Basic
import Mathlib.Data.List.ProdSigma
import Mathlib.Logic.Function.Basic

namespace VllmExl3.Yaqa

/-! ## Tensors -/

/-- A two-dimensional tensor by its entries. -/
abbrev Mat (R : Type) := Nat → Nat → R

/-- A `(16, 16)` tensor. -/
abbrev Tile (R : Type) := Fin 16 → Fin 16 → R

variable {R C : Type}

/-- `M[r:, c:]` -/
def slice (M : Mat R) (r c : Nat) : Mat R := fun a b => M (r + a) (c + b)

/-- `M.T` -/
def transpose (M : Mat R) : Mat R := fun a b => M b a

/-- `A @ B` over an inner dimension of `m`. -/
def matmul [Ring R] (m : Nat) (A B : Mat R) : Mat R := fun a b => ∑ c ∈ Finset.range m, A a c * B c b

/-- `M[r : r + 16, c : c + 16]` -/
def tile (M : Mat R) (r c : Nat) : Tile R := fun a b => M (r + a) (c + b)

/-- `M[r : r + 16, c : c + 16] = T` -/
def setTile (M : Mat R) (r c : Nat) (T : Tile R) : Mat R := fun x y =>
  if h : (r ≤ x ∧ x < r + 16) ∧ c ≤ y ∧ y < c + 16 then T ⟨x - r, by omega⟩ ⟨y - c, by omega⟩ else M x y

/-- `T.reshape(256)` -/
def flat (T : Tile R) : Fin 256 → R := fun x => T ⟨x / 16, by omega⟩ ⟨x % 16, by omega⟩

/-- `v.reshape(16, 16)` -/
def unflat (v : Fin 256 → R) : Tile R := fun a b => v ⟨16 * a + b, by omega⟩

@[simp] theorem unflat_flat (T : Tile R) : unflat (flat T) = T := by
  funext a b
  have ha : (16 * (a : Nat) + b) / 16 = a := by omega
  have hb : (16 * (a : Nat) + b) % 16 = b := by omega
  simp [unflat, flat, ha, hb]

/-! ## The parts of `exllamav3` -/

/-- `tensor_core_perm`, `tensor_core_perm_i` and `quantize_tiles_multigpu` at fixed arguments: for each
tile of the batch, the rounded values and the code. -/
structure TileQuantizer (R C : Type) where
  tensorCorePerm : Fin 256 → Fin 256
  tensorCorePermI : Fin 256 → Fin 256
  quantizeTiles : List (Fin 256 → R) → List ((Fin 256 → R) × C)

/-- The documented behaviour: the second permutation undoes the first, and the quantizer takes each
tile of a batch by itself, the tile `T` to the values of `Q T` and to `code T`. -/
structure TileQuantizer.Rounds (ext : TileQuantizer R C) (Q : Tile R → Tile R) (code : Tile R → C) :
    Prop where
  inverts : ∀ x, ext.tensorCorePerm (ext.tensorCorePermI x) = x
  tilewise : ∀ tiles, ext.quantizeTiles tiles = tiles.map fun v =>
    (fun x => flat (Q (unflat fun y => v (ext.tensorCorePermI y))) (ext.tensorCorePerm x),
      code (unflat fun y => v (ext.tensorCorePermI y)))

/-! ## The sweep -/

section Sweep

variable [Ring R] (ext : TileQuantizer R C) (k n : Nat) (weight L_I : Mat R) (L_O : Option (Mat R))

/-- The tiles of wave `d`, bottom row first. -/
def coords (tilesK tilesN d : Nat) : List (Nat × Nat) :=
  (List.range tilesK).reverse.filterMap fun (i : Nat) =>
    let j : Int := ((tilesN : Int) - 1) - ((d : Int) - ((tilesK : Int) - 1 - i))
    if 0 ≤ j ∧ j < tilesN then some (i, j.toNat) else none

/-- `comp`: the feedback of the errors `delta` on tile `(i, j)`. -/
def comp (delta : Mat R) (i j : Nat) : Tile R :=
  let lI := transpose (slice L_I (i * 16) (i * 16))
  let T := matmul (k - i * 16) lI (slice delta (i * 16) (j * 16))
  match L_O with
  | none => tile T 0 0
  | some L_O =>
    let lO := slice L_O (j * 16) (j * 16)
    fun a b => T a b + matmul (n - j * 16) T lO a b
      + matmul (n - j * 16) (slice delta (i * 16) (j * 16)) lO a b

/-- What the sweep has written, and what it has handed to the quantizer. -/
structure Sweep (R C : Type) where
  weightQ : Mat R
  delta : Mat R
  encoded : Nat → Nat → C
  /-- Each tile handed to the quantizer, with its place, in order. -/
  handed : List ((Nat × Nat) × Tile R)

/-- The writes of one rounded tile. -/
def put (st : Sweep R C) (p : (Nat × Nat) × Tile R × C) : Sweep R C :=
  let i := p.1.1
  let j := p.1.2
  { st with
    weightQ := setTile st.weightQ (i * 16) (j * 16) p.2.1
    delta := setTile st.delta (i * 16) (j * 16) fun a b => tile weight (i * 16) (j * 16) a b - p.2.1 a b
    encoded := Function.update st.encoded i (Function.update (st.encoded i) j p.2.2) }

/-- One wave: every tile of the batch reads `delta` as it was before the wave. -/
def wave (st : Sweep R C) (d : Nat) : Sweep R C :=
  let cs := coords (k / 16) (n / 16) d
  if cs = [] then st
  else
    let batch := cs.map fun p => fun a b =>
      tile weight (p.1 * 16) (p.2 * 16) a b + comp k n L_I L_O st.delta p.1 p.2 a b
    let quant := ext.quantizeTiles (batch.map fun T x => flat T (ext.tensorCorePerm x))
    let quantW := quant.map fun q => (unflat fun x => q.1 (ext.tensorCorePermI x), q.2)
    (cs.zip quantW).foldl (put weight) { st with handed := st.handed ++ cs.zip batch }

/-- The state after the first `d` waves. -/
def waves [Zero C] (d : Nat) : Sweep R C :=
  (List.range d).foldl (wave ext k n weight L_I L_O)
    { weightQ := fun _ _ => 0, delta := fun _ _ => 0, encoded := fun _ _ => 0, handed := [] }

/-- `num_waves` -/
def numWaves : Nat := k / 16 + n / 16 - 1

/-- `yaqa_round`; `none` is the assertion on the shape. -/
def yaqaRound [Zero C] : Option (Mat R × (Nat → Nat → C)) :=
  if k % 16 = 0 ∧ n % 128 = 0 then
    let st := waves ext k n weight L_I L_O (numWaves k n)
    some (st.weightQ, st.encoded)
  else none

end Sweep

end VllmExl3.Yaqa
