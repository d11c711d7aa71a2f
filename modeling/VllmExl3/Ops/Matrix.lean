/-
# VllmExl3.Ops.Matrix — decoding a trellis to a dense matrix (`ops.py`)

`had_left`, `had_right` and `dense_weight` on whole matrices, given by their rows. The four steps
that undo the regularization of an inner weight appear three times in the source, once per serving
path; they are one definition here, and its spec gives every entry of the result as
`unregularized` at the entry's own row and column.
-/
import VllmExl3.TensorParallel.Dense

namespace VllmExl3.Ops

open Format (TILE HAD_BLOCK)
open TensorParallel

variable {W R : Type} [CommRing R]

/-! ## Definitions -/

/-- `had_left` on a `(k, n)` matrix. -/
def hadLeft (rsqrt : Nat → R) (block : Nat) (w : List (List R)) (n : Nat) :
    Except PyError (List (List R)) :=
  if w.length % block ≠ 0 then .error (.assertion
    s!"{w.length} is not a multiple of the Hadamard block size {block}")
  else do
    let had ← hadamard rsqrt block
    return tabulate w.length fun i => tabulate n (blockMulLeft block (entry had) (entry w) i)

/-- `had_right` on a `(k, n)` matrix. -/
def hadRightMatrix (rsqrt : Nat → R) (block : Nat) (w : List (List R)) (n : Nat) :
    Except PyError (List (List R)) :=
  if n % block ≠ 0 then .error (.assertion
    s!"{n} is not a multiple of the Hadamard block size {block}")
  else do
    let had ← hadamard rsqrt block
    return tabulate w.length fun i => tabulate n (blockMul block (entry had) (entry w i))

/-- `w * suh.unsqueeze(1)` -/
def scaleRows (w : List (List R)) (suh : List R) : List (List R) :=
  List.zipWith (fun row s => row.map (· * s)) w suh

/-- `w * svh.unsqueeze(0)` -/
def scaleCols (w : List (List R)) (svh : List R) : List (List R) :=
  w.map fun row => List.zipWith (· * ·) row svh

/-- The steps between the inner weight, with `n` columns, and the effective one. -/
def undoRegularization (ext : Exllamav3 W R) (w : List (List R)) (n : Nat) (suh svh : List R) :
    Except PyError (List (List R)) := do
  let w ← hadLeft ext.rsqrt HAD_BLOCK w n
  let w := scaleRows w suh
  let w ← hadRightMatrix ext.rsqrt HAD_BLOCK w n
  return scaleCols w svh

/-- `dense_weight`; the transposed result has one row per output channel. -/
def denseWeight (ext : Exllamav3 W R) (trellis : Trellis W) (suh svh : List R) (mcg mul1 : Bool) :
    Except PyError (List (List R)) := do
  let n := TILE * trellis.cols
  let w ← undoRegularization ext (reconstruct ext trellis mcg mul1) n suh svh
  return tabulate n fun j => tabulate w.length fun i => entry w i j

/-! ## Entries -/

theorem entry_tabulate {k n i j : Nat} {f : Nat → Nat → R} (hi : i < k) (hj : j < n) :
    entry (tabulate k fun i => tabulate n (f i)) i j = f i j := by
  rw [entry, getD_tabulate hi, getD_tabulate hj]

variable {ext : Exllamav3 W R}

theorem hadLeft_ok {w : List (List R)} {n : Nat} (h : HAD_BLOCK ∣ w.length) :
    hadLeft ext.rsqrt HAD_BLOCK w n = .ok (tabulate w.length fun i =>
      tabulate n (blockMulLeft HAD_BLOCK (entry (had128 ext.rsqrt)) (entry w) i)) := by
  rw [hadLeft, if_neg (not_not.mpr (Nat.mod_eq_zero_of_dvd h))]
  rfl

theorem hadRightMatrix_ok {w : List (List R)} {n : Nat} (h : HAD_BLOCK ∣ n) :
    hadRightMatrix ext.rsqrt HAD_BLOCK w n = .ok (tabulate w.length fun i =>
      tabulate n (blockMul HAD_BLOCK (entry (had128 ext.rsqrt)) (entry w i))) := by
  rw [hadRightMatrix, if_neg (not_not.mpr (Nat.mod_eq_zero_of_dvd h))]
  rfl

theorem scaleRows_tabulate {k n : Nat} {f : Nat → Nat → R} {suh : List R} (hsuh : suh.length = k) :
    scaleRows (tabulate k fun i => tabulate n (f i)) suh =
      tabulate k fun i => tabulate n fun j => f i j * suh.getD i 0 := by
  rw [scaleRows, zipWith_eq_tabulate [] 0 (length_tabulate k _) hsuh]
  refine tabulate_congr fun i hi => ?_
  rw [getD_tabulate hi, tabulate, List.map_map]
  rfl

theorem scaleCols_tabulate {k n : Nat} {f : Nat → Nat → R} {svh : List R} (hsvh : svh.length = n) :
    scaleCols (tabulate k fun i => tabulate n (f i)) svh =
      tabulate k fun i => tabulate n fun j => f i j * svh.getD j 0 := by
  rw [scaleCols, tabulate, List.map_map]
  refine List.map_congr_left fun i _ => ?_
  show List.zipWith (· * ·) (tabulate n (f i)) svh = _
  rw [zipWith_eq_tabulate 0 0 (length_tabulate n _) hsvh]
  exact tabulate_congr fun j hj => by rw [getD_tabulate hj]

variable (ext) in
/-- The effective weight, entry by entry. -/
theorem undoRegularization_ok {k n : Nat} (f : Nat → Nat → R) {suh svh : List R} (hk : HAD_BLOCK ∣ k)
    (hn : HAD_BLOCK ∣ n) (hsuh : suh.length = k) (hsvh : svh.length = n) :
    undoRegularization ext (tabulate k fun i => tabulate n (f i)) n suh svh =
      .ok (tabulate k fun i => tabulate n (unregularized HAD_BLOCK (entry (had128 ext.rsqrt)) f
        (suh.getD · 0) (svh.getD · 0) i)) := by
  rw [undoRegularization, hadLeft_ok (by rwa [length_tabulate]), length_tabulate]
  show hadRightMatrix _ _ _ _ >>= _ = _
  rw [scaleRows_tabulate hsuh, hadRightMatrix_ok hn, length_tabulate]
  show Except.ok (scaleCols _ _) = _
  rw [scaleCols_tabulate hsvh]
  refine congrArg Except.ok (tabulate_congr fun i hi => tabulate_congr fun j hj => ?_)
  rw [unregularized]
  refine congrArg (· * svh.getD j 0) (blockMul_congr hn (fun j hj => ?_) hj)
  rw [entry_tabulate hi hj]
  refine congrArg (· * suh.getD i 0) (blockMulLeft_congr hk (fun i hi => ?_) hi)
  exact entry_tabulate hi hj

/-- An inner weight whose rows are not whole blocks is refused. -/
theorem undoRegularization_error {w : List (List R)} {n : Nat} {suh svh : List R}
    (hk : ¬HAD_BLOCK ∣ w.length) :
    undoRegularization ext w n suh svh = .error (hadError w.length) := by
  rw [undoRegularization, hadLeft, if_pos fun hmod => hk (Nat.dvd_of_mod_eq_zero hmod)]
  rfl

/-! ## The dense weight of a stored linear -/

/-- Entry `(i, j)` of the effective weight of a stored linear, input channel first. -/
def effective (ext : Exllamav3 W R) (L : Linear W R) (i j : Nat) : R :=
  unregularized HAD_BLOCK (entry (had128 ext.rsqrt)) (weight ext L.trellis L.mcg.isSome L.mul1.isSome)
    (L.suh.getD · 0) (L.svh.getD · 0) i j

/-- `dense_weight` of a stored linear -/
def denseOf (ext : Exllamav3 W R) (L : Linear W R) : Except PyError (List (List R)) :=
  denseWeight ext L.trellis L.suh L.svh L.mcg.isSome L.mul1.isSome

variable {L : Linear W R}

theorem denseOf_ok (hk : HAD_BLOCK ∣ TILE * L.trellis.rows) (hn : HAD_BLOCK ∣ TILE * L.trellis.cols) :
    denseOf ext L = .ok (tabulate (TILE * L.trellis.cols) fun j =>
      tabulate (TILE * L.trellis.rows) fun i => effective ext L i j) := by
  have hundo := undoRegularization_ok ext (weight ext L.trellis L.mcg.isSome L.mul1.isSome) hk hn
    L.suh_eq L.svh_eq
  rw [denseOf, denseWeight]
  show undoRegularization ext (tabulate _ fun i => tabulate _ (weight ext L.trellis _ _ i)) _ _ _ >>= _ = _
  rw [hundo]
  show Except.ok _ = _
  refine congrArg Except.ok (tabulate_congr fun j hj => ?_)
  rw [length_tabulate]
  exact tabulate_congr fun i hi => entry_tabulate hi hj

theorem denseOf_error (hk : ¬HAD_BLOCK ∣ TILE * L.trellis.rows) :
    denseOf ext L = .error (hadError (TILE * L.trellis.rows)) := by
  have hlen : (reconstruct ext L.trellis L.mcg.isSome L.mul1.isSome).length = TILE * L.trellis.rows :=
    length_tabulate _ _
  rw [denseOf, denseWeight, undoRegularization_error (by rwa [hlen]), hlen]
  rfl

end VllmExl3.Ops
