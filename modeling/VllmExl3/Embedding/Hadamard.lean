/-
# VllmExl3.Embedding.Hadamard — the two Hadamard transforms of the plugin

`ops._hadamard` doubles a matrix until it has the order asked for, and `had_left` and `had_right`
multiply by it block by block; `trellis_embed._hadamard` multiplies by no matrix at all, it adds and
subtracts in stages. Without rounding the matrix is Sylvester's, the stages multiply by it, and since it
is symmetric and its own inverse up to the order, each of the transforms undoes itself.
-/
import VllmExl3.Embedding.Trellis
import VllmExl3.Ops.Matrix
import VllmExl3.Lib.Sylvester
import Mathlib.Algebra.BigOperators.Fin
import Mathlib.Analysis.Real.Sqrt
import Mathlib.LinearAlgebra.Matrix.Symmetric

namespace VllmExl3.Embedding

open Format (HAD_BLOCK)
open TensorParallel (entry hadamardDouble hadamardLoop hadRight)
open Ops (hadLeft hadRightMatrix entry_tabulate)

/-! ## Definitions -/

/-- One stage of `trellis_embed._hadamard` on a vector of `dim` entries: `x.view(-1, 2, h)`, the sums,
then the differences. -/
def stage {F : Type} (add sub : F → F → F) (zero : F) (dim : Nat) (x : List F) (h : Nat) : List F :=
  tabulate dim fun i =>
    let first := x.getD (i / (2 * h) * (2 * h) + i % h) zero
    let second := x.getD (i / (2 * h) * (2 * h) + h + i % h) zero
    if i / h % 2 = 0 then add first second else sub first second

/-- The loop of `trellis_embed._hadamard`, with `m` stages on `2 ^ m` entries. -/
def stages {F : Type} (add sub : F → F → F) (zero : F) (m : Nat) (x : List F) : List F :=
  (List.range m).foldl (fun x s => stage add sub zero (2 ^ m) x (1 <<< s)) x

/-- The matrix that `ops._hadamard` builds for order `2 ^ m`, before it is scaled. -/
def doubled (R : Type) [CommRing R] (m : Nat) : List (List R) := hadamardLoop (2 ^ m) (2 ^ m) [[1]]

/-- A matrix given by its rows. -/
def toMatrix {R : Type} [CommRing R] (n : Nat) (rows : List (List R)) : Matrix (Fin n) (Fin n) R :=
  Matrix.of fun i j => entry rows i j

/-- The transform of the trellis decoder is the loop with its own eight stages, scaled. -/
theorem hadamard_eq_stages {F : Type} (o : Fp32 F) (x : List F) : Trellis.hadamard o x =
    (stages o.add o.sub (o.ofNat 0) Trellis.HADAMARD_STAGES x).map (o.div · (o.ofNat 16)) := rfl

section Ring

variable {R : Type} [CommRing R] {m : Nat}

/-! ## The doubled matrix -/

/-- The rows of Sylvester's matrix. -/
def sylvesterRows (R : Type) [CommRing R] (m : Nat) : List (List R) :=
  tabulate (2 ^ m) fun i => tabulate (2 ^ m) (sylvester m i)

/-- One doubling. -/
theorem hadamardDouble_sylvester (m : Nat) :
    hadamardDouble (sylvesterRows R m) = sylvesterRows R (m + 1) := by
  have hdouble : 2 ^ (m + 1) = 2 ^ m + 2 ^ m := by rw [Nat.pow_succ, Nat.mul_two]
  have hleft : ∀ j < 2 ^ m, (topSign m j : R) = 1 ∧ j % 2 ^ m = j := fun j hj =>
    ⟨if_neg (by omega), Nat.mod_eq_of_lt hj⟩
  have hright : ∀ j < 2 ^ m, (topSign m (2 ^ m + j) : R) = -1 ∧ (2 ^ m + j) % 2 ^ m = j := fun j hj =>
    ⟨if_pos (by omega), by rw [Nat.add_mod_left, Nat.mod_eq_of_lt hj]⟩
  rw [hadamardDouble, sylvesterRows, sylvesterRows, map_tabulate, map_tabulate, hdouble, tabulate_add]
  congr 1
  · refine tabulate_congr fun i hi => ?_
    rw [tabulate_add]
    congr 1
    · refine tabulate_congr fun j hj => ?_
      rw [sylvester_upper hi, (hleft j hj).2]
    · refine tabulate_congr fun j hj => ?_
      rw [sylvester_upper hi, (hright j hj).2]
  · refine tabulate_congr fun i hi => ?_
    rw [tabulate_add, map_tabulate]
    congr 1
    · refine tabulate_congr fun j hj => ?_
      rw [sylvester_lower hi, (hleft j hj).1, (hleft j hj).2, one_mul]
    · refine tabulate_congr fun j hj => ?_
      rw [sylvester_lower hi, (hright j hj).1, (hright j hj).2, neg_one_mul]

/-- The loop, from the matrix of a smaller order. -/
theorem hadamardLoop_sylvester {k fuel : Nat} (hk : k ≤ m) (hfuel : m - k ≤ fuel) :
    hadamardLoop (2 ^ m) fuel (sylvesterRows R k) = sylvesterRows R m := by
  have hlen : ∀ k, (sylvesterRows R k).length = 2 ^ k := fun k => length_tabulate _ _
  induction fuel generalizing k with
  | zero =>
    obtain rfl : k = m := by omega
    rfl
  | succ fuel ih =>
    rw [hadamardLoop, hlen]
    by_cases hdone : k = m
    · subst hdone
      rw [if_neg (Nat.lt_irrefl _)]
    · have hlt : k < m := by omega
      rw [if_pos (Nat.pow_lt_pow_right (by decide) hlt), hadamardDouble_sylvester]
      exact ih hlt (by omega)

theorem doubled_eq (m : Nat) : doubled R m = sylvesterRows R m := by
  have hone : [[(1 : R)]] = sylvesterRows R 0 := rfl
  rw [doubled, hone]
  exact hadamardLoop_sylvester (Nat.zero_le m) (by have := Nat.lt_two_pow_self (n := m); omega)

theorem entry_doubled {i j : Nat} (hi : i < 2 ^ m) (hj : j < 2 ^ m) :
    entry (doubled R m) i j = sylvester m i j := by
  rw [doubled_eq]
  exact entry_tabulate hi hj

/-- It is symmetric. -/
theorem toMatrix_doubled_isSymm (m : Nat) : (toMatrix (2 ^ m) (doubled R m)).IsSymm := by
  refine Matrix.IsSymm.ext fun i j => ?_
  show entry _ _ _ = entry _ _ _
  rw [entry_doubled j.2 i.2, entry_doubled i.2 j.2, sylvester_comm]

/-- Its square is the order times the identity. -/
theorem toMatrix_doubled_mul_self (m : Nat) :
    toMatrix (2 ^ m) (doubled R m) * toMatrix (2 ^ m) (doubled R m) = (2 : R) ^ m • 1 := by
  ext i j
  have hsum := sylvester_mul_self (R := R) i.2 j.2
  rw [Finset.sum_range] at hsum
  rw [Matrix.mul_apply, Matrix.smul_apply, Matrix.one_apply, smul_eq_mul, mul_ite, mul_one, mul_zero]
  refine (Finset.sum_congr rfl fun k _ => ?_).trans (hsum.trans ?_)
  · show entry _ _ _ * entry _ _ _ = _
    rw [entry_doubled i.2 k.2, entry_doubled k.2 j.2]
  · simp only [Fin.ext_iff]

/-! ## The stages -/

/-- A stage on a list is the butterfly on its entries. -/
theorem stage_eq {s dim : Nat} {v : Nat → R} (hs : 2 ^ (s + 1) ∣ dim) :
    stage (· + ·) (· - ·) 0 dim (tabulate dim v) (1 <<< s) = tabulate dim (butterfly (2 ^ s) v) := by
  refine tabulate_congr fun i hi => ?_
  obtain ⟨q, rfl⟩ := hs
  have hh : 0 < 2 ^ s := Nat.two_pow_pos s
  have hdouble : 2 ^ (s + 1) = 2 * 2 ^ s := by rw [Nat.pow_succ, Nat.mul_comm]
  have hblock : i / (2 * 2 ^ s) < q := by
    rw [← hdouble]
    exact Nat.div_lt_of_lt_mul hi
  have hlast : i / (2 * 2 ^ s) * (2 * 2 ^ s) + 2 * 2 ^ s ≤ 2 ^ (s + 1) * q := by
    rw [← Nat.succ_mul, hdouble, Nat.mul_comm]
    exact Nat.mul_le_mul_left _ hblock
  have hmod := Nat.mod_lt i hh
  dsimp only
  rw [Nat.one_shiftLeft, getD_tabulate (by omega), getD_tabulate (by omega), butterfly]

/-- The stages multiply by Sylvester's matrix. -/
theorem stages_eq {x : List R} (hx : x.length = 2 ^ m) :
    stages (· + ·) (· - ·) 0 m x = tabulate (2 ^ m) (blockMul (2 ^ m) (sylvester m) (x.getD · 0)) := by
  have hrun : ∀ k ≤ m, (List.range k).foldl
      (fun x s => stage (· + ·) (· - ·) (0 : R) (2 ^ m) x (1 <<< s)) x =
        tabulate (2 ^ m) ((List.range k).foldl (fun v s => butterfly (2 ^ s) v) (x.getD · 0)) := by
    intro k hk
    induction k with
    | zero => exact (tabulate_getD 0 hx).symm
    | succ k ih =>
      rw [List.range_succ, List.foldl_append, List.foldl_append, ih (by omega)]
      exact stage_eq (Nat.pow_dvd_pow 2 hk)
  rw [stages, hrun m le_rfl, butterflies_eq]

/-- Both transforms are one multiplication. -/
theorem stages_mulVec {x : List R} (hx : x.length = 2 ^ m) (i : Fin (2 ^ m)) :
    (stages (· + ·) (· - ·) 0 m x).getD i 0 =
      (toMatrix (2 ^ m) (doubled R m)).mulVec (fun j => x.getD j 0) i := by
  have hblock : (i : Nat) / 2 ^ m = 0 := Nat.div_eq_of_lt i.2
  rw [stages_eq hx, getD_tabulate i.2, blockMul, hblock, Nat.mod_eq_of_lt i.2, Finset.sum_range]
  refine Finset.sum_congr rfl fun j _ => ?_
  show _ = entry _ _ _ * _
  rw [entry_doubled i.2 j.2, Nat.mul_zero, Nat.zero_add, sylvester_comm, mul_comm]

/-! ## The blockwise transforms -/

/-- An entry of the scaled matrix. -/
def scaled (rsqrt : Nat → R) (m i j : Nat) : R := sylvester m i j * rsqrt (2 ^ m)

variable {rsqrt : Nat → R} {w : List (List R)} {n : Nat}

theorem hadamard_ok (rsqrt : Nat → R) (m : Nat) : TensorParallel.hadamard rsqrt (2 ^ m) =
    .ok (tabulate (2 ^ m) fun i => tabulate (2 ^ m) (scaled rsqrt m i)) := by
  have hpower : 2 ^ m &&& (2 ^ m - 1) = 0 := by
    rw [Nat.and_two_pow_sub_one_eq_mod, Nat.mod_self]
  have hrows := doubled_eq (R := R) m
  rw [doubled] at hrows
  rw [TensorParallel.hadamard, hpower, if_neg (by decide), if_neg (Nat.two_pow_pos m).ne', hrows,
    sylvesterRows, map_tabulate]
  simp only [map_tabulate]
  rfl

theorem entry_hadamard {i j : Nat} (hi : i < 2 ^ m) (hj : j < 2 ^ m) :
    entry (tabulate (2 ^ m) fun i => tabulate (2 ^ m) (scaled rsqrt m i)) i j = scaled rsqrt m i j :=
  entry_tabulate hi hj

/-- `had_left` on whole blocks. -/
theorem hadLeft_eq (h : 2 ^ m ∣ w.length) : hadLeft rsqrt (2 ^ m) w n = .ok (tabulate w.length fun i =>
    tabulate n fun j => blockMul (2 ^ m) (scaled rsqrt m) (fun i => entry w i j) i) := by
  rw [hadLeft, if_neg (not_not.mpr (Nat.mod_eq_zero_of_dvd h)), hadamard_ok]
  refine congrArg Except.ok (tabulate_congr fun i _ => tabulate_congr fun j _ => ?_)
  refine Finset.sum_congr rfl fun q hq => ?_
  rw [entry_hadamard (Nat.mod_lt i (Nat.two_pow_pos m)) (Finset.mem_range.mp hq), scaled, scaled,
    sylvester_comm, mul_comm]

/-- `had_right` on whole blocks. -/
theorem hadRightMatrix_eq (h : 2 ^ m ∣ n) : hadRightMatrix rsqrt (2 ^ m) w n = .ok (tabulate w.length
    fun i => tabulate n (blockMul (2 ^ m) (scaled rsqrt m) (entry w i))) := by
  rw [hadRightMatrix, if_neg (not_not.mpr (Nat.mod_eq_zero_of_dvd h)), hadamard_ok]
  refine congrArg Except.ok (tabulate_congr fun i _ => tabulate_congr fun j _ => ?_)
  refine Finset.sum_congr rfl fun q hq => ?_
  rw [entry_hadamard (Finset.mem_range.mp hq) (Nat.mod_lt j (Nat.two_pow_pos m))]

/-- Scaled by a root of the order, the matrix is its own inverse. -/
theorem scaled_mul_self (hroot : rsqrt (2 ^ m) * rsqrt (2 ^ m) * 2 ^ m = 1) {i j : Nat} (hi : i < 2 ^ m)
    (hj : j < 2 ^ m) :
    ∑ k ∈ Finset.range (2 ^ m), scaled rsqrt m i k * scaled rsqrt m k j = if i = j then 1 else 0 := by
  have hterm : ∀ k ∈ Finset.range (2 ^ m), scaled rsqrt m i k * scaled rsqrt m k j =
      rsqrt (2 ^ m) * rsqrt (2 ^ m) * (sylvester m i k * sylvester m k j) := by
    intro k _
    rw [scaled, scaled]
    ring
  rw [Finset.sum_congr rfl hterm, ← Finset.mul_sum, sylvester_mul_self hi hj, mul_ite, hroot, mul_zero]

/-- A matrix of `n` columns is the tabulation of its entries. -/
theorem tabulate_entry (hw : ∀ row ∈ w, row.length = n) :
    (tabulate w.length fun i => tabulate n (entry w i)) = w := by
  have hrows : (tabulate w.length fun i => w.getD i []) = w := tabulate_getD [] rfl
  conv_rhs => rw [← hrows]
  refine tabulate_congr fun i hi => ?_
  refine tabulate_getD 0 (hw _ ?_)
  rw [List.getD_eq_getElem _ _ hi]
  exact List.getElem_mem hi

/-- `had_left` works on each run of whole blocks of rows by itself. -/
theorem hadLeft_slice {a b : Nat} {y : List (List R)} (hw : 2 ^ m ∣ w.length) (ha : 2 ^ m ∣ a)
    (hb : 2 ^ m ∣ b) (hle : b ≤ w.length) (hy : hadLeft rsqrt (2 ^ m) w n = .ok y) :
    hadLeft rsqrt (2 ^ m) (slice a b w) n = .ok (slice a b y) := by
  rw [hadLeft_eq hw] at hy
  obtain rfl := Except.ok.inj hy
  have hlen : (slice a b w).length = b - a := by rw [length_slice, Nat.min_eq_left hle]
  have hwidth : 2 ^ m ∣ b - a := Nat.dvd_sub hb ha
  rw [hadLeft_eq (by rwa [hlen]), hlen, slice_tabulate hle]
  refine congrArg Except.ok (tabulate_congr fun i hi => tabulate_congr fun j _ => ?_)
  rw [← blockMul_shift ha]
  refine blockMul_congr hwidth (fun i hi => ?_) hi
  rw [entry, entry, getD_slice hi]

/-- `had_right` works on each run of whole blocks of columns by itself. -/
theorem hadRightMatrix_slice {a b : Nat} {y : List (List R)} (hn : 2 ^ m ∣ n) (ha : 2 ^ m ∣ a)
    (hb : 2 ^ m ∣ b) (hle : b ≤ n) (hy : hadRightMatrix rsqrt (2 ^ m) w n = .ok y) :
    hadRightMatrix rsqrt (2 ^ m) (w.map (slice a b)) (b - a) = .ok (y.map (slice a b)) := by
  rw [hadRightMatrix_eq hn] at hy
  obtain rfl := Except.ok.inj hy
  have hwidth : 2 ^ m ∣ b - a := Nat.dvd_sub hb ha
  rw [hadRightMatrix_eq hwidth, List.length_map, map_tabulate]
  refine congrArg Except.ok (tabulate_congr fun i hi => ?_)
  rw [slice_tabulate hle]
  refine tabulate_congr fun j hj => ?_
  rw [← blockMul_shift ha]
  refine blockMul_congr hwidth (fun j hj => ?_) hj
  have hrow : (w.map (slice a b)).getD i [] = slice a b (w.getD i []) := by
    rw [List.getD_eq_getElem _ _ (by rwa [List.length_map]), List.getElem_map,
      List.getD_eq_getElem _ _ hi]
  rw [entry, entry, hrow, getD_slice hj]

/-- `had_left` undoes itself. -/
theorem hadLeft_hadLeft (hroot : rsqrt (2 ^ m) * rsqrt (2 ^ m) * 2 ^ m = 1) (h : 2 ^ m ∣ w.length)
    (hw : ∀ row ∈ w, row.length = n) :
    ∃ y, hadLeft rsqrt (2 ^ m) w n = .ok y ∧ hadLeft rsqrt (2 ^ m) y n = .ok w := by
  refine ⟨_, hadLeft_eq h, ?_⟩
  rw [hadLeft_eq (by rwa [length_tabulate]), length_tabulate]
  refine congrArg Except.ok ?_
  conv_rhs => rw [← tabulate_entry hw]
  refine tabulate_congr fun i hi => tabulate_congr fun j hj => ?_
  rw [blockMul_congr h (fun i hi => entry_tabulate hi hj) hi]
  exact blockMul_blockMul (Nat.two_pow_pos m) (fun i hi j hj => scaled_mul_self hroot hi hj)
    (fun i => entry w i j) i

/-- `had_right` undoes itself. -/
theorem hadRightMatrix_hadRightMatrix (hroot : rsqrt (2 ^ m) * rsqrt (2 ^ m) * 2 ^ m = 1) (h : 2 ^ m ∣ n)
    (hw : ∀ row ∈ w, row.length = n) :
    ∃ y, hadRightMatrix rsqrt (2 ^ m) w n = .ok y ∧ hadRightMatrix rsqrt (2 ^ m) y n = .ok w := by
  refine ⟨_, hadRightMatrix_eq h, ?_⟩
  rw [hadRightMatrix_eq h, length_tabulate]
  refine congrArg Except.ok ?_
  conv_rhs => rw [← tabulate_entry hw]
  refine tabulate_congr fun i hi => tabulate_congr fun j hj => ?_
  rw [blockMul_congr h (fun j hj => entry_tabulate hi hj) hj]
  exact blockMul_blockMul (Nat.two_pow_pos m) (fun i hi j hj => scaled_mul_self hroot hi hj)
    (entry w i) j

end Ring

/-- Without rounding the decoder's transform undoes itself too. -/
theorem hadamard_hadamard {x : List ℚ} (hx : x.length = Trellis.GROUP_DIM) :
    Trellis.hadamard exactFp32 (Trellis.hadamard exactFp32 x) = x := by
  have hroot : (1 / 16 : ℚ) * (1 / 16) * 2 ^ 8 = 1 := by norm_num
  have hscaled : ∀ {x : List ℚ}, x.length = 2 ^ 8 → Trellis.hadamard exactFp32 x =
      tabulate (2 ^ 8) (blockMul (2 ^ 8) (scaled (fun _ => 1 / 16) 8) (x.getD · 0)) := by
    intro x hx
    have hstages : stages exactFp32.add exactFp32.sub (exactFp32.ofNat 0) 8 x = _ := stages_eq hx
    rw [hadamard_eq_stages, Trellis.HADAMARD_STAGES, hstages, map_tabulate]
    refine tabulate_congr fun i _ => ?_
    show blockMul _ _ _ i / ((16 : Nat) : ℚ) = _
    rw [blockMul, blockMul, div_eq_mul_one_div, Finset.sum_mul]
    exact Finset.sum_congr rfl fun q _ => mul_assoc _ _ _
  rw [hscaled hx, hscaled (length_tabulate _ _)]
  conv_rhs => rw [← tabulate_getD 0 hx]
  refine tabulate_congr fun i hi => ?_
  rw [blockMul_congr (dvd_refl _) (fun i hi => getD_tabulate hi) hi]
  exact blockMul_blockMul (Nat.two_pow_pos 8)
    (fun i hi j hj => @scaled_mul_self ℚ _ 8 (fun _ => 1 / 16) hroot i j hi hj) (x.getD · 0) i

/-! ## What the transforms are -/

/-- `1 / math.sqrt(n)` -/
noncomputable def exactRsqrt (n : Nat) : ℝ := 1 / √n

theorem exactRsqrt_root (m : Nat) : exactRsqrt (2 ^ m) * exactRsqrt (2 ^ m) * 2 ^ m = 1 := by
  have hpos : (0 : ℝ) < 2 ^ m := by positivity
  have hsq : √((2 : ℝ) ^ m) * √((2 : ℝ) ^ m) = 2 ^ m := Real.mul_self_sqrt hpos.le
  rw [exactRsqrt, Nat.cast_pow, Nat.cast_ofNat, div_mul_div_comm, one_mul, hsq,
    one_div_mul_cancel hpos.ne']

/-- The stages and the doubled matrix of order `2 ^ m`: the stages multiply by it, and it is symmetric
and its own inverse up to the order. -/
structure Agree (R : Type) [CommRing R] (m : Nat) : Prop where
  multiply : ∀ x : List R, x.length = 2 ^ m → ∀ i : Fin (2 ^ m),
    (stages (· + ·) (· - ·) 0 m x).getD i 0 =
      (toMatrix (2 ^ m) (doubled R m)).mulVec (fun j => x.getD j 0) i
  length : ∀ x : List R, x.length = 2 ^ m → (stages (· + ·) (· - ·) 0 m x).length = 2 ^ m
  symmetric : (toMatrix (2 ^ m) (doubled R m)).IsSymm
  square : toMatrix (2 ^ m) (doubled R m) * toMatrix (2 ^ m) (doubled R m) = (2 : R) ^ m • 1

/-- What a blockwise transform along the rows is: on whole blocks it succeeds, applied again it gives
the matrix back, and each block of the result is the transform of that block alone. A matrix without
elements is left out: torch refuses to view it in blocks. -/
def LeftInvolution (had : List (List ℝ) → Nat → Except PyError (List (List ℝ))) : Prop :=
  ∀ (w : List (List ℝ)) (n : Nat), (∀ row ∈ w, row.length = n) → 0 < n → HAD_BLOCK ∣ w.length →
    ∃ y, had w n = .ok y ∧ had y n = .ok w ∧ ∀ b < w.length / HAD_BLOCK,
      had (slice (HAD_BLOCK * b) (HAD_BLOCK * (b + 1)) w) n =
        .ok (slice (HAD_BLOCK * b) (HAD_BLOCK * (b + 1)) y)

/-- The same along the columns. -/
def RightInvolution (had : List (List ℝ) → Nat → Except PyError (List (List ℝ))) : Prop :=
  ∀ (w : List (List ℝ)) (n : Nat), (∀ row ∈ w, row.length = n) → w ≠ [] → HAD_BLOCK ∣ n →
    ∃ y, had w n = .ok y ∧ had y n = .ok w ∧ ∀ b < n / HAD_BLOCK,
      had (w.map (slice (HAD_BLOCK * b) (HAD_BLOCK * (b + 1)))) HAD_BLOCK =
        .ok (y.map (slice (HAD_BLOCK * b) (HAD_BLOCK * (b + 1))))

/-- **The two transforms agree**, and the blockwise ones undo themselves block by block. -/
theorem hadamard_transforms (R : Type) [CommRing R] (m : Nat) :
    Agree R m ∧ LeftInvolution (hadLeft exactRsqrt HAD_BLOCK) ∧
      RightInvolution (hadRightMatrix exactRsqrt HAD_BLOCK) := by
  have hblock : HAD_BLOCK = 2 ^ 7 := rfl
  have hend : ∀ b k, b < k / HAD_BLOCK → HAD_BLOCK * (b + 1) ≤ k := fun b k hb =>
    (Nat.mul_le_mul_left _ hb).trans (Nat.mul_div_le k HAD_BLOCK)
  have hstart : ∀ b, HAD_BLOCK ∣ HAD_BLOCK * b := fun b => Nat.dvd_mul_right _ _
  refine ⟨?_, ?_, ?_⟩
  · constructor
    case multiply => exact fun x hx i => stages_mulVec hx i
    case length =>
      intro x hx
      rw [stages_eq hx, length_tabulate]
    case symmetric => exact toMatrix_doubled_isSymm m
    case square => exact toMatrix_doubled_mul_self m
  · intro w n hrows _ hw
    obtain ⟨y, hy, hback⟩ := hadLeft_hadLeft (exactRsqrt_root 7) hw hrows
    refine ⟨y, hy, hback, fun b hb => ?_⟩
    exact hadLeft_slice hw (hstart b) (hstart (b + 1)) (hend b _ hb) hy
  · intro w n hrows _ hn
    obtain ⟨y, hy, hback⟩ := hadRightMatrix_hadRightMatrix (exactRsqrt_root 7) hn hrows
    refine ⟨y, hy, hback, fun b hb => ?_⟩
    have hwidth : HAD_BLOCK * (b + 1) - HAD_BLOCK * b = HAD_BLOCK := by
      rw [Nat.mul_succ, Nat.add_sub_cancel_left]
    have hone := hadRightMatrix_slice hn (hstart b) (hstart (b + 1)) (hend b n hb) hy
    rwa [hwidth] at hone

end VllmExl3.Embedding
