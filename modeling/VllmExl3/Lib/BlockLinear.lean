/-
# VllmExl3.Lib.BlockLinear — block-diagonal maps and splitting a product

Vectors and matrices over a commutative semiring as functions of their indices, so that cutting one
is a shift of the index. `blockMul B H` multiplies every aligned block of `B` coordinates by the same
`B × B` matrix `H`; `vecMul k` is a product over `k` coordinates. Two facts carry everything built on
them: a block-diagonal map commutes with a shift by a multiple of its block size, and both maps
distribute over sums. Nothing here names the repository.
-/
import Mathlib.Algebra.BigOperators.Intervals
import Mathlib.Algebra.BigOperators.Ring.Finset

namespace VllmExl3

variable {R : Type*} [CommSemiring R]

open Finset in
/-- The product of a row vector with the block-diagonal matrix all of whose blocks are `H`. -/
def blockMul (B : Nat) (H : Nat → Nat → R) (v : Nat → R) (j : Nat) : R :=
  ∑ i ∈ range B, v (B * (j / B) + i) * H i (j % B)

open Finset in
/-- The product of a row vector with a matrix. -/
def vecMul (k : Nat) (v : Nat → R) (W : Nat → Nat → R) (j : Nat) : R :=
  ∑ i ∈ range k, v i * W i j

section Block

variable {B : Nat} {H : Nat → Nat → R} {u v : Nat → R} {n j : Nat}

/-- An aligned block that starts below an aligned bound ends below it. -/
theorem block_lt {i : Nat} (hn : B ∣ n) (hj : j < n) (hi : i < B) : B * (j / B) + i < n := by
  obtain ⟨m, rfl⟩ := hn
  have hB : 0 < B := by omega
  have hdiv : j / B < m := Nat.div_lt_of_lt_mul hj
  calc B * (j / B) + i < B * (j / B) + B := by omega
    _ = B * (j / B + 1) := (Nat.mul_succ _ _).symm
    _ ≤ B * m := Nat.mul_le_mul_left B hdiv

/-- Coordinate `j` only depends on the block `j` lies in. -/
theorem blockMul_congr (hn : B ∣ n) (h : ∀ i < n, u i = v i) (hj : j < n) :
    blockMul B H u j = blockMul B H v j := by
  refine Finset.sum_congr rfl fun i hi => ?_
  rw [h _ (block_lt hn hj (Finset.mem_range.mp hi))]

/-- A block-diagonal map commutes with a shift by whole blocks. -/
theorem blockMul_shift {a : Nat} (ha : B ∣ a) :
    blockMul B H (fun i => v (a + i)) j = blockMul B H v (a + j) := by
  obtain ⟨m, rfl⟩ := ha
  rcases Nat.eq_zero_or_pos B with rfl | hB
  · simp [blockMul]
  · refine Finset.sum_congr rfl fun i _ => ?_
    rw [Nat.mul_add_div hB, Nat.mul_add_mod, Nat.mul_add, Nat.add_assoc]

theorem blockMul_sum {ι : Type*} (s : Finset ι) (w : ι → Nat → R) :
    blockMul B H (fun i => ∑ r ∈ s, w r i) j = ∑ r ∈ s, blockMul B H (w r) j := by
  simp only [blockMul, Finset.sum_mul]
  exact Finset.sum_comm

end Block

section Product

variable {k j : Nat} {u v : Nat → R} {V W : Nat → Nat → R}

theorem vecMul_congr (hv : ∀ i < k, u i = v i) (hW : ∀ i < k, V i j = W i j) :
    vecMul k u V j = vecMul k v W j := by
  refine Finset.sum_congr rfl fun i hi => ?_
  rw [hv i (Finset.mem_range.mp hi), hW i (Finset.mem_range.mp hi)]

/-- A sum over `n * p` terms, taken `p` at a time. -/
theorem sum_range_mul (n p : Nat) (f : Nat → R) :
    ∑ i ∈ Finset.range (n * p), f i =
      ∑ r ∈ Finset.range n, ∑ q ∈ Finset.range p, f (r * p + q) := by
  induction n with
  | zero => simp
  | succ n ih =>
    rw [Nat.succ_mul, Finset.sum_range_add, Finset.sum_range_succ, ih]

/-- A list sum over a range as a finite sum. -/
theorem sum_map_range (n : Nat) (f : Nat → R) :
    ((List.range n).map f).sum = ∑ i ∈ Finset.range n, f i := by
  induction n with
  | zero => simp
  | succ n ih => rw [List.range_succ, List.map_append, List.sum_append, ih, Finset.sum_range_succ]; simp

/-- A product is the sum of the products over consecutive pieces of the inner dimension. -/
theorem vecMul_split (n p : Nat) :
    vecMul (n * p) v W j =
      ∑ r ∈ Finset.range n, vecMul p (fun i => v (r * p + i)) (fun i => W (r * p + i)) j :=
  sum_range_mul n p fun i => v i * W i j

end Product

/-! ## A block-diagonal map from the left -/

open Finset in
/-- The product of the block-diagonal matrix all of whose blocks are `H` with a matrix. -/
def blockMulLeft (B : Nat) (H : Nat → Nat → R) (W : Nat → Nat → R) (i j : Nat) : R :=
  ∑ q ∈ range B, H (i % B) q * W (B * (i / B) + q) j

section Left

variable {B k i j : Nat} {H V W : Nat → Nat → R} {u : Nat → R}

/-- Row `i` only depends on the rows of its block. -/
theorem blockMulLeft_congr (hk : B ∣ k) (h : ∀ i < k, W i j = V i j) (hi : i < k) :
    blockMulLeft B H W i j = blockMulLeft B H V i j := by
  refine Finset.sum_congr rfl fun q hq => ?_
  rw [h _ (block_lt hk hi (Finset.mem_range.mp hq))]

/-- A vector times a block-diagonal product is the transformed vector times the matrix. -/
theorem vecMul_blockMulLeft (hk : B ∣ k) :
    vecMul k u (blockMulLeft B H W) j = vecMul k (blockMul B H u) W j := by
  obtain ⟨m, rfl⟩ := hk
  rcases Nat.eq_zero_or_pos B with rfl | hB
  · simp [vecMul]
  rw [Nat.mul_comm B m, vecMul_split, vecMul_split]
  refine Finset.sum_congr rfl fun r _ => ?_
  have hrow : ∀ p < B, (r * B + p) / B = r ∧ (r * B + p) % B = p := fun p hp => by
    rw [Nat.mul_comm r B, Nat.mul_add_div hB, Nat.mul_add_mod, Nat.div_eq_of_lt hp,
      Nat.mod_eq_of_lt hp]
    exact ⟨rfl, rfl⟩
  calc vecMul B (fun p => u (r * B + p)) (fun p => blockMulLeft B H W (r * B + p)) j
      = ∑ p ∈ Finset.range B, ∑ q ∈ Finset.range B, u (r * B + p) * (H p q * W (r * B + q) j) := by
        refine Finset.sum_congr rfl fun p hp => ?_
        obtain ⟨hdiv, hmod⟩ := hrow p (Finset.mem_range.mp hp)
        dsimp only [blockMulLeft]
        rw [hdiv, hmod, Finset.mul_sum, Nat.mul_comm B r]
    _ = ∑ q ∈ Finset.range B, ∑ p ∈ Finset.range B, u (r * B + p) * (H p q * W (r * B + q) j) :=
        Finset.sum_comm
    _ = vecMul B (fun p => blockMul B H u (r * B + p)) (fun p => W (r * B + p)) j := by
        refine Finset.sum_congr rfl fun q hq => ?_
        obtain ⟨hdiv, hmod⟩ := hrow q (Finset.mem_range.mp hq)
        dsimp only [blockMul]
        rw [hdiv, hmod, Finset.sum_mul, Nat.mul_comm B r]
        exact Finset.sum_congr rfl fun p _ => (mul_assoc _ _ _).symm

/-- Transforming the columns of the product is transforming the columns of the matrix. -/
theorem vecMul_blockMul :
    vecMul k u (fun i => blockMul B H (W i)) j = blockMul B H (vecMul k u W) j := by
  simp only [vecMul, blockMul, Finset.mul_sum, Finset.sum_mul]
  rw [Finset.sum_comm]
  exact Finset.sum_congr rfl fun q _ => Finset.sum_congr rfl fun i _ => (mul_assoc _ _ _).symm

/-- A vector that vanishes from `m` on has no more than `m` terms. -/
theorem vecMul_of_le {m : Nat} (hm : m ≤ k) (hzero : ∀ i, m ≤ i → u i = 0) :
    vecMul k u W j = vecMul m u W j := by
  rw [vecMul, vecMul]
  refine (Finset.sum_subset (Finset.range_mono hm) fun i _ hi => ?_).symm
  rw [hzero i (Nat.le_of_not_lt fun hlt => hi (Finset.mem_range.mpr hlt)), zero_mul]

end Left

/-! ## A linear map between two block transforms -/

/-- Scale, transform, multiply, transform, scale: coordinate `j` of
`H(H(x * s) W) * t`, where both transforms are block-diagonal with blocks `H`. -/
def regularized (B : Nat) (H : Nat → Nat → R) (k : Nat) (x s : Nat → R) (W : Nat → Nat → R)
    (t : Nat → R) (j : Nat) : R :=
  blockMul B H (vecMul k (blockMul B H fun i => x i * s i) W) j * t j

/-- The matrix `(H W * s) H * t` that the transforms fold into, rows scaled by `s` and columns by
`t`. -/
def unregularized (B : Nat) (H : Nat → Nat → R) (W : Nat → Nat → R) (s t : Nat → R) (i j : Nat) : R :=
  blockMul B H (fun j => blockMulLeft B H W i j * s i) j * t j

section Regularized

variable {B k n j : Nat} {H : Nat → Nat → R} {x x' s s' t t' : Nat → R} {W W' : Nat → Nat → R}

theorem regularized_congr (hk : B ∣ k) (hn : B ∣ n) (hx : ∀ i < k, x i = x' i)
    (hs : ∀ i < k, s i = s' i) (hW : ∀ i < k, ∀ j < n, W i j = W' i j) (ht : ∀ j < n, t j = t' j)
    (hj : j < n) : regularized B H k x s W t j = regularized B H k x' s' W' t' j := by
  have hin : ∀ i < k, blockMul B H (fun i => x i * s i) i = blockMul B H (fun i => x' i * s' i) i :=
    fun i hi => blockMul_congr hk (fun i hi => by rw [hx i hi, hs i hi]) hi
  have hmid : ∀ j < n, vecMul k (blockMul B H fun i => x i * s i) W j =
      vecMul k (blockMul B H fun i => x' i * s' i) W' j :=
    fun j hj => vecMul_congr hin fun i hi => hW i hi j hj
  rw [regularized, regularized, ht j hj, blockMul_congr hn hmid hj]

/-- Cutting the output: a shift by whole blocks of the columns and the output scale shifts the
result. -/
theorem regularized_columns {a : Nat} (ha : B ∣ a) :
    regularized B H k x s (fun i j => W i (a + j)) (fun j => t (a + j)) j =
      regularized B H k x s W t (a + j) := by
  rw [regularized, regularized, ← blockMul_shift ha]
  rfl

/-- Cutting the input: the partial results over pieces of whole blocks add up. -/
theorem regularized_rows (r p : Nat) (hp : B ∣ p) :
    ∑ c ∈ Finset.range r, regularized B H p (fun i => x (c * p + i)) (fun i => s (c * p + i))
        (fun i => W (c * p + i)) t j =
      regularized B H (r * p) x s W t j := by
  have hin : ∀ c i, blockMul B H (fun i => x (c * p + i) * s (c * p + i)) i =
      blockMul B H (fun i => x i * s i) (c * p + i) := fun c i =>
    blockMul_shift (v := fun i => x i * s i) (Dvd.dvd.mul_left hp c)
  simp only [regularized, ← Finset.sum_mul, ← blockMul_sum]
  congr 1
  refine congrArg (fun v => blockMul B H v j) (funext fun j => ?_)
  rw [vecMul_split]
  exact Finset.sum_congr rfl fun c _ => vecMul_congr (fun i _ => hin c i) fun i _ => rfl

/-- Folding a matrix whose block of columns at `j` is block `b` of `W` gives `W`'s folded column. -/
theorem unregularized_gather {i b : Nat} (hB : 0 < B)
    (hW : ∀ i, ∀ q < B, W' i (B * (j / B) + q) = W i (B * b + q)) (ht : t' j = t (B * b + j % B)) :
    unregularized B H W' s t' i j = unregularized B H W s t i (B * b + j % B) := by
  have hdiv : (B * b + j % B) / B = b := by
    rw [Nat.mul_add_div hB, Nat.div_eq_of_lt (Nat.mod_lt j hB), Nat.add_zero]
  rw [unregularized, unregularized, ht, blockMul, blockMul, hdiv, Nat.mul_add_mod, Nat.mod_mod]
  refine congrArg (· * t (B * b + j % B)) (Finset.sum_congr rfl fun q hq => ?_)
  simp only [blockMulLeft, hW _ q (Finset.mem_range.mp hq)]

/-- Multiplying by the folded matrix is transforming, multiplying and transforming. -/
theorem vecMul_unregularized (hk : B ∣ k) :
    vecMul k x (unregularized B H W s t) j = regularized B H k x s W t j := by
  have hscale : ∀ j, vecMul k x (fun i j => blockMulLeft B H W i j * s i) j =
      vecMul k (blockMul B H fun i => x i * s i) W j := fun j => by
    rw [← vecMul_blockMulLeft hk]
    refine Finset.sum_congr rfl fun i _ => ?_
    dsimp only
    rw [mul_assoc, mul_comm (s i)]
  calc vecMul k x (unregularized B H W s t) j
      = vecMul k x (fun i => blockMul B H fun j => blockMulLeft B H W i j * s i) j * t j := by
        rw [vecMul, vecMul, Finset.sum_mul]
        exact Finset.sum_congr rfl fun i _ => (mul_assoc _ _ _).symm
    _ = regularized B H k x s W t j := by
        rw [vecMul_blockMul, regularized]
        exact congrArg (fun v => blockMul B H v j * t j) (funext hscale)

end Regularized

end VllmExl3
