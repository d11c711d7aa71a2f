/-
# VllmExl3.Lib.Sylvester — the Sylvester matrices and the butterfly that multiplies by them

The matrix of order `2 ^ m` over a commutative ring, by its entries: the top bits of the two indices
give a sign and the rest is the matrix of half the order. The matrices are symmetric and their own
inverses up to the order. A butterfly stage adds and subtracts entries a power of two apart; the stages
of distance `1, 2, …, 2 ^ (m - 1)` together multiply every aligned block of `2 ^ m` entries by the
matrix. Nothing here names the repository.
-/
import VllmExl3.Lib.BlockLinear
import Mathlib.Algebra.BigOperators.Group.Finset.Piecewise
import Mathlib.Tactic.Ring

namespace VllmExl3

variable {R : Type*} [CommRing R]

/-! ## Entries -/

/-- Entry `(i, j)` of the matrix of order `2 ^ m`. -/
def sylvester : Nat → Nat → Nat → R
  | 0, _, _ => 1
  | m + 1, i, j =>
    if 2 ^ m ≤ i ∧ 2 ^ m ≤ j then -sylvester m (i % 2 ^ m) (j % 2 ^ m)
    else sylvester m (i % 2 ^ m) (j % 2 ^ m)

theorem sylvester_comm (m i j : Nat) : (sylvester m i j : R) = sylvester m j i := by
  induction m generalizing i j with
  | zero => rfl
  | succ m ih => simp only [sylvester, ih (i % 2 ^ m), and_comm]

/-- The sign of the lower half of column `j`. -/
def topSign (m j : Nat) : R := if 2 ^ m ≤ j then -1 else 1

/-- The upper half of a doubled matrix is two copies of the matrix. -/
theorem sylvester_upper {m k : Nat} (hk : k < 2 ^ m) (j : Nat) :
    (sylvester (m + 1) k j : R) = sylvester m k (j % 2 ^ m) := by
  rw [sylvester, if_neg (by omega), Nat.mod_eq_of_lt hk]

/-- The lower half is the same, the second copy negated. -/
theorem sylvester_lower {m k : Nat} (hk : k < 2 ^ m) (j : Nat) :
    (sylvester (m + 1) (2 ^ m + k) j : R) = topSign m j * sylvester m k (j % 2 ^ m) := by
  rw [sylvester, topSign, Nat.add_mod_left, Nat.mod_eq_of_lt hk]
  by_cases hj : 2 ^ m ≤ j
  · rw [if_pos ⟨Nat.le_add_right _ _, hj⟩, if_pos hj, neg_one_mul]
  · rw [if_neg fun h => hj h.2, if_neg hj, one_mul]

open Finset in
/-- The matrix times itself is the order times the identity. -/
theorem sylvester_mul_self {m i j : Nat} (hi : i < 2 ^ m) (hj : j < 2 ^ m) :
    ∑ k ∈ range (2 ^ m), sylvester m i k * sylvester m k j = if i = j then (2 : R) ^ m else 0 := by
  induction m generalizing i j with
  | zero =>
    obtain rfl : i = 0 := by omega
    obtain rfl : j = 0 := by omega
    simp [sylvester]
  | succ m ih =>
    have hmod : ∀ a, a % 2 ^ m < 2 ^ m := fun a => Nat.mod_lt a (Nat.two_pow_pos m)
    have hupper : ∑ k ∈ range (2 ^ m), sylvester (m + 1) i k * sylvester (m + 1) k j =
        if i % 2 ^ m = j % 2 ^ m then (2 : R) ^ m else 0 := by
      rw [← ih (hmod i) (hmod j)]
      refine sum_congr rfl fun k hk => ?_
      rw [sylvester_comm, sylvester_upper (mem_range.mp hk), sylvester_upper (mem_range.mp hk),
        sylvester_comm m k]
    have hlower : ∑ k ∈ range (2 ^ m),
        sylvester (m + 1) i (2 ^ m + k) * sylvester (m + 1) (2 ^ m + k) j =
          topSign m i * topSign m j * if i % 2 ^ m = j % 2 ^ m then (2 : R) ^ m else 0 := by
      rw [← ih (hmod i) (hmod j), mul_sum]
      refine sum_congr rfl fun k hk => ?_
      rw [sylvester_comm, sylvester_lower (mem_range.mp hk), sylvester_lower (mem_range.mp hk),
        sylvester_comm m k]
      ring
    have hdouble : 2 ^ (m + 1) = 2 ^ m + 2 ^ m := by rw [Nat.pow_succ, Nat.mul_two]
    rw [hdouble, sum_range_add, hupper, hlower, topSign, topSign]
    rw [hdouble] at hi hj
    -- the two halves add up where the indices are in the same half, and cancel where they are not
    by_cases hihigh : 2 ^ m ≤ i
    · have hione : i % 2 ^ m = i - 2 ^ m := by
        rw [Nat.mod_eq_sub_mod hihigh, Nat.mod_eq_of_lt (by omega)]
      by_cases hjhigh : 2 ^ m ≤ j
      · have hjone : j % 2 ^ m = j - 2 ^ m := by
          rw [Nat.mod_eq_sub_mod hjhigh, Nat.mod_eq_of_lt (by omega)]
        have hsame : i - 2 ^ m = j - 2 ^ m ↔ i = j := by omega
        simp only [if_pos hihigh, if_pos hjhigh, hione, hjone, hsame]
        split_ifs
        · ring
        · ring
      · simp only [if_pos hihigh, if_neg hjhigh]
        rw [if_neg (c := i = j) (by omega)]
        ring
    · have hizero : i % 2 ^ m = i := Nat.mod_eq_of_lt (by omega)
      by_cases hjhigh : 2 ^ m ≤ j
      · simp only [if_neg hihigh, if_pos hjhigh]
        rw [if_neg (c := i = j) (by omega)]
        ring
      · have hjzero : j % 2 ^ m = j := Nat.mod_eq_of_lt (by omega)
        simp only [if_neg hihigh, if_neg hjhigh, hizero, hjzero]
        split_ifs
        · ring
        · ring

/-! ## The butterfly -/

/-- One stage: entries `h` apart become their sum and their difference. -/
def butterfly (h : Nat) (v : Nat → R) (i : Nat) : R :=
  let first := v (i / (2 * h) * (2 * h) + i % h)
  let second := v (i / (2 * h) * (2 * h) + h + i % h)
  if i / h % 2 = 0 then first + second else first - second

open Finset in
/-- The step lemma: a stage doubles the blocks that are multiplied. -/
theorem butterfly_step (m : Nat) (v : Nat → R) (j : Nat) :
    butterfly (2 ^ m) (blockMul (2 ^ m) (sylvester m) v) j =
      blockMul (2 ^ (m + 1)) (sylvester (m + 1)) v j := by
  have hB : 0 < 2 ^ m := Nat.two_pow_pos m
  have hr : j % 2 ^ m < 2 ^ m := Nat.mod_lt j hB
  have hdouble : 2 ^ (m + 1) = 2 * 2 ^ m := by rw [Nat.pow_succ, Nat.mul_comm]
  obtain ⟨q, hq⟩ : ∃ q, q = j / (2 * 2 ^ m) := ⟨_, rfl⟩
  have hdiv : j / 2 ^ m = 2 * q + j / 2 ^ m % 2 := by
    rw [hq, Nat.mul_comm 2 (2 ^ m), ← Nat.div_div_eq_div_mul]
    omega
  have hmod : j % (2 * 2 ^ m) = 2 ^ m * (j / 2 ^ m % 2) + j % 2 ^ m := by
    rw [Nat.mul_comm 2 (2 ^ m), Nat.mod_mul, Nat.add_comm]
  -- the two blocks the stage reads
  have hfirst : blockMul (2 ^ m) (sylvester m) v (q * (2 * 2 ^ m) + j % 2 ^ m) =
      ∑ i ∈ range (2 ^ m), v (2 * 2 ^ m * q + i) * (sylvester m i (j % 2 ^ m) : R) := by
    have hblock : q * (2 * 2 ^ m) + j % 2 ^ m = 2 ^ m * (2 * q) + j % 2 ^ m := by ring
    rw [blockMul, hblock, Nat.mul_add_div hB, Nat.div_eq_of_lt hr, Nat.mul_add_mod, Nat.mod_mod]
    refine sum_congr rfl fun i _ => ?_
    congr 2
    ring
  have hsecond : blockMul (2 ^ m) (sylvester m) v (q * (2 * 2 ^ m) + 2 ^ m + j % 2 ^ m) =
      ∑ i ∈ range (2 ^ m), v (2 * 2 ^ m * q + (2 ^ m + i)) * (sylvester m i (j % 2 ^ m) : R) := by
    have hblock : q * (2 * 2 ^ m) + 2 ^ m + j % 2 ^ m = 2 ^ m * (2 * q + 1) + j % 2 ^ m := by ring
    rw [blockMul, hblock, Nat.mul_add_div hB, Nat.div_eq_of_lt hr, Nat.mul_add_mod, Nat.mod_mod]
    refine sum_congr rfl fun i _ => ?_
    congr 2
    ring
  rw [butterfly, ← hq, hfirst, hsecond, blockMul, hdouble, ← hq, hmod, Nat.two_mul, sum_range_add]
  rcases Nat.mod_two_eq_zero_or_one (j / 2 ^ m) with hbit | hbit
  · rw [hbit, if_pos rfl, Nat.mul_zero, Nat.zero_add]
    congr 1
    · refine sum_congr rfl fun i hi => ?_
      rw [sylvester_upper (mem_range.mp hi), Nat.mod_mod]
    · refine sum_congr rfl fun i hi => ?_
      rw [sylvester_lower (mem_range.mp hi), topSign, if_neg (by omega), one_mul, Nat.mod_mod]
  · rw [hbit, if_neg Nat.one_ne_zero, Nat.mul_one, sub_eq_add_neg, ← sum_neg_distrib]
    congr 1
    · refine sum_congr rfl fun i hi => ?_
      rw [sylvester_upper (mem_range.mp hi), Nat.add_mod_left, Nat.mod_mod]
    · refine sum_congr rfl fun i hi => ?_
      rw [sylvester_lower (mem_range.mp hi), topSign, if_pos (Nat.le_add_right _ _), neg_one_mul,
        mul_neg, Nat.add_mod_left, Nat.mod_mod]

/-- The run lemma: the first `m` stages multiply by the matrix of order `2 ^ m`. -/
theorem butterflies_eq (m : Nat) (v : Nat → R) :
    (List.range m).foldl (fun v s => butterfly (2 ^ s) v) v = blockMul (2 ^ m) (sylvester m) v := by
  induction m with
  | zero =>
    funext j
    simp [blockMul, sylvester]
  | succ m ih =>
    rw [List.range_succ, List.foldl_append, ih]
    funext j
    exact butterfly_step m v j

/-! ## Block transforms that are their own inverse -/

section Involution

variable {B : Nat} {H : Nat → Nat → R}

open Finset in
/-- A block transform by a matrix that is its own inverse. -/
theorem blockMul_blockMul (hB : 0 < B)
    (hH : ∀ i < B, ∀ j < B, ∑ k ∈ range B, H i k * H k j = if i = j then 1 else 0) (v : Nat → R)
    (j : Nat) : blockMul B H (blockMul B H v) j = v j := by
  have hj : j % B < B := Nat.mod_lt j hB
  have hinner : ∀ k ∈ range B, blockMul B H v (B * (j / B) + k) * H k (j % B) =
      ∑ i ∈ range B, v (B * (j / B) + i) * (H i k * H k (j % B)) := by
    intro k hk
    rw [blockMul, Nat.mul_add_div hB, Nat.div_eq_of_lt (mem_range.mp hk), Nat.add_zero,
      Nat.mul_add_mod, Nat.mod_eq_of_lt (mem_range.mp hk), sum_mul]
    exact sum_congr rfl fun i _ => mul_assoc _ _ _
  have houter : ∀ i ∈ range B, ∑ k ∈ range B, v (B * (j / B) + i) * (H i k * H k (j % B)) =
      if i = j % B then v (B * (j / B) + i) else 0 := by
    intro i hi
    rw [← mul_sum, hH i (mem_range.mp hi) (j % B) hj]
    split_ifs
    · exact mul_one _
    · exact mul_zero _
  rw [blockMul, sum_congr rfl hinner, sum_comm, sum_congr rfl houter, sum_ite_eq',
    if_pos (mem_range.mpr hj), Nat.div_add_mod]

end Involution

end VllmExl3
