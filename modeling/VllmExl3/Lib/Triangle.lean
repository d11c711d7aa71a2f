/-
# VllmExl3.Lib.Triangle — symmetric matrices as packed upper triangles

The rows of the upper triangle of an `n × n` matrix, laid end to end: row `i` begins after the `n - r`
entries of every row `r` before it. A symmetric matrix is read back from its triangle, and whatever is
done entry by entry to packed triangles is done entry by entry to the matrices. The place of the
diagonal entry of row `i` is `i * n - i * (i - 1) / 2`. Nothing here names the repository.
-/
import VllmExl3.Lib.Vec
import Mathlib.LinearAlgebra.Matrix.Symmetric
import Mathlib.LinearAlgebra.Matrix.Trace
import Mathlib.Algebra.BigOperators.Fin
import Mathlib.Algebra.BigOperators.Intervals
import Mathlib.Algebra.Ring.Int.Parity
import Mathlib.Data.List.GetD
import Mathlib.Tactic.Linarith

namespace VllmExl3.Triangle

/-! ## The layout -/

/-- Where row `i` begins. -/
def rowStart (n : Nat) : Nat → Nat
  | 0 => 0
  | i + 1 => rowStart n i + (n - i)

/-- Where entry `(i, j)` is, `i ≤ j`. -/
def place (n i j : Nat) : Nat := rowStart n i + (j - i)

variable {R : Type*} {n : Nat}

/-- The upper triangle of a matrix, row by row. -/
def pack (n : Nat) (A : Nat → Nat → R) : List R :=
  (List.range n).flatMap fun i => tabulate (n - i) fun d => A i (i + d)

/-- The symmetric matrix of a packed triangle. -/
def unpack [Zero R] (n : Nat) (h : List R) : Matrix (Fin n) (Fin n) R :=
  Matrix.of fun i j => h.getD (place n (min i j) (max i j)) 0

/-- The entries of a matrix. -/
def entries [Zero R] (A : Matrix (Fin n) (Fin n) R) (i j : Nat) : R :=
  if h : i < n ∧ j < n then A ⟨i, h.1⟩ ⟨j, h.2⟩ else 0

/-! ## Where things are -/

theorem place_self (n i : Nat) : place n i i = rowStart n i := by
  rw [place, Nat.sub_self, Nat.add_zero]

/-- The closed form. -/
theorem rowStart_cast {i : Nat} (hi : i ≤ n) :
    (rowStart n i : ℤ) = i * n - i * (i - 1) / 2 := by
  induction i with
  | zero => simp [rowStart]
  | succ i ih =>
    have heven : ∀ k : ℤ, 2 * (k * (k - 1) / 2) = k * (k - 1) := fun k =>
      Int.mul_ediv_cancel' (even_iff_two_dvd.mp (Int.even_mul_pred_self k))
    have hnow := heven i
    have hnext := heven (i + 1)
    have hstep : ((i : ℤ) + 1) * (i + 1 - 1) = i * (i - 1) + 2 * i := by ring
    have hwidth : ((n - i : Nat) : ℤ) = n - i := by omega
    rw [rowStart, Nat.cast_add, ih (by omega), hwidth, Nat.cast_succ]
    linarith

/-- The first `k` rows take up the places before row `k`. -/
theorem length_rows (n k : Nat) (A : Nat → Nat → R) :
    ((List.range k).flatMap fun i => tabulate (n - i) fun d => A i (i + d)).length = rowStart n k := by
  induction k with
  | zero => rfl
  | succ k ih =>
    rw [List.range_succ, List.flatMap_append, List.length_append, ih, List.flatMap_singleton,
      length_tabulate, rowStart]

theorem length_pack (n : Nat) (A : Nat → Nat → R) : (pack n A).length = rowStart n n :=
  length_rows n n A

theorem rowStart_mono {i j : Nat} (h : i ≤ j) : rowStart n i ≤ rowStart n j := by
  induction h with
  | refl => exact Nat.le_refl _
  | step _ ih => exact ih.trans (Nat.le_add_right _ _)

/-- A place is inside the triangle, in its own row. -/
theorem place_lt {i j : Nat} (hij : i ≤ j) (hj : j < n) : place n i j < rowStart n (i + 1) := by
  rw [place, rowStart]
  omega

theorem place_lt_length {i j : Nat} (hij : i ≤ j) (hj : j < n) : place n i j < rowStart n n :=
  (place_lt hij hj).trans_le (rowStart_mono (by omega))

/-- What is at a place. -/
theorem getD_pack (A : Nat → Nat → R) (d : R) {i j : Nat} (hij : i ≤ j) (hj : j < n) :
    (pack n A).getD (place n i j) d = A i j := by
  have hrows : ∀ k, i < k → ((List.range k).flatMap fun i => tabulate (n - i) fun d =>
      A i (i + d)).getD (place n i j) d = A i j := by
    intro k hk
    induction k with
    | zero => cases hk
    | succ k ih =>
      have hlen := length_rows n k A
      rw [List.range_succ, List.flatMap_append, List.flatMap_singleton]
      rcases Nat.lt_succ_iff_lt_or_eq.mp hk with hbefore | rfl
      · have hplace := (place_lt hij hj).trans_le (rowStart_mono hbefore)
        rw [List.getD_append _ _ _ _ (by omega)]
        exact ih hbefore
      · rw [List.getD_append_right _ _ _ _ (by rw [place]; omega), hlen, place,
          Nat.add_sub_cancel_left, getD_tabulate (by omega), Nat.add_sub_cancel' hij]
  exact hrows n (by omega)

/-- Row by row is in order. -/
theorem rowStart_strictMono {i j : Nat} (hij : i < j) (hj : j < n) : rowStart n i < rowStart n j := by
  have hstep : rowStart n i < rowStart n (i + 1) := by
    rw [rowStart]
    omega
  exact hstep.trans_le (rowStart_mono hij)

/-! ## Packing and unpacking -/

section Zero

variable [Zero R]

theorem entries_apply (A : Matrix (Fin n) (Fin n) R) (i j : Fin n) : entries A i j = A i j :=
  dif_pos ⟨i.2, j.2⟩

theorem place_le {i j : Fin n} :
    place n (min i j) (max i j) < rowStart n n :=
  place_lt_length (min_le_max (a := (i : Nat))) (max_lt i.2 j.2)

/-- A symmetric matrix is read back from its triangle. -/
theorem unpack_pack {A : Matrix (Fin n) (Fin n) R} (hA : A.IsSymm) : unpack n (pack n (entries A)) = A := by
  ext i j
  show (pack n (entries A)).getD _ 0 = _
  rw [getD_pack _ _ min_le_max (max_lt i.2 j.2)]
  rcases le_total i j with hij | hji
  · rw [min_eq_left (Fin.le_def.mp hij), max_eq_right (Fin.le_def.mp hij), entries_apply]
  · rw [min_eq_right (Fin.le_def.mp hji), max_eq_left (Fin.le_def.mp hji), entries_apply, hA.apply]

/-- The diagonal of an unpacked triangle. -/
theorem unpack_diag (h : List R) (i : Fin n) : unpack n h i i = h.getD (rowStart n i) 0 := by
  show h.getD (place n (min i i) (max i i)) 0 = _
  rw [min_self, max_self, place_self]

/-- What is done entry by entry to a triangle is done to the matrix. -/
theorem unpack_map {f : R → R} {h : List R} (hh : h.length = rowStart n n) (i j : Fin n) :
    unpack n (h.map f) i j = f (unpack n h i j) := by
  have hplace := place_le (i := i) (j := j)
  show List.getD _ _ _ = f (List.getD _ _ _)
  rw [List.getD_eq_getElem _ _ (by rw [List.length_map]; omega), List.getElem_map,
    List.getD_eq_getElem _ _ (by omega)]

/-- What is done entry by entry to two triangles is done to the matrices. -/
theorem unpack_zipWith {f : R → R → R} {g h : List R} (hg : g.length = rowStart n n)
    (hh : h.length = rowStart n n) (i j : Fin n) :
    unpack n (List.zipWith f g h) i j = f (unpack n g i j) (unpack n h i j) := by
  have hplace := place_le (i := i) (j := j)
  show List.getD _ _ _ = f (List.getD _ _ _) (List.getD _ _ _)
  rw [List.getD_eq_getElem _ _ (by rw [List.length_zipWith]; omega), List.getElem_zipWith,
    List.getD_eq_getElem _ _ (by omega), List.getD_eq_getElem _ _ (by omega)]

/-- The diagonal entries, row by row. -/
def diagonal (A : Matrix (Fin n) (Fin n) R) : List R := tabulate n fun i => entries A i i

theorem diagonal_unpack (h : List R) :
    diagonal (unpack n h) = tabulate n fun i => h.getD (rowStart n i) 0 := by
  refine tabulate_congr fun i hi => ?_
  rw [entries, dif_pos ⟨hi, hi⟩, unpack_diag]

end Zero

theorem sum_diagonal [AddCommMonoid R] (A : Matrix (Fin n) (Fin n) R) : (diagonal A).sum = A.trace := by
  have hentries : ∀ i : Fin n, A.diag i = entries A i i := fun i => (entries_apply A i i).symm
  rw [Matrix.trace, Finset.sum_congr rfl fun i _ => hentries i,
    Fin.sum_univ_eq_sum_range (fun i => entries A i i)]
  rfl

/-- The length of a triangle. -/
theorem rowStart_self (n : Nat) : rowStart n n = n * (n + 1) / 2 := by
  have heven := Int.mul_ediv_cancel' (even_iff_two_dvd.mp (Int.even_mul_pred_self (n : ℤ)))
  have hcast := rowStart_cast (le_refl n)
  have hsum : (rowStart n n : ℤ) * 2 = n * (n + 1) := by linarith
  have hnat : rowStart n n * 2 = n * (n + 1) := by exact_mod_cast hsum
  omega

end VllmExl3.Triangle
