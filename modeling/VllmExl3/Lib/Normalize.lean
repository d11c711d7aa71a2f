/-
# VllmExl3.Lib.Normalize — weighted sums of normalized functions

A function on a list of positions has a total there, and divided by it a total of one: the relative
sizes of its values, which no constant factor changes. A weighted sum of normalized functions totals
the sum of the weights. Nothing here names the repository.
-/
import Mathlib.Algebra.BigOperators.Group.List.Basic
import Mathlib.Algebra.BigOperators.Ring.List
import Mathlib.Algebra.Field.Basic
import Mathlib.Tactic.FieldSimp

namespace VllmExl3

variable {ι K : Type*} [Field K]

/-- The sum of a function's values at the positions. -/
def total (ps : List ι) (F : ι → K) : K := (ps.map F).sum

/-- A function's values as shares of their total. -/
def normalize (ps : List ι) (F : ι → K) (p : ι) : K := F p / total ps F

/-- The sum of functions, each at its weight. -/
def combine (ws : List (K × (ι → K))) (p : ι) : K := (ws.map fun w => w.1 * w.2 p).sum

variable {ps : List ι} {F G : ι → K} {ws vs : List (K × (ι → K))} {p : ι}

theorem total_congr (h : ∀ p ∈ ps, F p = G p) : total ps F = total ps G := by
  rw [total, List.map_congr_left h, total]

theorem total_mul (c : K) : (total ps fun p => c * F p) = c * total ps F := by
  rw [total, List.sum_map_mul_left, total]

theorem total_add : (total ps fun p => F p + G p) = total ps F + total ps G := by
  rw [total, List.sum_map_add, total, total]

/-- Normalized, the values total one. -/
theorem total_normalize (h : total ps F ≠ 0) : total ps (normalize ps F) = 1 := by
  have hdiv : ∀ p ∈ ps, normalize ps F p = (total ps F)⁻¹ * F p := by
    intro p _
    rw [normalize, div_eq_inv_mul]
  rw [total_congr hdiv, total_mul, inv_mul_cancel₀ h]

/-- Values that are multiplied by a constant are the same shares of their total. -/
theorem normalize_mul {c : K} (hc : c ≠ 0) (h : ∀ q ∈ ps, G q = c * F q) (hp : p ∈ ps) :
    normalize ps G p = normalize ps F p := by
  rw [normalize, total_congr h, total_mul, h p hp, mul_div_mul_left _ _ hc, normalize]

@[simp] theorem combine_nil : combine ([] : List (K × (ι → K))) p = 0 := rfl

@[simp] theorem combine_cons (w : K × (ι → K)) : combine (w :: ws) p = w.1 * w.2 p + combine ws p := by
  simp [combine]

/-- Functions of the same weights and the same values. -/
theorem combine_congr (h : List.Forall₂ (fun w v => w.1 = v.1 ∧ w.2 p = v.2 p) ws vs) :
    combine ws p = combine vs p := by
  induction h with
  | nil => rfl
  | cons hw _ ih => rw [combine_cons, combine_cons, ih, hw.1, hw.2]

/-- The order of the functions does not matter. -/
theorem combine_perm (h : ws.Perm vs) : combine ws p = combine vs p :=
  (h.map _).sum_eq

/-- A factor of the weights is one of the sum. -/
theorem combine_mul (c : K) : combine (ws.map fun w => (c * w.1, w.2)) p = c * combine ws p := by
  rw [combine, combine, List.map_map, ← List.sum_map_mul_left]
  apply congrArg List.sum
  apply List.map_congr_left
  intro w _
  exact mul_assoc c w.1 (w.2 p)

/-- The total of a weighted sum is that of the totals. -/
theorem total_combine : total ps (combine ws) = (ws.map fun w => w.1 * total ps w.2).sum := by
  induction ws with
  | nil =>
    apply List.sum_eq_zero
    simp
  | cons w rest ih =>
    have hcons : total ps (combine (w :: rest)) = total ps fun p => w.1 * w.2 p + combine rest p :=
      total_congr fun p _ => combine_cons w
    rw [hcons, total_add, total_mul, ih, List.map_cons, List.sum_cons]

/-- Normalized functions total the sum of their weights. -/
theorem total_combine_normalize (h : ∀ w ∈ ws, total ps w.2 ≠ 0) :
    total ps (combine (ws.map fun w => (w.1, normalize ps w.2))) = (ws.map Prod.fst).sum := by
  have hone : ∀ w ∈ ws, w.1 * total ps (normalize ps w.2) = w.1 := by
    intro w hw
    rw [total_normalize (h w hw), mul_one]
  rw [total_combine, List.map_map]
  exact congrArg List.sum (List.map_congr_left hone)

end VllmExl3
