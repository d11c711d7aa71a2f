/-
# VllmExl3.Lib.Quantize — uniform quantization to a clipped range of levels

A value is read back as `z * s + m` from an integer level `z`, rounded to nearest and clipped to
`[0, levels]`. Rounding costs half a step; clipping costs the distance to the range the levels reach.
Where step and offset are themselves approximations, the range moves by their errors. Nothing here
names the repository.
-/
import Mathlib.Algebra.Order.Field.Basic
import Mathlib.Algebra.Order.Ring.Abs
import Mathlib.Algebra.Order.Ring.Cast
import Mathlib.Tactic.Linarith
import Mathlib.Tactic.Ring

namespace VllmExl3.Quantize

variable {α : Type*} [Field α] [LinearOrder α] [IsStrictOrderedRing α]

/-- An integer nearest to `x`, ties either way. -/
def Nearest (z : ℤ) (x : α) : Prop := |(z : α) - x| ≤ 1 / 2

/-- A level clipped to `[0, levels]`. -/
def clip (levels : Nat) (z : ℤ) : ℤ := min (max z 0) levels

theorem clip_nonneg (levels : Nat) (z : ℤ) : 0 ≤ clip levels z := by
  unfold clip
  omega

theorem clip_le (levels : Nat) (z : ℤ) : clip levels z ≤ levels := min_le_right _ _

theorem clip_eq {levels : Nat} {z : ℤ} (h : 0 ≤ z) (h' : z ≤ levels) : clip levels z = z := by
  unfold clip
  omega

section Nearest

variable {z : ℤ} {x : α} {levels : Nat}

/-- Rounding does not pass an integer. -/
theorem Nearest.le (h : Nearest z x) {n : ℤ} (hx : x ≤ n) : z ≤ n := by
  have hz : (z : α) < (n + 1 : ℤ) := by
    have habs := (abs_le.mp h).2
    push_cast
    linarith
  have hlt : z < n + 1 := Int.cast_lt.mp hz
  omega

theorem Nearest.ge (h : Nearest z x) {n : ℤ} (hx : (n : α) ≤ x) : n ≤ z := by
  have hz : ((n - 1 : ℤ) : α) < z := by
    have habs := (abs_le.mp h).1
    push_cast
    linarith
  have hlt : n - 1 < z := Int.cast_lt.mp hz
  omega

/-- A value inside the range is not clipped. -/
theorem Nearest.clip_eq (h : Nearest z x) (hx : 0 ≤ x) (hx' : x ≤ levels) : clip levels z = z := by
  refine Quantize.clip_eq (h.ge ?_) (h.le ?_)
  · rwa [Int.cast_zero]
  · rwa [Int.cast_natCast]

end Nearest

section Levels

variable {x m s : α} {z : ℤ} {levels : Nat}

/-- The level of `x` in steps of `s` from `m`, off by half a step. -/
theorem round_error (hs : 0 < s) (hz : Nearest z ((x - m) / s)) : |z * s + m - x| ≤ s / 2 := by
  have hscale : (z : α) * s + m - x = ((z : α) - (x - m) / s) * s := by
    rw [sub_mul, div_mul_cancel₀ _ hs.ne']
    ring
  calc |(z : α) * s + m - x| = |(z : α) - (x - m) / s| * s := by
        rw [hscale, abs_mul, abs_of_pos hs]
    _ ≤ 1 / 2 * s := mul_le_mul_of_nonneg_right hz hs.le
    _ = s / 2 := by ring

/-- Inside the range of the levels, a clipped value is off by half a step. -/
theorem in_range_error (hs : 0 < s) (hz : Nearest z ((x - m) / s)) (hlo : m ≤ x)
    (hhi : x ≤ m + levels * s) : |clip levels z * s + m - x| ≤ s / 2 := by
  have hx : 0 ≤ (x - m) / s := div_nonneg (by linarith) hs.le
  have hx' : (x - m) / s ≤ levels := (div_le_iff₀ hs).mpr (by linarith)
  rw [hz.clip_eq hx hx']
  exact round_error hs hz

/-- Anywhere, a clipped value is off by half a step or by its distance to the range. -/
theorem clip_error (hs : 0 < s) (hz : Nearest z ((x - m) / s)) :
    |clip levels z * s + m - x| ≤ max (s / 2) (max (m - x) (x - (m + levels * s))) := by
  rcases lt_or_ge x m with hbelow | hlo
  · -- below the range the level is zero
    have hneg : (x - m) / s ≤ (0 : ℤ) := by
      rw [Int.cast_zero]
      exact div_nonpos_of_nonpos_of_nonneg (by linarith) hs.le
    have hzero : clip levels z = 0 := by
      have hle := hz.le hneg
      unfold clip
      omega
    rw [hzero, Int.cast_zero, zero_mul, zero_add, abs_of_nonneg (by linarith)]
    exact le_max_of_le_right (le_max_left _ _)
  · rcases le_or_gt x (m + levels * s) with hhi | habove
    · exact le_max_of_le_left (in_range_error hs hz hlo hhi)
    · -- above the range the level is the last one
      have hpos : ((levels : ℤ) : α) ≤ (x - m) / s := by
        rw [Int.cast_natCast, le_div_iff₀ hs]
        linarith
      have htop : clip levels z = levels := by
        have hge := hz.ge hpos
        unfold clip
        omega
      rw [htop, Int.cast_natCast, abs_of_nonpos (by linarith)]
      exact le_max_of_le_right (le_max_of_le_right (by linarith))

/-- Levels over an approximate range: `x` lies within `levels` steps of `s₀` from `m₀`, and the offset
and the step used instead are off by at most `dm` and `ds`. -/
theorem nested_error {m₀ s₀ dm ds : α} (hs : 0 < s) (hz : Nearest z ((x - m) / s)) (hlo : m₀ ≤ x)
    (hhi : x ≤ m₀ + levels * s₀) (hm : |m - m₀| ≤ dm) (hsd : |s - s₀| ≤ ds) :
    |clip levels z * s + m - x| ≤ max (s / 2) (dm + levels * ds) := by
  have hm' := abs_le.mp hm
  have hds : 0 ≤ ds := (abs_nonneg _).trans hsd
  have hlevels : (levels : α) * (s₀ - s) ≤ levels * ds :=
    mul_le_mul_of_nonneg_left (by linarith [(abs_le.mp hsd).1]) (Nat.cast_nonneg _)
  have hextra : (0 : α) ≤ levels * ds := mul_nonneg (Nat.cast_nonneg _) hds
  refine (clip_error hs hz).trans (max_le_max_left _ (max_le ?_ ?_))
  · linarith
  · linarith

end Levels

end VllmExl3.Quantize
