/-
# VllmExl3.Lib.Spans — pieces laid end to end

Consecutive half-open intervals given by their widths: piece `k` starts at the sum of the widths
before it. Every point below the total width lies in exactly one piece, also when each piece is cut
again into equal parts. Nothing here names the repository.
-/
import Mathlib.Data.List.Basic
import Mathlib.Algebra.BigOperators.Ring.List
import Mathlib.Algebra.Ring.Nat

namespace VllmExl3

/-- Where piece `k` starts. -/
def spanStart (widths : List Nat) (k : Nat) : Nat := (widths.take k).sum

@[simp] theorem spanStart_zero (widths : List Nat) : spanStart widths 0 = 0 := rfl

@[simp] theorem spanStart_cons_succ (w : Nat) (rest : List Nat) (k : Nat) :
    spanStart (w :: rest) (k + 1) = w + spanStart rest k := by
  simp [spanStart]

/-- A piece ends inside the total width. -/
theorem spanStart_add_le (widths : List Nat) (k : Nat) :
    spanStart widths k + widths.getD k 0 ≤ widths.sum := by
  induction widths generalizing k with
  | nil => simp [spanStart]
  | cons w rest ih =>
    cases k with
    | zero => simp
    | succ k =>
      have htail := ih k
      rw [spanStart_cons_succ, List.getD_cons_succ, List.sum_cons]
      omega

theorem spanStart_dvd {d : Nat} {widths : List Nat} (h : ∀ w ∈ widths, d ∣ w) (k : Nat) :
    d ∣ spanStart widths k :=
  List.dvd_sum fun w hw => h w (List.mem_of_mem_take hw)

/-- Every point below the total width lies in exactly one piece. -/
theorem existsUnique_span {widths : List Nat} {c : Nat} (h : c < widths.sum) :
    ∃! k, spanStart widths k ≤ c ∧ c < spanStart widths k + widths.getD k 0 := by
  induction widths generalizing c with
  | nil => simp at h
  | cons w rest ih =>
    rw [List.sum_cons] at h
    rcases Nat.lt_or_ge c w with hfirst | hlater
    · refine ⟨0, ⟨Nat.zero_le c, by simpa using hfirst⟩, fun k hk => ?_⟩
      -- a later piece starts at `w` or beyond
      cases k with
      | zero => rfl
      | succ k =>
        rw [spanStart_cons_succ] at hk
        omega
    · obtain ⟨k, ⟨hlo, hhi⟩, huniq⟩ := ih (c := c - w) (by omega)
      refine ⟨k + 1, ⟨?_, ?_⟩, fun l hl => ?_⟩
      · show spanStart (w :: rest) (k + 1) ≤ c
        rw [spanStart_cons_succ]
        omega
      · show c < spanStart (w :: rest) (k + 1) + (w :: rest).getD (k + 1) 0
        rw [spanStart_cons_succ, List.getD_cons_succ]
        omega
      · cases l with
        | zero =>
          rw [spanStart_zero, List.getD_cons_zero] at hl
          omega
        | succ l =>
          rw [spanStart_cons_succ, List.getD_cons_succ] at hl
          exact congrArg (· + 1) (huniq l ⟨by omega, by omega⟩)

/-- Every point below `n * p` lies in exactly one of `n` parts of width `p`. -/
theorem existsUnique_part {n p c : Nat} (h : c < n * p) :
    ∃! r, r < n ∧ r * p ≤ c ∧ c < r * p + p := by
  have hp : 0 < p := Nat.pos_of_ne_zero fun hzero => by simp [hzero] at h
  have hdiv : p * (c / p) + c % p = c := Nat.div_add_mod c p
  have hmod : c % p < p := Nat.mod_lt c hp
  refine ⟨c / p, ⟨Nat.div_lt_of_lt_mul (by rwa [Nat.mul_comm]), ?_, ?_⟩, fun r hr => ?_⟩
  · exact Nat.div_mul_le_self c p
  · show c < c / p * p + p
    rw [Nat.mul_comm]
    omega
  · obtain ⟨_, hlo, hhi⟩ := hr
    apply Nat.le_antisymm
    · exact (Nat.le_div_iff_mul_le hp).mpr hlo
    · refine Nat.lt_succ_iff.mp (Nat.div_lt_of_lt_mul ?_)
      rw [Nat.mul_comm, Nat.succ_mul]
      exact hhi

end VllmExl3
