/-
# VllmExl3.Lib.WhileLoop — loops that may not end

A `while` loop as its body: from a state to the next one, or out of the loop with a result. `run` gives it
fuel, and `Ends` is what it comes to with enough. A loop has one result at most, a measure that falls
shows that it has one, and a set of states that the body never leaves shows that it has none. Nothing here
names the repository.
-/
import Mathlib.Data.Sum.Basic

namespace VllmExl3.WhileLoop

variable {σ ρ : Type*} {body : σ → σ ⊕ ρ} {s s' : σ} {r r' : ρ}

/-- The loop with fuel. -/
def run (body : σ → σ ⊕ ρ) : Nat → σ → Option ρ
  | 0, _ => none
  | fuel + 1, s => (body s).elim (run body fuel) some

/-- The loop comes to an end, with this result. -/
def Ends (body : σ → σ ⊕ ρ) (s : σ) (r : ρ) : Prop := ∃ fuel, run body fuel s = some r

/-! ## One round -/

theorem ends_inr (h : body s = .inr r) : Ends body s r' ↔ r' = r := by
  constructor
  · rintro ⟨fuel, hrun⟩
    cases fuel with
    | zero => cases hrun
    | succ fuel =>
      rw [run, h] at hrun
      exact (Option.some.inj hrun).symm
  · rintro rfl
    exact ⟨1, by rw [run, h]; rfl⟩

theorem ends_inl (h : body s = .inl s') : Ends body s r ↔ Ends body s' r := by
  constructor
  · rintro ⟨fuel, hrun⟩
    cases fuel with
    | zero => cases hrun
    | succ fuel =>
      rw [run, h] at hrun
      exact ⟨fuel, hrun⟩
  · rintro ⟨fuel, hrun⟩
    exact ⟨fuel + 1, by rw [run, h]; exact hrun⟩

/-! ## Whole runs -/

/-- Fuel that is enough stays enough. -/
theorem run_mono {fuel more : Nat} (hle : fuel ≤ more) (h : run body fuel s = some r) :
    run body more s = some r := by
  induction fuel generalizing s more with
  | zero => cases h
  | succ fuel ih =>
    cases more with
    | zero => cases hle
    | succ more =>
      rw [run] at h ⊢
      cases hbody : body s with
      | inl s' =>
        rw [hbody] at h
        exact ih (Nat.le_of_succ_le_succ hle) h
      | inr r' =>
        rw [hbody] at h
        exact h

theorem Ends.unique (h : Ends body s r) (h' : Ends body s r') : r = r' := by
  obtain ⟨fuel, hrun⟩ := h
  obtain ⟨fuel', hrun'⟩ := h'
  have hmore := run_mono (Nat.le_max_left fuel fuel') hrun
  have hmore' := run_mono (Nat.le_max_right fuel fuel') hrun'
  exact Option.some.inj (hmore.symm.trans hmore')

/-- A measure that falls as long as the loop goes on. -/
theorem ends_of_measure {P : σ → Prop} (m : σ → Nat) (hstep : ∀ s s', P s → body s = .inl s' → P s')
    (hfall : ∀ s s', P s → body s = .inl s' → m s' < m s) (hs : P s) :
    ∃ s' r, P s' ∧ body s' = .inr r ∧ Ends body s r := by
  induction h : m s using Nat.strongRecOn generalizing s with
  | ind n ih =>
    cases hbody : body s with
    | inr r => exact ⟨s, r, hs, hbody, (ends_inr hbody).mpr rfl⟩
    | inl s' =>
      obtain ⟨last, r, hlast, hout, hends⟩ := ih (m s') (h ▸ hfall s s' hs hbody) (hstep s s' hs hbody) rfl
      exact ⟨last, r, hlast, hout, (ends_inl hbody).mpr hends⟩

/-- States that the loop does not get out of. -/
theorem not_ends {P : σ → Prop} (hstep : ∀ s, P s → ∃ s', body s = .inl s' ∧ P s') (hs : P s) :
    ¬ Ends body s r := by
  rintro ⟨fuel, hrun⟩
  induction fuel generalizing s with
  | zero => cases hrun
  | succ fuel ih =>
    obtain ⟨s', hbody, hs'⟩ := hstep s hs
    rw [run, hbody] at hrun
    exact ih hs' hrun

end VllmExl3.WhileLoop
