/-
# VllmExl3.Lib.Wavefront — equations solved in waves

Unknowns `f x`, one for each place `x` of a domain, and one equation `f x = F x f` each. Where `F x`
reads an assignment only at places of lower rank, the equations have at most one solution, and a sweep
that updates the places of rank 0, 1, 2, … from the assignment before each wave computes it. Nothing
here names the repository.
-/
import Mathlib.Data.Nat.Init
import Mathlib.Order.Basic

namespace VllmExl3

section Wavefront

variable {ι α β : Type*} {dom : ι → Prop} {rank : ι → Nat}

/-- `G x` reads an assignment only at the places of the domain of lower rank than `x`. -/
def Causal (dom : ι → Prop) (rank : ι → Nat) (G : ι → (ι → α) → β) : Prop :=
  ∀ x, dom x → ∀ f g, (∀ y, dom y → rank y < rank x → f y = g y) → G x f = G x g

/-- The equations hold on the domain. -/
def Solves (dom : ι → Prop) (F : ι → (ι → α) → α) (f : ι → α) : Prop := ∀ x, dom x → f x = F x f

/-- Wave `d`: the places of rank `d` take their value from the assignment before the wave, the others
keep theirs. -/
structure Wave (dom : ι → Prop) (rank : ι → Nat) (F : ι → (ι → α) → α) (d : Nat) (f g : ι → α) : Prop where
  updated : ∀ x, dom x → rank x = d → g x = F x f
  kept : ∀ x, dom x → rank x ≠ d → g x = f x

variable {F : ι → (ι → α) → α}

/-- **Uniqueness**, by induction on the rank: below `x` the two solutions already agree. -/
theorem Causal.unique (hF : Causal dom rank F) {f g : ι → α} (hf : Solves dom F f)
    (hg : Solves dom F g) {x : ι} (hx : dom x) : f x = g x := by
  induction h : rank x using Nat.strongRecOn generalizing x with
  | ind n ih =>
    subst h
    rw [hf x hx, hg x hx]
    apply hF x hx
    intro y hy hlt
    exact ih (rank y) hlt hy rfl

section Sweep

variable {sweep : Nat → ι → α} {N : Nat} (hsweep : ∀ d < N, Wave dom rank F d (sweep d) (sweep (d + 1)))
include hsweep

/-- From its own wave on a place keeps its value. -/
theorem sweep_settled {x : ι} (hx : dom x) {d : Nat} (hd : rank x < d) (hN : d ≤ N) :
    sweep d x = sweep N x := by
  induction N, hN using Nat.le_induction with
  | base => rfl
  | succ n hn ih =>
    rw [ih fun e he => hsweep e (by omega)]
    exact ((hsweep n (by omega)).kept x hx (by omega)).symm

/-- What a causal function reads in the place's own wave is what it reads at the end. -/
theorem sweep_reads {G : ι → (ι → α) → β} (hG : Causal dom rank G) {x : ι} (hx : dom x) {d : Nat}
    (hd : d = rank x) (hN : d ≤ N) : G x (sweep d) = G x (sweep N) := by
  subst hd
  apply hG x hx
  intro y hy hlt
  exact sweep_settled hsweep hy hlt hN

/-- **The sweep solves the equations** once it has passed every rank. -/
theorem sweep_solves (hF : Causal dom rank F) (hN : ∀ x, dom x → rank x < N) :
    Solves dom F (sweep N) := by
  intro x hx
  have hlt := hN x hx
  calc sweep N x = sweep (rank x + 1) x := (sweep_settled hsweep hx (Nat.lt_succ_self _) hlt).symm
    _ = F x (sweep (rank x)) := (hsweep (rank x) hlt).updated x hx rfl
    _ = F x (sweep N) := sweep_reads hsweep hF hx rfl (Nat.le_of_lt hlt)

end Sweep

end Wavefront

end VllmExl3
