/-
# VllmExl3.Lib.LastWins — runs of partial updates, and the last one that says something

A run of updates each of which sets some points of a function and leaves the others. After the run a
point holds what the last update that sets it gives it (`lastWins_eq`). The library is about finding
that update: `lastBy p` is the last element a predicate selects, and a predicate that a stronger one
only thins out selects the same element whenever the stronger one accepts it. Nothing here names the
repository.
-/
import Mathlib.Data.List.Induction

namespace VllmExl3

variable {ρ α β : Type*}

/-! ## The last selected element -/

/-- The last element `p` selects. -/
def lastBy (p : ρ → Bool) (rules : List ρ) : Option ρ := rules.reverse.find? p

@[simp] theorem lastBy_concat (p : ρ → Bool) (rules : List ρ) (r : ρ) :
    lastBy p (rules ++ [r]) = if p r = true then some r else lastBy p rules := by
  rw [lastBy, List.reverse_append]
  cases h : p r <;> simp [h, lastBy]

theorem lastBy_selected {p : ρ → Bool} {rules : List ρ} {r : ρ} (h : lastBy p rules = some r) :
    p r = true := List.find?_some h

theorem mem_of_lastBy {p : ρ → Bool} {rules : List ρ} {r : ρ} (h : lastBy p rules = some r) :
    r ∈ rules := List.mem_reverse.mp (List.mem_of_find?_eq_some h)

theorem lastBy_eq_none {p : ρ → Bool} {rules : List ρ} :
    lastBy p rules = none ↔ ∀ r ∈ rules, p r = false := by
  simp [lastBy]

/-- Where the last element `p` selects also passes `q`, thinning `p` out by `q` changes nothing. -/
theorem lastBy_and_of_last {p q : ρ → Bool} {rules : List ρ} {r : ρ} (h : lastBy p rules = some r)
    (hq : q r = true) : lastBy (fun r => p r && q r) rules = some r := by
  induction rules using List.reverseRecOn with
  | nil => cases h
  | append_singleton rest last ih =>
    rw [lastBy_concat] at h ⊢
    rcases hp : p last with _ | _
    · rw [hp, if_neg Bool.false_ne_true] at h
      rw [Bool.false_and, if_neg Bool.false_ne_true]
      exact ih h
    · rw [hp, if_pos rfl] at h
      obtain rfl := Option.some.inj h
      rw [hq, Bool.and_self, if_pos rfl]

/-! ## Runs -/

/-- What a point holds after a run of updates: each sets some points, the others keep their value. -/
def lastWins (update : ρ → α → Option β) (start : α → β) (rules : List ρ) (a : α) : β :=
  rules.foldl (fun b r => (update r a).getD b) (start a)

theorem lastWins_concat (update : ρ → α → Option β) (start : α → β) (rules : List ρ) (r : ρ)
    (a : α) : lastWins update start (rules ++ [r]) a =
      (update r a).getD (lastWins update start rules a) := by
  rw [lastWins, List.foldl_append]
  rfl

/-- The last update that sets a point decides it. -/
theorem lastWins_eq (update : ρ → α → Option β) (start : α → β) (rules : List ρ) (a : α) :
    lastWins update start rules a =
      match lastBy (fun r => (update r a).isSome) rules with
      | some r => (update r a).getD (start a)
      | none => start a := by
  induction rules using List.reverseRecOn with
  | nil => rfl
  | append_singleton rest last ih =>
    rw [lastWins_concat, lastBy_concat]
    cases h : update last a with
    | none => simpa using ih
    | some b => simp [h]

end VllmExl3
