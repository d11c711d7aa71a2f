/-
# VllmExl3.Lib.PyFloat — Python's floats, with NaN

The operations of `float` and `math` a program compares with, and what their comparisons promise: NaN
compares false with everything, and the numbers, infinities included, are totally ordered. `max` is
Python's own, which keeps the first of its candidates that no later one exceeds; among numbers it is
an upper bound, and a NaN in front of it is never exceeded. Nothing here names the repository.
-/
import Mathlib.Analysis.SpecialFunctions.Log.Basic

namespace VllmExl3

/-- `float` and `math`; an operation that raises gives `none`. -/
structure PyFloat (F : Type) where
  lt : F → F → Bool
  eq : F → F → Bool
  nan : F
  ofRat : Rat → F
  add : F → F → F
  sub : F → F → F
  mul : F → F → F
  abs : F → F
  exp : F → Option F
  log : F → Option F
  /-- `str(x)` -/
  repr : F → String
  /-- `f"{x:.3e}"` -/
  fmt : F → String

namespace PyFloat

variable {F : Type} (o : PyFloat F)

/-- `x <= y` -/
def le (x y : F) : Bool := o.lt x y || o.eq x y

/-- `x == x`, false for NaN alone -/
def number (x : F) : Bool := o.eq x x

/-- What IEEE comparisons promise. -/
structure Laws : Prop where
  le_number : ∀ x y, o.le x y = true → o.number x = true ∧ o.number y = true
  le_trans : ∀ x y z, o.le x y = true → o.le y z = true → o.le x z = true
  le_iff : ∀ x y, o.number x = true → o.number y = true → (o.le x y = true ↔ o.lt y x = false)

/-! ## `max` -/

/-- The loop of `max`, from the candidate it starts with. -/
def maxFrom (best : F) (xs : List F) : F := xs.foldl (fun best x => if o.lt best x then x else best) best

/-- `max(xs) if xs else default` -/
def maxD (default : F) : List F → F
  | [] => default
  | x :: xs => o.maxFrom x xs

/-- `max(xs, key=key)` -/
def maxBy {α : Type} (key : α → F) : List α → Option α
  | [] => none
  | x :: xs => some (xs.foldl (fun best x => if o.lt (key best) (key x) then x else best) x)

theorem maxBy_mem {α : Type} {key : α → F} {xs : List α} {x : α} (h : o.maxBy key xs = some x) : x ∈ xs := by
  cases xs with
  | nil => cases h
  | cons first rest =>
    obtain rfl := Option.some.inj h
    induction rest generalizing first with
    | nil => exact List.mem_singleton.mpr rfl
    | cons y rest ih =>
      rw [List.foldl_cons]
      split_ifs
      · exact List.mem_cons_of_mem first (ih y rfl)
      · rcases List.mem_cons.mp (ih first rfl) with heq | hrest
        · rw [heq]
          exact List.mem_cons_self
        · exact List.mem_cons_of_mem _ (List.mem_cons_of_mem _ hrest)

theorem maxBy_isSome {α : Type} {key : α → F} {xs : List α} (h : xs ≠ []) : ∃ x, o.maxBy key xs = some x := by
  cases xs with
  | nil => exact absurd rfl h
  | cons x rest => exact ⟨_, rfl⟩

variable {o}

/-- Among numbers the loop ends at an upper bound, itself one of them. -/
theorem maxFrom_spec (ho : o.Laws) {best : F} {xs : List F} (hbest : o.number best = true)
    (hxs : ∀ x ∈ xs, o.number x = true) :
    o.number (o.maxFrom best xs) = true ∧ o.le best (o.maxFrom best xs) = true ∧
      ∀ x ∈ xs, o.le x (o.maxFrom best xs) = true := by
  have hrefl : ∀ x, o.number x = true → o.le x x = true := fun x hx => by
    rw [le]
    exact Bool.or_eq_true_iff.mpr (.inr hx)
  induction xs generalizing best with
  | nil => exact ⟨hbest, hrefl best hbest, fun x hx => absurd hx List.not_mem_nil⟩
  | cons y rest ih =>
    have hy := hxs y List.mem_cons_self
    have hrest : ∀ x ∈ rest, o.number x = true := fun x hx => hxs x (List.mem_cons_of_mem y hx)
    rw [maxFrom, List.foldl_cons]
    by_cases hlt : o.lt best y = true
    · rw [if_pos hlt]
      obtain ⟨hnumber, hle, hall⟩ := ih hy hrest
      have hstep : o.le best y = true := by
        rw [le]
        exact Bool.or_eq_true_iff.mpr (.inl hlt)
      refine ⟨hnumber, ho.le_trans _ _ _ hstep hle, fun x hx => ?_⟩
      rcases List.mem_cons.mp hx with rfl | hx
      · exact hle
      · exact hall x hx
    · rw [if_neg hlt]
      obtain ⟨hnumber, hle, hall⟩ := ih hbest hrest
      have hstep : o.le y best = true := (ho.le_iff y best hy hbest).mpr (Bool.eq_false_iff.mpr hlt)
      refine ⟨hnumber, hle, fun x hx => ?_⟩
      rcases List.mem_cons.mp hx with rfl | hx
      · exact ho.le_trans _ _ _ hstep hle
      · exact hall x hx

/-- Numbers whose `max` does not exceed a bound are all within it. -/
theorem le_of_maxD (ho : o.Laws) {default bound : F} {xs : List F} (hxs : ∀ x ∈ xs, o.number x = true)
    (hbound : o.number bound = true) (h : o.lt bound (o.maxD default xs) = false) :
    ∀ x ∈ xs, o.le x bound = true := by
  cases xs with
  | nil => exact fun x hx => absurd hx List.not_mem_nil
  | cons y rest =>
    obtain ⟨hnumber, hle, hall⟩ := maxFrom_spec ho (hxs y List.mem_cons_self)
      fun x hx => hxs x (List.mem_cons_of_mem y hx)
    have hmax : o.le (o.maxFrom y rest) bound = true := (ho.le_iff _ _ hnumber hbound).mpr h
    intro x hx
    rcases List.mem_cons.mp hx with rfl | hx
    · exact ho.le_trans _ _ _ hle hmax
    · exact ho.le_trans _ _ _ (hall x hx) hmax

/-! ## Floats without rounding -/

open Classical in
/-- The real numbers with a NaN: what floats compute when no operation rounds. -/
noncomputable def exact : PyFloat (Option ℝ) where
  lt
    | some x, some y => decide (x < y)
    | _, _ => false
  eq
    | some x, some y => decide (x = y)
    | _, _ => false
  nan := none
  ofRat q := some q
  add x y := do return (← x) + (← y)
  sub x y := do return (← x) - (← y)
  mul x y := do return (← x) * (← y)
  abs x := x.map fun a => |a|
  exp x := some (x.map Real.exp)
  log
    | some x => if 0 < x then some (some (Real.log x)) else none
    | none => some none
  repr _ := ""
  fmt _ := ""

theorem exact_laws : exact.Laws where
  le_number x y h := by cases x <;> cases y <;> simp_all [le, number, exact]
  le_trans x y z h h' := by
    cases x <;> cases y <;> cases z <;> simp_all [le, exact]
    grind
  le_iff x y hx hy := by
    cases x <;> cases y <;> simp_all [le, number, exact]
    exact le_iff_lt_or_eq.symm

end PyFloat

end VllmExl3
