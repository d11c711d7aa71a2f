/-
# VllmExl3.Lib.Reach — reachability, and what holds while a queue drains

Two general notions the stateful parts of the development share.

A `System` is a set of initial states with a step relation; `System.invariant` packages the
induction over runs once. `Along step P s q` says that `P` holds of every state a FIFO queue
`q` passes through when it is executed from `s`: before its first operation, between operations,
and after its last. It is the shape of every fact about work that is already enqueued but not yet
executed, since the device may stop anywhere in the queue. Nothing here names the repository.
-/
import Mathlib.Logic.Relation

namespace VllmExl3

/-! ## Transition systems -/

/-- Initial states and a step relation. -/
structure System (σ : Type*) where
  init : σ → Prop
  step : σ → σ → Prop

namespace System

variable {σ : Type*}

/-- Reachable from an initial state by finitely many steps. -/
def Reachable (S : System σ) (t : σ) : Prop :=
  ∃ s, S.init s ∧ Relation.ReflTransGen S.step s t

/-- The invariant rule: what holds initially and is preserved by every step holds of every
reachable state. -/
theorem invariant {S : System σ} {P : σ → Prop} (hinit : ∀ s, S.init s → P s)
    (hstep : ∀ s t, P s → S.step s t → P t) {t : σ} (h : S.Reachable t) : P t := by
  obtain ⟨s, hs, hrun⟩ := h
  induction hrun with
  | refl => exact hinit s hs
  | tail _ hlast ih => exact hstep _ _ ih hlast

/-- A measure that falls with every step taken inside an invariant ends every run from there. -/
theorem acc_of_measure {S : System σ} {P : σ → Prop} (m : σ → Nat)
    (hstep : ∀ s t, P s → S.step s t → P t) (hfall : ∀ s t, P s → S.step s t → m t < m s) {s : σ}
    (hs : P s) : Acc (fun t s => S.step s t) s := by
  induction h : m s using Nat.strongRecOn generalizing s with
  | ind n ih =>
    refine Acc.intro s fun t ht => ?_
    exact ih (m t) (h ▸ hfall s t hs ht) (hstep s t hs ht) rfl

/-- Where every run ends, some run ends in a state without a step. -/
theorem exists_last {S : System σ} {s : σ} (h : Acc (fun t s => S.step s t) s) :
    ∃ t, Relation.ReflTransGen S.step s t ∧ ∀ u, ¬ S.step t u := by
  induction h with
  | intro s _ ih =>
    by_cases hs : ∃ t, S.step s t
    · obtain ⟨t, ht⟩ := hs
      obtain ⟨u, htu, hlast⟩ := ih t ht
      exact ⟨u, htu.head ht, hlast⟩
    · exact ⟨s, .refl, not_exists.mp hs⟩

end System

/-! ## Executing a queue -/

section Along

variable {σ α : Type*} {step : σ → α → σ} {P Q : σ → Prop}

/-- `P` holds before, between and after the operations of `q` executed from `s`. -/
def Along (step : σ → α → σ) (P : σ → Prop) : σ → List α → Prop
  | s, [] => P s
  | s, a :: q => P s ∧ Along step P (step s a) q

theorem Along.head {s : σ} {q : List α} (h : Along step P s q) : P s := by
  cases q with
  | nil => exact h
  | cons a q => exact h.1

/-- Executing the first operation leaves a queue along which `P` still holds. -/
theorem Along.tail {s : σ} {a : α} {q : List α} (h : Along step P s (a :: q)) :
    Along step P (step s a) q := h.2

theorem Along.imp {s : σ} {q : List α} (hpq : ∀ s, P s → Q s) (h : Along step P s q) :
    Along step Q s q := by
  induction q generalizing s with
  | nil => exact hpq s h
  | cons a q ih => exact ⟨hpq s h.1, ih h.2⟩

theorem Along.and {s : σ} {q : List α} (hp : Along step P s q) (hq : Along step Q s q) :
    Along step (fun s => P s ∧ Q s) s q := by
  induction q generalizing s with
  | nil => exact ⟨hp, hq⟩
  | cons a q ih => exact ⟨⟨hp.1, hq.1⟩, ih hp.2 hq.2⟩

/-- Enqueueing more work: what held along the old queue has to hold along the new operations,
started where the old queue ends. -/
theorem Along.append {s : σ} {q r : List α} (hq : Along step P s q)
    (hr : Along step P (q.foldl step s) r) : Along step P s (q ++ r) := by
  induction q generalizing s with
  | nil => exact hr
  | cons a q ih => exact ⟨hq.1, ih hq.2 hr⟩

/-- `P` holds once the queue has drained. -/
theorem Along.last {s : σ} {q : List α} (h : Along step P s q) : P (q.foldl step s) := by
  induction q generalizing s with
  | nil => exact h
  | cons a q ih => exact ih h.2

/-- Every stopping point of the queue satisfies `P`. -/
theorem Along.take {s : σ} {q : List α} (h : Along step P s q) (i : Nat) :
    P ((q.take i).foldl step s) := by
  induction q generalizing s i with
  | nil => simpa [Along] using h
  | cons a q ih =>
    cases i with
    | zero => exact h.1
    | succ i => exact ih h.2 i

end Along

end VllmExl3
