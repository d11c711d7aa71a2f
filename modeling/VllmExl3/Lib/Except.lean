/-
# VllmExl3.Lib.Except — fallible computations that succeed

What a successful sequence says of its steps, and `List.mapM` in `Except` when every call succeeds
and when every call fails alike. Nothing here names the repository.
-/
import Mathlib.Data.List.Basic

namespace VllmExl3

variable {ε α β : Type*} {f : α → Except ε β} {xs : List α}

/-- A computation that succeeded hands its value on. -/
theorem ok_bind {ε α β : Type} (a : α) (next : α → Except ε β) : (Except.ok a >>= next) = next a := rfl

/-- A sequence that succeeds succeeds at its first step. -/
theorem bind_eq_ok {ε α β : Type} {x : Except ε α} {next : α → Except ε β} {b : β}
    (h : (x >>= next) = .ok b) : ∃ a, x = .ok a ∧ next a = .ok b := by
  cases x with
  | error e => cases h
  | ok a => exact ⟨a, rfl, h⟩

/-- Where every call succeeds, the results are those of the calls. -/
theorem mapM_eq_ok {ε α β : Type} {f : α → Except ε β} {xs : List α} {ys : List β}
    (h : xs.mapM f = .ok ys) : List.Forall₂ (fun x y => f x = .ok y) xs ys := by
  induction xs generalizing ys with
  | nil =>
    obtain rfl : [] = ys := Except.ok.inj h
    exact .nil
  | cons x rest ih =>
    rw [List.mapM_cons] at h
    obtain ⟨y, hy, h⟩ := bind_eq_ok h
    obtain ⟨tail, htail, h⟩ := bind_eq_ok h
    obtain rfl := Except.ok.inj h
    exact .cons hy (ih htail)

theorem exists_of_mapM_ok {ε α β : Type} {f : α → Except ε β} {xs : List α} {ys : List β}
    (h : xs.mapM f = .ok ys) {x : α} (hx : x ∈ xs) : ∃ y ∈ ys, f x = .ok y := by
  have hcalls := mapM_eq_ok h
  clear h
  induction hcalls with
  | nil => cases hx
  | @cons x' y' _ ys' hcall _ ih =>
    rcases List.mem_cons.mp hx with rfl | hrest
    · exact ⟨y', List.mem_cons_self, hcall⟩
    · obtain ⟨y, hy, hcall'⟩ := ih hrest
      exact ⟨y, List.mem_cons_of_mem y' hy, hcall'⟩

/-- The results are those of the calls, and nothing else. -/
theorem mem_mapM_ok {ε α β : Type} {f : α → Except ε β} {xs : List α} {ys : List β}
    (h : xs.mapM f = .ok ys) {y : β} : y ∈ ys ↔ ∃ x ∈ xs, f x = .ok y := by
  constructor
  · intro hy
    have hcalls := mapM_eq_ok h
    clear h
    induction hcalls with
    | nil => cases hy
    | @cons x' y' xs' _ hcall _ ih =>
      rcases List.mem_cons.mp hy with rfl | hrest
      · exact ⟨x', List.mem_cons_self, hcall⟩
      · obtain ⟨x, hx, hcall'⟩ := ih hrest
        exact ⟨x, List.mem_cons_of_mem x' hx, hcall'⟩
  · rintro ⟨x, hx, hcall⟩
    obtain ⟨y', hy', hcall'⟩ := exists_of_mapM_ok h hx
    obtain rfl := Except.ok.inj (hcall.symm.trans hcall')
    exact hy'

/-- A loop over checks that succeeds has passed every check. -/
theorem forM_ok {ε α : Type} {f : α → Except ε Unit} {xs : List α} (h : xs.forM f = .ok ()) :
    ∀ x ∈ xs, f x = .ok () := by
  induction xs with
  | nil => exact fun x hx => nomatch hx
  | cons y rest ih =>
    obtain ⟨_, hy, hrest⟩ := bind_eq_ok h
    exact List.forall_mem_cons.mpr ⟨hy, ih hrest⟩

theorem mapM_ok {g : α → β} (h : ∀ x ∈ xs, f x = .ok (g x)) : xs.mapM f = .ok (xs.map g) := by
  induction xs with
  | nil => rfl
  | cons x rest ih =>
    rw [List.mapM_cons, h x List.mem_cons_self, ih fun y hy => h y (List.mem_cons_of_mem x hy)]
    rfl

/-- The same over options. -/
theorem mapM_some {α β : Type} {f : α → Option β} {g : α → β} {xs : List α}
    (h : ∀ x ∈ xs, f x = some (g x)) : xs.mapM f = some (xs.map g) := by
  induction xs with
  | nil => rfl
  | cons x xs ih =>
    rw [List.mapM_cons, h x List.mem_cons_self, ih fun y hy => h y (List.mem_cons_of_mem x hy)]
    rfl

theorem mapM_error {err : ε} (hne : xs ≠ []) (h : ∀ x ∈ xs, f x = .error err) :
    xs.mapM f = .error err := by
  cases xs with
  | nil => exact absurd rfl hne
  | cons x rest =>
    rw [List.mapM_cons, h x List.mem_cons_self]
    rfl

theorem mapM_congr {f' : α → Except ε β} (h : ∀ x ∈ xs, f x = f' x) : xs.mapM f = xs.mapM f' := by
  induction xs with
  | nil => rfl
  | cons x rest ih =>
    rw [List.mapM_cons, List.mapM_cons, h x List.mem_cons_self,
      ih fun y hy => h y (List.mem_cons_of_mem x hy)]

/-- A function applied to every result. -/
theorem mapM_map_ok {γ : Type*} (g : β → γ) :
    xs.mapM (fun x => (f x).map g) = (xs.mapM f).map (List.map g) := by
  induction xs with
  | nil => rfl
  | cons x rest ih =>
    rw [List.mapM_cons, List.mapM_cons, ih]
    cases f x with
    | error err => rfl
    | ok y => cases rest.mapM f <;> rfl

/-- Calls that all succeed have a list of results. -/
theorem exists_mapM_ok (h : ∀ x ∈ xs, ∃ y, f x = .ok y) : ∃ ys, xs.mapM f = .ok ys := by
  induction xs with
  | nil => exact ⟨[], rfl⟩
  | cons x rest ih =>
    obtain ⟨y, hy⟩ := h x List.mem_cons_self
    obtain ⟨ys, hys⟩ := ih fun x' hx' => h x' (List.mem_cons_of_mem x hx')
    refine ⟨y :: ys, ?_⟩
    rw [List.mapM_cons, hy, hys]
    rfl

/-- Calls on the counterparts of a list's members, each of which gives what its member asks for. -/
theorem mapM_forall₂ {ε α β γ : Type} {P : α → β → Prop} {Q : α → γ → Prop} {f : β → Except ε γ}
    {xs : List α} {ys : List β} (h : List.Forall₂ P xs ys)
    (hf : ∀ x ∈ xs, ∀ y, P x y → ∃ z, f y = .ok z ∧ Q x z) :
    ∃ zs, ys.mapM f = .ok zs ∧ List.Forall₂ Q xs zs := by
  induction h with
  | nil => exact ⟨[], rfl, .nil⟩
  | @cons x y xs ys hxy _ ih =>
    obtain ⟨z, hz, hzx⟩ := hf x List.mem_cons_self y hxy
    obtain ⟨zs, hzs, hzxs⟩ := ih fun x' hx' => hf x' (List.mem_cons_of_mem x hx')
    refine ⟨z :: zs, ?_, .cons hzx hzxs⟩
    rw [List.mapM_cons, hz, hzs]
    rfl

/-- A loop keeps what each of its rounds keeps. -/
theorem foldlM_invariant {ε α σ : Type} {P : σ → Prop} {f : σ → α → Except ε σ} {xs : List α} {s s' : σ}
    (hstep : ∀ s, P s → ∀ x ∈ xs, ∀ s', f s x = .ok s' → P s') (hs : P s) (h : xs.foldlM f s = .ok s') :
    P s' := by
  induction xs generalizing s with
  | nil =>
    obtain rfl := Except.ok.inj h
    exact hs
  | cons x rest ih =>
    rw [List.foldlM_cons] at h
    obtain ⟨s₁, hx, hrest⟩ := bind_eq_ok h
    exact ih (fun s hs y hy => hstep s hs y (List.mem_cons_of_mem x hy))
      (hstep s hs x List.mem_cons_self s₁ hx) hrest

/-- The result of a computation that succeeds, and `d` for one that fails. -/
def valueOr (d : β) : Except ε β → β
  | .ok b => b
  | .error _ => d

@[simp] theorem valueOr_ok (d b : β) : valueOr d (.ok b : Except ε β) = b := rfl

/-- Calls that all succeed, as a map. -/
theorem mapM_valueOr (d : β) (h : ∀ x ∈ xs, ∃ y, f x = .ok y) :
    xs.mapM f = .ok (xs.map fun x => valueOr d (f x)) := by
  apply mapM_ok
  intro x hx
  obtain ⟨y, hy⟩ := h x hx
  rw [hy, valueOr_ok]

end VllmExl3
