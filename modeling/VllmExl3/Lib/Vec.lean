/-
# VllmExl3.Lib.Vec — exact vectors as lists: slices, tabulation, pieces

Python slicing of a list (`slice a b` is `xs[a:b]`), lists tabulated from a function of the index,
and the equal-width pieces of a list. The tensor code of the development computes with lists, as the
source does; its proofs read every list through `tabulate` and compare index functions. Nothing here
names the repository.
-/
import Mathlib.Data.List.Basic
import Mathlib.Tactic.Ring

namespace VllmExl3

variable {α β : Type*}

/-! ## Slices -/

/-- `xs[a:b]` -/
def slice (a b : Nat) (xs : List α) : List α := (xs.take b).drop a

@[simp] theorem length_slice (a b : Nat) (xs : List α) :
    (slice a b xs).length = min b xs.length - a := by
  simp [slice]

theorem slice_zero_length {b : Nat} {xs : List α} (h : xs.length ≤ b) : slice 0 b xs = xs := by
  simp [slice, List.take_of_length_le h]

theorem getD_slice {a b i : Nat} {xs : List α} {d : α} (h : i < b - a) :
    (slice a b xs).getD i d = xs.getD (a + i) d := by
  have hi : a + i < b := by omega
  simp [slice, List.getD_eq_getElem?_getD, List.getElem?_drop, hi]

/-- Bounds past the end are cut to it. -/
theorem slice_min (a b : Nat) (xs : List α) :
    slice a b xs = slice (min a xs.length) (min b xs.length) xs := by
  refine List.ext_getElem (by simp; omega) fun i hi hi' => ?_
  simp only [length_slice] at hi
  have ha : min a xs.length = a := by omega
  simp [slice, ha]

theorem slice_map (a b : Nat) (f : α → β) (xs : List α) :
    slice a b (xs.map f) = (slice a b xs).map f := by
  rw [slice, slice, List.map_drop, List.map_take]

/-- `xs[a:b][c:d]` -/
theorem slice_slice (a b c d : Nat) (xs : List α) :
    slice c d (slice a b xs) = slice (a + c) (min b (a + d)) xs := by
  simp only [slice, List.take_drop, List.drop_drop, List.take_take]
  rw [Nat.min_comm, Nat.add_comm a d, Nat.add_comm a c]

/-! ## Tabulation -/

/-- The list of the first `n` values of `f`. -/
def tabulate (n : Nat) (f : Nat → α) : List α := (List.range n).map f

@[simp] theorem length_tabulate (n : Nat) (f : Nat → α) : (tabulate n f).length = n := by
  simp [tabulate]

theorem getD_tabulate {n j : Nat} {f : Nat → α} {d : α} (h : j < n) :
    (tabulate n f).getD j d = f j := by
  simp [tabulate, List.getD_eq_getElem?_getD, h]

theorem getElem_tabulate {n i : Nat} {f : Nat → α} (h : i < (tabulate n f).length) :
    (tabulate n f)[i] = f i := by
  simp [tabulate]

theorem tabulate_congr {n : Nat} {f g : Nat → α} (h : ∀ j < n, f j = g j) :
    tabulate n f = tabulate n g :=
  List.map_congr_left fun j hj => h j (List.mem_range.mp hj)

theorem tabulate_add (a b : Nat) (f : Nat → α) :
    tabulate (a + b) f = tabulate a f ++ tabulate b fun i => f (a + i) := by
  rw [tabulate, List.range_add, List.map_append, List.map_map]
  rfl

theorem map_tabulate (n : Nat) (f : Nat → α) (g : α → β) :
    (tabulate n f).map g = tabulate n fun i => g (f i) := by
  rw [tabulate, List.map_map]
  rfl

/-- A list is the tabulation of its entries. -/
theorem tabulate_getD {xs : List α} {n : Nat} (d : α) (h : xs.length = n) :
    tabulate n (xs.getD · d) = xs := by
  subst h
  refine List.ext_getElem (by simp) fun i hi hi' => ?_
  simp [tabulate, hi']

theorem slice_tabulate_min (a b n : Nat) (f : Nat → α) :
    slice a b (tabulate n f) = tabulate (min b n - a) fun i => f (a + i) := by
  refine List.ext_getElem (by simp) fun i hi hi' => ?_
  simp [slice, tabulate]

theorem slice_tabulate {a b n : Nat} {f : Nat → α} (h : b ≤ n) :
    slice a b (tabulate n f) = tabulate (b - a) fun i => f (a + i) := by
  rw [slice_tabulate_min, Nat.min_eq_left h]

theorem zipWith_eq_tabulate {γ : Type*} {f : α → β → γ} {xs : List α} {ys : List β} {n : Nat}
    (d : α) (d' : β) (hx : xs.length = n) (hy : ys.length = n) :
    List.zipWith f xs ys = tabulate n fun i => f (xs.getD i d) (ys.getD i d') := by
  subst hx
  refine List.ext_getElem (by simp [hy]) fun i hi hi' => ?_
  have hi₁ : i < xs.length := by simpa using hi'
  have hi₂ : i < ys.length := by omega
  simp [tabulate, hi₁, hi₂]

/-- A list with the stretch of `new` from `start` on written over it. -/
theorem getD_splice {xs new : List α} {start j : Nat} {d : α} (h : start + new.length ≤ xs.length) :
    (xs.take start ++ new ++ xs.drop (start + new.length)).getD j d =
      if start ≤ j ∧ j < start + new.length then new.getD (j - start) d else xs.getD j d := by
  have hstart : (xs.take start).length = start := List.length_take_of_le (by omega)
  simp only [List.getD_eq_getElem?_getD]
  rcases Nat.lt_or_ge j start with hbefore | hafter
  · rw [if_neg (by omega), List.append_assoc, List.getElem?_append_left (by omega),
      List.getElem?_take_of_lt hbefore]
  · rw [List.append_assoc, List.getElem?_append_right (by omega), hstart]
    rcases Nat.lt_or_ge j (start + new.length) with hin | hpast
    · rw [if_pos ⟨hafter, hin⟩, List.getElem?_append_left (by omega)]
    · rw [if_neg (by omega), List.getElem?_append_right (by omega), List.getElem?_drop]
      congr 2
      omega

/-- `xs[off:off + len(new)] = new` -/
def splice (off : Nat) (new xs : List α) : List α :=
  xs.take off ++ new ++ xs.drop (off + new.length)

theorem length_splice {off : Nat} {new xs : List α} (h : off + new.length ≤ xs.length) :
    (splice off new xs).length = xs.length := by
  simp only [splice, List.length_append, List.length_take, List.length_drop]
  omega

/-- What was written is read back. -/
theorem slice_splice_self {off : Nat} {new xs : List α} (h : off ≤ xs.length) :
    slice off (off + new.length) (splice off new xs) = new := by
  have htake : (xs.take off).length = off := List.length_take_of_le h
  rw [slice, splice, List.append_assoc, List.take_append, htake, List.drop_append,
    List.length_take]
  simp [htake]

/-- A write leaves every stretch it does not meet. -/
theorem slice_splice_disjoint {off a b : Nat} {new xs : List α} (h : off + new.length ≤ xs.length)
    (hdisjoint : b ≤ off ∨ off + new.length ≤ a) : slice a b (splice off new xs) = slice a b xs := by
  refine List.ext_getElem? fun i => ?_
  rcases Nat.lt_or_ge i (b - a) with hi | hi
  · have hindex : ∀ ys : List α, (slice a b ys)[i]? = ys[a + i]? := by
      intro ys
      rw [slice, List.getElem?_drop, List.getElem?_take_of_lt (by omega)]
    rw [hindex, hindex, splice, List.append_assoc]
    rcases hdisjoint with hbefore | hafter
    · rw [List.getElem?_append_left (by rw [List.length_take]; omega),
        List.getElem?_take_of_lt (by omega)]
    · rw [List.getElem?_append_right (by rw [List.length_take]; omega), List.length_take,
        List.getElem?_append_right (by omega), List.getElem?_drop]
      congr 1
      omega
  · have hnone : ∀ ys : List α, (slice a b ys)[i]? = none := by
      intro ys
      rw [List.getElem?_eq_none_iff, length_slice]
      omega
    rw [hnone, hnone]

/-! ## Equal-width pieces -/

theorem length_flatten_equal {p : Nat} {xs : List (List α)} (hlen : ∀ x ∈ xs, x.length = p) :
    xs.flatten.length = xs.length * p := by
  induction xs with
  | nil => exact (Nat.zero_mul p).symm
  | cons x rest ih =>
    rw [List.flatten_cons, List.length_append, hlen x List.mem_cons_self,
      ih fun y hy => hlen y (List.mem_cons_of_mem x hy), List.length_cons, Nat.succ_mul,
      Nat.add_comm]

/-- A piece of a list of equal-width pieces laid end to end. -/
theorem slice_flatten {p r : Nat} {xs : List (List α)} (hlen : ∀ x ∈ xs, x.length = p)
    (hr : r < xs.length) : slice (r * p) (r * p + p) xs.flatten = xs[r] := by
  induction xs generalizing r with
  | nil => cases hr
  | cons x rest ih =>
    have hx : x.length = p := hlen x List.mem_cons_self
    cases r with
    | zero =>
      rw [List.flatten_cons, Nat.zero_mul, Nat.zero_add, slice, List.take_left' hx]
      rfl
    | succ r =>
      have hr' : r < rest.length := Nat.lt_of_succ_lt_succ hr
      have hrest : slice (r * p) (r * p + p) rest.flatten = rest[r] :=
        ih (fun y hy => hlen y (List.mem_cons_of_mem x hy)) hr'
      have hoff : (r + 1) * p = p + r * p := by ring
      rw [List.getElem_cons_succ, ← hrest, List.flatten_cons, slice, slice, hoff, Nat.add_assoc,
        List.take_append, hx, List.drop_append, List.length_take, hx]
      simp [hx]

/-- An entry of a list of equal-width pieces laid end to end. -/
theorem getD_flatten_equal {p r j : Nat} {xs : List (List α)} {d : α} (hlen : ∀ x ∈ xs, x.length = p)
    (hr : r < xs.length) (hj : j < p) : xs.flatten.getD (r * p + j) d = (xs.getD r []).getD j d := by
  rw [← getD_slice (a := r * p) (b := r * p + p) (by omega), slice_flatten hlen hr,
    List.getD_eq_getElem?_getD (l := xs), List.getElem?_eq_getElem hr, Option.getD_some]

/-- The first `m` consecutive pieces of width `p`. -/
theorem flatten_slices_take (xs : List α) (p m : Nat) :
    (tabulate m fun r => slice (r * p) ((r + 1) * p) xs).flatten = xs.take (m * p) := by
  induction m with
  | zero => simp [tabulate]
  | succ m ih =>
    have hsplit : (m + 1) * p = m * p + p := by ring
    rw [tabulate, List.range_succ, List.map_append, List.flatten_append, ← tabulate, ih]
    simp [slice, hsplit, List.take_add, List.drop_take]

/-- Concatenating the `n` consecutive pieces of width `p` gives the list back. -/
theorem flatten_slices {xs : List α} {p : Nat} (n : Nat) (h : xs.length = n * p) :
    (tabulate n fun r => slice (r * p) ((r + 1) * p) xs).flatten = xs := by
  rw [flatten_slices_take, List.take_of_length_le h.le]

/-- Tabulating piece by piece is tabulating. -/
theorem flatten_tabulate (n p : Nat) (f : Nat → α) :
    (tabulate n fun r => tabulate p fun j => f (r * p + j)).flatten = tabulate (n * p) f := by
  rw [← flatten_slices n (length_tabulate (n * p) f)]
  refine congrArg List.flatten (tabulate_congr fun r hr => ?_)
  have hstep : (r + 1) * p - r * p = p := by rw [Nat.succ_mul, Nat.add_sub_cancel_left]
  rw [slice_tabulate (Nat.mul_le_mul_right p hr), hstep]

/-- Counterparts with equal images. -/
theorem map_eq_of_forall₂ {β γ : Type*} {P : α → β → Prop} {f : α → γ} {g : β → γ} {xs : List α} {ys : List β}
    (h : List.Forall₂ P xs ys) (hfg : ∀ x y, P x y → g y = f x) : ys.map g = xs.map f := by
  induction h with
  | nil => rfl
  | cons hxy _ ih => rw [List.map_cons, List.map_cons, hfg _ _ hxy, ih]

theorem exists_of_forall₂ {β : Type*} {P : α → β → Prop} {xs : List α} {ys : List β}
    (h : List.Forall₂ P xs ys) {x : α} (hx : x ∈ xs) : ∃ y ∈ ys, P x y := by
  induction h with
  | nil => cases hx
  | @cons x' y _ _ hxy _ ih =>
    rcases List.mem_cons.mp hx with rfl | hrest
    · exact ⟨y, List.mem_cons_self, hxy⟩
    · obtain ⟨y', hy', hxy'⟩ := ih hrest
      exact ⟨y', List.mem_cons_of_mem y hy', hxy'⟩

theorem forall₂_imp_mem {β : Type*} {P Q : α → β → Prop} {xs : List α} {ys : List β}
    (h : List.Forall₂ P xs ys) (hPQ : ∀ x ∈ xs, ∀ y, P x y → Q x y) : List.Forall₂ Q xs ys := by
  induction h with
  | nil => exact .nil
  | cons hxy _ ih =>
    exact .cons (hPQ _ List.mem_cons_self _ hxy) (ih fun x hx => hPQ x (List.mem_cons_of_mem _ hx))

end VllmExl3
