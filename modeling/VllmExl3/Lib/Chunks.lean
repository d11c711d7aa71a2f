/-
# VllmExl3.Lib.Chunks — loops over chunks that fill a buffer

`range(0, n, c)` as a list of starts, the chunks of a list at these starts, and a buffer filled by
writes at indices. A buffer written at every index with the values of one function holds that
function, whatever it held before. Nothing here names the repository.
-/
import VllmExl3.Lib.Vec
import Mathlib.Data.List.GetD
import Mathlib.Data.List.Nodup

namespace VllmExl3

variable {α β : Type*}

/-! ## Chunks -/

/-- `range(0, n, c)` -/
def rangeStep (n c : Nat) : List Nat := tabulate ((n + c - 1) / c) fun r => r * c

theorem lt_ceilDiv_iff {n c r : Nat} (hc : 0 < c) : r < (n + c - 1) / c ↔ r * c < n := by
  rw [Nat.lt_div_iff_mul_lt hc]
  omega

theorem mem_rangeStep {n c s : Nat} (hc : 0 < c) : s ∈ rangeStep n c ↔ c ∣ s ∧ s < n := by
  simp only [rangeStep, tabulate, List.mem_map, List.mem_range, lt_ceilDiv_iff hc]
  constructor
  · rintro ⟨r, hr, rfl⟩
    exact ⟨Nat.dvd_mul_left c r, hr⟩
  · rintro ⟨⟨r, rfl⟩, hlt⟩
    exact ⟨r, by rwa [Nat.mul_comm], Nat.mul_comm r c⟩

theorem nodup_rangeStep {n c : Nat} (hc : 0 < c) : (rangeStep n c).Nodup :=
  List.Nodup.map (fun _ _ h => Nat.eq_of_mul_eq_mul_right hc h) List.nodup_range

@[simp] theorem rangeStep_eq_nil {n c : Nat} (hc : 0 < c) : rangeStep n c = [] ↔ n = 0 := by
  constructor
  · intro h
    by_contra hne
    have hmem : 0 ∈ rangeStep n c := (mem_rangeStep hc).mpr ⟨Nat.dvd_zero c, Nat.pos_of_ne_zero hne⟩
    rw [h] at hmem
    cases hmem
  · rintro rfl
    refine List.eq_nil_iff_forall_not_mem.mpr fun s hs => ?_
    exact absurd ((mem_rangeStep hc).mp hs).2 (Nat.not_lt_zero s)

/-- The chunks of a list, put back together. -/
theorem flatMap_chunks {xs : List α} {c : Nat} (hc : 0 < c) :
    (rangeStep xs.length c).flatMap (fun s => slice s (s + c) xs) = xs := by
  have hcover : xs.length ≤ (xs.length + c - 1) / c * c := by
    by_contra hlt
    have := (lt_ceilDiv_iff hc).mpr (Nat.lt_of_not_le hlt)
    omega
  calc (rangeStep xs.length c).flatMap (fun s => slice s (s + c) xs)
      = (tabulate ((xs.length + c - 1) / c) fun r => slice (r * c) ((r + 1) * c) xs).flatten := by
        rw [rangeStep, tabulate, List.flatMap_map, List.flatMap_def, tabulate]
        simp only [Nat.succ_mul]
    _ = xs := by rw [flatten_slices_take, List.take_of_length_le hcover]

/-- What holds of a list's entries and of the default holds of whatever is read. -/
theorem getD_mem_or {P : α → Prop} {xs : List α} {d : α} (n : Nat) (hd : P d)
    (h : ∀ x ∈ xs, P x) : P (xs.getD n d) := by
  rcases Nat.lt_or_ge n xs.length with hn | hn
  · rw [List.getD_eq_getElem _ _ hn]
    exact h _ (List.getElem_mem hn)
  · rwa [List.getD_eq_default _ _ hn]

/-- Reading a list of equal-width runs. -/
theorem getD_flatMap_tabulate {p j : Nat} {xs : List β} {g : β → Nat → α} (d : α) (d' : β)
    (hj : j < p * xs.length) :
    (xs.flatMap fun x => tabulate p (g x)).getD j d = g (xs.getD (j / p) d') (j % p) := by
  have hp : 0 < p := Nat.pos_of_ne_zero fun hzero => by simp [hzero] at hj
  induction xs generalizing j with
  | nil => simp at hj
  | cons x rest ih =>
    rw [List.flatMap_cons]
    rcases Nat.lt_or_ge j p with hfirst | hlater
    · rw [List.getD_append _ _ _ _ (by rwa [length_tabulate]), getD_tabulate hfirst,
        Nat.div_eq_of_lt hfirst, Nat.mod_eq_of_lt hfirst, List.getD_cons_zero]
    · have htail : j - p < p * rest.length := by
        rw [List.length_cons, Nat.mul_succ] at hj
        omega
      rw [List.getD_append_right _ _ _ _ (by rwa [length_tabulate]), length_tabulate, ih htail,
        Nat.div_eq_sub_div hp hlater, List.getD_cons_succ, Nat.mod_eq_sub_mod hlater]

theorem length_flatMap_tabulate (p : Nat) (xs : List β) (g : β → Nat → α) :
    (xs.flatMap fun x => tabulate p (g x)).length = p * xs.length := by
  induction xs with
  | nil => simp
  | cons x rest ih => rw [List.flatMap_cons, List.length_append, ih, length_tabulate, List.length_cons,
      Nat.mul_succ, Nat.add_comm]

/-- Equal-width runs laid end to end, tabulated. -/
theorem flatMap_tabulate (d : α) (d' : β) (p : Nat) (xs : List β) (g : β → Nat → α) :
    xs.flatMap (fun x => tabulate p (g x)) =
      tabulate (p * xs.length) fun j => g (xs.getD (j / p) d') (j % p) := by
  refine (tabulate_getD d (length_flatMap_tabulate p xs g)).symm.trans ?_
  exact tabulate_congr fun j hj => getD_flatMap_tabulate d d' hj

/-! ## Writes -/

/-- A buffer after writes at given indices, in order. -/
def applyWrites (writes : List (Nat × α)) (buf : List α) : List α :=
  writes.foldl (fun buf w => buf.set w.1 w.2) buf

theorem length_applyWrites (writes : List (Nat × α)) (buf : List α) :
    (applyWrites writes buf).length = buf.length := by
  induction writes generalizing buf with
  | nil => rfl
  | cons w rest ih => exact (ih _).trans (List.length_set)

/-- An index holds its value once written, and what it held before while not. -/
theorem getElem?_applyWrites {writes : List (Nat × α)} {buf : List α} {f : Nat → α} {j : Nat}
    (hval : ∀ w ∈ writes, w.2 = f w.1) (hj : j < buf.length) :
    (applyWrites writes buf)[j]? = if j ∈ writes.map Prod.fst then some (f j) else buf[j]? := by
  induction writes generalizing buf with
  | nil => rfl
  | cons w rest ih =>
    have hrest := @ih (buf.set w.1 w.2) (fun v hv => hval v (List.mem_cons_of_mem w hv))
      (by rwa [List.length_set])
    rw [applyWrites, List.foldl_cons, ← applyWrites, hrest, hval w List.mem_cons_self]
    by_cases hlater : j ∈ rest.map Prod.fst
    · simp [hlater]
    · rcases eq_or_ne w.1 j with rfl | hne
      · simp [hlater, hj]
      · simp [hlater, hne, Ne.symm hne]

/-- Writing every index with the values of `f` leaves the values of `f`. -/
theorem applyWrites_eq_tabulate {writes : List (Nat × α)} {buf : List α} {f : Nat → α} {n : Nat}
    (hperm : (writes.map Prod.fst).Perm (List.range n)) (hval : ∀ w ∈ writes, w.2 = f w.1)
    (hlen : buf.length = n) : applyWrites writes buf = tabulate n f := by
  refine List.ext_getElem? fun j => ?_
  rcases Nat.lt_or_ge j n with hj | hj
  · have hmem : j ∈ writes.map Prod.fst := hperm.mem_iff.mpr (List.mem_range.mpr hj)
    rw [getElem?_applyWrites hval (by omega), if_pos hmem]
    simp [tabulate, hj]
  · rw [List.getElem?_eq_none (by rw [length_applyWrites]; omega),
      List.getElem?_eq_none (by rw [length_tabulate]; omega)]

/-! ## Stretches -/

/-- A buffer after whole stretches were written at given offsets, in order. -/
def applySplices (writes : List (Nat × List α)) (buf : List α) : List α :=
  writes.foldl (fun buf w => splice w.1 w.2 buf) buf

/-- Writes that stay inside a buffer of length `n`. -/
def Inside (n : Nat) (writes : List (Nat × List α)) : Prop :=
  ∀ w ∈ writes, w.1 + w.2.length ≤ n

/-- Two stretches that do not meet. -/
def Clear (w v : Nat × List α) : Prop := w.1 + w.2.length ≤ v.1 ∨ v.1 + v.2.length ≤ w.1

theorem length_applySplices {writes : List (Nat × List α)} {buf : List α}
    (h : Inside buf.length writes) : (applySplices writes buf).length = buf.length := by
  induction writes generalizing buf with
  | nil => rfl
  | cons w rest ih =>
    have hw : (splice w.1 w.2 buf).length = buf.length := length_splice (h w List.mem_cons_self)
    have hrest : Inside (splice w.1 w.2 buf).length rest := by
      rw [hw]
      exact fun v hv => h v (List.mem_cons_of_mem w hv)
    exact (ih hrest).trans hw

/-- A stretch no write meets keeps its contents. -/
theorem slice_applySplices_of_clear {writes : List (Nat × List α)} {buf : List α} {a b : Nat}
    (h : Inside buf.length writes) (hclear : ∀ w ∈ writes, b ≤ w.1 ∨ w.1 + w.2.length ≤ a) :
    slice a b (applySplices writes buf) = slice a b buf := by
  induction writes generalizing buf with
  | nil => rfl
  | cons w rest ih =>
    have hin := h w List.mem_cons_self
    have hrest : Inside (splice w.1 w.2 buf).length rest := by
      rw [length_splice hin]
      exact fun v hv => h v (List.mem_cons_of_mem w hv)
    have hlater : slice a b (applySplices rest (splice w.1 w.2 buf)) =
        slice a b (splice w.1 w.2 buf) :=
      ih hrest fun v hv => hclear v (List.mem_cons_of_mem w hv)
    exact hlater.trans (slice_splice_disjoint hin (hclear w List.mem_cons_self))

/-- Of pairwise clear writes, each stretch is read back. -/
theorem slice_applySplices {writes : List (Nat × List α)} {buf : List α} {w : Nat × List α}
    (h : Inside buf.length writes) (hclear : writes.Pairwise Clear) (hw : w ∈ writes) :
    slice w.1 (w.1 + w.2.length) (applySplices writes buf) = w.2 := by
  induction writes generalizing buf with
  | nil => cases hw
  | cons v rest ih =>
    obtain ⟨hfirst, hpairs⟩ := List.pairwise_cons.mp hclear
    have hin := h v List.mem_cons_self
    have hrest : Inside (splice v.1 v.2 buf).length rest := by
      rw [length_splice hin]
      exact fun u hu => h u (List.mem_cons_of_mem v hu)
    rcases List.mem_cons.mp hw with rfl | htail
    · calc slice w.1 (w.1 + w.2.length) (applySplices (w :: rest) buf)
          = slice w.1 (w.1 + w.2.length) (splice w.1 w.2 buf) :=
            slice_applySplices_of_clear hrest hfirst
        _ = w.2 := slice_splice_self (by omega)
    · exact ih hrest hpairs htail

end VllmExl3
