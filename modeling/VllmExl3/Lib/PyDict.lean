/-
# VllmExl3.Lib.PyDict — insertion-ordered dictionaries with unique keys

The dictionary every Python module under verification is built on: a list of `(key, value)` pairs
in insertion order whose keys are pairwise distinct. Distinctness is a field, so no lemma below
ever has to assume it. Overwriting a key keeps its position, a new key goes to the end, and `pop`
closes the gap, exactly as `dict` documents. Nothing here names the repository.
-/
import Mathlib.Data.List.Nodup
import Mathlib.Data.List.Basic
import Mathlib.Data.List.Induction

namespace VllmExl3

/-- An insertion-ordered dictionary. -/
structure PyDict (κ ν : Type*) where
  items : List (κ × ν)
  nodup : (items.map Prod.fst).Nodup

namespace PyDict

variable {κ ν μ : Type*}

/-- The keys, in insertion order. -/
def keys (d : PyDict κ ν) : List κ := d.items.map Prod.fst

/-- The values, in insertion order. -/
def values (d : PyDict κ ν) : List ν := d.items.map Prod.snd

/-- `{}` -/
def empty : PyDict κ ν := ⟨[], List.nodup_nil⟩

instance : Inhabited (PyDict κ ν) := ⟨empty⟩

instance [DecidableEq κ] [DecidableEq ν] : DecidableEq (PyDict κ ν) := fun d e =>
  decidable_of_iff (d.items = e.items) ⟨fun h => by cases d; cases e; cases h; rfl, congrArg items⟩

@[simp] theorem keys_empty : (empty : PyDict κ ν).keys = [] := rfl

section Lookup

variable [DecidableEq κ]

/-- `d.get(k)` -/
def get? (d : PyDict κ ν) (k : κ) : Option ν := (d.items.find? fun p => p.1 = k).map Prod.snd

@[simp] theorem get?_empty (k : κ) : (empty : PyDict κ ν).get? k = none := rfl

theorem get?_eq_some_iff {d : PyDict κ ν} {k : κ} {v : ν} :
    d.get? k = some v ↔ (k, v) ∈ d.items := by
  obtain ⟨items, hnd⟩ := d
  simp only [get?]
  induction items with
  | nil => simp
  | cons p rest ih =>
    obtain ⟨k', v'⟩ := p
    simp only [List.map_cons, List.nodup_cons] at hnd
    by_cases h : k' = k
    · subst h
      have hout : (k', v) ∉ rest := fun hm => hnd.1 (List.mem_map_of_mem (f := Prod.fst) hm)
      simp [List.find?_cons_of_pos, hout, eq_comm]
    · have hne : ¬ (k = k' ∧ v = v') := fun hh => h hh.1.symm
      simp [List.find?_cons_of_neg, h, hne, ih hnd.2]

theorem get?_eq_none_iff {d : PyDict κ ν} {k : κ} : d.get? k = none ↔ k ∉ d.keys := by
  simp only [get?, Option.map_eq_none_iff, List.find?_eq_none, decide_eq_true_eq, keys,
    List.mem_map, not_exists, not_and]

theorem isSome_get?_iff {d : PyDict κ ν} {k : κ} : (d.get? k).isSome ↔ k ∈ d.keys := by
  rw [Option.isSome_iff_ne_none, ne_eq, get?_eq_none_iff, not_not]

theorem mem_keys_of_get? {d : PyDict κ ν} {k : κ} {v : ν} (h : d.get? k = some v) :
    k ∈ d.keys :=
  isSome_get?_iff.mp (by simp [h])

/-- `k in d` -/
def contains (d : PyDict κ ν) (k : κ) : Bool := (d.get? k).isSome

@[simp] theorem contains_eq_true {d : PyDict κ ν} {k : κ} : d.contains k = true ↔ k ∈ d.keys :=
  isSome_get?_iff

/-- Overwrite `k` in place when it is there, append it when it is not. -/
def setItems (k : κ) (v : ν) : List (κ × ν) → List (κ × ν)
  | [] => [(k, v)]
  | (k', v') :: rest => if k' = k then (k, v) :: rest else (k', v') :: setItems k v rest

theorem mem_keys_setItems {k a : κ} {v : ν} {items : List (κ × ν)} :
    a ∈ (setItems k v items).map Prod.fst ↔ a = k ∨ a ∈ items.map Prod.fst := by
  induction items with
  | nil => simp [setItems]
  | cons p rest ih =>
    obtain ⟨k', v'⟩ := p
    by_cases h : k' = k
    · subst h
      simp [setItems]
    · simp only [setItems, if_neg h, List.map_cons, List.mem_cons, ih]
      tauto

theorem nodup_setItems {k : κ} {v : ν} {items : List (κ × ν)}
    (hnd : (items.map Prod.fst).Nodup) : ((setItems k v items).map Prod.fst).Nodup := by
  induction items with
  | nil => simp [setItems]
  | cons p rest ih =>
    obtain ⟨k', v'⟩ := p
    simp only [List.map_cons, List.nodup_cons] at hnd
    by_cases h : k' = k
    · subst h
      simpa [setItems] using hnd
    · simp only [setItems, if_neg h, List.map_cons, List.nodup_cons, mem_keys_setItems, not_or]
      exact ⟨⟨h, hnd.1⟩, ih hnd.2⟩

/-- `d[k] = v` -/
def set (d : PyDict κ ν) (k : κ) (v : ν) : PyDict κ ν :=
  ⟨setItems k v d.items, nodup_setItems d.nodup⟩

@[simp] theorem mem_keys_set {d : PyDict κ ν} {k a : κ} {v : ν} :
    a ∈ (d.set k v).keys ↔ a = k ∨ a ∈ d.keys := mem_keys_setItems

theorem find?_setItems_self {k : κ} {v : ν} {items : List (κ × ν)} :
    (setItems k v items).find? (fun p => p.1 = k) = some (k, v) := by
  induction items with
  | nil => simp [setItems]
  | cons p rest ih =>
    by_cases h : p.1 = k <;> simp [setItems, h, ih]

theorem find?_setItems_ne {k a : κ} {v : ν} {items : List (κ × ν)} (hne : a ≠ k) :
    (setItems k v items).find? (fun p => p.1 = a) = items.find? (fun p => p.1 = a) := by
  induction items with
  | nil => simp [setItems, hne.symm]
  | cons p rest ih =>
    obtain ⟨k', v'⟩ := p
    by_cases h : k' = k
    · subst h
      simp [setItems, hne.symm]
    · rw [setItems, if_neg h, List.find?_cons, List.find?_cons, ih]

@[simp] theorem get?_set_self (d : PyDict κ ν) (k : κ) (v : ν) : (d.set k v).get? k = some v := by
  simp [get?, set, find?_setItems_self]

theorem get?_set_ne (d : PyDict κ ν) {k a : κ} (v : ν) (hne : a ≠ k) :
    (d.set k v).get? a = d.get? a := by
  simp [get?, set, find?_setItems_ne hne]

theorem get?_set (d : PyDict κ ν) (k a : κ) (v : ν) :
    (d.set k v).get? a = if a = k then some v else d.get? a := by
  split
  · next h => subst h; exact get?_set_self d a v
  · next h => exact get?_set_ne d v h

/-- A key reads as the value just set, or as before. -/
theorem of_get?_set {d : PyDict κ ν} {k a : κ} {v w : ν} (h : (d.set k v).get? a = some w) :
    a = k ∧ w = v ∨ a ≠ k ∧ d.get? a = some w := by
  rw [get?_set] at h
  by_cases hkey : a = k
  · rw [if_pos hkey] at h
    exact .inl ⟨hkey, (Option.some.inj h).symm⟩
  · rw [if_neg hkey] at h
    exact .inr ⟨hkey, h⟩

/-- `d.pop(k, None)`, dropping the value -/
def pop (d : PyDict κ ν) (k : κ) : PyDict κ ν :=
  ⟨d.items.filter fun p => p.1 ≠ k,
    d.nodup.sublist (List.filter_sublist.map Prod.fst)⟩

theorem get?_pop (d : PyDict κ ν) (k a : κ) :
    (d.pop k).get? a = if a = k then none else d.get? a := by
  split
  · next h =>
    subst h
    rw [get?_eq_none_iff]
    simp [pop, keys]
  · next h =>
    ext v
    rw [get?_eq_some_iff, get?_eq_some_iff]
    simp [pop, h]

theorem keys_pop (d : PyDict κ ν) (k : κ) : (d.pop k).keys = d.keys.filter fun a => a ≠ k := by
  rw [keys, pop, keys, List.filter_map]
  rfl

/-- A dictionary built by assigning the pairs of a list in order: later pairs win. -/
def ofList (l : List (κ × ν)) : PyDict κ ν := l.foldl (fun d p => d.set p.1 p.2) empty

theorem get?_foldl_set {l : List (κ × ν)} {d : PyDict κ ν} {k : κ} :
    (l.foldl (fun d p => d.set p.1 p.2) d).get? k =
      ((l.reverse.find? fun p => p.1 = k).map Prod.snd).or (d.get? k) := by
  induction l generalizing d with
  | nil => simp
  | cons p rest ih =>
    simp only [List.foldl_cons, ih, List.reverse_cons, List.find?_append, get?_set]
    cases hrest : rest.reverse.find? (fun q => q.1 = k) with
    | some q => simp
    | none =>
      by_cases h : p.1 = k
      · simp [h]
      · simp [h, Ne.symm h]

theorem get?_ofList (l : List (κ × ν)) (k : κ) :
    (ofList l).get? k = (l.reverse.find? fun p => p.1 = k).map Prod.snd := by
  simp [ofList, get?_foldl_set]

theorem get?_ofList_map (f : ν → μ) (l : List (κ × ν)) (k : κ) :
    (ofList (l.map fun p => (p.1, f p.2))).get? k = ((ofList l).get? k).map f := by
  rw [get?_ofList, get?_ofList, ← List.map_reverse, List.find?_map, Option.map_map, Option.map_map]
  rfl

theorem setItems_of_notMem {k : κ} {v : ν} {items : List (κ × ν)}
    (h : k ∉ items.map Prod.fst) : setItems k v items = items ++ [(k, v)] := by
  induction items with
  | nil => rfl
  | cons p rest ih =>
    rw [List.map_cons, List.mem_cons, not_or] at h
    rw [setItems, if_neg (Ne.symm h.1), ih h.2, List.cons_append]

theorem map_fst_setItems_of_mem {k : κ} {v : ν} {items : List (κ × ν)} (h : k ∈ items.map Prod.fst) :
    (setItems k v items).map Prod.fst = items.map Prod.fst := by
  induction items with
  | nil => cases h
  | cons p rest ih =>
    by_cases hk : p.1 = k
    · simp [setItems, hk]
    · have hrest : k ∈ rest.map Prod.fst := by simpa [Ne.symm hk] using h
      simp [setItems, hk, ih hrest]

/-- A new key goes to the end, one that is there stays where it is. -/
theorem keys_set (d : PyDict κ ν) (k : κ) (v : ν) :
    (d.set k v).keys = if k ∈ d.keys then d.keys else d.keys ++ [k] := by
  split_ifs with h
  · exact map_fst_setItems_of_mem h
  · show (setItems k v d.items).map Prod.fst = _
    rw [setItems_of_notMem h, List.map_append]
    rfl

/-- Pairs with different keys stay as they are, in order. -/
theorem items_ofList {l : List (κ × ν)} (h : (l.map Prod.fst).Nodup) : (ofList l).items = l := by
  induction l using List.reverseRecOn with
  | nil => rfl
  | append_singleton l p ih =>
    rw [List.map_append, List.nodup_append'] at h
    have hnew : p.1 ∉ (ofList l).items.map Prod.fst := by
      rw [ih h.1]
      exact fun hmem => h.2.2 hmem (by simp)
    have hset := setItems_of_notMem (v := p.2) hnew
    rw [ih h.1] at hset
    rw [ofList, List.foldl_append, ← ofList, List.foldl_cons, List.foldl_nil]
    show setItems p.1 p.2 (ofList l).items = _
    rw [ih h.1]
    exact hset

theorem mem_keys_ofList {l : List (κ × ν)} {k : κ} : k ∈ (ofList l).keys ↔ k ∈ l.map Prod.fst := by
  rw [← isSome_get?_iff, get?_ofList, Option.isSome_map, List.find?_isSome]
  simp

/-- What is found is one of the pairs. -/
theorem mem_of_get?_ofList {l : List (κ × ν)} {k : κ} {v : ν} (h : (ofList l).get? k = some v) :
    (k, v) ∈ l := by
  rw [get?_ofList, Option.map_eq_some_iff] at h
  obtain ⟨⟨k', v'⟩, hfind, rfl⟩ := h
  obtain rfl : k' = k := by simpa using List.find?_some hfind
  exact List.mem_reverse.mp (List.mem_of_find?_eq_some hfind)

/-- Where the pairs of a key agree, they are what is found. -/
theorem get?_ofList_eq_some_iff {l : List (κ × ν)} {k : κ}
    (hagree : ∀ v v', (k, v) ∈ l → (k, v') ∈ l → v = v') {v : ν} :
    (ofList l).get? k = some v ↔ (k, v) ∈ l := by
  refine ⟨mem_of_get?_ofList, fun hmem => ?_⟩
  have hsome : ((ofList l).get? k).isSome := by
    rw [isSome_get?_iff]
    exact mem_keys_ofList.mpr (List.mem_map_of_mem hmem)
  obtain ⟨v', hv'⟩ := Option.isSome_iff_exists.mp hsome
  rw [hv', hagree v' v (mem_of_get?_ofList hv') hmem]

/-- `d.update(e)` -/
def update (d e : PyDict κ ν) : PyDict κ ν := e.items.foldl (fun d p => d.set p.1 p.2) d

theorem get?_update (d e : PyDict κ ν) (k : κ) : (d.update e).get? k = (e.get? k).or (d.get? k) := by
  rw [update, get?_foldl_set]
  congr 1
  ext v
  rw [← get?_ofList, get?_ofList_eq_some_iff, get?_eq_some_iff]
  intro v₁ v₂ h₁ h₂
  rw [← get?_eq_some_iff] at h₁ h₂
  exact Option.some.inj (h₁.symm.trans h₂)

/-- Removing a list of keys, one after the other. -/
theorem get?_foldl_pop (ks : List κ) (d : PyDict κ ν) (a : κ) :
    (ks.foldl pop d).get? a = if a ∈ ks then none else d.get? a := by
  induction ks generalizing d with
  | nil => simp
  | cons k rest ih =>
    rw [List.foldl_cons, ih, get?_pop]
    by_cases hrest : a ∈ rest <;> by_cases hk : a = k <;> simp [hrest, hk]

/-- Assigning one value to a list of keys, one after the other. -/
theorem get?_foldl_set_const (ks : List κ) (v : ν) (d : PyDict κ ν) (a : κ) :
    (ks.foldl (fun d k => d.set k v) d).get? a = if a ∈ ks then some v else d.get? a := by
  induction ks generalizing d with
  | nil => simp
  | cons k rest ih =>
    rw [List.foldl_cons, ih, get?_set]
    by_cases hrest : a ∈ rest <;> by_cases hk : a = k <;> simp [hrest, hk]

/-- A loop that assigns at most one key for each element, each its own: afterwards a key holds what its
element assigned, and any other key what it held before. -/
theorem foldlM_assign {ε α : Type} {step : PyDict κ ν → α → Except ε (PyDict κ ν)} {key : α → κ}
    {act : α → Option ν} {xs : List α}
    (hstep : ∀ x ∈ xs, ∀ d, step d x = .ok ((act x).elim d (d.set (key x))))
    (hkeys : (xs.map key).Nodup) (d : PyDict κ ν) :
    ∃ d', xs.foldlM step d = .ok d' ∧ (∀ k, k ∉ xs.map key → d'.get? k = d.get? k) ∧
      ∀ x ∈ xs, d'.get? (key x) = (act x).or (d.get? (key x)) := by
  induction xs generalizing d with
  | nil => exact ⟨d, rfl, fun _ _ => rfl, fun _ h => nomatch h⟩
  | cons x xs ih =>
    rw [List.map_cons, List.nodup_cons] at hkeys
    obtain ⟨d', hfold, hother, hself⟩ :=
      ih (fun y hy => hstep y (List.mem_cons_of_mem x hy)) hkeys.2 ((act x).elim d (d.set (key x)))
    have hfirst : ∀ k, ((act x).elim d (d.set (key x))).get? k
        = if k = key x then (act x).or (d.get? k) else d.get? k := by
      intro k
      cases hact : act x with
      | none => simp
      | some v => simp [get?_set]
    refine ⟨d', ?_, ?_, ?_⟩
    · rw [List.foldlM_cons, hstep x List.mem_cons_self]
      exact hfold
    · intro k hk
      rw [List.map_cons, List.mem_cons, not_or] at hk
      rw [hother k hk.2, hfirst, if_neg hk.1]
    · intro y hy
      rcases List.mem_cons.mp hy with rfl | hy
      · rw [hother _ hkeys.1, hfirst, if_pos rfl]
      · have hne : key y ≠ key x := fun h => hkeys.1 (h ▸ List.mem_map_of_mem hy)
        rw [hself y hy, hfirst, if_neg hne]

/-- A loop that updates for each element its own key: afterwards a key holds what its element made of
what was there before the loop, and any other key what it held. -/
theorem foldlM_update {ε α : Type} {step : PyDict κ ν → α → Except ε (PyDict κ ν)} {key : α → κ}
    {new : α → Option ν → ν} {xs : List α} {d : PyDict κ ν}
    (hstep : ∀ x ∈ xs, ∀ d' : PyDict κ ν, d'.get? (key x) = d.get? (key x) →
      step d' x = .ok (d'.set (key x) (new x (d.get? (key x)))))
    (hkeys : (xs.map key).Nodup) :
    ∃ d', xs.foldlM step d = .ok d' ∧
      ∀ k, d'.get? k = (xs.find? fun x => key x = k).elim (d.get? k) fun x => some (new x (d.get? k)) := by
  induction xs generalizing d with
  | nil => exact ⟨d, rfl, fun _ => rfl⟩
  | cons x rest ih =>
    rw [List.map_cons, List.nodup_cons] at hkeys
    have hlater : ∀ y ∈ rest, key y ≠ key x := fun y hy heq =>
      hkeys.1 (heq ▸ List.mem_map_of_mem hy)
    obtain ⟨d₁, hd₁⟩ : ∃ d₁, d₁ = d.set (key x) (new x (d.get? (key x))) := ⟨_, rfl⟩
    have hsame : ∀ y ∈ rest, d₁.get? (key y) = d.get? (key y) := by
      intro y hy
      rw [hd₁, get?_set_ne _ _ (hlater y hy)]
    obtain ⟨d', hfold, hget⟩ := ih (d := d₁) (by
      intro y hy d' hd'
      rw [hsame y hy] at hd' ⊢
      exact hstep y (List.mem_cons_of_mem x hy) d' hd') hkeys.2
    refine ⟨d', ?_, fun k => ?_⟩
    · rw [List.foldlM_cons, hstep x List.mem_cons_self d rfl, ← hd₁]
      exact hfold
    · rw [hget k]
      by_cases hk : key x = k
      · subst hk
        have hnone : rest.find? (fun y => key y = key x) = none :=
          List.find?_eq_none.mpr fun y hy => by simpa using hlater y hy
        rw [hnone, List.find?_cons_of_pos (by simp), Option.elim_none, hd₁, get?_set_self]
        rfl
      · rw [List.find?_cons_of_neg (by simpa using hk), hd₁, get?_set_ne _ _ (Ne.symm hk)]

/-- The same over another dict's items: each key's value is made of the item's and of what was there. -/
theorem foldlM_update_items {ε : Type} {κ μ ν : Type} [DecidableEq κ]
    {step : PyDict κ ν → κ × μ → Except ε (PyDict κ ν)} {new : μ → Option ν → ν} {e : PyDict κ μ}
    {d : PyDict κ ν}
    (hstep : ∀ k v, e.get? k = some v → ∀ d' : PyDict κ ν, d'.get? k = d.get? k →
      step d' (k, v) = .ok (d'.set k (new v (d.get? k)))) :
    ∃ d', e.items.foldlM step d = .ok d' ∧
      ∀ k, d'.get? k = (e.get? k).elim (d.get? k) fun v => some (new v (d.get? k)) := by
  have hitems : ∀ p ∈ e.items, ∀ d' : PyDict κ ν, d'.get? p.1 = d.get? p.1 →
      step d' p = .ok (d'.set p.1 (new p.2 (d.get? p.1))) :=
    fun p hp d' hd' => hstep p.1 p.2 (get?_eq_some_iff.mpr hp) d' hd'
  obtain ⟨d', hfold, hget⟩ :=
    @foldlM_update _ _ _ _ _ step Prod.fst (fun p => new p.2) _ _ hitems e.nodup
  refine ⟨d', hfold, fun k => ?_⟩
  have he : e.get? k = (e.items.find? fun p => p.1 = k).map Prod.snd := rfl
  rw [hget k, he]
  cases e.items.find? fun p => p.1 = k with
  | none => rfl
  | some p => rfl

end Lookup

/-! ## Values -/

/-- `{k: f(v) for k, v in d.items()}` -/
def mapValues (f : ν → μ) (d : PyDict κ ν) : PyDict κ μ :=
  ⟨d.items.map fun p => (p.1, f p.2), by
    rw [List.map_map]
    exact d.nodup⟩

@[simp] theorem keys_mapValues (f : ν → μ) (d : PyDict κ ν) : (d.mapValues f).keys = d.keys :=
  List.map_map ..

theorem get?_mapValues [DecidableEq κ] (f : ν → μ) (d : PyDict κ ν) (k : κ) :
    (d.mapValues f).get? k = (d.get? k).map f := by
  simp only [get?, mapValues, List.find?_map, Option.map_map]
  rfl

/-! ## Grouping -/

section GroupBy

variable [DecidableEq κ] {α : Type*} (f : α → κ)

/-- `for x in xs: d.setdefault(f(x), []).append(x)` -/
def appendAll (xs : List α) (d : PyDict κ (List α)) : PyDict κ (List α) :=
  xs.foldl (fun d x => d.set (f x) ((d.get? (f x)).getD [] ++ [x])) d

/-- The elements of a list by their keys, each group in the list's order. -/
def groupBy (xs : List α) : PyDict κ (List α) := appendAll f xs empty

theorem getD_appendAll (xs : List α) (d : PyDict κ (List α)) (k : κ) :
    ((appendAll f xs d).get? k).getD [] = (d.get? k).getD [] ++ xs.filter fun x => f x = k := by
  induction xs generalizing d with
  | nil => simp [appendAll]
  | cons x rest ih =>
    have hstep := ih (d.set (f x) ((d.get? (f x)).getD [] ++ [x]))
    rw [appendAll, List.foldl_cons, ← appendAll, hstep, get?_set]
    by_cases hk : k = f x
    · subst hk
      simp
    · simp [hk, Ne.symm hk]

theorem mem_keys_appendAll {xs : List α} {d : PyDict κ (List α)} {k : κ} :
    k ∈ (appendAll f xs d).keys ↔ k ∈ d.keys ∨ ∃ x ∈ xs, f x = k := by
  induction xs generalizing d with
  | nil => simp [appendAll]
  | cons x rest ih =>
    rw [appendAll, List.foldl_cons, ← appendAll, ih, mem_keys_set]
    simp only [List.mem_cons, exists_eq_or_imp, or_assoc, eq_comm (a := k), or_left_comm]

/-- A group holds the elements with its key, and there is one for every key that occurs. -/
theorem get?_groupBy (xs : List α) (k : κ) :
    (groupBy f xs).get? k =
      if ∃ x ∈ xs, f x = k then some (xs.filter fun x => f x = k) else none := by
  have hmem : k ∈ (appendAll f xs empty).keys ↔ _ := mem_keys_appendAll f
  have hget := getD_appendAll f xs empty k
  rw [groupBy]
  split_ifs with hex
  · have hsome := isSome_get?_iff.mpr (hmem.mpr (.inr hex))
    obtain ⟨group, hgroup⟩ := Option.isSome_iff_exists.mp hsome
    rw [hgroup] at hget ⊢
    simpa using hget
  · rw [get?_eq_none_iff, hmem]
    simpa using hex

end GroupBy

/-- `{k: v for k, v in d.items() if v is not None}` -/
def dropNone (d : PyDict κ (Option ν)) : PyDict κ ν where
  items := d.items.filterMap fun p => p.2.map fun v => (p.1, v)
  nodup := by
    have hkeys : ((d.items.filterMap fun p => p.2.map fun v => (p.1, v)).map Prod.fst) =
        (d.items.filter fun p => p.2.isSome).map Prod.fst := by
      induction d.items with
      | nil => rfl
      | cons p rest ih =>
        obtain ⟨k, v⟩ := p
        cases v with
        | none => simpa using ih
        | some v => simpa using ih
    rw [hkeys]
    exact d.nodup.sublist (List.filter_sublist.map Prod.fst)

theorem get?_dropNone [DecidableEq κ] (d : PyDict κ (Option ν)) (k : κ) :
    d.dropNone.get? k = (d.get? k).join := by
  ext v
  rw [get?_eq_some_iff, Option.join_eq_some_iff, get?_eq_some_iff, dropNone, List.mem_filterMap]
  constructor
  · rintro ⟨⟨k', v'⟩, hmem, hsome⟩
    obtain ⟨v'', rfl, heq⟩ := Option.map_eq_some_iff.mp hsome
    obtain ⟨rfl, rfl⟩ := Prod.mk.inj heq
    exact hmem
  · exact fun hmem => ⟨(k, some v), hmem, rfl⟩

/-- Keys whose values coincide, in a dictionary without a value twice, coincide. -/
theorem key_eq_of_values_nodup [DecidableEq κ] {d : PyDict κ ν} (h : d.values.Nodup) {k a : κ}
    {v : ν} (hk : d.get? k = some v) (ha : d.get? a = some v) : k = a := by
  rw [get?_eq_some_iff] at hk ha
  exact congrArg Prod.fst (List.inj_on_of_nodup_map h hk ha rfl)

/-- Pairs grouped by their first component, keeping the second. -/
theorem mem_items_groupBy_fst [DecidableEq κ] {β : Type*} {entries : List (κ × β)} {k : κ}
    {members : List β} :
    (k, members) ∈ ((groupBy Prod.fst entries).mapValues fun xs => xs.map Prod.snd).items ↔
      (∃ b, (k, b) ∈ entries) ∧ members = (entries.filter fun x => x.1 = k).map Prod.snd := by
  rw [← get?_eq_some_iff, get?_mapValues, get?_groupBy]
  have hkey : (∃ x ∈ entries, x.1 = k) ↔ ∃ b, (k, b) ∈ entries := by
    constructor
    · rintro ⟨⟨k', b⟩, hx, rfl⟩
      exact ⟨b, hx⟩
    · rintro ⟨b, hb⟩
      exact ⟨(k, b), hb, rfl⟩
  split_ifs with hex
  · rw [Option.map_some, Option.some_inj, eq_comm, and_iff_right (hkey.mp hex)]
  · rw [Option.map_none]
    exact iff_of_false (by simp) fun h => hex (hkey.mpr h.1)

end PyDict

end VllmExl3
