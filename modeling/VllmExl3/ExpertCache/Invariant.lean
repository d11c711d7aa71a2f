/-
# VllmExl3.ExpertCache.Invariant — the controller's state invariant

Five structures have to agree after every call: `slot_of`, `owner`, `live`, `pending` and the
decode table the writes leave behind. Only three things ever change them together, and each is one
step lemma here: an expert is *assigned* a free slot (`SlotInv.assign`), its landed copy is
*flipped* live (`SlotInv.land`), and a live owner is *evicted* (`SlotInv.clear`). `_fill` is assign
and land, `step_begin`'s first phase is a run of lands, `_plan` is a run of evict-then-assign.

`SlotInv P c extra` is the invariant while a call is half way through: `extra` holds the experts
that are on the way to a slot but listed outside `pending` (popped and not yet flipped, or issued
and not yet promoted). Between calls `extra` is empty.
-/
import VllmExl3.ExpertCache.Model
import Mathlib.Tactic.Ring

namespace VllmExl3.ExpertCache

variable {P : Params} {c : Cache} {t : Nat → Addr} {extra : List (Nat × Nat)} {l e s : Nat}

/-! ## Hosted experts and table entries -/

theorem mem_labels (j : Label) : j ∈ labels := by
  revert j; decide

namespace Params

theorem mem_hosted : e ∈ P.hosted l ↔ ∃ j row, P.hostRow l j e = some row := by
  simp only [hosted, List.mem_dedup, List.mem_flatMap, hostRow]
  constructor
  · rintro ⟨j, _, hj⟩
    cases hb : P.block l j with
    | none => simp [hb] at hj
    | some b =>
      obtain ⟨row, hrow⟩ := Option.isSome_iff_exists.mp
        (PyDict.isSome_get?_iff.mpr (by simpa [hb] using hj : e ∈ b.rows.keys))
      exact ⟨j, row, by simpa [hb] using hrow⟩
  · rintro ⟨j, row, hrow⟩
    cases hb : P.block l j with
    | none => simp [hb] at hrow
    | some b =>
      refine ⟨j, mem_labels j, ?_⟩
      simpa [hb] using PyDict.mem_keys_of_get? (by simpa [hb] using hrow : b.rows.get? e = some row)

theorem hostRow_lt {j : Label} {row : Nat} (h : P.hostRow l j e = some row) :
    l < P.L ∧ e < P.E := by
  simp only [hostRow, block, Option.bind_eq_some_iff] at h
  obtain ⟨b, ⟨layer, hlayer, hb⟩, hrow⟩ := h
  exact ⟨(List.getElem?_eq_some_iff.mp hlayer).1,
    layer.rows_lt j b hb e (PyDict.mem_keys_of_get? hrow)⟩

theorem hosted_lt (h : e ∈ P.hosted l) : l < P.L ∧ e < P.E := by
  obtain ⟨j, row, hrow⟩ := mem_hosted.mp h
  exact hostRow_lt hrow

theorem mem_host {j : Label} {a : Addr} :
    (j, a) ∈ P.host l e ↔ ∃ row, P.hostRow l j e = some row ∧ a = .host l j row := by
  simp only [host, List.mem_filterMap, mem_labels, true_and, Option.map_eq_some_iff,
    Prod.mk.injEq]
  constructor
  · rintro ⟨j', row, hrow, rfl, rfl⟩
    exact ⟨row, hrow, rfl⟩
  · rintro ⟨row, hrow, rfl⟩
    exact ⟨j, row, hrow, rfl, rfl⟩

/-- `_entry` numbers the table entries apart. -/
theorem entry_inj {l' e' : Nat} {j j' : Label} (he : e < P.E) (he' : e' < P.E) :
    P.entry l j e = P.entry l' j' e' ↔ l = l' ∧ j = j' ∧ e = e' := by
  constructor
  · intro h
    have hE : 0 < P.E := by omega
    have hdiv := congrArg (· / P.E) h
    have hmod := congrArg (· % P.E) h
    simp only [entry, Nat.mul_comm _ P.E, Nat.mul_add_div hE, Nat.mul_add_mod,
      Nat.div_eq_of_lt he, Nat.div_eq_of_lt he', Nat.mod_eq_of_lt he, Nat.mod_eq_of_lt he'] at hdiv hmod
    have := j.isLt
    have := j'.isLt
    exact ⟨by omega, Fin.ext (by omega), hmod⟩
  · rintro ⟨rfl, rfl, rfl⟩
    rfl

/-- Entry `(l, j, e)` of the initial table is the layer's own pointer. -/
theorem table0_entry {j : Label} (he : e < P.E) : P.table0 (P.entry l j e) = P.trellisPtr l j e := by
  have hE : 0 < P.E := by omega
  have hdiv : P.entry l j e / P.E = l * 3 + j := by
    rw [entry, Nat.mul_comm _ P.E, Nat.mul_add_div hE, Nat.div_eq_of_lt he, Nat.add_zero]
  have hmod : P.entry l j e % P.E = e := by
    rw [entry, Nat.mul_comm _ P.E, Nat.mul_add_mod, Nat.mod_eq_of_lt he]
  have hj := j.isLt
  have hlayer : (l * 3 + j) / 3 = l := by omega
  have hlabel : Fin.ofNat 3 (l * 3 + j) = j := Fin.ext (by simp [Fin.ofNat])
  rw [table0, hdiv, hmod, hlayer, hlabel]

end Params

/-! ## Replaying writes -/

theorem scatterInto_append (u v : List (Nat × Addr)) :
    scatterInto t (u ++ v) = scatterInto (scatterInto t u) v := List.foldl_append ..

theorem scatterInto_of_notMem {updates : List (Nat × Addr)} {i : Nat}
    (h : i ∉ updates.map Prod.fst) : scatterInto t updates i = t i := by
  induction updates generalizing t with
  | nil => rfl
  | cons u rest ih =>
    simp only [List.map_cons, List.mem_cons, not_or] at h
    rw [scatterInto, List.foldl_cons, ← scatterInto, ih h.2, Function.update_of_ne h.1]

/-- A scatter whose updates of `i` all carry `a` leaves `a` at `i`. -/
theorem scatterInto_of_mem {updates : List (Nat × Addr)} {i : Nat} {a : Addr}
    (hmem : i ∈ updates.map Prod.fst) (hval : ∀ u ∈ updates, u.1 = i → u.2 = a) :
    scatterInto t updates i = a := by
  induction updates generalizing t with
  | nil => simp at hmem
  | cons u rest ih =>
    rw [scatterInto, List.foldl_cons, ← scatterInto]
    by_cases hrest : i ∈ rest.map Prod.fst
    · exact ih hrest fun v hv => hval v (List.mem_cons_of_mem u hv)
    · rw [scatterInto_of_notMem hrest]
      have hi : i = u.1 := by simpa [hrest] using hmem
      rw [hi, Function.update_self]
      exact hval u List.mem_cons_self hi.symm

theorem replay_append (ops ops' : List MainOp) :
    replay t (ops ++ ops') = replay (replay t ops) ops' := List.foldl_append ..

@[simp] theorem replay_write (updates : List (Nat × Addr)) :
    replay t (write updates) = scatterInto t updates := by
  cases updates <;> rfl

@[simp] theorem replay_record (n : Nat) : replay t [.record n] = t := rfl

/-! ## The invariant -/

/-- The slot bookkeeping: `owner` and `slot_of` are inverse to each other, slots are in range and
hold offloaded experts, a live expert has a slot, and the experts with a slot that are not live
are exactly those on the way, each listed once. -/
structure SlotInv (P : Params) (c : Cache) (extra : List (Nat × Nat)) : Prop where
  inverse : ∀ l e s, c.owner (l, s) = some e ↔ c.slot_of (l, e) = some s
  slot_lt : ∀ l e s, c.slot_of (l, e) = some s → s < P.capacity l
  hosted : ∀ l e s, c.slot_of (l, e) = some s → e ∈ P.hosted l
  live_slot : ∀ le, c.live le = true → (c.slot_of le).isSome
  inFlight : ∀ le, (extra ++ c.inFlight).count le =
    if (c.slot_of le).isSome ∧ c.live le = false then 1 else 0

/-- Where the decode-table entry of `(l, j, e)` belongs: the slot when live, the host row while it
is not, the expert's own tensor when it was never offloaded. -/
def pointer (P : Params) (c : Cache) (l : Nat) (j : Label) (e : Nat) : Addr :=
  match P.hostRow l j e with
  | none => .device l j e
  | some row =>
    if c.live (l, e) then
      match c.slot_of (l, e) with
      | some s => slotAddr l j s
      | none => .host l j row
    else .host l j row

/-- Every entry of the table is where it belongs. -/
def TableOk (P : Params) (t : Nat → Addr) (c : Cache) : Prop :=
  ∀ l, ∀ j : Label, ∀ e, e < P.E → t (P.entry l j e) = pointer P c l j e

/-- Both halves of the invariant, mid-call. -/
structure Good (P : Params) (t : Nat → Addr) (c : Cache) (extra : List (Nat × Nat)) : Prop where
  slots : SlotInv P c extra
  table : TableOk P t c

theorem SlotInv.congr {c' : Cache} (h : SlotInv P c extra) (hs : c'.slot_of = c.slot_of)
    (ho : c'.owner = c.owner) (hl : c'.live = c.live) (hp : c'.inFlight = c.inFlight) :
    SlotInv P c' extra := by
  obtain ⟨h1, h2, h3, h4, h5⟩ := h
  constructor <;> simpa only [hs, ho, hl, hp]

theorem TableOk.congr {c' : Cache} (h : TableOk P t c) (hs : c'.slot_of = c.slot_of)
    (hl : c'.live = c.live) : TableOk P t c' := by
  intro l j e he
  rw [h l j e he, pointer, pointer, hs, hl]

theorem Good.congr {c' : Cache} (h : Good P t c extra) (hs : c'.slot_of = c.slot_of)
    (ho : c'.owner = c.owner) (hl : c'.live = c.live) (hp : c'.inFlight = c.inFlight) :
    Good P t c' extra :=
  ⟨h.slots.congr hs ho hl hp, h.table.congr hs hl⟩

theorem SlotInv.live_false (h : SlotInv P c extra) {le : Nat × Nat} (hs : c.slot_of le = none) :
    c.live le = false := by
  by_contra hl
  simpa [hs] using h.live_slot le (by simpa using hl)

/-- An expert on the way has a slot and is not live yet. -/
theorem SlotInv.of_mem (h : SlotInv P c extra) {le : Nat × Nat} (hm : le ∈ extra ++ c.inFlight) :
    (c.slot_of le).isSome ∧ c.live le = false := by
  by_contra hn
  have := h.inFlight le
  rw [if_neg hn] at this
  exact List.count_eq_zero.mp this hm

/-! ### Re-pointing one expert -/

/-- The table after re-pointing every hosted projection of one expert, the rest untouched. -/
theorem TableOk.repoint {c' : Cache} (addr : Label → Addr → Addr) (h : TableOk P t c)
    (he : e < P.E) (hs : ∀ le, le ≠ (l, e) → c'.slot_of le = c.slot_of le)
    (hl : ∀ le, le ≠ (l, e) → c'.live le = c.live le)
    (haddr : ∀ j row, P.hostRow l j e = some row →
      addr j (.host l j row) = pointer P c' l j e) :
    TableOk P (scatterInto t ((P.host l e).map fun ja => (P.entry l ja.1 e, addr ja.1 ja.2))) c' := by
  intro l' j' e' he'
  have hvals : ∀ u ∈ (P.host l e).map fun ja => (P.entry l ja.1 e, addr ja.1 ja.2),
      u.1 = P.entry l' j' e' → l = l' ∧ e = e' ∧ u.2 = pointer P c' l' j' e' := by
    intro u hu hi
    obtain ⟨⟨j, a⟩, hja, rfl⟩ := List.mem_map.mp hu
    obtain ⟨row, hrow, rfl⟩ := Params.mem_host.mp hja
    obtain ⟨rfl, rfl, rfl⟩ := (Params.entry_inj he he').mp hi
    exact ⟨rfl, rfl, haddr j row hrow⟩
  by_cases hmem : P.entry l' j' e' ∈ ((P.host l e).map fun ja =>
      (P.entry l ja.1 e, addr ja.1 ja.2)).map Prod.fst
  · exact scatterInto_of_mem hmem fun u hu hi => (hvals u hu hi).2.2
  · rw [scatterInto_of_notMem hmem, h l' j' e' he']
    by_cases hle : (l', e') = (l, e)
    · -- a projection of the re-pointed expert with no update has no host row
      obtain ⟨rfl, rfl⟩ := Prod.mk.inj hle
      have hnone : P.hostRow l' j' e' = none := by
        by_contra hne
        obtain ⟨row, hrow⟩ := Option.ne_none_iff_exists'.mp hne
        exact hmem (List.mem_map.mpr ⟨(P.entry l' j' e', addr j' (.host l' j' row)),
          List.mem_map.mpr ⟨(j', .host l' j' row), Params.mem_host.mpr ⟨row, hrow, rfl⟩, rfl⟩, rfl⟩)
      rw [pointer, pointer, hnone]
    · rw [pointer, pointer, hs _ hle, hl _ hle]

/-! ### The three transitions -/

/-- Flipping an expert on the way keeps the bookkeeping. -/
theorem SlotInv.land {le : Nat × Nat} (h : SlotInv P c (le :: extra)) :
    SlotInv P { c with live := Function.update c.live le true } extra := by
  have hle := h.of_mem (show le ∈ (le :: extra) ++ c.inFlight by simp)
  refine ⟨h.inverse, h.slot_lt, h.hosted, ?_, ?_⟩
  · intro le' hl'
    by_cases heq : le' = le
    · exact heq ▸ hle.1
    · exact h.live_slot le' (by simpa [Function.update_of_ne heq] using hl')
  · intro le'
    have hcount := h.inFlight le'
    rw [List.cons_append, List.count_cons] at hcount
    by_cases heq : le' = le
    · subst heq
      simp only [hle.1, hle.2, and_self, if_true, beq_self_eq_true, Nat.add_eq_right] at hcount
      simpa [Cache.inFlight] using hcount
    · have hne : (le == le') = false := by simpa using fun hh => heq hh.symm
      simpa [Cache.inFlight, Function.update_of_ne heq, hne] using hcount

/-- Giving an expert without a slot a free one keeps the bookkeeping. -/
theorem SlotInv.assign (h : SlotInv P c extra) (hfree : c.owner (l, s) = none)
    (hnone : c.slot_of (l, e) = none) (hcap : s < P.capacity l) (hhost : e ∈ P.hosted l) :
    SlotInv P { c with
      owner := Function.update c.owner (l, s) (some e)
      slot_of := Function.update c.slot_of (l, e) (some s) } (extra ++ [(l, e)]) := by
  have hlive := h.live_false hnone
  refine ⟨?_, ?_, ?_, ?_, ?_⟩
  · intro l' e' s'
    simp only [Function.update_apply, Prod.mk.injEq]
    have hinv := h.inverse l' e' s'
    by_cases hs : l' = l ∧ s' = s
    · obtain ⟨rfl, rfl⟩ := hs
      by_cases he : e' = e
      · simp [he]
      · have hne : c.slot_of (l', e') ≠ some s' := fun hh => by
          rw [← h.inverse, hfree] at hh
          exact Option.some_ne_none _ hh.symm
        simp [he, Ne.symm he, hne]
    · by_cases he : l' = l ∧ e' = e
      · obtain ⟨rfl, rfl⟩ := he
        have hne : s' ≠ s := fun hh => hs ⟨rfl, hh⟩
        have hno : c.owner (l', s') ≠ some e' := fun hh => by
          rw [h.inverse, hnone] at hh
          exact Option.some_ne_none _ hh.symm
        simp [hne, Ne.symm hne, hno]
      · simp [hs, he, hinv]
  · intro l' e' s' hs'
    by_cases he : (l', e') = (l, e)
    · obtain ⟨rfl, rfl⟩ := Prod.mk.inj he
      have : s = s' := by simpa using hs'
      exact this ▸ hcap
    · exact h.slot_lt l' e' s' (by simpa [Function.update_of_ne he] using hs')
  · intro l' e' s' hs'
    by_cases he : (l', e') = (l, e)
    · obtain ⟨rfl, rfl⟩ := Prod.mk.inj he
      exact hhost
    · exact h.hosted l' e' s' (by simpa [Function.update_of_ne he] using hs')
  · intro le hl
    by_cases he : le = (l, e)
    · simp [he]
    · simpa [Function.update_of_ne he] using h.live_slot le hl
  · intro le
    have hcount := h.inFlight le
    rw [List.count_append] at hcount
    rw [List.count_append, List.count_append]
    by_cases he : le = (l, e)
    · subst he
      simp only [hnone, Option.isSome_none, Bool.false_eq_true, false_and, if_false] at hcount
      have hsum : extra.count (l, e) + c.inFlight.count (l, e) = 0 := hcount
      have : (extra.count (l, e) + 1) + c.inFlight.count (l, e) = 1 := by omega
      simpa [Cache.inFlight, hlive] using this
    · have hne : ((l, e) == le) = false := by simpa using fun hh => he hh.symm
      simpa [Cache.inFlight, Function.update_of_ne he, List.count_singleton, hne] using hcount

/-- Taking a live owner's slot away keeps the bookkeeping. -/
theorem SlotInv.clear {old : Nat} (h : SlotInv P c extra) (hown : c.owner (l, s) = some old)
    (hlive : c.live (l, old) = true) :
    SlotInv P { c with
      owner := Function.update c.owner (l, s) none
      slot_of := Function.update c.slot_of (l, old) none
      live := Function.update c.live (l, old) false } extra := by
  have hslot := (h.inverse l old s).mp hown
  refine ⟨?_, ?_, ?_, ?_, ?_⟩
  · intro l' e' s'
    simp only [Function.update_apply, Prod.mk.injEq]
    have hinv := h.inverse l' e' s'
    by_cases hs : l' = l ∧ s' = s
    · obtain ⟨rfl, rfl⟩ := hs
      by_cases he : e' = old
      · simp [he]
      · have hne : c.slot_of (l', e') ≠ some s' := fun hh => by
          rw [← h.inverse, hown] at hh
          exact he (Option.some.inj hh).symm
        simp [he, hne]
    · by_cases he : l' = l ∧ e' = old
      · obtain ⟨rfl, rfl⟩ := he
        have hne : s' ≠ s := fun hh => hs ⟨rfl, hh⟩
        have hno : c.owner (l', s') ≠ some e' := fun hh => by
          rw [h.inverse, hslot] at hh
          exact hne (Option.some.inj hh).symm
        simp [hne, hno]
      · simp [hs, he, hinv]
  · intro l' e' s' hs'
    by_cases he : (l', e') = (l, old)
    · simp [he] at hs'
    · exact h.slot_lt l' e' s' (by simpa [Function.update_of_ne he] using hs')
  · intro l' e' s' hs'
    by_cases he : (l', e') = (l, old)
    · simp [he] at hs'
    · exact h.hosted l' e' s' (by simpa [Function.update_of_ne he] using hs')
  · intro le hl
    by_cases he : le = (l, old)
    · simp [he] at hl
    · simpa [Function.update_of_ne he] using
        h.live_slot le (by simpa [Function.update_of_ne he] using hl)
  · intro le
    have hcount := h.inFlight le
    by_cases he : le = (l, old)
    · subst he
      simpa [Cache.inFlight, hlive] using hcount
    · simpa [Cache.inFlight, Function.update_of_ne he] using hcount

end VllmExl3.ExpertCache
