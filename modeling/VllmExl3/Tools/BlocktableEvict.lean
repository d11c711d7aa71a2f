/-
# VllmExl3.Tools.BlocktableEvict — residency views of a block table (`tools/blocktable_evict.py`)

`Evictor` shows the attention kernel fewer blocks than a request has: `resident` picks the full blocks to
keep, and `_row` moves them to the front of the row, puts the tail block behind them and shortens
`seq_len` to match. What a kernel then reads is just the keys of the kept blocks and the tail
(`keys_residentView`). Which blocks are kept is right in every arm as long as the needle is not in the
way: `keep_needle` and `drop_needle` spend the same budget and differ in one block only where the needle
lies between the sink and the recent blocks (`residency_iff`).
-/
import VllmExl3.Tools.BlocktablePermute
import Mathlib.Order.Interval.Finset.Nat

namespace VllmExl3.Tools.Evict

open Paged
open Permute (entry entry_ok gather gather_ok)

/-! ## The code -/

/-- The arms. -/
inductive Mode where
  | control | viewfull | evict | poison | control2 | seqonly | rowonly | keep_needle | drop_needle
  deriving DecidableEq, Repr

/-- What an `Evictor` is made with. -/
structure Evictor where
  budget : Nat
  sink : Nat
  needle_block : Option Nat
  deriving DecidableEq, Repr

/-- What an arm counts. -/
structure Counts where
  touched : Nat
  min_resident : Option Nat
  max_positions : Nat
  dropped : Int
  deriving DecidableEq, Repr

/-- `reset` -/
def Counts.reset : Counts := ⟨0, none, 0, 0⟩

/-- `range(start, stop)`, for a start that is not negative. -/
def rangeFrom (start : Int) (stop : Nat) : List Nat := (List.range stop).filter fun i => start ≤ (i : Int)

/-- `sorted(set(xs))` -/
def sortedSet (xs : List Nat) : List Nat := xs.dedup.insertionSort (· ≤ ·)

/-- The first blocks that `resident` picks: the sink, and in `keep_needle` the needle. -/
def Evictor.front (E : Evictor) (mode : Mode) (n_full : Nat) : List Nat :=
  let keep := List.range (min E.sink (min E.budget n_full))
  match mode, E.needle_block with
  | .keep_needle, some needle => if needle < n_full ∧ needle ∉ keep then keep ++ [needle] else keep
  | _, _ => keep

/-- `resident` -/
def Evictor.resident (E : Evictor) (mode : Mode) (n_full : Nat) : List Nat :=
  if mode ∈ [.control, .control2, .viewfull, .seqonly] then List.range n_full
  else
    let keep := E.front mode n_full
    let recent : Int := (min E.budget n_full : Nat) - keep.length
    sortedSet (keep ++ (rangeFrom (n_full - recent) n_full).filter fun i => i ∉ keep)

/-- `_note` -/
def Counts.note (counts : Counts) (blocks computed : Nat) : Counts where
  touched := counts.touched + 1
  min_resident := some ((counts.min_resident.map fun m => min m blocks).getD blocks)
  max_positions := max counts.max_positions (computed + 1)
  dropped := max counts.dropped ((computed / 16 : Nat) - blocks)

/-- The entries behind the tail: `poison` writes a resident block over them. -/
def behind (mode : Mode) (old keep : List Nat) : List Nat :=
  if mode = .poison ∧ 0 < keep.length then
    List.replicate (old.length - (keep.length + 1)) (old.getD (keep.headD 0) default)
  else old.drop (keep.length + 1)

/-- The blocks that are kept to the front of the row, the tail block behind them. -/
def rewriteRow (mode : Mode) (old keep : List Nat) (n_full : Nat) : Except PyError (List Nat) := do
  let kept ← gather old keep
  let tail ← entry old n_full
  if old.length ≤ keep.length then .error .index
  else return kept ++ tail :: behind mode old keep

/-- What `_row` makes of a row and its `seq_len`, and the number of blocks it notes. -/
def Evictor.residentView (E : Evictor) (mode : Mode) (old : List Nat) (computed block_size : Nat) :
    Except PyError (List Nat × Nat × Nat) :=
  let n_full := computed / block_size
  let tail_count := computed % block_size + 1
  let keep := E.resident mode n_full
  if block_size = 0 then .error .zeroDivision
  else if mode = .seqonly then
    let k := min E.budget n_full
    .ok (old, k * block_size, k)
  else do
    let k := keep.length
    let row ← rewriteRow mode old keep n_full
    return (row, if mode = .rowonly then computed + 1 else k * block_size + tail_count, k + 1)

/-- The metadata of a step, as far as a view rewrites it, and the counts. -/
structure Common where
  table : List (List Nat)
  seq : List Nat
  counts : Counts

/-- One row of a view: `p` is a decode row of the step, and how many tokens it has cached. -/
def Evictor.viewRow (E : Evictor) (mode : Mode) (block_size : Nat) (s : Common) (p : Nat × Nat) :
    Except PyError Common :=
  match s.table[p.1]? with
  | none => .ok s
  | some old => do
    let (row, len, blocks) ← E.residentView mode old p.2 block_size
    if s.seq.length ≤ p.1 then .error .index
    else return ⟨s.table.set p.1 row, s.seq.set p.1 len, s.counts.note blocks p.2⟩

/-- `view` -/
def Evictor.view (E : Evictor) (mode : Mode) (plan : List (Nat × Nat)) (full : Bool) (block_size : Nat)
    (common : Common) : Except PyError Common :=
  if mode ∈ [.control, .control2] ∨ full = false ∨ plan = [] then .ok common
  else plan.foldlM (E.viewRow mode block_size) common

/-! ## Sorted sets -/

theorem mem_sortedSet {xs : List Nat} {i : Nat} : i ∈ sortedSet xs ↔ i ∈ xs :=
  (List.perm_insertionSort _ _).mem_iff.trans List.mem_dedup

theorem sortedSet_pairwise (xs : List Nat) : (sortedSet xs).Pairwise (· < ·) := by
  have hsorted : (sortedSet xs).Pairwise (· ≤ ·) := List.pairwise_insertionSort _ _
  have hnodup : (sortedSet xs).Nodup := (List.perm_insertionSort _ _).nodup_iff.mpr (List.nodup_dedup xs)
  exact (hsorted.and hnodup).imp fun h => lt_of_le_of_ne h.1 h.2

theorem length_sortedSet (xs : List Nat) : (sortedSet xs).length = xs.toFinset.card :=
  (List.perm_insertionSort _ _).length_eq

theorem mem_rangeFrom {start : Int} {stop i : Nat} : i ∈ rangeFrom start stop ↔ i < stop ∧ start ≤ i := by
  simp [rangeFrom]

/-! ## Which blocks are kept -/

/-- The arms that drop blocks. -/
def arms : List Mode := [.evict, .poison, .keep_needle, .drop_needle]

variable {E : Evictor} {mode : Mode} {n needle : Nat}

/-- How many blocks the sink takes. -/
def Evictor.sunk (E : Evictor) (n : Nat) : Nat := min E.sink (min E.budget n)

/-- The blocks of an arm that drops some, as a set: the front, and the most recent ones for what is left
of the budget. -/
def Evictor.residentSet (E : Evictor) (mode : Mode) (n : Nat) : Finset Nat :=
  (E.front mode n).toFinset ∪ Finset.Ico (n + (E.front mode n).length - min E.budget n) n

theorem toFinset_picked (E : Evictor) (mode : Mode) (n : Nat) : (E.front mode n ++
    (rangeFrom (n - ((min E.budget n : Nat) - (E.front mode n).length : Int)) n).filter
      fun i => i ∉ E.front mode n).toFinset = E.residentSet mode n := by
  ext i
  simp only [Evictor.residentSet, List.mem_toFinset, List.mem_append, List.mem_filter, mem_rangeFrom,
    decide_eq_true_eq, Finset.mem_union, Finset.mem_Ico]
  have hbudget : min E.budget n ≤ n := Nat.min_le_right _ _
  constructor
  · rintro (hfront | ⟨⟨hlt, hstart⟩, -⟩)
    · exact .inl hfront
    · exact .inr ⟨by omega, hlt⟩
  · rintro (hfront | ⟨hstart, hlt⟩)
    · exact .inl hfront
    · by_cases hfront : i ∈ E.front mode n
      · exact .inl hfront
      · exact .inr ⟨⟨hlt, by omega⟩, hfront⟩

theorem resident_eq (hmode : mode ∈ arms) : E.resident mode n = sortedSet (E.front mode n ++
    (rangeFrom (n - ((min E.budget n : Nat) - (E.front mode n).length : Int)) n).filter
      fun i => i ∉ E.front mode n) := by
  refine if_neg ?_
  revert mode
  decide

theorem mem_resident (hmode : mode ∈ arms) {i : Nat} :
    i ∈ E.resident mode n ↔ i ∈ E.residentSet mode n := by
  rw [resident_eq hmode, mem_sortedSet, ← List.mem_toFinset, toFinset_picked]

theorem length_resident (hmode : mode ∈ arms) :
    (E.resident mode n).length = (E.residentSet mode n).card := by
  rw [resident_eq hmode, length_sortedSet, toFinset_picked]

theorem resident_pairwise (hmode : mode ∈ arms) : (E.resident mode n).Pairwise (· < ·) := by
  rw [resident_eq hmode]
  exact sortedSet_pairwise _

theorem sunk_le_budget : E.sunk n ≤ min E.budget n := Nat.min_le_right _ _

/-- The needle is picked for `keep_needle` beside the sink. -/
def Evictor.Picks (E : Evictor) (mode : Mode) (n needle : Nat) : Prop :=
  mode = .keep_needle ∧ E.needle_block = some needle ∧ E.sunk n ≤ needle ∧ needle < n

theorem front_of_picks (h : E.Picks mode n needle) : E.front mode n = List.range (E.sunk n) ++ [needle] := by
  obtain ⟨rfl, hneedle, hsunk, hlt⟩ := h
  have hout : needle ∉ List.range (E.sunk n) := by
    rw [List.mem_range]
    omega
  simp only [Evictor.front, hneedle]
  exact if_pos ⟨hlt, hout⟩

theorem front_of_not_picks (h : ∀ needle, ¬ E.Picks mode n needle) : E.front mode n =
    List.range (E.sunk n) := by
  unfold Evictor.front
  split
  · next needle hneedle =>
    refine if_neg ?_
    rintro ⟨hlt, hout⟩
    have hsunk : E.sunk n ≤ needle := by
      rw [List.mem_range] at hout
      exact Nat.not_lt.mp hout
    exact h needle ⟨rfl, hneedle, hsunk, hlt⟩
  · rfl

/-- Without a needle to pick: the sink and the most recent blocks, as many as the budget. -/
theorem residentSet_of_not_picks (h : ∀ needle, ¬ E.Picks mode n needle) :
    E.residentSet mode n = Finset.range (E.sunk n) ∪ Finset.Ico (n + E.sunk n - min E.budget n) n := by
  rw [Evictor.residentSet, front_of_not_picks h, List.toFinset_range, List.length_range]

/-- A front and a back that do not overlap. -/
theorem card_range_union_Ico {a b c : Nat} (hab : a ≤ b) :
    (Finset.range a ∪ Finset.Ico b c).card = a + (c - b) := by
  have hdisjoint : Disjoint (Finset.range a) (Finset.Ico b c) := by
    rw [Finset.disjoint_left]
    intro i hi hi'
    rw [Finset.mem_range] at hi
    rw [Finset.mem_Ico] at hi'
    omega
  rw [Finset.card_union_of_disjoint hdisjoint, Finset.card_range, Nat.card_Ico]

theorem card_of_not_picks (h : ∀ needle, ¬ E.Picks mode n needle) :
    (E.residentSet mode n).card = min E.budget n := by
  have hsunk := @sunk_le_budget E n
  have hbudget : min E.budget n ≤ n := Nat.min_le_right _ _
  rw [residentSet_of_not_picks h, card_range_union_Ico (by omega)]
  omega

/-- With one: the recent blocks are one fewer. -/
theorem residentSet_of_picks (h : E.Picks mode n needle) : E.residentSet mode n =
    insert needle (Finset.range (E.sunk n) ∪ Finset.Ico (n + (E.sunk n + 1) - min E.budget n) n) := by
  rw [Evictor.residentSet, front_of_picks h, List.length_append, List.length_range, List.length_singleton,
    List.toFinset_append, List.toFinset_range, List.toFinset_cons, List.toFinset_nil, insert_empty_eq,
    Finset.insert_eq, Finset.union_right_comm, Finset.union_comm]

/-- That is as many as the budget just where the needle takes a slot of its own. -/
theorem card_of_picks_iff (h : E.Picks mode n needle) : (E.residentSet mode n).card = min E.budget n ↔
    E.sunk n < min E.budget n ∧ needle + min E.budget n ≤ n + E.sunk n := by
  have hsunk := @sunk_le_budget E n
  have hbudget : min E.budget n ≤ n := Nat.min_le_right _ _
  obtain ⟨-, -, hlow, hlt⟩ := id h
  have hcard : (Finset.range (E.sunk n) ∪ Finset.Ico (n + (E.sunk n + 1) - min E.budget n) n).card =
      E.sunk n + (n - (n + (E.sunk n + 1) - min E.budget n)) := card_range_union_Ico (by omega)
  rw [residentSet_of_picks h]
  by_cases hrecent : n + (E.sunk n + 1) - min E.budget n ≤ needle
  · -- counted twice: it is one of the recent blocks already
    have hmem : needle ∈ Finset.range (E.sunk n) ∪ Finset.Ico (n + (E.sunk n + 1) - min E.budget n) n :=
      Finset.mem_union_right _ (Finset.mem_Ico.mpr ⟨hrecent, hlt⟩)
    rw [Finset.insert_eq_of_mem hmem, hcard]
    omega
  · have hout : needle ∉ Finset.range (E.sunk n) ∪ Finset.Ico (n + (E.sunk n + 1) - min E.budget n) n := by
      rw [Finset.mem_union, Finset.mem_range, Finset.mem_Ico]
      omega
    rw [Finset.card_insert_of_notMem hout, hcard]
    omega

theorem lt_of_mem_residentSet {i : Nat} (hi : i ∈ E.residentSet mode n) : i < n := by
  by_cases h : ∃ needle, E.Picks mode n needle
  · obtain ⟨needle, hpicks⟩ := h
    rw [residentSet_of_picks hpicks, Finset.mem_insert, Finset.mem_union, Finset.mem_range,
      Finset.mem_Ico] at hi
    have hsunk := @sunk_le_budget E n
    obtain ⟨-, -, -, hlt⟩ := hpicks
    omega
  · rw [residentSet_of_not_picks (not_exists.mp h), Finset.mem_union, Finset.mem_range, Finset.mem_Ico] at hi
    have hsunk := @sunk_le_budget E n
    omega

/-! ## What a kernel reads -/

variable {old : List Nat} {computed block_size : Nat}

/-- The keys of the blocks that are kept, and of the tail block up to this step's own. -/
def residentKeys (old keep : List Nat) (computed block_size : Nat) : List (Nat × Nat) :=
  keep.flatMap (fun i => blockKeys block_size (old.getD i default)) ++
    blockKeys (computed % block_size + 1) (old.getD (computed / block_size) default)

theorem length_behind {keep : List Nat} (h : keep.length < old.length) :
    (behind mode old keep).length + (keep.length + 1) = old.length := by
  unfold behind
  split_ifs
  · rw [List.length_replicate]
    omega
  · rw [List.length_drop]
    omega

theorem rewriteRow_ok {keep : List Nat} {n_full : Nat} (hin : ∀ i ∈ keep, i < old.length)
    (hrow : n_full < old.length) (hlen : keep.length < old.length) : rewriteRow mode old keep n_full =
      .ok ((keep.map fun i => old.getD i default) ++ old.getD n_full default :: behind mode old keep) := by
  rw [rewriteRow, gather_ok hin, entry_ok hrow]
  exact if_neg (Nat.not_le.mpr hlen)

/-- What a kernel reads from a row that begins with some blocks of the old one and the tail. -/
theorem keys_rewritten {keep behind : List Nat} (hpos : 0 < block_size) :
    keys block_size ((keep.map fun i => old.getD i default) ++
        old.getD (computed / block_size) default :: behind)
      (keep.length * block_size + (computed % block_size + 1)) =
      residentKeys old keep computed block_size := by
  have htail := Nat.mod_lt computed hpos
  have hkept : (keep.map fun i => old.getD i default).length = keep.length := List.length_map _
  rw [keys_take (by rw [List.length_append, hkept]; omega) htail, ← hkept, List.take_left, hkept,
    List.getD_append_right _ _ _ _ hkept.le, hkept, Nat.sub_self, List.flatMap_map, residentKeys]
  rfl

theorem length_resident_le (hmode : mode ∈ arms) : (E.resident mode n).length ≤ n := by
  have hsub : E.residentSet mode n ⊆ Finset.range n := fun i hi =>
    Finset.mem_range.mpr (lt_of_mem_residentSet hi)
  rw [length_resident hmode]
  exact (Finset.card_le_card hsub).trans_eq (Finset.card_range n)

/-- The row is rewritten, its length follows from the number of blocks. -/
theorem residentView_of_rewriteRow {row : List Nat} (hpos : 0 < block_size) (hseq : mode ≠ .seqonly)
    (hlength : mode ≠ .rowonly) (hrewrite : rewriteRow mode old (E.resident mode (computed / block_size))
      (computed / block_size) = .ok row) : E.residentView mode old computed block_size =
      .ok (row, (E.resident mode (computed / block_size)).length * block_size + (computed % block_size + 1),
        (E.resident mode (computed / block_size)).length + 1) := by
  rw [Evictor.residentView, if_neg hpos.ne', if_neg hseq, hrewrite]
  show Except.ok (row, if mode = .rowonly then _ else _, _) = _
  rw [if_neg hlength]

/-- An arm that drops blocks rewrites the row, and its length to match. -/
theorem residentView_arm (hmode : mode ∈ arms) (hpos : 0 < block_size)
    (hrow : computed / block_size < old.length) : E.residentView mode old computed block_size =
      .ok (((E.resident mode (computed / block_size)).map fun i => old.getD i default) ++
          old.getD (computed / block_size) default ::
            behind mode old (E.resident mode (computed / block_size)),
        (E.resident mode (computed / block_size)).length * block_size + (computed % block_size + 1),
        (E.resident mode (computed / block_size)).length + 1) := by
  have hseq : mode ≠ .seqonly := by
    rintro rfl
    exact absurd hmode (by decide)
  have hlength : mode ≠ .rowonly := by
    rintro rfl
    exact absurd hmode (by decide)
  have hin : ∀ i ∈ E.resident mode (computed / block_size), i < old.length := fun i hi =>
    (lt_of_mem_residentSet ((mem_resident hmode).mp hi)).trans hrow
  have hlen := (@length_resident_le E _ (computed / block_size) hmode).trans_lt hrow
  exact residentView_of_rewriteRow hpos hseq hlength (rewriteRow_ok hin hrow hlen)

/-- Every block resident: the row and its length stay as they are. -/
theorem residentView_viewfull (hpos : 0 < block_size) (hrow : computed / block_size < old.length) :
    E.residentView .viewfull old computed block_size =
      .ok (old, computed + 1, computed / block_size + 1) := by
  have hkeep : E.resident .viewfull (computed / block_size) = List.range (computed / block_size) :=
    if_pos (by decide)
  have hin : ∀ i ∈ List.range (computed / block_size), i < old.length := fun i hi =>
    (List.mem_range.mp hi).trans hrow
  have hrewrite := @rewriteRow_ok .viewfull old _ _ hin hrow (by rwa [List.length_range])
  have hrow' : ((List.range (computed / block_size)).map fun i => old.getD i default) ++
      old.getD (computed / block_size) default ::
        behind .viewfull old (List.range (computed / block_size)) = old := by
    have htake := tabulate_take hrow.le
    have hbehind : behind .viewfull old (List.range (computed / block_size)) =
        old.drop (computed / block_size + 1) := by
      rw [behind, if_neg (by simp), List.length_range]
    rw [tabulate] at htake
    rw [htake, hbehind, List.getD_eq_getElem _ _ hrow, List.getElem_cons_drop, List.take_append_drop]
  have hseq : computed / block_size * block_size + (computed % block_size + 1) = computed + 1 := by
    rw [← Nat.add_assoc, Nat.mul_comm, Nat.div_add_mod]
  rw [hrow', ← hkeep] at hrewrite
  rw [residentView_of_rewriteRow hpos (by decide) (by decide) hrewrite, hkeep, List.length_range, hseq]

/-! ## A batch -/

/-- A round of the view: its row and its length are what `_row` makes of them, and no others change. -/
theorem viewRow_ok {s : Common} {p : Nat × Nat} {row : List Nat} {len blocks : Nat}
    (hold : s.table[p.1]? = some old) (hseq : p.1 < s.seq.length)
    (hview : E.residentView mode old p.2 block_size = .ok (row, len, blocks)) :
    E.viewRow mode block_size s p =
      .ok ⟨s.table.set p.1 row, s.seq.set p.1 len, s.counts.note blocks p.2⟩ := by
  rw [Evictor.viewRow, hold]
  dsimp only
  rw [hview]
  exact if_neg (Nat.not_le.mpr hseq)

/-- The decode rows are what `_row` makes of them, and the others as they were. -/
structure Viewed (E : Evictor) (mode : Mode) (block_size : Nat) (plan : List (Nat × Nat)) (s s' : Common) :
    Prop where
  others : ∀ b, b ∉ plan.map Prod.fst → s'.table[b]? = s.table[b]? ∧ s'.seq[b]? = s.seq[b]?
  rows : ∀ p ∈ plan, ∃ old row len blocks, s.table[p.1]? = some old ∧
    E.residentView mode old p.2 block_size = .ok (row, len, blocks) ∧
    s'.table[p.1]? = some row ∧ s'.seq[p.1]? = some len

theorem foldlM_viewRow {plan : List (Nat × Nat)} {s : Common} (hplan : (plan.map Prod.fst).Nodup)
    (hseq : s.table.length = s.seq.length)
    (hrows : ∀ p ∈ plan, ∃ old row len blocks, s.table[p.1]? = some old ∧
      E.residentView mode old p.2 block_size = .ok (row, len, blocks)) :
    ∃ s', plan.foldlM (E.viewRow mode block_size) s = .ok s' ∧ Viewed E mode block_size plan s s' := by
  induction plan generalizing s with
  | nil => exact ⟨s, rfl, fun _ _ => ⟨rfl, rfl⟩, fun _ h => nomatch h⟩
  | cons p plan ih =>
    rw [List.map_cons, List.nodup_cons] at hplan
    obtain ⟨old, row, len, blocks, hold, hview⟩ := hrows p List.mem_cons_self
    have hin : p.1 < s.table.length := (List.getElem?_eq_some_iff.mp hold).1
    have hround := viewRow_ok hold (by omega) hview
    have hne : ∀ b ∈ plan.map Prod.fst, p.1 ≠ b := fun b hb heq => hplan.1 (heq ▸ hb)
    obtain ⟨s', hfold, ⟨hother, hself⟩⟩ := @ih
      ⟨s.table.set p.1 row, s.seq.set p.1 len, s.counts.note blocks p.2⟩ hplan.2
      (by rw [List.length_set, List.length_set, hseq]) (by
        intro q hq
        obtain ⟨old', row', len', blocks', hold', hview'⟩ := hrows q (List.mem_cons_of_mem p hq)
        refine ⟨old', row', len', blocks', ?_, hview'⟩
        rw [List.getElem?_set_ne (hne q.1 (List.mem_map_of_mem hq)), hold'])
    refine ⟨s', ?_, fun b hb => ?_, fun q hq => ?_⟩
    · rw [List.foldlM_cons, hround]
      exact hfold
    · rw [List.map_cons, List.mem_cons, not_or] at hb
      obtain ⟨htable, hlens⟩ := hother b hb.2
      rw [htable, hlens, List.getElem?_set_ne (Ne.symm hb.1), List.getElem?_set_ne (Ne.symm hb.1)]
      exact ⟨rfl, rfl⟩
    · rcases List.mem_cons.mp hq with rfl | hq
      · obtain ⟨htable, hlens⟩ := hother q.1 hplan.1
        refine ⟨old, row, len, blocks, hold, hview, ?_, ?_⟩
        · rw [htable, List.getElem?_set_self hin]
        · rw [hlens, List.getElem?_set_self (by omega)]
      · obtain ⟨old', row', len', blocks', hold', hview', hnew⟩ := hself q hq
        rw [List.getElem?_set_ne (hne q.1 (List.mem_map_of_mem hq))] at hold'
        exact ⟨old', row', len', blocks', hold', hview', hnew⟩

/-- A view of a batch is made row by row. -/
theorem view_rows {plan : List (Nat × Nat)} {s : Common} (hmode : mode ∉ [.control, .control2])
    (hplan : (plan.map Prod.fst).Nodup) (hseq : s.table.length = s.seq.length)
    (hrows : ∀ p ∈ plan, ∃ old row len blocks, s.table[p.1]? = some old ∧
      E.residentView mode old p.2 block_size = .ok (row, len, blocks)) :
    ∃ s', E.view mode plan true block_size s = .ok s' ∧ Viewed E mode block_size plan s s' := by
  obtain ⟨s', hfold, hviewed⟩ := foldlM_viewRow hplan hseq hrows
  refine ⟨s', ?_, hviewed⟩
  by_cases hnone : plan = []
  · subst hnone
    rw [Evictor.view, if_pos (.inr (.inr rfl))]
    exact hfold
  · rw [Evictor.view, if_neg (by simp [hmode, hnone])]
    exact hfold

/-! ## The arms -/

/-- What the arms are to show, for one row: how many blocks each keeps and what a kernel then reads, that
the full view changes nothing and the poison is out of reach, and that the needle is what the two needle
arms differ in. -/
structure ResidencyRight (E : Evictor) (old : List Nat) (computed block_size : Nat) : Prop where
  resident : ∀ mode ∈ arms, (E.resident mode (computed / block_size)).Pairwise (· < ·) ∧
    (∀ i ∈ E.resident mode (computed / block_size), i < computed / block_size) ∧
    (E.resident mode (computed / block_size)).length = min E.budget (computed / block_size)
  reads : ∀ mode ∈ arms, ∃ row seq blocks,
    E.residentView mode old computed block_size = .ok (row, seq, blocks) ∧
    blocksRead block_size seq = (E.resident mode (computed / block_size)).length + 1 ∧
    keys block_size row seq =
      residentKeys old (E.resident mode (computed / block_size)) computed block_size
  viewfull : ∃ blocks, E.residentView .viewfull old computed block_size = .ok (old, computed + 1, blocks)
  poison : ∃ row poisoned seq blocks,
    E.residentView .evict old computed block_size = .ok (row, seq, blocks) ∧
    E.residentView .poison old computed block_size = .ok (poisoned, seq, blocks) ∧
    poisoned.length = row.length ∧ ∀ i < blocksRead block_size seq, poisoned[i]? = row[i]?
  needle : ∀ needle, E.needle_block = some needle → needle < computed / block_size →
    needle ∈ E.resident .keep_needle (computed / block_size) ∧
    needle ∉ E.resident .drop_needle (computed / block_size) ∧
    ∃! i, i ≠ needle ∧ ¬ (i ∈ E.resident .keep_needle (computed / block_size) ↔
      i ∈ E.resident .drop_needle (computed / block_size))

/-- The needle's block, where it is full, lies behind the sink and before the most recent blocks, and the
sink leaves some of the budget. -/
def Evictor.NeedleApart (E : Evictor) (n : Nat) : Prop :=
  ∀ needle, E.needle_block = some needle → needle < n →
    E.sunk n < min E.budget n ∧ E.sunk n ≤ needle ∧ needle + (min E.budget n - E.sunk n) < n

theorem not_picks_of_ne (hmode : mode ≠ .keep_needle) : ∀ needle, ¬ E.Picks mode n needle :=
  fun _ h => hmode h.1

theorem mem_resident_drop {i : Nat} : i ∈ E.resident .drop_needle n ↔
    i < E.sunk n ∨ n + E.sunk n - min E.budget n ≤ i ∧ i < n := by
  rw [mem_resident (by decide), residentSet_of_not_picks (not_picks_of_ne (by decide)), Finset.mem_union,
    Finset.mem_range, Finset.mem_Ico]

theorem mem_resident_keep (h : E.Picks .keep_needle n needle) {i : Nat} : i ∈ E.resident .keep_needle n ↔
    i = needle ∨ i < E.sunk n ∨ n + (E.sunk n + 1) - min E.budget n ≤ i ∧ i < n := by
  rw [mem_resident (by decide), residentSet_of_picks h, Finset.mem_insert, Finset.mem_union,
    Finset.mem_range, Finset.mem_Ico]

/-- Each arm keeps as many blocks as the budget. -/
theorem length_resident_of_apart (hapart : E.NeedleApart n) (hmode : mode ∈ arms) :
    (E.resident mode n).length = min E.budget n := by
  rw [length_resident hmode]
  by_cases h : ∃ needle, E.Picks mode n needle
  · obtain ⟨needle, hpicks⟩ := h
    obtain ⟨-, hneedle, -, hlt⟩ := id hpicks
    obtain ⟨hsunk, -, hbefore⟩ := hapart needle hneedle hlt
    refine (card_of_picks_iff hpicks).mpr ⟨hsunk, ?_⟩
    omega
  · exact card_of_not_picks (not_exists.mp h)

/-- The two needle arms differ in the needle, and in the oldest of the recent blocks. -/
theorem needle_arms_of_apart (hapart : E.NeedleApart n) (hneedle : E.needle_block = some needle)
    (hlt : needle < n) : needle ∈ E.resident .keep_needle n ∧ needle ∉ E.resident .drop_needle n ∧
      ∃! i, i ≠ needle ∧ ¬ (i ∈ E.resident .keep_needle n ↔ i ∈ E.resident .drop_needle n) := by
  obtain ⟨hsunk, hlow, hbefore⟩ := hapart needle hneedle hlt
  have hbudget : min E.budget n ≤ n := Nat.min_le_right _ _
  have hpicks : E.Picks .keep_needle n needle := ⟨rfl, hneedle, hlow, hlt⟩
  refine ⟨(mem_resident_keep hpicks).mpr (.inl rfl), ?_, n + E.sunk n - min E.budget n, ⟨?_, ?_⟩, ?_⟩
  · rw [mem_resident_drop]
    omega
  · omega
  · rw [mem_resident_keep hpicks, mem_resident_drop]
    omega
  · rintro i ⟨hne, hdiffer⟩
    rw [mem_resident_keep hpicks, mem_resident_drop] at hdiffer
    omega

/-- An arm that drops blocks shows a kernel the keys that it keeps, and the tail's. -/
theorem reads_arm (hmode : mode ∈ arms) (hpos : 0 < block_size) (hrow : computed / block_size < old.length) :
    ∃ row seq blocks, E.residentView mode old computed block_size = .ok (row, seq, blocks) ∧
      blocksRead block_size seq = (E.resident mode (computed / block_size)).length + 1 ∧
      keys block_size row seq =
        residentKeys old (E.resident mode (computed / block_size)) computed block_size := by
  refine ⟨_, _, _, residentView_arm hmode hpos hrow, ?_, keys_rewritten hpos⟩
  exact blocksRead_add (Nat.succ_pos _) (Nat.mod_lt computed hpos)

/-- The poison is behind what a kernel reads. -/
theorem poison_unread (hpos : 0 < block_size) (hrow : computed / block_size < old.length) :
    ∃ row poisoned seq blocks,
      E.residentView .evict old computed block_size = .ok (row, seq, blocks) ∧
      E.residentView .poison old computed block_size = .ok (poisoned, seq, blocks) ∧
      poisoned.length = row.length ∧ ∀ i < blocksRead block_size seq, poisoned[i]? = row[i]? := by
  have hsame : E.resident .poison (computed / block_size) = E.resident .evict (computed / block_size) := rfl
  have hlen := (@length_resident_le E _ (computed / block_size) (show .evict ∈ arms by decide)).trans_lt hrow
  have hpoison := @residentView_arm E .poison old computed block_size (by decide) hpos hrow
  rw [hsame] at hpoison
  refine ⟨_, _, _, _, residentView_arm (by decide) hpos hrow, hpoison, ?_, fun i hi => ?_⟩
  · have hbehind := @length_behind .evict old _ hlen
    have hbehind' := @length_behind .poison old _ hlen
    rw [List.length_append, List.length_append, List.length_cons, List.length_cons]
    omega
  · rw [blocksRead_add (Nat.succ_pos _) (Nat.mod_lt computed hpos)] at hi
    have hfront : ∀ rest, (((E.resident .evict (computed / block_size)).map fun i => old.getD i default) ++
        old.getD (computed / block_size) default :: rest)[i]? =
        (((E.resident .evict (computed / block_size)).map fun i => old.getD i default) ++
          [old.getD (computed / block_size) default])[i]? := by
      intro rest
      rw [List.append_cons, List.getElem?_append_left]
      rwa [List.length_append, List.length_map]
    exact (hfront _).trans (hfront _).symm

/-- **When the arms show what they are to show.** -/
theorem residency_iff (hpos : 0 < block_size) (hrow : computed / block_size < old.length) :
    ResidencyRight E old computed block_size ↔ E.NeedleApart (computed / block_size) := by
  constructor
  · intro h needle hneedle hlt
    obtain ⟨-, hdropped, -⟩ := h.needle needle hneedle hlt
    rw [mem_resident_drop] at hdropped
    have hpicks : E.Picks .keep_needle (computed / block_size) needle := ⟨rfl, hneedle, by omega, hlt⟩
    obtain ⟨-, -, hcount⟩ := h.resident .keep_needle (by decide)
    rw [length_resident (by decide), card_of_picks_iff hpicks] at hcount
    omega
  · intro hapart
    constructor
    case resident =>
      intro mode hmode
      refine ⟨resident_pairwise hmode, fun i hi => ?_, length_resident_of_apart hapart hmode⟩
      exact lt_of_mem_residentSet ((mem_resident hmode).mp hi)
    case reads => exact fun mode hmode => reads_arm hmode hpos hrow
    case viewfull => exact ⟨_, residentView_viewfull hpos hrow⟩
    case poison => exact poison_unread hpos hrow
    case needle => exact fun needle => needle_arms_of_apart hapart

/-- Four blocks of a budget of two behind a sink of one, with the needle in the second block. -/
theorem residency_needle : ResidencyRight ⟨2, 1, some 1⟩ [10, 11, 12, 13, 14] 18 4 := by
  refine (residency_iff (by decide) (by decide)).mpr fun needle hneedle _ => ?_
  obtain rfl := Option.some.inj hneedle
  decide

/-- Where the sink takes the whole budget, `keep_needle` keeps a block more. -/
theorem keep_needle_over_budget : (⟨2, 2, some 3⟩ : Evictor).resident .keep_needle 5 = [0, 1, 3] ∧
    ¬ ResidencyRight ⟨2, 2, some 3⟩ [10, 11, 12, 13, 14, 15] 20 4 := by
  have hkept : (⟨2, 2, some 3⟩ : Evictor).resident .keep_needle 5 = [0, 1, 3] := by decide
  refine ⟨hkept, fun h => ?_⟩
  obtain ⟨-, -, hcount⟩ := h.resident .keep_needle (by decide)
  exact absurd hcount (by decide)

end VllmExl3.Tools.Evict
