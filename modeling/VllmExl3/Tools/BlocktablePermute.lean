/-
# VllmExl3.Tools.BlocktablePermute — block tables rewritten between steps (`tools/blocktable_permute.py`)

Before each decode step `Permuter` rewrites the persistent block table: `permute` rearranges the blocks
that are full, `identity` writes them back as they were, and `tailswap` exchanges a full block with the
partial one. The engine then computes the slot of the new token from the same row, and the kernel reads
the row. `Cached` relates the row, the number of cached tokens and the memory, and holds along every run
of `identity` and `permute` (`permute_conserves`); the first real `tailswap` breaks it by writing over a key.
-/
import VllmExl3.Format
import VllmExl3.Lib.Except
import VllmExl3.Lib.Paged
import VllmExl3.Lib.Reach
import Mathlib.Data.List.Sort
import Mathlib.Logic.Function.Basic

namespace VllmExl3.Tools.Permute

open Paged

/-! ## The code -/

/-- `xs[i]` -/
def entry (xs : List Nat) (i : Nat) : Except PyError Nat :=
  match xs[i]? with
  | none => .error .index
  | some block => .ok block

/-- `xs[idx]` -/
def gather (xs : List Nat) (idx : List Nat) : Except PyError (List Nat) := idx.mapM (entry xs)

/-- What the generator draws in one step: `permutation(n)` and `integers(n)`. -/
structure Rng where
  permutation : Nat → List Nat
  integers : Nat → Nat
  permutation_perm : ∀ n, (permutation n).Perm (List.range n)
  integers_lt : ∀ n, 0 < n → integers n < n

/-- The arms. -/
inductive Mode where
  | control | control2 | identity | permute | tailswap
  deriving DecidableEq, Repr

/-- An arm as it is written. -/
def Mode.name : Mode → String
  | .control => "control"
  | .control2 => "control2"
  | .identity => "identity"
  | .permute => "permute"
  | .tailswap => "tailswap"

/-- The hook's state. -/
structure Permuter where
  mode : Mode
  all_groups : Bool
  rows : Nat
  touched : Nat
  blocks_max : Nat
  skipped_groups : Nat
  checked : Bool
  decode_steps : Nat
  deriving DecidableEq

/-- `reset` -/
def Permuter.reset (P : Permuter) (mode : Mode) : Permuter := ⟨mode, P.all_groups, 0, 0, 0, 0, false, 0⟩

/-- `row[idx] = row[idx.flip(0)]` for two indices. -/
def exchange (row : List Nat) (i j : Nat) : Except PyError (List Nat) := do
  let at_i ← entry row i
  let at_j ← entry row j
  return (row.set i at_j).set j at_i

/-- What is counted of a row that was rewritten. -/
def Permuter.count (P : Permuter) (n_full : Nat) : Permuter :=
  { P with touched := P.touched + 1, blocks_max := max P.blocks_max n_full }

/-- `_rewrite` -/
def Permuter.rewrite (P : Permuter) (rng : Rng) (row : List Nat) (n_full : Nat) (has_tail : Bool) :
    Except PyError (Permuter × List Nat) :=
  match P.mode with
  | .identity =>
    if n_full < 2 then .ok (P, row)
    else do
      let front ← gather (row.take n_full) (List.range n_full)
      return (P.count n_full, front ++ row.drop n_full)
  | .permute =>
    if n_full < 2 then .ok (P, row)
    else do
      let front ← gather (row.take n_full) (rng.permutation n_full)
      if P.checked = false ∧ (row.take n_full).insertionSort (· ≤ ·) ≠ front.insertionSort (· ≤ ·) then
        .error (.assertion "the rewrite lost or duplicated a block")
      else return ({ P with checked := true }.count n_full, front ++ row.drop n_full)
  | .tailswap =>
    if n_full < 1 ∨ has_tail = false then .ok (P, row)
    else do
      let row ← exchange row (rng.integers n_full) n_full
      return ({ P with checked := true }.count n_full, row)
  | mode => .error (.value mode.name)

/-- One row of `apply`: a decoding request in one cache group, `full` where that group's attention is. -/
def Permuter.applyRow (P : Permuter) (rng : Rng) (full : Bool) (block_size computed : Nat)
    (row : List Nat) : Except PyError (Permuter × List Nat) :=
  let P := { P with rows := P.rows + 1 }
  if P.all_groups = false ∧ full = false then .ok ({ P with skipped_groups := P.skipped_groups + 1 }, row)
  else if block_size = 0 then .error .zeroDivision
  else P.rewrite rng row (computed / block_size) (decide (computed % block_size ≠ 0))

/-- A cache group: whether its attention is full, its block size, and its persistent rows. -/
structure Group where
  full : Bool
  kernel_block_size : Nat
  table : List (List Nat)

/-- A request of a batch: how many tokens are scheduled for it, its row, and how many tokens it has cached. -/
structure Scheduled where
  tokens : Nat
  req_idx : Nat
  computed : Nat

/-- The groups of one request. -/
def Permuter.applyGroups (P : Permuter) (draws : Nat → Rng) (r : Scheduled) :
    List Group → Except PyError (Permuter × List Group)
  | [] => .ok (P, [])
  | g :: groups =>
    match g.table[r.req_idx]? with
    | none => .error .index
    | some row => do
      let (P, row) ← P.applyRow (draws groups.length) g.full g.kernel_block_size r.computed row
      let (P, groups) ← P.applyGroups draws r groups
      return (P, { g with table := g.table.set r.req_idx row } :: groups)

/-- The requests of a batch: only those with one token are decoding. -/
def Permuter.applyRequests (P : Permuter) (draws : Nat → Nat → Rng) :
    List Scheduled → List Group → Except PyError (Permuter × List Group)
  | [], groups => .ok (P, groups)
  | r :: batch, groups =>
    if r.tokens ≠ 1 then P.applyRequests draws batch groups
    else do
      let (P, groups) ← P.applyGroups (draws batch.length) r groups
      P.applyRequests draws batch groups

/-- `apply` -/
def Permuter.apply (P : Permuter) (draws : Nat → Nat → Rng) (batch : List Scheduled)
    (groups : List Group) : Except PyError (Permuter × List Group) :=
  let P := if batch.any fun r => r.tokens = 1 then { P with decode_steps := P.decode_steps + 1 } else P
  if P.mode = .control ∨ P.mode = .control2 then .ok (P, groups)
  else P.applyRequests draws batch groups

/-! ## A request being decoded -/

/-- A request in one cache group: its row, how many blocks the engine has appended to it, how many of its
tokens are cached, and which of them is in which slot (a block and an offset). -/
structure State where
  permuter : Permuter
  row : List Nat
  num_blocks : Nat
  computed : Nat
  memory : Nat × Nat → Option Nat

/-- What is not the hook's in a step: the block id that the scheduler has ready, and the draws. -/
structure Input where
  fresh : Nat
  rng : Rng

/-- The scheduler appends a block at index `num_blocks` when the row is full. -/
def State.append (s : State) (block_size fresh : Nat) : State :=
  if s.num_blocks * block_size ≤ s.computed then
    { s with row := s.row.take s.num_blocks ++ fresh :: s.row.drop (s.num_blocks + 1),
             num_blocks := s.num_blocks + 1 }
  else s

/-- The new token in its slot, which the slot mapping takes from the row. -/
def State.settle (s : State) (block_size : Nat) (P : Permuter) (row : List Nat) : State :=
  { s with permuter := P, row := row, computed := s.computed + 1,
           memory := Function.update s.memory (keyAt block_size row s.computed) (some s.computed) }

/-- A decode step: the append, the hook, and the new token written to its slot. -/
def State.decode (s : State) (full : Bool) (block_size : Nat) (i : Input) : Except PyError State := do
  let s := s.append block_size i.fresh
  let (P, row) ← s.permuter.applyRow i.rng full block_size s.computed s.row
  return s.settle block_size P row

/-! ## Rows -/

theorem forall₂_trans {α β γ : Type*} {R : α → β → Prop} {S : β → γ → Prop} {T : α → γ → Prop}
    {xs : List α} {ys : List β} {zs : List γ} (hxy : List.Forall₂ R xs ys) (hyz : List.Forall₂ S ys zs)
    (h : ∀ a b c, R a b → S b c → T a c) : List.Forall₂ T xs zs := by
  induction hxy generalizing zs with
  | nil =>
    cases hyz
    exact .nil
  | cons hab _ ih =>
    cases hyz with
    | cons hbc hrest => exact .cons (h _ _ _ hab hbc) (ih hrest)

variable {P : Permuter} {rng : Rng} {row front : List Nat} {n_full block_size computed : Nat} {full : Bool}

theorem entry_ok {xs : List Nat} {i : Nat} (hi : i < xs.length) : entry xs i = .ok (xs.getD i default) := by
  rw [entry, List.getElem?_eq_getElem hi, List.getD_eq_getElem _ _ hi]

theorem gather_ok {xs idx : List Nat} (h : ∀ i ∈ idx, i < xs.length) :
    gather xs idx = .ok (idx.map fun i => xs.getD i default) :=
  mapM_ok fun i hi => entry_ok (h i hi)

/-- A list gathered in some order is that list in another order. -/
theorem gather_perm {xs idx : List Nat} (h : idx.Perm (List.range xs.length)) :
    ∃ ys, gather xs idx = .ok ys ∧ ys.Perm xs := by
  refine ⟨_, gather_ok fun i hi => List.mem_range.mp (h.mem_iff.mp hi), ?_⟩
  conv_rhs => rw [← tabulate_getD default (@rfl _ xs.length)]
  exact h.map _

/-- What is rearranged among the full blocks and put back is a rearrangement of the row. -/
theorem rearranged_append (hn : n_full ≤ row.length) (hperm : front.Perm (row.take n_full)) :
    Rearranged n_full row (front ++ row.drop n_full) := by
  have hlen : front.length = n_full := by
    rw [hperm.length_eq]
    exact List.length_take_of_le hn
  constructor
  · rw [List.take_left' hlen]
    exact hperm
  · exact List.drop_left' hlen

theorem insertionSort_eq {xs ys : List Nat} (h : xs.Perm ys) :
    xs.insertionSort (· ≤ ·) = ys.insertionSort (· ≤ ·) := by
  apply List.Perm.eq_of_pairwise' (r := (· ≤ ·))
  · exact List.pairwise_insertionSort _ _
  · exact List.pairwise_insertionSort _ _
  · exact ((List.perm_insertionSort _ _).trans h).trans (List.perm_insertionSort _ _).symm

/-- An arm that does no harm here: one that rearranges, or `tailswap` without a full block and a partial
tail. -/
def Permuter.Harmless (P : Permuter) (n_full : Nat) (has_tail : Bool) : Prop :=
  P.mode = .identity ∨ P.mode = .permute ∨ P.mode = .tailswap ∧ (n_full < 1 ∨ has_tail = false)

/-- A rewrite that does no harm rearranges the full blocks, and its assertion holds. -/
theorem rewrite_rearranged {has_tail : Bool} (h : P.Harmless n_full has_tail) (hn : n_full ≤ row.length) :
    ∃ P' row', P.rewrite rng row n_full has_tail = .ok (P', row') ∧ P'.mode = P.mode ∧
      Rearranged n_full row row' := by
  have hlen : (row.take n_full).length = n_full := List.length_take_of_le hn
  rcases h with hmode | hmode | ⟨hmode, hquiet⟩
  · simp only [Permuter.rewrite, hmode]
    by_cases hsmall : n_full < 2
    · exact ⟨P, row, if_pos hsmall, hmode, .refl _ _⟩
    · obtain ⟨front, hgather, hperm⟩ := @gather_perm (row.take n_full) (List.range n_full) (by rw [hlen])
      refine ⟨P.count n_full, front ++ row.drop n_full, ?_, hmode, rearranged_append hn hperm⟩
      rw [if_neg hsmall, hgather]
      rfl
  · simp only [Permuter.rewrite, hmode]
    by_cases hsmall : n_full < 2
    · exact ⟨P, row, if_pos hsmall, hmode, .refl _ _⟩
    · obtain ⟨front, hgather, hperm⟩ := @gather_perm (row.take n_full) (rng.permutation n_full)
        (by rw [hlen]; exact rng.permutation_perm n_full)
      have hkept : ¬ (P.checked = false ∧ (row.take n_full).insertionSort (· ≤ ·) ≠
          front.insertionSort (· ≤ ·)) := fun hlost => hlost.2 (insertionSort_eq hperm.symm)
      refine ⟨{ P with mode := .permute, checked := true }.count n_full, front ++ row.drop n_full, ?_, rfl,
        rearranged_append hn hperm⟩
      rw [if_neg hsmall, hgather]
      exact if_neg hkept
  · simp only [Permuter.rewrite, hmode]
    exact ⟨P, row, if_pos hquiet, hmode, .refl _ _⟩

theorem applyRow_rearranged (hpos : 0 < block_size) (hn : computed / block_size ≤ row.length)
    (h : P.Harmless (computed / block_size) (decide (computed % block_size ≠ 0))) :
    ∃ P' row', P.applyRow rng full block_size computed row = .ok (P', row') ∧ P'.mode = P.mode ∧
      Rearranged (computed / block_size) row row' := by
  unfold Permuter.applyRow
  dsimp only
  by_cases hskip : P.all_groups = false ∧ full = false
  · refine ⟨_, row, if_pos hskip, rfl, .refl _ _⟩
  · rw [if_neg hskip, if_neg hpos.ne']
    exact @rewrite_rearranged { P with rows := P.rows + 1 } rng row _ _ h hn

/-! ## A batch -/

/-- A rewrite counts, and leaves the arm as it is. -/
theorem rewrite_arm {P' : Permuter} {row' : List Nat} {has_tail : Bool}
    (h : P.rewrite rng row n_full has_tail = .ok (P', row')) :
    P'.mode = P.mode ∧ P'.all_groups = P.all_groups := by
  unfold Permuter.rewrite at h
  split at h
  · split_ifs at h
    · cases h
      exact ⟨rfl, rfl⟩
    · obtain ⟨front, -, h⟩ := bind_eq_ok h
      cases h
      exact ⟨rfl, rfl⟩
  · split_ifs at h
    · cases h
      exact ⟨rfl, rfl⟩
    · obtain ⟨front, -, h⟩ := bind_eq_ok h
      split_ifs at h
      cases h
      exact ⟨rfl, rfl⟩
  · split_ifs at h
    · cases h
      exact ⟨rfl, rfl⟩
    · obtain ⟨swapped, -, h⟩ := bind_eq_ok h
      cases h
      exact ⟨rfl, rfl⟩
  · cases h

theorem applyRow_arm {P' : Permuter} {row' : List Nat}
    (h : P.applyRow rng full block_size computed row = .ok (P', row')) :
    P'.mode = P.mode ∧ P'.all_groups = P.all_groups := by
  unfold Permuter.applyRow at h
  dsimp only at h
  split_ifs at h
  · cases h
    exact ⟨rfl, rfl⟩
  · exact @rewrite_arm { P with rows := P.rows + 1 } _ _ _ _ _ _ h

/-- In an arm like `P`'s, the hook makes of the row of a request what `applyRow` makes of it. -/
def RowRewritten (P : Permuter) (r : Scheduled) (g g' : Group) : Prop :=
  ∃ (P₁ P₂ : Permuter) (rng : Rng) (row row' : List Nat),
    P₁.mode = P.mode ∧ P₁.all_groups = P.all_groups ∧ g.table[r.req_idx]? = some row ∧
    P₁.applyRow rng g.full g.kernel_block_size r.computed row = .ok (P₂, row') ∧
    g'.table[r.req_idx]? = some row'

/-- In a group, the row of a request is rewritten, and the other rows are as they were. -/
structure Applied (P : Permuter) (r : Scheduled) (g g' : Group) : Prop where
  full : g'.full = g.full
  size : g'.kernel_block_size = g.kernel_block_size
  row : RowRewritten P r g g'
  others : ∀ idx, idx ≠ r.req_idx → g'.table[idx]? = g.table[idx]?

/-- Every group of a request is rewritten in its own row. -/
theorem applyGroups_applied {P' : Permuter} {draws : Nat → Rng} {r : Scheduled} {groups groups' : List Group}
    (h : P.applyGroups draws r groups = .ok (P', groups')) :
    (P'.mode = P.mode ∧ P'.all_groups = P.all_groups) ∧ List.Forall₂ (Applied P r) groups groups' := by
  induction groups generalizing P groups' with
  | nil =>
    cases h
    exact ⟨⟨rfl, rfl⟩, .nil⟩
  | cons g groups ih =>
    rw [Permuter.applyGroups] at h
    cases hrow : g.table[r.req_idx]? with
    | none =>
      rw [hrow] at h
      cases h
    | some row =>
      rw [hrow] at h
      obtain ⟨⟨P₁, row'⟩, happly, h⟩ := bind_eq_ok h
      obtain ⟨⟨P₂, later⟩, hlater, h⟩ := bind_eq_ok h
      cases h
      have harm := applyRow_arm happly
      obtain ⟨harm', happlied⟩ := ih hlater
      have hin : r.req_idx < g.table.length := (List.getElem?_eq_some_iff.mp hrow).1
      refine ⟨⟨harm'.1.trans harm.1, harm'.2.trans harm.2⟩, .cons ?_ (happlied.imp fun g g' ha => ?_)⟩
      · refine ⟨rfl, rfl, ⟨P, P₁, _, row, row', rfl, rfl, hrow, happly, ?_⟩, fun idx hidx => ?_⟩
        · exact List.getElem?_set_self hin
        · exact List.getElem?_set_ne (Ne.symm hidx)
      · obtain ⟨Q₁, Q₂, rng, old, new, hmode, hall, hrest⟩ := ha.row
        exact ⟨ha.full, ha.size, ⟨Q₁, Q₂, rng, old, new, hmode.trans harm.1, hall.trans harm.2, hrest⟩,
          ha.others⟩

/-- After the hook, the row of every decoding request of the batch is what `applyRow` makes of it. -/
theorem applyRequests_applied {P' : Permuter} {draws : Nat → Nat → Rng} {batch : List Scheduled}
    {groups groups' : List Group} (hbatch : (batch.map Scheduled.req_idx).Nodup)
    (h : P.applyRequests draws batch groups = .ok (P', groups')) {r : Scheduled} (hr : r ∈ batch)
    (hdecoding : r.tokens = 1) : List.Forall₂ (RowRewritten P r) groups groups' := by
  have hothers : ∀ (batch : List Scheduled) {P : Permuter} {groups groups' : List Group},
      P.applyRequests draws batch groups = .ok (P', groups') → ∀ idx ∉ batch.map Scheduled.req_idx,
      List.Forall₂ (fun g g' => g'.table[idx]? = g.table[idx]?) groups groups' := by
    intro batch
    induction batch with
    | nil =>
      intro P groups groups' h idx _
      cases h
      exact List.forall₂_same.mpr fun _ _ => rfl
    | cons q batch ih =>
      intro P groups groups' h idx hidx
      rw [List.map_cons, List.mem_cons, not_or] at hidx
      rw [Permuter.applyRequests] at h
      split_ifs at h
      · exact ih h idx hidx.2
      · obtain ⟨⟨P₁, mid⟩, happly, h⟩ := bind_eq_ok h
        obtain ⟨-, hfirst⟩ := applyGroups_applied happly
        refine forall₂_trans (hfirst.imp fun g g' ha => ha.others idx hidx.1) (ih h idx hidx.2) ?_
        intro a b c hab hbc
        exact hbc.trans hab
  induction batch generalizing P groups with
  | nil => cases hr
  | cons q batch ih =>
    rw [List.map_cons, List.nodup_cons] at hbatch
    rw [Permuter.applyRequests] at h
    split_ifs at h with hskip
    · rcases List.mem_cons.mp hr with rfl | hr
      · exact absurd hdecoding hskip
      · exact ih hbatch.2 h hr
    · obtain ⟨⟨P₁, mid⟩, happly, hrest⟩ := bind_eq_ok h
      obtain ⟨harm, hfirst⟩ := applyGroups_applied happly
      rcases List.mem_cons.mp hr with rfl | hr
      · refine forall₂_trans hfirst (hothers batch hrest _ hbatch.1) ?_
        intro a b c hab hbc
        obtain ⟨Q₁, Q₂, rng, row, row', hmode, hall, hrow, hnew, hstored⟩ := hab.row
        exact ⟨Q₁, Q₂, rng, row, row', hmode, hall, hrow, hnew, hbc.trans hstored⟩
      · have hne : r.req_idx ≠ q.req_idx := fun heq =>
          hbatch.1 (heq ▸ List.mem_map_of_mem (f := Scheduled.req_idx) hr)
        refine forall₂_trans hfirst (ih hbatch.2 hrest hr) ?_
        rintro a b c hab ⟨Q₁, Q₂, rng, row, row', hmode, hall, hrow, hnew, hstored⟩
        rw [hab.others _ hne] at hrow
        rw [hab.full, hab.size] at hnew
        exact ⟨Q₁, Q₂, rng, row, row', hmode.trans harm.1, hall.trans harm.2, hrow, hnew, hstored⟩

/-! ## The invariant -/

/-- What is read of the row is every cached token, each once, and no other slot holds one. -/
structure Cached (block_size : Nat) (s : State) : Prop where
  width : s.num_blocks ≤ s.row.length
  ids : (s.row.take s.num_blocks).Nodup
  room : s.computed ≤ s.num_blocks * block_size
  reads : ((keys block_size s.row s.computed).map s.memory).Perm ((List.range s.computed).map some)
  only : ∀ slot, s.memory slot ≠ none → slot ∈ keys block_size s.row s.computed

/-- After the prefill: token `t` is where position `t` is, in blocks of the request's own. -/
structure Prefilled (block_size : Nat) (s : State) : Prop where
  width : s.num_blocks ≤ s.row.length
  ids : (s.row.take s.num_blocks).Nodup
  room : s.computed ≤ s.num_blocks * block_size
  memory : ∀ slot t, s.memory slot = some t ↔ t < s.computed ∧ slot = keyAt block_size s.row t

variable {s s' : State} {i : Input}

theorem Prefilled.cached (h : Prefilled block_size s) : Cached block_size s where
  width := h.width
  ids := h.ids
  room := h.room
  reads := by
    have hmap : (keys block_size s.row s.computed).map s.memory = (List.range s.computed).map some := by
      rw [keys, map_tabulate]
      refine tabulate_congr fun t ht => ?_
      exact (h.memory _ t).mpr ⟨ht, rfl⟩
    rw [hmap]
  only := by
    intro slot hslot
    obtain ⟨t, ht⟩ := Option.ne_none_iff_exists'.mp hslot
    obtain ⟨hlt, rfl⟩ := (h.memory slot t).mp ht
    exact List.mem_map_of_mem (List.mem_range.mpr hlt)

/-- The state after a prefill of a row. -/
def prefill (P : Permuter) (row : List Nat) (num_blocks computed block_size : Nat) : State :=
  ⟨P, row, num_blocks, computed, fun slot => (List.range computed).find? fun t =>
    slot = keyAt block_size row t⟩

theorem prefill_prefilled {num_blocks : Nat} (hwidth : num_blocks ≤ row.length)
    (hids : (row.take num_blocks).Nodup) (hroom : computed ≤ num_blocks * block_size) :
    Prefilled block_size (prefill P row num_blocks computed block_size) := by
  refine ⟨hwidth, hids, hroom, fun slot t => ?_⟩
  show (List.range computed).find? (fun t => slot = keyAt block_size row t) = some t ↔
    t < computed ∧ slot = keyAt block_size row t
  constructor
  · intro hfind
    refine ⟨List.mem_range.mp (List.mem_of_find?_eq_some hfind), ?_⟩
    simpa using List.find?_some hfind
  · rintro ⟨hlt, rfl⟩
    cases hfind : (List.range computed).find? fun u => keyAt block_size row t = keyAt block_size row u with
    | none =>
      have hnone := List.find?_eq_none.mp hfind t (List.mem_range.mpr hlt)
      simp at hnone
    | some u =>
      have hu := List.mem_range.mp (List.mem_of_find?_eq_some hfind)
      have hsame : keyAt block_size row t = keyAt block_size row u := by simpa using List.find?_some hfind
      rw [keyAt_inj hids hwidth (hlt.trans_le hroom) (hu.trans_le hroom) hsame]

/-- A block that the scheduler appends is none of the request's. -/
def State.Fresh (s : State) (block_size : Nat) (i : Input) : Prop :=
  s.num_blocks * block_size ≤ s.computed → i.fresh ∉ s.row.take s.num_blocks

/-- An append keeps the invariant, and leaves room for the new token. -/
theorem Cached.append (h : Cached block_size s) (hpos : 0 < block_size) (hfresh : s.Fresh block_size i) :
    Cached block_size (s.append block_size i.fresh) ∧
      (s.append block_size i.fresh).computed < (s.append block_size i.fresh).num_blocks * block_size := by
  unfold State.append
  split_ifs with hfull
  · have hlen : (s.row.take s.num_blocks).length = s.num_blocks := List.length_take_of_le h.width
    have hsucc : (s.num_blocks + 1) * block_size = s.num_blocks * block_size + block_size := Nat.succ_mul _ _
    have hroom := h.room
    have hread : keys block_size (s.row.take s.num_blocks ++ i.fresh :: s.row.drop (s.num_blocks + 1))
        s.computed = keys block_size s.row s.computed := by
      refine keys_congr hpos fun j hj => ?_
      have hblocks : blocksRead block_size s.computed ≤ s.num_blocks := by
        rw [blocksRead, Nat.div_le_iff_le_mul_add_pred hpos, Nat.mul_comm]
        omega
      rw [List.getD_append _ _ _ _ (by omega), List.getD_eq_getElem?_getD, List.getD_eq_getElem?_getD,
        List.getElem?_take_of_lt (by omega)]
    refine ⟨⟨?_, ?_, ?_, ?_, ?_⟩, ?_⟩
    · show s.num_blocks + 1 ≤ (s.row.take s.num_blocks ++ _).length
      rw [List.length_append, hlen, List.length_cons]
      omega
    · show ((s.row.take s.num_blocks ++ _).take (s.num_blocks + 1)).Nodup
      rw [List.take_append, hlen, Nat.add_sub_cancel_left, List.take_of_length_le (by omega)]
      exact List.nodup_append'.mpr ⟨h.ids, List.nodup_singleton _, List.disjoint_singleton.mpr (hfresh hfull)⟩
    · show s.computed ≤ (s.num_blocks + 1) * block_size
      omega
    · show ((keys block_size _ s.computed).map s.memory).Perm _
      rw [hread]
      exact h.reads
    · intro slot hslot
      show slot ∈ keys block_size _ s.computed
      rw [hread]
      exact h.only slot hslot
    · show s.computed < (s.num_blocks + 1) * block_size
      omega
  · exact ⟨h, Nat.not_le.mp hfull⟩

theorem append_computed (s : State) (block_size fresh : Nat) : (s.append block_size fresh).computed =
    s.computed := by
  unfold State.append
  split_ifs
  · rfl
  · rfl

theorem append_memory (s : State) (block_size fresh : Nat) : (s.append block_size fresh).memory = s.memory := by
  unfold State.append
  split_ifs
  · rfl
  · rfl

theorem append_permuter (s : State) (block_size fresh : Nat) : (s.append block_size fresh).permuter =
    s.permuter := by
  unfold State.append
  split_ifs
  · rfl
  · rfl

/-- Rearranging the full blocks keeps the invariant. -/
theorem Cached.rearrange (h : Cached block_size s) (hpos : 0 < block_size)
    (hroom : s.computed < s.num_blocks * block_size)
    (hrow : Rearranged (s.computed / block_size) s.row row) (P : Permuter) :
    Cached block_size { s with permuter := P, row := row } := by
  have hfull : s.computed / block_size ≤ s.num_blocks := by
    apply Nat.div_le_of_le_mul
    rw [Nat.mul_comm]
    exact hroom.le
  have hkeys : (keys block_size row s.computed).Perm (keys block_size s.row s.computed) := by
    have hperm := hrow.keys_perm (hfull.trans h.width) (Nat.mod_lt s.computed hpos).le
    rwa [Nat.mul_comm, Nat.div_add_mod] at hperm
  constructor
  case width =>
    show s.num_blocks ≤ row.length
    rw [hrow.length_eq]
    exact h.width
  case ids => exact (hrow.take_perm hfull).nodup_iff.mpr h.ids
  case room => exact h.room
  case reads => exact (hkeys.map _).trans h.reads
  case only => exact fun slot hslot => hkeys.mem_iff.mpr (h.only slot hslot)

/-- The slot of the new token is free. -/
theorem Cached.slot_free (h : Cached block_size s) (hroom : s.computed < s.num_blocks * block_size) :
    s.memory (keyAt block_size s.row s.computed) = none := by
  by_contra htaken
  have hnodup := keys_nodup h.ids h.width hroom
  rw [keys_succ] at hnodup
  exact (List.nodup_append'.mp hnodup).2.2 (h.only _ htaken) (List.mem_singleton_self _)

/-- Writing the new token keeps the invariant. -/
theorem Cached.write (h : Cached block_size s) (hroom : s.computed < s.num_blocks * block_size) :
    Cached block_size { s with
      computed := s.computed + 1
      memory := Function.update s.memory (keyAt block_size s.row s.computed) (some s.computed) } := by
  have hnodup := keys_nodup h.ids h.width hroom
  rw [keys_succ] at hnodup
  have hnew : keyAt block_size s.row s.computed ∉ keys block_size s.row s.computed := fun hmem =>
    (List.nodup_append'.mp hnodup).2.2 hmem (List.mem_singleton_self _)
  constructor
  case width => exact h.width
  case ids => exact h.ids
  case room => exact hroom
  case reads =>
    have hold : (keys block_size s.row s.computed).map
        (Function.update s.memory (keyAt block_size s.row s.computed) (some s.computed)) =
        (keys block_size s.row s.computed).map s.memory := by
      refine List.map_congr_left fun slot hslot => ?_
      rw [Function.update_of_ne]
      rintro rfl
      exact hnew hslot
    show ((keys block_size s.row (s.computed + 1)).map (Function.update s.memory
      (keyAt block_size s.row s.computed) (some s.computed))).Perm ((List.range (s.computed + 1)).map some)
    rw [keys_succ, List.map_append, hold, List.map_singleton, Function.update_self, List.range_succ,
      List.map_append]
    exact h.reads.append_right _
  case only =>
    intro slot hslot
    show slot ∈ keys block_size s.row (s.computed + 1)
    rw [keys_succ, List.mem_append, List.mem_singleton]
    by_cases hsame : slot = keyAt block_size s.row s.computed
    · exact .inr hsame
    · left
      apply h.only
      dsimp only at hslot
      rwa [Function.update_of_ne hsame] at hslot

/-! ## A step -/

/-- What a step is to do: it rearranges the full blocks and no other entry, the new token goes to a free
slot, and the kernel reads every cached token and the new one, each once. -/
structure Conserved (block_size : Nat) (s : State) (i : Input) (s' : State) : Prop where
  front : (s'.row.take (s.computed / block_size)).Perm
    ((s.append block_size i.fresh).row.take (s.computed / block_size))
  later : ∀ j, s.computed / block_size ≤ j → s'.row[j]? = (s.append block_size i.fresh).row[j]?
  slot_free : s.memory (keyAt block_size s'.row s.computed) = none
  reads : ((keys block_size s'.row (s.computed + 1)).map s'.memory).Perm
    ((List.range (s.computed + 1)).map some)

/-- Is there a partial tail? -/
def State.hasTail (s : State) (block_size : Nat) : Bool := decide (s.computed % block_size ≠ 0)

/-- A step that does no harm conserves the cache, and the invariant. -/
theorem Cached.decode (h : Cached block_size s) (hpos : 0 < block_size) (hfresh : s.Fresh block_size i)
    (hharmless : s.permuter.Harmless (s.computed / block_size) (s.hasTail block_size)) :
    ∃ s', s.decode full block_size i = .ok s' ∧ Conserved block_size s i s' ∧ Cached block_size s' := by
  obtain ⟨happended, hroom⟩ := h.append hpos hfresh
  rw [← append_permuter s block_size i.fresh] at hharmless
  have hfull : (s.append block_size i.fresh).computed / block_size ≤
    (s.append block_size i.fresh).row.length := by
    refine le_trans ?_ happended.width
    apply Nat.div_le_of_le_mul
    rw [Nat.mul_comm]
    exact hroom.le
  have hsame : (s.append block_size i.fresh).hasTail block_size = s.hasTail block_size := by
    rw [State.hasTail, State.hasTail, append_computed]
  rw [← hsame, ← append_computed s block_size i.fresh] at hharmless
  obtain ⟨P, row, happly, -, hrow⟩ := @applyRow_rearranged _ i.rng _ _ _ full hpos hfull hharmless
  have hcached := happended.rearrange hpos hroom hrow P
  have hwritten := hcached.write hroom
  have hfree := hcached.slot_free hroom
  have hstep : s.decode full block_size i = .ok ((s.append block_size i.fresh).settle block_size P row) := by
    rw [State.decode]
    dsimp only
    rw [happly]
    rfl
  have hcomputed : ((s.append block_size i.fresh).settle block_size P row).computed = s.computed + 1 :=
    congrArg (· + 1) (append_computed s block_size i.fresh)
  refine ⟨_, hstep, ?_, hwritten⟩
  have hreads := Cached.reads hwritten
  rw [append_computed] at hrow
  constructor
  case front => exact hrow.front
  case later => exact fun j hj => hrow.getElem?_eq hj
  case slot_free =>
    dsimp only at hfree
    rw [append_computed, append_memory] at hfree
    exact hfree
  case reads =>
    rw [← hcomputed]
    exact hreads

/-! ## The partial block exchanged -/

/-- The new token's slot held a cached token, and now holds the new one. -/
def Overwrites (block_size : Nat) (s s' : State) : Prop :=
  ∃ t < s.computed, s.memory (keyAt block_size s'.row s.computed) = some t ∧
    s'.memory (keyAt block_size s'.row s.computed) = some s.computed

theorem exchange_ok {row : List Nat} {i j : Nat} (hi : i < row.length) (hj : j < row.length) :
    exchange row i j = .ok ((row.set i (row.getD j default)).set j (row.getD i default)) := by
  rw [exchange, entry_ok hi, entry_ok hj]
  rfl

/-- With a full block and a partial tail, `tailswap` exchanges the tail with a full block. -/
theorem applyRow_tailswap (hmode : P.mode = .tailswap) (hacts : P.all_groups = true ∨ full = true)
    (hpos : 0 < block_size) (hfull : 1 ≤ computed / block_size) (htail : computed % block_size ≠ 0)
    (hn : computed / block_size < row.length) : ∃ P' i, i < computed / block_size ∧
      P.applyRow rng full block_size computed row = .ok (P', (row.set i
        (row.getD (computed / block_size) default)).set (computed / block_size) (row.getD i default)) := by
  have hlt := rng.integers_lt (computed / block_size) hfull
  have hexchange := @exchange_ok row _ _ (hlt.trans hn) hn
  have hskip : ¬ (P.all_groups = false ∧ full = false) := by
    rintro ⟨hall, hnone⟩
    rw [hall, hnone] at hacts
    rcases hacts with h | h
    · cases h
    · cases h
  have hquiet : ¬ (computed / block_size < 1 ∨ decide (computed % block_size ≠ 0) = false) := by
    rw [decide_eq_false_iff_not]
    omega
  unfold Permuter.applyRow
  dsimp only
  rw [if_neg hskip, if_neg hpos.ne']
  simp only [Permuter.rewrite, hmode]
  rw [if_neg hquiet, hexchange]
  exact ⟨_, _, hlt, rfl⟩

/-- A place in a full block holds a cached token. -/
theorem Cached.full_block (h : Cached block_size s) {j o : Nat} (hj : j < s.computed / block_size)
    (ho : o < block_size) : ∃ t < s.computed, s.memory (s.row.getD j default, o) = some t := by
  have hpos : 0 < block_size := by omega
  have hplace : j * block_size + o < s.computed := by
    have hblocks : (j + 1) * block_size ≤ s.computed / block_size * block_size := Nat.mul_le_mul_right _ hj
    have hdiv := Nat.div_mul_le_self s.computed block_size
    rw [Nat.succ_mul] at hblocks
    omega
  have hkey : keyAt block_size s.row (j * block_size + o) = (s.row.getD j default, o) := by
    rw [keyAt, Nat.add_comm, Nat.add_mul_div_right _ _ hpos, Nat.div_eq_of_lt ho, Nat.zero_add,
      Nat.add_mul_mod_self_right, Nat.mod_eq_of_lt ho]
  have hmem : keyAt block_size s.row (j * block_size + o) ∈ keys block_size s.row s.computed :=
    List.mem_map_of_mem (List.mem_range.mpr hplace)
  rw [hkey] at hmem
  obtain ⟨t, ht, hsome⟩ := List.mem_map.mp (h.reads.mem_iff.mp (List.mem_map_of_mem hmem))
  exact ⟨t, List.mem_range.mp ht, hsome.symm⟩

/-- With a partial tail there is room for the new token. -/
theorem Cached.room_of_tail (h : Cached block_size s) (htail : s.computed % block_size ≠ 0) :
    s.computed < s.num_blocks * block_size := by
  rcases Nat.lt_or_eq_of_le h.room with hlt | heq
  · exact hlt
  · rw [heq, Nat.mul_mod_left] at htail
    exact absurd rfl htail

/-- The new token lands on a key that is cached. -/
theorem Cached.tailswap (h : Cached block_size s) (hpos : 0 < block_size)
    (hmode : s.permuter.mode = .tailswap) (hacts : s.permuter.all_groups = true ∨ full = true)
    (hfull : 1 ≤ s.computed / block_size) (htail : s.hasTail block_size = true) :
    ∃ s', s.decode full block_size i = .ok s' ∧ Overwrites block_size s s' := by
  rw [State.hasTail, decide_eq_true_eq] at htail
  have hroom := h.room_of_tail htail
  have happend : s.append block_size i.fresh = s := if_neg (Nat.not_le.mpr hroom)
  have hn : s.computed / block_size < s.row.length := by
    refine lt_of_lt_of_le ?_ h.width
    apply Nat.div_lt_of_lt_mul
    rwa [Nat.mul_comm]
  obtain ⟨P, j, hj, happly⟩ := @applyRow_tailswap _ i.rng _ _ _ full hmode hacts hpos hfull htail hn
  obtain ⟨row, hrow⟩ : ∃ row, row = (s.row.set j (s.row.getD (s.computed / block_size) default)).set
      (s.computed / block_size) (s.row.getD j default) := ⟨_, rfl⟩
  have hslot : keyAt block_size row s.computed = (s.row.getD j default, s.computed % block_size) := by
    rw [keyAt, hrow, List.getD_eq_getElem?_getD, List.getElem?_set_self (by rwa [List.length_set])]
    rfl
  rw [← hrow] at happly
  obtain ⟨t, ht, htaken⟩ := h.full_block hj (Nat.mod_lt s.computed hpos)
  rw [← hslot] at htaken
  refine ⟨s.settle block_size P row, ?_, t, ht, htaken, Function.update_self _ _ _⟩
  rw [State.decode]
  dsimp only
  rw [happend, happly]
  rfl

/-! ## Runs -/

/-- Decode steps of a request after its prefill, none of which does harm. -/
def decoding (full : Bool) (block_size : Nat) : System State where
  init := Prefilled block_size
  step s s' := ∃ i : Input, s.Fresh block_size i ∧
    s.permuter.Harmless (s.computed / block_size) (s.hasTail block_size) ∧
    s.decode full block_size i = .ok s'

theorem cached_of_reachable (hpos : 0 < block_size) (h : (decoding full block_size).Reachable s) :
    Cached block_size s := by
  refine System.invariant (fun _ => Prefilled.cached) ?_ h
  rintro s s' hcached ⟨i, hfresh, hharmless, hstep⟩
  obtain ⟨s'', hstep', -, hcached'⟩ := hcached.decode hpos hfresh hharmless
  obtain rfl := Except.ok.inj (hstep.symm.trans hstep')
  exact hcached'

/-- **The cache is conserved** by every step of every run of `identity` and `permute`; in `tailswap` the
first step with a full block and a partial tail writes the new token over a cached key. -/
theorem permute_conserves (hpos : 0 < block_size) (h : (decoding full block_size).Reachable s)
    (hfresh : s.Fresh block_size i) :
    (s.permuter.mode = .identity ∨ s.permuter.mode = .permute →
      ∃ s', s.decode full block_size i = .ok s' ∧ Conserved block_size s i s') ∧
    (s.permuter.mode = .tailswap → s.permuter.all_groups = true ∨ full = true →
      1 ≤ s.computed / block_size → s.hasTail block_size = true →
      ∃ s', s.decode full block_size i = .ok s' ∧ Overwrites block_size s s') := by
  have hcached := cached_of_reachable hpos h
  constructor
  · intro hmode
    have hharmless : s.permuter.Harmless (s.computed / block_size) (s.hasTail block_size) := by
      rcases hmode with hmode | hmode
      · exact .inl hmode
      · exact .inr (.inl hmode)
    obtain ⟨s', hstep, hconserved, -⟩ := @Cached.decode _ full _ _ hcached hpos hfresh hharmless
    exact ⟨s', hstep, hconserved⟩
  · intro hmode hacts hfull htail
    exact hcached.tailswap hpos hmode hacts hfull htail

/-- Draws that turn the blocks around, and take the first for the exchange. -/
def reversing : Rng :=
  ⟨fun n => (List.range n).reverse, fun _ => 0, fun _ => List.reverse_perm _, fun _ h => h⟩

/-- A permuter that has made no step, over every group. -/
def idle (mode : Mode) : Permuter := ⟨mode, true, 0, 0, 0, 0, false, 0⟩

/-- Six tokens fill three blocks of two: block 4 is appended, the three are turned around, and all is
conserved. Of five tokens, exchanging a full block with the partial one loses one. -/
theorem prefilled_six_conserves :
    (∃ s', (prefill (idle .permute) [7, 5, 9, 0] 3 6 2).decode true 2 ⟨4, reversing⟩ = .ok s' ∧
      Conserved 2 (prefill (idle .permute) [7, 5, 9, 0] 3 6 2) ⟨4, reversing⟩ s' ∧ s'.row = [9, 5, 7, 4]) ∧
    ∃ s', (prefill (idle .tailswap) [7, 5, 9, 0] 3 5 2).decode true 2 ⟨4, reversing⟩ = .ok s' ∧
      Overwrites 2 (prefill (idle .tailswap) [7, 5, 9, 0] 3 5 2) s' := by
  have hprefilled : ∀ mode, ∀ computed ≤ 6, Prefilled 2 (prefill (idle mode) [7, 5, 9, 0] 3 computed 2) :=
    fun _ _ hroom => prefill_prefilled (by decide) (by decide) hroom
  have hnew : (4 : Nat) ∉ [7, 5, 9] := by decide
  have hfresh : (prefill (idle .permute) [7, 5, 9, 0] 3 6 2).Fresh 2 ⟨4, reversing⟩ := fun _ => hnew
  constructor
  · obtain ⟨s', hstep, hconserved⟩ := (permute_conserves (by decide)
      ⟨_, hprefilled .permute 6 (by decide), .refl⟩ hfresh).1 (.inr rfl)
    refine ⟨s', hstep, hconserved, ?_⟩
    obtain rfl := Except.ok.inj hstep
    rfl
  · exact (permute_conserves (by decide) ⟨_, hprefilled .tailswap 5 (by decide), .refl⟩ fun _ => hnew).2
      rfl (.inl rfl) (by decide) (by decide)

end VllmExl3.Tools.Permute
