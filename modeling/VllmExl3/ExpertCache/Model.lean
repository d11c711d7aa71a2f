/-
# VllmExl3.ExpertCache.Model — the expert cache's host controller

`expert_cache.py` gives every mixture-of-experts layer a number of VRAM slots and keeps, for every
offloaded expert, a decode-table entry that points either at the expert's host row or at a slot.
This module is the controller as the source writes it: `__init__`/`_fill`, then any sequence of
`step_begin` and `step_end`. The two CUDA streams it feeds are a log of operations here
(`MainOp`, `SideOp`); what the device makes of them is `VllmExl3.ExpertCache.Streams`.

A numpy entry of `-1` is `none`. Events complete in order on a stream, so a `query()` loop is
determined by how many entries it finds finished: `step_begin` takes those two counts, and the
routing it reads out of the pinned ring, as inputs. The hit counters behind `EXL3_CACHE_STATS`
feed a log line only and are left out.
-/
import VllmExl3.Lib.PyDict
import Mathlib.Data.List.Dedup
import Mathlib.Data.List.Sort
import Mathlib.Logic.Function.Basic

namespace VllmExl3.ExpertCache

/-! ## Layers, addresses, operations -/

/-- Index into `_LABELS = ("gate", "up", "down")`. -/
abbrev Label := Fin 3

/-- `enumerate(_LABELS)` -/
def labels : List Label := [0, 1, 2]

/-- One layer's pinned host rows for one projection: `rows` maps an expert to its row. -/
structure HostBlock where
  rows : PyDict Nat Nat

/-- What the cache reads off a MoE layer with `E` experts: its `exl3_host_blocks`. -/
structure MoELayer (E : Nat) where
  blocks : Label → Option HostBlock
  rows_lt : ∀ j b, blocks j = some b → ∀ e ∈ b.rows.keys, e < E

/-- A device address, named by the allocation it lies in: an expert's resident tensor, a row of a
host block seen through its UVA view, or a slot of `slot_tensors[l][j]`. -/
inductive Addr where
  | device (l : Nat) (j : Label) (e : Nat)
  | host (l : Nat) (j : Label) (row : Nat)
  | slot (l : Nat) (j : Label) (s : Nat)
  deriving DecidableEq, Repr

/-- `_slot_addr` -/
def slotAddr (l : Nat) (j : Label) (s : Nat) : Addr := .slot l j s

/-- Operations enqueued on the main stream, in issue order. `ring` is `step_end`'s copy of the
routing buffer with the event recorded behind it. -/
inductive MainOp where
  | scatter (updates : List (Nat × Addr))
  | record (ready : Nat)
  | kernel (l : Nat) (j : Label) (e : Nat)
  | ring (slot step : Nat)
  deriving DecidableEq, Repr

/-- The copy of expert `e`'s host row into slot `s` of `slot_tensors[l][j]`; `batch` names the
`_promote` call that issued it. -/
structure Copy where
  batch : Nat
  l : Nat
  j : Label
  s : Nat
  e : Nat
  deriving DecidableEq, Repr

/-- Operations enqueued on the side stream: the wait for a batch's `ready` event, its copies, the
record of its `done` event. -/
inductive SideOp where
  | wait (batch : Nat)
  | copy (c : Copy)
  | done (batch : Nat)
  deriving DecidableEq, Repr

/-- What a controller is built from: `ExpertCache(layers, slots, budget)` and the environment's
`EXL3_STAGE_MIN_TOKENS`. All layers have the same expert count `E`. -/
structure Params where
  E : Nat
  layers : List (MoELayer E)
  slots : Nat
  budget : Int
  rows : Nat

namespace Params

variable (P : Params)

/-- `len(self.layers)` -/
def L : Nat := P.layers.length

/-- `layer.exl3_host_blocks.get(label)` for layer `l` -/
def block (l : Nat) (j : Label) : Option HostBlock := P.layers[l]?.bind fun layer => layer.blocks j

/-- The host row of expert `e` in projection `j` of layer `l`, if it is offloaded there. -/
def hostRow (l : Nat) (j : Label) (e : Nat) : Option Nat := (P.block l j).bind fun b => b.rows.get? e

/-- The keys of `self.host[l]`: experts with a host row in some projection. Their order is never
read (`_fill` sorts them), so a duplicate-free list stands for the dictionary's keys. -/
def hosted (l : Nat) : List Nat :=
  (labels.flatMap fun j => ((P.block l j).map fun b => b.rows.keys).getD []).dedup

/-- `self.host[l][e]`: the projections that hold expert `e` on the host, with its address there. -/
def host (l e : Nat) : List (Label × Addr) :=
  labels.filterMap fun j => (P.hostRow l j e).map fun row => (j, .host l j row)

/-- `self.capacity[l]` -/
def capacity (l : Nat) : Nat := min P.slots (P.hosted l).length

/-- `_entry` -/
def entry (l : Nat) (j : Label) (e : Nat) : Nat := (l * 3 + j) * P.E + e

/-- `exl3_{label}_trellis_ptrs` as loading left it: an offloaded expert's UVA row, any other
expert's own tensor. -/
def trellisPtr (l : Nat) (j : Label) (e : Nat) : Addr :=
  match P.hostRow l j e with
  | some row => .host l j row
  | none => .device l j e

/-- `self.table` before `_fill`, flattened: layer-major, then projection, then expert. -/
def table0 (i : Nat) : Addr :=
  P.trellisPtr (i / P.E / 3) (Fin.ofNat 3 (i / P.E)) (i % P.E)

end Params

/-! ## Controller state -/

/-- An entry of `self.steps`: a launched step whose routing is not read yet. -/
structure StepEntry where
  slot : Nat
  rows : Nat
  step : Nat
  deriving DecidableEq, Repr

/-- The controller's host-side arrays. `pending` names each promotion batch by the number of its
`done` event; `events` is how many batches were issued. -/
structure Cache where
  slot_of : Nat × Nat → Option Nat
  owner : Nat × Nat → Option Nat
  live : Nat × Nat → Bool
  last_use : Nat × Nat → Int
  pending : List (Nat × List (Nat × Nat))
  steps : List StepEntry
  step : Nat
  clock : Nat
  events : Nat

/-- Experts on the way to a slot, batch by batch. -/
def Cache.inFlight (c : Cache) : List (Nat × Nat) := c.pending.flatMap Prod.snd

/-- What a call hands to the two streams. -/
structure Issued where
  main : List MainOp
  side : List SideOp

/-- `_write`: one scatter, or nothing when there is nothing to update. -/
def write (updates : List (Nat × Addr)) : List MainOp :=
  if updates.isEmpty then [] else [.scatter updates]

/-- `index_copy_` into the flat table, in list order. -/
def scatterInto (table : Nat → Addr) (updates : List (Nat × Addr)) : Nat → Addr :=
  updates.foldl (fun t u => Function.update t u.1 u.2) table

/-- The table after replaying the writes among `ops` in issue order. -/
def replay (table : Nat → Addr) (ops : List MainOp) : Nat → Addr :=
  ops.foldl (fun t op => match op with
    | .scatter updates => scatterInto t updates
    | _ => t) table

section Controller

variable (P : Params)

/-! ## `__init__` and `_fill` -/

/-- `self` just before `_fill`. -/
def Cache.blank : Cache where
  slot_of := fun _ => none
  owner := fun _ => none
  live := fun _ => false
  last_use := fun _ => -1
  pending := []
  steps := []
  step := 0
  clock := 0
  events := 0

/-- The table updates that point expert `e` of layer `l` at slot `s`. -/
def toSlot (l e s : Nat) : List (Nat × Addr) :=
  (P.host l e).map fun ja => (P.entry l ja.1 e, slotAddr l ja.1 s)

/-- The table updates that point expert `e` of layer `l` back at the host. -/
def toHost (l e : Nat) : List (Nat × Addr) :=
  (P.host l e).map fun ja => (P.entry l ja.1 e, ja.2)

/-- The experts `_fill` places in layer `l`, slot by slot. -/
def fillOrder (l : Nat) : List Nat := ((P.hosted l).insertionSort (· ≤ ·)).take (P.capacity l)

/-- One iteration of `_fill`: slot `s` of layer `l` receives expert `e`. -/
def fillOne (l : Nat) (acc : Cache × List (Nat × Addr)) (se : Nat × Nat) : Cache × List (Nat × Addr) :=
  let (s, e) := se
  ({ acc.1 with
      owner := Function.update acc.1.owner (l, s) (some e)
      slot_of := Function.update acc.1.slot_of (l, e) (some s)
      live := Function.update acc.1.live (l, e) true },
    acc.2 ++ toSlot P l e s)

/-- `enumerate(xs)` -/
def enumerate {α : Type*} (xs : List α) : List (Nat × α) := (List.range xs.length).zip xs

/-- `_fill`: the state it leaves and the single write it issues. The copies it enqueues have
landed when it returns, since it synchronizes the device. -/
def fill : Cache × List MainOp :=
  let (c, updates) := (List.range P.L).foldl
    (fun acc l => (enumerate (fillOrder P l)).foldl (fillOne P l) acc) (Cache.blank, [])
  (c, write updates)

/-! ## `step_begin` -/

/-- Flip one landed expert: its entries point at its slot from here on. The `none` branch is the
`-1` a promoted expert never has. -/
def flipOne (acc : Cache × List (Nat × Addr)) (le : Nat × Nat) : Cache × List (Nat × Addr) :=
  let flips := match acc.1.slot_of le with
    | some s => toSlot P le.1 le.2 s
    | none => []
  ({ acc.1 with live := Function.update acc.1.live le true }, acc.2 ++ flips)

/-- The `while self.pending and self.pending[0][0].query()` loop, when the first `landed` batches
have completed. -/
def flipLanded (landed : Nat) (c : Cache) : Cache × List (Nat × Addr) :=
  let done := (c.pending.take landed).flatMap Prod.snd
  done.foldl (flipOne P) ({ c with pending := c.pending.drop landed }, [])

/-- `_victim`'s scan over the slots: the least recently used one whose copy has landed and whose
owner the current block did not route. -/
def victimScan (c : Cache) (l : Nat) (best : Option (Nat × Int)) (s : Nat) : Option (Nat × Int) :=
  match c.owner (l, s) with
  | none => best
  | some e =>
    if c.live (l, e) = false then best
    else if c.last_use (l, e) ≥ c.clock then best
    else match best with
      | none => some (s, c.last_use (l, e))
      | some (b, use) => if c.last_use (l, e) < use then some (s, c.last_use (l, e)) else some (b, use)

/-- `_victim` -/
def victim (c : Cache) (l : Nat) : Option Nat :=
  match (List.range (P.capacity l)).find? fun s => (c.owner (l, s)).isNone with
  | some s => some s
  | none => ((List.range (P.capacity l)).foldl (victimScan c l) none).map Prod.fst

/-- Accumulators of `_plan`'s loop. -/
structure PlanAcc where
  cache : Cache
  updates : List (Nat × Addr)
  issued : List (Nat × Nat)

/-- Point the previous owner of slot `s` back at the host before its slot is overwritten. -/
def evict (l s : Nat) (c : Cache) : Cache × List (Nat × Addr) :=
  match c.owner (l, s) with
  | none => (c, [])
  | some old =>
    ({ c with
        slot_of := Function.update c.slot_of (l, old) none
        live := Function.update c.live (l, old) false },
      toHost P l old)

/-- One iteration of `_plan`'s loop past the budget check, for the miss with flat key `key`. -/
def planOne (key : Nat) (acc : PlanAcc) : PlanAcc :=
  let l := key / P.E
  let e := key % P.E
  match victim P acc.cache l with
  | none => acc
  | some s =>
    let (c, updates) := evict P l s acc.cache
    { cache := { c with
        owner := Function.update c.owner (l, s) (some e)
        slot_of := Function.update c.slot_of (l, e) (some s) }
      updates := acc.updates ++ updates
      issued := acc.issued ++ [(l, e)] }

/-- `_plan`'s loop over the ordered misses. -/
def planLoop : List Nat → PlanAcc → PlanAcc
  | [], acc => acc
  | key :: keys, acc =>
    if (acc.issued.length : Int) ≥ P.budget then acc else planLoop keys (planOne P key acc)

/-- `numpy.unique(keys, return_counts=True)` -/
def unique (keys : List Nat) : List (Nat × Nat) :=
  (keys.dedup.insertionSort (· ≤ ·)).map fun k => (k, keys.count k)

/-- The sort key of a miss: most routed first, ties spread by a rotating start. -/
def missKey (clock : Nat) (kc : Nat × Nat) : Int × Int :=
  (-(kc.2 : Int), (((kc.1 / P.E : Nat) : Int) - clock) % P.L)

/-- Lexicographic comparison of sort keys, as Python compares tuples. -/
def keyLe (a b : Int × Int) : Prop := a.1 < b.1 ∨ (a.1 = b.1 ∧ a.2 ≤ b.2)

instance : DecidableRel keyLe := fun a b => by unfold keyLe; infer_instance

/-- `sorted(range(len(keys)), key=...)`, carrying the keys themselves. -/
def missOrder (clock : Nat) (misses : List (Nat × Nat)) : List Nat :=
  (misses.insertionSort fun a b => keyLe (missKey P clock a) (missKey P clock b)).map Prod.fst

/-- The routing block a queue entry reads from the pinned ring, `ring[idx, :, :tokens]` with its
row axis flattened, as `(layer, id)` pairs in layer-major order. -/
def routed (ring : Nat → Nat → List (List Nat)) (idx tokens : Nat) : List (Nat × Nat) :=
  (List.range P.L).flatMap fun l => (((ring idx l).take tokens).flatten).map fun id => (l, id)

/-- `self.offloaded[l, e]` -/
def offloaded (le : Nat × Nat) : Bool := le.2 ∈ P.hosted le.1

/-- `_promote`: the victims' write, the event the side stream waits for, and the copies. -/
def promote (issued : List (Nat × Nat)) (updates : List (Nat × Addr)) (c : Cache) : Cache × Issued :=
  let n := c.events
  let copies := issued.flatMap fun le =>
    (P.host le.1 le.2).map fun ja => SideOp.copy ⟨n, le.1, ja.1, (c.slot_of le).getD 0, le.2⟩
  ({ c with pending := c.pending ++ [(n, issued)], events := n + 1 },
    { main := write updates ++ [.record n], side := .wait n :: copies ++ [.done n] })

/-- The part of `_plan` before the loop: tick the clock, touch what was routed, and order the
misses. -/
def planStart (ids : List (Nat × Nat)) (c : Cache) : Cache × List Nat :=
  let clock := c.clock + 1
  let off := ids.filter fun le => offloaded P le
  let last_use := off.foldl (fun t le => Function.update t le (clock : Int)) c.last_use
  let want := off.filter fun le => (c.slot_of le).isNone
  ({ c with clock := clock, last_use := last_use },
    missOrder P clock (unique (want.map fun le => le.1 * P.E + le.2)))

/-- `_plan` -/
def plan (ids : List (Nat × Nat)) (c : Cache) : Cache × Issued :=
  let (c, keys) := planStart P ids c
  let acc := planLoop P keys ⟨c, [], []⟩
  if acc.issued.isEmpty then (acc.cache, ⟨[], []⟩) else promote P acc.issued acc.updates acc.cache

/-- What a `step_begin` finds: how many pending batches and how many queued steps have completed,
and the contents of the pinned ring. -/
structure Observed where
  landed : Nat
  finished : Nat
  ring : Nat → Nat → List (List Nat)

/-- `_RING` -/
def RING : Nat := 4

/-- `step_begin` -/
def stepBegin (o : Observed) (c : Cache) : Cache × Issued :=
  let (c, flips) := flipLanded P o.landed c
  match (c.steps.take o.finished).getLast? with
  | none => ({ c with steps := c.steps.drop o.finished }, ⟨write flips, []⟩)
  | some routing =>
    let (c, issued) := plan P (routed P o.ring (routing.slot % RING) routing.rows)
      { c with steps := c.steps.drop o.finished }
    (c, ⟨write flips ++ issued.main, issued.side⟩)

/-! ## `step_end` -/

/-- `step_end` for a step with `decodes` decode rows. -/
def stepEnd (decodes : Nat) (c : Cache) : Cache × Issued :=
  let step := c.step + 1
  let rows := min decodes P.rows
  if rows = 0 then ({ c with step := step }, ⟨[], []⟩)
  else
    let slot := step % RING
    let steps := if c.steps.length ≥ RING - 1 then c.steps.tail else c.steps
    ({ c with step := step, steps := steps ++ [⟨slot, rows, step⟩] }, ⟨[.ring slot step], []⟩)

/-! ## Runs -/

/-- A call the runner makes on the controller. -/
inductive Call where
  | stepBegin (o : Observed)
  | stepEnd (tokens decodes : Nat)

/-- One call. -/
def call (c : Cache) : Call → Cache × Issued
  | .stepBegin o => stepBegin P o c
  | .stepEnd _ decodes => stepEnd P decodes c

/-- The controller after `__init__` and a sequence of calls, with everything it issued on the main
stream. -/
def run (calls : List Call) : Cache × List MainOp :=
  calls.foldl (fun acc a =>
    let (c, issued) := call P acc.1 a
    (c, acc.2 ++ issued.main)) (fill P)

end Controller

end VllmExl3.ExpertCache
