/-
# VllmExl3.ExpertCache.Streams — the device side: two queues, slot memory, and data safety

The main and the side stream are FIFO queues the device drains independently. A main-stream scatter
or event record executes atomically; a kernel occupies the main stream from its start to its end. A
side-stream wait blocks until its `ready` event has executed on the main stream; a copy leaves its
slot undefined from its start to its end. `step_begin` sees a batch as landed only after its `done`
event has executed. A host call enqueues all its operations in one step: FIFO order makes that the
same as enqueueing them one by one, since the device can always lag behind.

A running kernel holds the address it read out of the table when it started and dereferences it at
any time until it ends. Safety rests on one property of everything still enqueued, `Safe`: at every
point of the main queue an offloaded expert's entry points at its host row or at a slot that already
holds its bytes, and once a batch's `ready` event has executed no entry reaches a slot that batch
still has to copy into.
-/
import VllmExl3.ExpertCache.Controller
import VllmExl3.Lib.Reach

namespace VllmExl3.ExpertCache

/-! ## The device -/

/-- The bytes that never change: the pinned host rows. -/
structure HostMemory (Bytes : Type*) where
  row : Nat → Label → Nat → Bytes

/-- What the main stream has done so far: the table it left and the `ready` events it executed. -/
structure MainState where
  table : Nat → Addr
  ready : Nat → Bool

/-- Executing one main-stream operation. Kernels and routing copies change neither component. -/
def execMain (m : MainState) : MainOp → MainState
  | .scatter updates => { m with table := scatterInto m.table updates }
  | .record n => { m with ready := Function.update m.ready n true }
  | .kernel _ _ _ => m
  | .ring _ _ => m

/-- A kernel in progress: the entry it serves and the address it read there when it started. -/
structure Running where
  l : Nat
  j : Label
  e : Nat
  addr : Addr
  deriving DecidableEq, Repr

/-- Controller and device together. `slots` is `none` where nothing was written yet or a copy is
under way. -/
structure Sys (Bytes : Type*) where
  cache : Cache
  main : List MainOp
  side : List SideOp
  dev : MainState
  running : Option Running
  copying : Option Copy
  slots : Nat × Label × Nat → Option Bytes
  done : Nat → Bool

section Device

variable {Bytes : Type*} (P : Params) (mem : HostMemory Bytes)

/-- The bytes of expert `e`'s host row, if it has one. -/
def hostBytes (l : Nat) (j : Label) (e : Nat) : Option Bytes := (P.hostRow l j e).map (mem.row l j)

/-- The bytes at an address. Resident tensors are not modelled, so they read as `none`. -/
def Sys.deref (sys : Sys Bytes) : Addr → Option Bytes
  | .device _ _ _ => none
  | .host l j row => some (mem.row l j row)
  | .slot l j s => sys.slots (l, j, s)

/-- After `_fill` and its synchronize: its write and its copies have executed. -/
def Sys.start : Sys Bytes where
  cache := (fill P).1
  main := []
  side := []
  dev := { table := replay P.table0 (fill P).2, ready := fun _ => false }
  running := none
  copying := none
  slots := fun (l, j, s) => ((fill P).1.owner (l, s)).bind (hostBytes P mem l j)
  done := fun _ => false

/-- The steps of the system: three host calls and seven device moves, interleaved arbitrarily. -/
inductive Step : Sys Bytes → Sys Bytes → Prop
  | stepBegin (sys : Sys Bytes) (o : Observed)
      (hlanded : ∀ b ∈ sys.cache.pending.take o.landed, sys.done b.1 = true) :
      Step sys { sys with
        cache := (stepBegin P o sys.cache).1
        main := sys.main ++ (stepBegin P o sys.cache).2.main
        side := sys.side ++ (stepBegin P o sys.cache).2.side }
  | forward (sys : Sys Bytes) (kernels : List (Nat × Label × Nat)) :
      Step sys { sys with
        main := sys.main ++ kernels.map fun k => .kernel k.1 k.2.1 k.2.2 }
  | stepEnd (sys : Sys Bytes) (decodes : Nat) :
      Step sys { sys with
        cache := (stepEnd P decodes sys.cache).1
        main := sys.main ++ (stepEnd P decodes sys.cache).2.main
        side := sys.side ++ (stepEnd P decodes sys.cache).2.side }
  | mainOp (sys : Sys Bytes) (op : MainOp) (rest : List MainOp) (hmain : sys.main = op :: rest)
      (hidle : sys.running = none) (hop : ∀ l j e, op ≠ .kernel l j e) :
      Step sys { sys with main := rest, dev := execMain sys.dev op }
  | kernelStart (sys : Sys Bytes) (l : Nat) (j : Label) (e : Nat) (rest : List MainOp)
      (hmain : sys.main = .kernel l j e :: rest) (hidle : sys.running = none) :
      Step sys { sys with
        main := rest
        running := some ⟨l, j, e, sys.dev.table (P.entry l j e)⟩ }
  | kernelEnd (sys : Sys Bytes) : Step sys { sys with running := none }
  | sideWait (sys : Sys Bytes) (n : Nat) (rest : List SideOp) (hside : sys.side = .wait n :: rest)
      (hidle : sys.copying = none) (hready : sys.dev.ready n = true) :
      Step sys { sys with side := rest }
  | copyStart (sys : Sys Bytes) (c : Copy) (rest : List SideOp) (hside : sys.side = .copy c :: rest)
      (hidle : sys.copying = none) :
      Step sys { sys with
        side := rest
        copying := some c
        slots := Function.update sys.slots (c.l, c.j, c.s) none }
  | copyEnd (sys : Sys Bytes) (c : Copy) (hcopying : sys.copying = some c) :
      Step sys { sys with
        copying := none
        slots := Function.update sys.slots (c.l, c.j, c.s) (hostBytes P mem c.l c.j c.e) }
  | sideDone (sys : Sys Bytes) (n : Nat) (rest : List SideOp) (hside : sys.side = .done n :: rest)
      (hidle : sys.copying = none) :
      Step sys { sys with side := rest, done := Function.update sys.done n true }

/-- The controller driving the two streams. -/
def system : System (Sys Bytes) where
  init := fun sys => sys = Sys.start P mem
  step := Step P mem

/-! ## What is safe -/

/-- A copy the side stream has not finished. -/
def Outstanding (sys : Sys Bytes) (c : Copy) : Prop := sys.copying = some c ∨ .copy c ∈ sys.side

/-- Entries reach only landed bytes, and nothing reaches a slot about to be overwritten. -/
structure Safe (slots : Nat × Label × Nat → Option Bytes) (todo : Copy → Prop) (m : MainState) :
    Prop where
  entries : ∀ l j e row, P.hostRow l j e = some row →
    m.table (P.entry l j e) = .host l j row ∨
      ∃ s, m.table (P.entry l j e) = slotAddr l j s ∧ slots (l, j, s) = some (mem.row l j row)
  untouched : ∀ c, todo c → m.ready c.batch = true → ∀ e row, P.hostRow c.l c.j e = some row →
    m.table (P.entry c.l c.j e) ≠ slotAddr c.l c.j c.s

end Device

variable {Bytes : Type*} {P : Params} {mem : HostMemory Bytes} {c : Cache} {m : MainState}
  {sys : Sys Bytes} {slots : Nat × Label × Nat → Option Bytes} {todo : Copy → Prop}

/-! ## Main-stream execution -/

theorem execMain_ready {op : MainOp} {n : Nat} (h : m.ready n = true) :
    (execMain m op).ready n = true := by
  cases op with
  | record n' => by_cases hn : n = n' <;> simp [execMain, hn, h]
  | scatter _ => exact h
  | kernel _ _ _ => exact h
  | ring _ _ => exact h

/-- An executed event stays executed along the queue. -/
theorem along_ready {n : Nat} {q : List MainOp} (h : m.ready n = true) :
    Along execMain (fun m => m.ready n = true) m q := by
  induction q generalizing m with
  | nil => exact h
  | cons op rest ih => exact ⟨h, ih (execMain_ready h)⟩

/-- Operations that change nothing are safe to enqueue anywhere. -/
theorem along_idle {Q : MainState → Prop} {q : List MainOp} (hq : ∀ op ∈ q, execMain m op = m)
    (h : Q m) : Along execMain Q m q := by
  induction q with
  | nil => exact h
  | cons op rest ih =>
    refine ⟨h, ?_⟩
    rw [hq op List.mem_cons_self]
    exact ih fun op' hop' => hq op' (List.mem_cons_of_mem _ hop')

/-- Enqueueing a `_write`: what is left to show is the state before it and the state after it. -/
theorem along_write {Q : MainState → Prop} {updates : List (Nat × Addr)} (h : Q m)
    (h' : Q { m with table := scatterInto m.table updates }) :
    Along execMain Q m (write updates) := by
  cases updates with
  | nil => exact h
  | cons u rest => exact ⟨h, h'⟩

@[simp] theorem write_nil : write [] = [] := rfl

theorem foldl_write (updates : List (Nat × Addr)) :
    (write updates).foldl execMain m = { m with table := scatterInto m.table updates } := by
  cases updates <;> rfl

/-! ## Safety of a table the controller's invariant describes -/

/-- Live experts have their bytes in their slot. -/
def LiveLanded (P : Params) (mem : HostMemory Bytes) (slots : Nat × Label × Nat → Option Bytes)
    (c : Cache) : Prop :=
  ∀ l j e row s, P.hostRow l j e = some row → c.live (l, e) = true → c.slot_of (l, e) = some s →
    slots (l, j, s) = some (mem.row l j row)

theorem Good.entry_live {t : Nat → Addr} {extra : List (Nat × Nat)} (h : Good P t c extra) {l : Nat}
    {j : Label} {e row s : Nat} (hrow : P.hostRow l j e = some row) (hlive : c.live (l, e) = true)
    (hs : c.slot_of (l, e) = some s) : t (P.entry l j e) = slotAddr l j s := by
  rw [h.table l j e (Params.hostRow_lt hrow).2, pointer, hrow]
  simp [hlive, hs]

/-- The controller's invariant makes a table safe, given that live experts have landed and that
copies into a slot are for its current, not yet live owner. -/
theorem Good.safe {extra : List (Nat × Nat)} (h : Good P m.table c extra)
    (hlive : LiveLanded P mem slots c)
    (htodo : ∀ k, todo k → m.ready k.batch = true →
      c.slot_of (k.l, k.e) = some k.s ∧ c.live (k.l, k.e) = false) :
    Safe P mem slots todo m := by
  constructor
  · intro l j e row hrow
    have hentry := h.table l j e (Params.hostRow_lt hrow).2
    rw [pointer, hrow] at hentry
    by_cases hl : c.live (l, e) = true
    · obtain ⟨s, hs⟩ := Option.isSome_iff_exists.mp (h.slots.live_slot (l, e) hl)
      exact .inr ⟨s, h.entry_live hrow hl hs, hlive l j e row s hrow hl hs⟩
    · exact .inl (by simpa [hl] using hentry)
  · intro k hk hready e row hrow hpoints
    obtain ⟨hslot, hdead⟩ := htodo k hk hready
    have hentry := h.table k.l k.j e (Params.hostRow_lt hrow).2
    rw [hpoints, pointer, hrow] at hentry
    by_cases hl : c.live (k.l, e) = true
    · obtain ⟨s, hs⟩ := Option.isSome_iff_exists.mp (h.slots.live_slot (k.l, e) hl)
      have hsame : k.s = s := by simpa [hl, hs, slotAddr] using hentry
      -- one slot, one owner: the live expert would be the one still being copied
      have howner := (h.slots.inverse k.l k.e k.s).mpr hslot
      rw [hsame, (h.slots.inverse k.l e s).mpr hs] at howner
      rw [← Option.some.inj howner, hl] at hdead
      exact Bool.false_ne_true hdead.symm
    · simp [hl, slotAddr] at hentry

/-- Conversely, safety of the table the controller describes puts live experts' bytes in place. -/
theorem Safe.liveLanded {extra : List (Nat × Nat)} (h : Safe P mem slots todo m)
    (hgood : Good P m.table c extra) : LiveLanded P mem slots c := by
  intro l j e row s hrow hlive hs
  have hentry := hgood.entry_live hrow hlive hs
  rcases h.entries l j e row hrow with hhost | ⟨s', hslot, hbytes⟩
  · rw [hentry] at hhost
    simp [slotAddr] at hhost
  · have hsame : s = s' := by simpa [hentry, slotAddr] using hslot
    exact hsame ▸ hbytes

end VllmExl3.ExpertCache
