/-
# VllmExl3.ExpertCache.StreamSafety — no kernel ever reads a slot that is being overwritten

The invariant `Inv` of controller and device together, one preservation lemma per step, and from
them `data_safety` for every reachable state. The host calls reduce to three moves on the
controller: landed batches are flipped (`Inv.flip`), victims are pointed back at the host and slots
handed out (`Inv.replan`), and the copies are enqueued behind a fresh event (`Inv.issue`). `Inv`
carries the same `extra` as the controller's invariant, the experts issued between the last two.
-/
import VllmExl3.ExpertCache.Streams

namespace VllmExl3.ExpertCache

variable {Bytes : Type*} {P : Params} {mem : HostMemory Bytes} {c : Cache} {m : MainState}
  {sys : Sys Bytes} {slots : Nat × Label × Nat → Option Bytes} {todo : Copy → Prop}
  {extra : List (Nat × Nat)}

/-! ## The invariant -/

/-- `a` may stand before `b` in the side queue: nothing of a batch precedes its wait or follows
its `done` record. -/
def InOrder (a b : SideOp) : Prop :=
  (∀ n, b = .wait n → a ≠ .done n ∧ ∀ c, a = .copy c → c.batch ≠ n) ∧
    ∀ n, a = .done n → ∀ c, b = .copy c → c.batch ≠ n

/-- The batch an operation of the side queue belongs to. -/
def SideOp.batch : SideOp → Nat
  | .wait n => n
  | .copy c => c.batch
  | .done n => n

/-- The invariant of the whole system. -/
structure Inv (P : Params) (mem : HostMemory Bytes) (extra : List (Nat × Nat)) (sys : Sys Bytes) :
    Prop where
  good : Good P (sys.main.foldl execMain sys.dev).table sys.cache extra
  safe : Along execMain (Safe P mem sys.slots (Outstanding sys)) sys.dev sys.main
  -- an event the main stream has executed, or will have, was issued
  fresh : Along execMain (fun m => ∀ n, m.ready n = true → n < sys.cache.events) sys.dev sys.main
  doneFresh : ∀ n, sys.done n = true → n < sys.cache.events
  sideFresh : ∀ op ∈ sys.side, op.batch < sys.cache.events
  order : sys.side.Pairwise InOrder
  -- an unfinished copy belongs to a batch not yet flipped, into the slot its expert was given
  copies : ∀ k, Outstanding sys k → (∃ les, (k.batch, les) ∈ sys.cache.pending ∧ (k.l, k.e) ∈ les) ∧
    sys.cache.slot_of (k.l, k.e) = some k.s ∧ sys.done k.batch = false
  waited : ∀ k, .copy k ∈ sys.side → .wait k.batch ∈ sys.side ∨ sys.dev.ready k.batch = true
  copyingReady : ∀ k, sys.copying = some k → sys.dev.ready k.batch = true
  -- an expert on the way still has its copy ahead of it, or its bytes are in its slot
  landing : ∀ n les, (n, les) ∈ sys.cache.pending → ∀ l e, (l, e) ∈ les → ∀ j row s,
    P.hostRow l j e = some row → sys.cache.slot_of (l, e) = some s →
    Outstanding sys ⟨n, l, j, s, e⟩ ∨ sys.slots (l, j, s) = some (mem.row l j row)
  latched : ∀ k, sys.running = some k → k.addr = sys.dev.table (P.entry k.l k.j k.e)

theorem Inv.safe_last (h : Inv P mem extra sys) :
    Safe P mem sys.slots (Outstanding sys) (sys.main.foldl execMain sys.dev) := h.safe.last

/-- The expert of an unfinished copy has the copy's slot and is not live. -/
theorem Inv.outstanding (h : Inv P mem extra sys) {k : Copy} (hk : Outstanding sys k) :
    sys.cache.slot_of (k.l, k.e) = some k.s ∧ sys.cache.live (k.l, k.e) = false := by
  obtain ⟨⟨les, hles, hmem⟩, hslot, _⟩ := h.copies k hk
  have hway : (k.l, k.e) ∈ sys.cache.inFlight := List.mem_flatMap.mpr ⟨_, hles, hmem⟩
  exact ⟨hslot, (h.good.slots.of_mem (List.mem_append_right extra hway)).2⟩

/-! ## The initial state -/

/-- `_fill` synchronizes, so every live expert starts with its bytes in its slot. -/
theorem start_inv (P : Params) (mem : HostMemory Bytes) : Inv P mem [] (Sys.start P mem) := by
  obtain ⟨hgood, hpending⟩ := fill_good P
  have hidle : ∀ k, ¬Outstanding (Sys.start P mem) k := by
    rintro k (hk | hk)
    · exact Option.some_ne_none _ hk.symm
    · exact List.not_mem_nil hk
  have hlive : LiveLanded P mem (Sys.start P mem).slots (fill P).1 := by
    intro l j e row s hrow _ hs
    show ((fill P).1.owner (l, s)).bind (hostBytes P mem l j) = _
    rw [(hgood.slots.inverse l e s).mpr hs]
    simp [hostBytes, hrow]
  refine ⟨hgood, ?_, ?_, ?_, ?_, ?_, ?_, ?_, ?_, ?_, ?_⟩
  · exact Good.safe (m := (Sys.start P mem).dev) hgood hlive fun k hk => absurd hk (hidle k)
  · intro n hn
    exact absurd hn Bool.false_ne_true
  · intro n hn
    exact absurd hn Bool.false_ne_true
  · intro op hop
    exact absurd hop List.not_mem_nil
  · exact List.Pairwise.nil
  · exact fun k hk => absurd hk (hidle k)
  · exact fun k hk => absurd hk List.not_mem_nil
  · exact fun k hk => absurd hk.symm (Option.some_ne_none _)
  · intro n les hles
    have hnil : (n, les) ∈ ([] : List (Nat × List (Nat × Nat))) := hpending ▸ hles
    exact absurd hnil List.not_mem_nil
  · exact fun k hk => absurd hk.symm (Option.some_ne_none _)

/-! ## Device moves -/

theorem Safe.mono {todo' : Copy → Prop} (h : Safe P mem slots todo m)
    (hsub : ∀ k, todo' k → todo k) : Safe P mem slots todo' m :=
  ⟨h.entries, fun k hk => h.untouched k (hsub k hk)⟩

/-- Overwriting the slot of an unfinished copy whose batch is ready disturbs no entry. -/
theorem Safe.update {k : Copy} {v : Option Bytes} (h : Safe P mem slots todo m) (hk : todo k)
    (hready : m.ready k.batch = true) :
    Safe P mem (Function.update slots (k.l, k.j, k.s) v) todo m := by
  refine ⟨fun l j e row hrow => ?_, h.untouched⟩
  rcases h.entries l j e row hrow with hhost | ⟨s, hslot, hbytes⟩
  · exact .inl hhost
  · refine .inr ⟨s, hslot, ?_⟩
    have hne : (l, j, s) ≠ (k.l, k.j, k.s) := by
      intro heq
      obtain ⟨rfl, rfl, rfl⟩ : l = k.l ∧ j = k.j ∧ s = k.s := by simpa using heq
      exact h.untouched k hk hready e row hrow hslot
    rw [Function.update_of_ne hne]
    exact hbytes

/-- `Safe.update` along the whole queue: an event that has executed stays executed. -/
theorem along_update {q : List MainOp} {k : Copy} {v : Option Bytes}
    (h : Along execMain (Safe P mem slots todo) m q) (hk : todo k)
    (hready : m.ready k.batch = true) :
    Along execMain (Safe P mem (Function.update slots (k.l, k.j, k.s) v) todo) m q :=
  (h.and (along_ready hready)).imp fun _ hs => hs.1.update hk hs.2

/-- The next main-stream operation executes. A kernel's start is the case `op = .kernel ..`. -/
theorem Inv.mainOp (h : Inv P mem extra sys) {op : MainOp} {rest : List MainOp}
    (hmain : sys.main = op :: rest) (hidle : sys.running = none) :
    Inv P mem extra { sys with main := rest, dev := execMain sys.dev op } := by
  have hgood := h.good
  have hsafe := h.safe
  have hfresh := h.fresh
  rw [hmain] at hgood hsafe hfresh
  exact { h with
    good := hgood
    safe := hsafe.tail
    fresh := hfresh.tail
    waited := fun k hk => (h.waited k hk).imp id execMain_ready
    copyingReady := fun k hk => execMain_ready (h.copyingReady k hk)
    latched := fun k hk => absurd (hidle.symm.trans hk).symm (Option.some_ne_none k) }

theorem Inv.kernelStart (h : Inv P mem extra sys) {l e : Nat} {j : Label} {rest : List MainOp}
    (hmain : sys.main = .kernel l j e :: rest) (hidle : sys.running = none) :
    Inv P mem extra { sys with
      main := rest
      running := some ⟨l, j, e, sys.dev.table (P.entry l j e)⟩ } :=
  { h.mainOp hmain hidle with
    latched := fun k hk => by rw [← Option.some.inj hk] }

theorem Inv.kernelEnd (h : Inv P mem extra sys) :
    Inv P mem extra { sys with running := none } :=
  { h with latched := fun k hk => absurd hk.symm (Option.some_ne_none k) }

theorem Inv.sideWait (h : Inv P mem extra sys) {n : Nat} {rest : List SideOp}
    (hside : sys.side = .wait n :: rest) (hready : sys.dev.ready n = true) :
    Inv P mem extra { sys with side := rest } := by
  have hmem : ∀ op, op ∈ rest → op ∈ sys.side := fun op hop => hside ▸ List.mem_cons_of_mem _ hop
  have hsub : ∀ k, Outstanding { sys with side := rest } k → Outstanding sys k :=
    fun k hk => hk.imp id (hmem _)
  have horder := h.order
  rw [hside, List.pairwise_cons] at horder
  exact { h with
    safe := h.safe.imp fun _ hs => hs.mono hsub
    sideFresh := fun op hop => h.sideFresh op (hmem op hop)
    order := horder.2
    copies := fun k hk => h.copies k (hsub k hk)
    waited := by
      intro k hk
      rcases h.waited k (hmem _ hk) with hwait | hdone
      · rw [hside, List.mem_cons] at hwait
        rcases hwait with heq | hrest
        · exact .inr (SideOp.wait.inj heq ▸ hready)
        · exact .inl hrest
      · exact .inr hdone
    landing := by
      intro n' les hles l e hle j row s hrow hs
      rcases h.landing n' les hles l e hle j row s hrow hs with (hcopying | hcopy) | hbytes
      · exact .inl (.inl hcopying)
      · rw [hside, List.mem_cons] at hcopy
        exact .inl (.inr (hcopy.resolve_left (by simp)))
      · exact .inr hbytes }

/-- An element counted at most once over all batches lies in at most one of them. -/
theorem batch_unique {α : Type*} [BEq α] [LawfulBEq α] {bs : List (Nat × List α)} {x : α}
    {b b' : Nat × List α} (hcount : (bs.flatMap Prod.snd).count x ≤ 1) (hb : b ∈ bs) (hb' : b' ∈ bs)
    (hx : x ∈ b.2) (hx' : x ∈ b'.2) : b = b' := by
  induction bs with
  | nil => exact absurd hb List.not_mem_nil
  | cons a rest ih =>
    rw [List.flatMap_cons, List.count_append] at hcount
    have hpos : ∀ d ∈ rest, x ∈ d.2 → 0 < (rest.flatMap Prod.snd).count x := fun d hd hxd =>
      List.count_pos_iff.mpr (List.mem_flatMap.mpr ⟨d, hd, hxd⟩)
    rcases List.mem_cons.mp hb with rfl | hrest <;> rcases List.mem_cons.mp hb' with rfl | hrest'
    · rfl
    · have := List.count_pos_iff.mpr hx
      have := hpos b' hrest' hx'
      omega
    · have := List.count_pos_iff.mpr hx'
      have := hpos b hrest hx
      omega
    · exact ih (by omega) hrest hrest'

/-- An expert is on the way in one pending batch only. -/
theorem Inv.pending_unique (h : Inv P mem extra sys) {n n' : Nat} {les les' : List (Nat × Nat)}
    {le : Nat × Nat} (hb : (n, les) ∈ sys.cache.pending) (hb' : (n', les') ∈ sys.cache.pending)
    (hle : le ∈ les) (hle' : le ∈ les') : n = n' := by
  have hcount := h.good.slots.inFlight le
  rw [List.count_append] at hcount
  have hone : (sys.cache.pending.flatMap Prod.snd).count le ≤ 1 := by
    rw [← Cache.inFlight]
    split_ifs at hcount <;> omega
  exact congrArg Prod.fst (batch_unique hone hb hb' hle hle')

/-- What the start and the end of a copy share: the slot is overwritten, and the copy is no longer
(or still) outstanding. `hland` says the overwritten slot is accounted for. -/
theorem Inv.overwrite (h : Inv P mem extra sys) {k : Copy} (hk : Outstanding sys k)
    (hready : sys.dev.ready k.batch = true) {copying : Option Copy} {side : List SideOp}
    {v : Option Bytes} (hcopying : ∀ k', copying = some k' → k' = k)
    (hside : side.Sublist sys.side) (hwait : ∀ n, .wait n ∈ sys.side → .wait n ∈ side)
    (hkept : ∀ k', Outstanding sys k' → k' ≠ k →
      Outstanding { sys with copying := copying, side := side } k')
    (hland : Outstanding { sys with copying := copying, side := side } k ∨
      v = hostBytes P mem k.l k.j k.e) :
    Inv P mem extra { sys with
      copying := copying
      side := side
      slots := Function.update sys.slots (k.l, k.j, k.s) v } := by
  have hsub : ∀ k', Outstanding { sys with copying := copying, side := side } k' →
      Outstanding sys k' := by
    rintro k' (hk' | hk')
    · exact hcopying k' hk' ▸ hk
    · exact .inr (hside.subset hk')
  exact { h with
    safe := (along_update h.safe hk hready).imp fun _ hs => hs.mono hsub
    sideFresh := fun op hop => h.sideFresh op (hside.subset hop)
    order := h.order.sublist hside
    copies := fun k' hk' => h.copies k' (hsub k' hk')
    waited := fun k' hk' => (h.waited k' (hside.subset hk')).imp (hwait _) id
    copyingReady := fun k' hk' => hcopying k' hk' ▸ hready
    landing := by
      intro n les hles l e hle j row s hrow hs
      rcases eq_or_ne (l, j, s) (k.l, k.j, k.s) with heq | hne
      · -- the overwritten slot belongs to this expert, so `k` is its copy
        obtain ⟨rfl, rfl, rfl⟩ : l = k.l ∧ j = k.j ∧ s = k.s := by simpa using heq
        obtain ⟨⟨les', hles', hle'⟩, hslot, _⟩ := h.copies k hk
        have hown := (h.good.slots.inverse _ _ _).mpr hslot
        rw [(h.good.slots.inverse _ _ _).mpr hs] at hown
        obtain rfl := Option.some.inj hown
        obtain rfl := h.pending_unique hles hles' hle hle'
        refine hland.imp id fun hv => ?_
        show Function.update sys.slots (k.l, k.j, k.s) v (k.l, k.j, k.s) = _
        rw [Function.update_self, hv, hostBytes, hrow]
        rfl
      · rcases h.landing n les hles l e hle j row s hrow hs with hout | hbytes
        · exact .inl (hkept _ hout fun hh => hne (by rw [← hh]))
        · refine .inr ?_
          show Function.update sys.slots (k.l, k.j, k.s) v (l, j, s) = _
          rw [Function.update_of_ne hne]
          exact hbytes }

theorem Inv.copyStart (h : Inv P mem extra sys) {k : Copy} {rest : List SideOp}
    (hside : sys.side = .copy k :: rest) (hidle : sys.copying = none) :
    Inv P mem extra { sys with
      side := rest
      copying := some k
      slots := Function.update sys.slots (k.l, k.j, k.s) none } := by
  have hk : .copy k ∈ sys.side := hside ▸ List.mem_cons_self
  have horder := h.order
  rw [hside, List.pairwise_cons] at horder
  have hready : sys.dev.ready k.batch = true := by
    rcases h.waited k hk with hwait | hready
    · -- the wait of a batch cannot stand behind one of its copies
      rw [hside, List.mem_cons] at hwait
      have hrest := hwait.resolve_left (by simp)
      exact absurd rfl (((horder.1 _ hrest).1 k.batch rfl).2 k rfl)
    · exact hready
  refine h.overwrite (.inr hk) hready (fun k' hk' => (Option.some.inj hk').symm)
    (hside ▸ List.sublist_cons_self _ _) (fun n hn => ?_) (fun k' hk' hne => ?_) (.inl (.inl rfl))
  · rw [hside, List.mem_cons] at hn
    exact hn.resolve_left (by simp)
  · rcases hk' with hcopying | hcopy
    · exact absurd (hidle.symm.trans hcopying).symm (Option.some_ne_none _)
    · rw [hside, List.mem_cons] at hcopy
      exact .inr (hcopy.resolve_left fun hh => hne (SideOp.copy.inj hh))

theorem Inv.copyEnd (h : Inv P mem extra sys) {k : Copy} (hcopying : sys.copying = some k) :
    Inv P mem extra { sys with
      copying := none
      slots := Function.update sys.slots (k.l, k.j, k.s) (hostBytes P mem k.l k.j k.e) } := by
  refine h.overwrite (.inl hcopying) (h.copyingReady k hcopying)
    (fun k' hk' => absurd hk'.symm (Option.some_ne_none _)) (List.Sublist.refl _) (fun _ hn => hn)
    (fun k' hk' hne => ?_) (.inr rfl)
  rcases hk' with hk' | hk'
  · exact absurd (Option.some.inj (hk'.symm.trans hcopying)) hne
  · exact .inr hk'

theorem Inv.sideDone (h : Inv P mem extra sys) {n : Nat} {rest : List SideOp}
    (hside : sys.side = .done n :: rest) (hidle : sys.copying = none) :
    Inv P mem extra { sys with side := rest, done := Function.update sys.done n true } := by
  have hmem : ∀ op, op ∈ rest → op ∈ sys.side := fun op hop => hside ▸ List.mem_cons_of_mem _ hop
  have hsub : ∀ k, Outstanding { sys with side := rest } k → Outstanding sys k :=
    fun k hk => hk.imp id (hmem _)
  have horder := h.order
  rw [hside, List.pairwise_cons] at horder
  have hn := h.sideFresh (.done n) (hside ▸ List.mem_cons_self)
  exact { h with
    safe := h.safe.imp fun _ hs => hs.mono hsub
    doneFresh := by
      intro n' hn'
      rcases eq_or_ne n' n with rfl | hne
      · exact hn
      · exact h.doneFresh n' (by simpa [Function.update_of_ne hne] using hn')
    sideFresh := fun op hop => h.sideFresh op (hmem op hop)
    order := horder.2
    copies := by
      intro k hk
      obtain ⟨hpending, hslot, hdone⟩ := h.copies k (hsub k hk)
      refine ⟨hpending, hslot, ?_⟩
      -- no copy of batch `n` is left behind its `done` record
      have hne : k.batch ≠ n := by
        rcases hk with hk | hk
        · exact absurd (hidle.symm.trans hk).symm (Option.some_ne_none _)
        · exact (horder.1 _ hk).2 n rfl k rfl
      show Function.update sys.done n true k.batch = false
      rw [Function.update_of_ne hne]
      exact hdone
    waited := by
      intro k hk
      refine (h.waited k (hmem _ hk)).imp (fun hwait => ?_) id
      rw [hside, List.mem_cons] at hwait
      exact hwait.resolve_left (by simp)
    landing := by
      intro n' les hles l e hle j row s hrow hs
      rcases h.landing n' les hles l e hle j row s hrow hs with (hcopying | hcopy) | hbytes
      · exact .inl (.inl hcopying)
      · rw [hside, List.mem_cons] at hcopy
        exact .inl (.inr (hcopy.resolve_left (by simp)))
      · exact .inr hbytes }

/-! ## Host calls -/

theorem foldl_idle {ops : List MainOp} (hops : ∀ op ∈ ops, ∀ m, execMain m op = m) (m : MainState) :
    ops.foldl execMain m = m := by
  induction ops with
  | nil => rfl
  | cons op rest ih =>
    rw [List.foldl_cons, hops op List.mem_cons_self]
    exact ih fun op' hop' => hops op' (List.mem_cons_of_mem _ hop')

/-- A call that touches only the step counters and enqueues nothing that writes or records. -/
theorem Inv.idle (h : Inv P mem extra sys) {c' : Cache} {ops : List MainOp}
    (hslot : c'.slot_of = sys.cache.slot_of) (howner : c'.owner = sys.cache.owner)
    (hlive : c'.live = sys.cache.live) (hpending : c'.pending = sys.cache.pending)
    (hevents : c'.events = sys.cache.events) (hops : ∀ op ∈ ops, ∀ m, execMain m op = m) :
    Inv P mem extra { sys with cache := c', main := sys.main ++ ops } := by
  have hend := foldl_idle hops (sys.main.foldl execMain sys.dev)
  have hidle : ∀ {Q : MainState → Prop}, Along execMain Q sys.dev sys.main →
      Along execMain Q sys.dev (sys.main ++ ops) := fun hQ =>
    hQ.append (along_idle (fun op hop => hops op hop _) hQ.last)
  refine { h with
    good := ?_, safe := hidle h.safe, fresh := ?_, doneFresh := ?_, sideFresh := ?_, copies := ?_
    landing := ?_ }
  · show Good P ((sys.main ++ ops).foldl execMain sys.dev).table c' extra
    rw [List.foldl_append, hend]
    exact h.good.congr hslot howner hlive (by rw [Cache.inFlight, hpending, ← Cache.inFlight])
  · show Along execMain (fun m => ∀ n, m.ready n = true → n < c'.events) sys.dev (sys.main ++ ops)
    rw [hevents]
    exact hidle h.fresh
  · rw [hevents]
    exact h.doneFresh
  · rw [hevents]
    exact h.sideFresh
  · intro k hk
    rw [hpending, hslot]
    exact h.copies k hk
  · show ∀ n les, (n, les) ∈ c'.pending → ∀ l e, (l, e) ∈ les → ∀ j row s,
      P.hostRow l j e = some row → c'.slot_of (l, e) = some s → _
    rw [hpending, hslot]
    exact h.landing

/-- A batch with an unfinished copy has not been seen done, so it stays pending when the done ones
are flipped. -/
theorem Inv.stays_pending (h : Inv P mem extra sys) {n : Nat}
    (hlanded : ∀ b ∈ sys.cache.pending.take n, sys.done b.1 = true) {k : Copy}
    (hk : Outstanding sys k) :
    ∃ les, (k.batch, les) ∈ sys.cache.pending.drop n ∧ (k.l, k.e) ∈ les := by
  obtain ⟨⟨les, hles, hmem⟩, _, hdone⟩ := h.copies k hk
  refine ⟨les, ?_, hmem⟩
  rw [← List.take_append_drop n sys.cache.pending, List.mem_append] at hles
  rcases hles with htake | hdrop
  · exact absurd (hlanded _ htake) (by simp [hdone])
  · exact hdrop

/-- An expert newly live was on the way in a batch seen done, so all its copies have finished. -/
theorem Inv.flip_liveLanded (h : Inv P mem [] sys) {n : Nat}
    (hlanded : ∀ b ∈ sys.cache.pending.take n, sys.done b.1 = true) :
    LiveLanded P mem sys.slots (flipLanded P n sys.cache).1 := by
  obtain ⟨hgood, hflip⟩ := flipLanded_spec h.good n
  have hpending : (flipLanded P n sys.cache).1.pending = sys.cache.pending.drop n := hflip.pending
  intro l j e row s hrow hl hs
  rw [hflip.slot_of] at hs
  by_cases hold : sys.cache.live (l, e) = true
  · exact h.safe_last.liveLanded h.good l j e row s hrow hold hs
  · have hcount := h.good.slots.inFlight (l, e)
    have hcount' := hgood.slots.inFlight (l, e)
    rw [List.nil_append, inFlight_take_drop _ n, List.count_append,
      if_pos ⟨by rw [hs]; rfl, by simpa using hold⟩] at hcount
    rw [List.nil_append, if_neg (by simp [hl]), Cache.inFlight, hpending] at hcount'
    have hpos : 0 < ((sys.cache.pending.take n).flatMap Prod.snd).count (l, e) := by omega
    obtain ⟨⟨n', les⟩, hb, hle⟩ := List.mem_flatMap.mp (List.count_pos_iff.mp hpos)
    rcases h.landing n' les (List.mem_of_mem_take hb) l e hle j row s hrow hs with hout | hbytes
    · have hdone : sys.done n' = false := (h.copies _ hout).2.2
      exact absurd (hlanded _ hb) (by simp [hdone])
    · exact hbytes

/-- Flipping batches the host has seen land. -/
theorem Inv.flip (h : Inv P mem [] sys) {n : Nat}
    (hlanded : ∀ b ∈ sys.cache.pending.take n, sys.done b.1 = true) :
    Inv P mem [] { sys with
      cache := (flipLanded P n sys.cache).1
      main := sys.main ++ write (flipLanded P n sys.cache).2 } := by
  obtain ⟨hgood, hflip⟩ := flipLanded_spec h.good n
  have hpending : (flipLanded P n sys.cache).1.pending = sys.cache.pending.drop n := hflip.pending
  have hsub : ∀ b ∈ (flipLanded P n sys.cache).1.pending, b ∈ sys.cache.pending := fun b hb =>
    List.mem_of_mem_drop (hpending ▸ hb)
  have hstays : ∀ k, Outstanding sys k → ∃ les,
      (k.batch, les) ∈ (flipLanded P n sys.cache).1.pending ∧ (k.l, k.e) ∈ les := by
    rw [hpending]
    exact fun k hk => h.stays_pending hlanded hk
  have hafter : Safe P mem sys.slots (Outstanding sys) { sys.main.foldl execMain sys.dev with
      table := scatterInto (sys.main.foldl execMain sys.dev).table (flipLanded P n sys.cache).2 } :=
    hgood.safe (h.flip_liveLanded hlanded) fun k hk _ => by
      obtain ⟨les, hles, hmem⟩ := hstays k hk
      refine ⟨?_, (hgood.slots.of_mem (List.mem_flatMap.mpr ⟨_, hles, hmem⟩)).2⟩
      rw [hflip.slot_of]
      exact (h.copies k hk).2.1
  refine { h with
    good := ?_, safe := ?_, fresh := ?_, doneFresh := ?_, sideFresh := ?_, copies := ?_
    landing := ?_ }
  · show Good P ((sys.main ++ _).foldl execMain sys.dev).table _ []
    rw [List.foldl_append, foldl_write]
    exact hgood
  · exact h.safe.append (along_write h.safe_last hafter)
  · show Along execMain (fun m => ∀ n', m.ready n' = true →
      n' < (flipLanded P n sys.cache).1.events) sys.dev (sys.main ++ _)
    rw [hflip.events]
    exact h.fresh.append (along_write h.fresh.last h.fresh.last)
  · rw [hflip.events]
    exact h.doneFresh
  · rw [hflip.events]
    exact h.sideFresh
  · intro k hk
    refine ⟨hstays k hk, ?_⟩
    rw [hflip.slot_of]
    exact (h.copies k hk).2
  · intro n' les hles l e hle j row s hrow hs
    exact h.landing n' les (hsub _ hles) l e hle j row s hrow (by rwa [hflip.slot_of] at hs)

/-- Pointing victims back at the host and handing their slots out. -/
theorem Inv.replan (h : Inv P mem [] sys) {c' : Cache} {updates : List (Nat × Addr)}
    (hgood : Good P (scatterInto (sys.main.foldl execMain sys.dev).table updates) c' extra)
    (hkeeps : Keeps sys.cache c') :
    Inv P mem extra { sys with cache := c', main := sys.main ++ write updates } := by
  have hway : ∀ k, Outstanding sys k →
      c'.slot_of (k.l, k.e) = some k.s ∧ c'.live (k.l, k.e) = false := by
    intro k hk
    obtain ⟨hslot, hdead⟩ := h.outstanding hk
    obtain ⟨hslot', hdead'⟩ := hkeeps.onTheWay (k.l, k.e) (by rw [hslot]; rfl) hdead
    exact ⟨hslot'.trans hslot, hdead'⟩
  have hlive : LiveLanded P mem sys.slots c' := by
    intro l j e row s hrow hl hs
    obtain ⟨hold, hslot⟩ := hkeeps.stillLive (l, e) hl
    exact h.safe_last.liveLanded h.good l j e row s hrow hold (hslot.symm.trans hs)
  have hafter : Safe P mem sys.slots (Outstanding sys) { sys.main.foldl execMain sys.dev with
      table := scatterInto (sys.main.foldl execMain sys.dev).table updates } :=
    hgood.safe hlive fun k hk _ => hway k hk
  refine { h with
    good := ?_, safe := ?_, fresh := ?_, doneFresh := ?_, sideFresh := ?_, copies := ?_
    landing := ?_ }
  · show Good P ((sys.main ++ write updates).foldl execMain sys.dev).table c' extra
    rw [List.foldl_append, foldl_write]
    exact hgood
  · exact h.safe.append (along_write h.safe_last hafter)
  · show Along execMain (fun m => ∀ n, m.ready n = true → n < c'.events) sys.dev (sys.main ++ _)
    rw [hkeeps.events]
    exact h.fresh.append (along_write h.fresh.last h.fresh.last)
  · rw [hkeeps.events]
    exact h.doneFresh
  · rw [hkeeps.events]
    exact h.sideFresh
  · intro k hk
    obtain ⟨hpending, _, hdone⟩ := h.copies k hk
    rw [hkeeps.pending]
    exact ⟨hpending, (hway k hk).1, hdone⟩
  · intro n les hles l e hle j row s hrow hs
    rw [hkeeps.pending] at hles
    obtain ⟨hslot, hdead⟩ := h.good.slots.of_mem (List.mem_flatMap.mpr ⟨_, hles, hle⟩)
    have hsame := (hkeeps.onTheWay (l, e) hslot hdead).1
    exact h.landing n les hles l e hle j row s hrow (hsame.symm.trans hs)

/-- A copy whose batch has not reached the main stream yet threatens nothing. -/
theorem Safe.extend {todo' : Copy → Prop} (h : Safe P mem slots todo m)
    (hsub : ∀ k, todo' k → todo k ∨ m.ready k.batch ≠ true) : Safe P mem slots todo' m := by
  refine ⟨h.entries, fun k hk hready => ?_⟩
  exact h.untouched k ((hsub k hk).resolve_right fun hne => hne hready) hready

theorem inOrder_of_batch_ne {a b : SideOp} (h : a.batch ≠ b.batch) : InOrder a b := by
  refine ⟨?_, ?_⟩
  · rintro n rfl
    refine ⟨?_, ?_⟩
    · rintro rfl
      exact h rfl
    · rintro k rfl
      exact h
  · rintro n rfl k rfl heq
    exact h heq.symm

/-- The copies `_promote` enqueues for batch `n`. -/
def promoted (P : Params) (n : Nat) (issued : List (Nat × Nat)) (c : Cache) : List SideOp :=
  issued.flatMap fun le =>
    (P.host le.1 le.2).map fun ja => .copy ⟨n, le.1, ja.1, (c.slot_of le).getD 0, le.2⟩

theorem mem_promoted {n : Nat} {issued : List (Nat × Nat)} {op : SideOp}
    (h : op ∈ promoted P n issued c) : ∃ l e j, (l, e) ∈ issued ∧
      op = .copy ⟨n, l, j, (c.slot_of (l, e)).getD 0, e⟩ := by
  obtain ⟨⟨l, e⟩, hle, hop⟩ := List.mem_flatMap.mp h
  obtain ⟨⟨j, a⟩, _, rfl⟩ := List.mem_map.mp hop
  exact ⟨l, e, j, hle, rfl⟩

/-- Every hosted projection of an issued expert is copied, into the expert's slot. -/
theorem copy_mem_promoted {n l e row s : Nat} {j : Label} {issued : List (Nat × Nat)}
    (hle : (l, e) ∈ issued) (hrow : P.hostRow l j e = some row) (hs : c.slot_of (l, e) = some s) :
    .copy ⟨n, l, j, s, e⟩ ∈ promoted P n issued c := by
  refine List.mem_flatMap.mpr ⟨(l, e), hle, ?_⟩
  refine List.mem_map.mpr ⟨(j, .host l j row), Params.mem_host.mpr ⟨row, hrow, rfl⟩, ?_⟩
  rw [hs]
  rfl

theorem promoted_batch {n : Nat} {issued : List (Nat × Nat)} {op : SideOp}
    (h : op ∈ .wait n :: promoted P n issued c ++ [.done n]) : op.batch = n := by
  rw [List.mem_append, List.mem_cons, List.mem_singleton] at h
  rcases h with (rfl | hcopy) | rfl
  · rfl
  · obtain ⟨l, e, j, _, rfl⟩ := mem_promoted hcopy
    rfl
  · rfl

theorem promoted_order (n : Nat) (issued : List (Nat × Nat)) :
    (.wait n :: promoted P n issued c ++ [.done n] : List SideOp).Pairwise InOrder := by
  have hcopies : ∀ a ∈ promoted P n issued c, ∀ b, (∀ n', b ≠ .wait n') → InOrder a b := by
    intro a ha b hb
    obtain ⟨l, e, j, _, rfl⟩ := mem_promoted ha
    exact ⟨fun n' hn' => absurd hn' (hb n'), fun n' hn' => by simp at hn'⟩
  rw [List.cons_append, List.pairwise_cons, List.pairwise_append]
  refine ⟨fun b _ => ⟨fun n' _ => ⟨by simp, by simp⟩, fun n' hn' => by simp at hn'⟩, ?_,
    List.pairwise_singleton _ _, ?_⟩
  · refine List.pairwise_of_forall_mem_list fun a ha b hb => hcopies a ha b ?_
    obtain ⟨l, e, j, _, rfl⟩ := mem_promoted hb
    simp
  · intro a ha b hb
    obtain rfl := List.mem_singleton.mp hb
    exact hcopies a ha _ (by simp)

/-- Once a batch is enqueued, an unfinished copy is an old one or one of the batch. -/
theorem Inv.outstanding_issue {issued : List (Nat × Nat)} {sys' : Sys Bytes} {n : Nat}
    (h : Inv P mem issued sys) (hcopying : sys'.copying = sys.copying)
    (hside : sys'.side = sys.side ++ (.wait n :: promoted P n issued sys.cache ++ [.done n]))
    {k : Copy} (hk : Outstanding sys' k) :
    Outstanding sys k ∨
      (k.l, k.e) ∈ issued ∧ k.batch = n ∧ sys.cache.slot_of (k.l, k.e) = some k.s := by
  unfold Outstanding at hk
  rw [hcopying, hside, List.mem_append, List.mem_append, List.mem_cons, List.mem_singleton] at hk
  rcases hk with hk | hk | (hk | hk) | hk
  · exact .inl (.inl hk)
  · exact .inl (.inr hk)
  · cases hk
  · obtain ⟨l, e, j, hle, heq⟩ := mem_promoted hk
    obtain rfl := SideOp.copy.inj heq
    obtain ⟨s, hs⟩ := Option.isSome_iff_exists.mp
      (h.good.slots.of_mem (List.mem_append_left _ hle)).1
    exact .inr ⟨hle, rfl, by simp [hs]⟩
  · cases hk

/-- Enqueueing a batch: its `ready` event on the main stream, its wait, copies and `done` event on
the side stream. -/
theorem Inv.issue {issued : List (Nat × Nat)} (h : Inv P mem issued sys)
    (updates : List (Nat × Addr)) :
    Inv P mem [] { sys with
      cache := (promote P issued updates sys.cache).1
      main := sys.main ++ [.record sys.cache.events]
      side := sys.side ++ (.wait sys.cache.events ::
        promoted P sys.cache.events issued sys.cache ++ [.done sys.cache.events]) } := by
  set n := sys.cache.events with hn
  set new : List SideOp := .wait n :: promoted P n issued sys.cache ++ [.done n] with hnew
  set sys' : Sys Bytes := { sys with
    cache := (promote P issued updates sys.cache).1
    main := sys.main ++ [.record n]
    side := sys.side ++ new } with hsys'
  -- every unfinished copy is an old one or one of this batch
  have hout : ∀ k, Outstanding sys' k → Outstanding sys k ∨
      (k.l, k.e) ∈ issued ∧ k.batch = n ∧ sys.cache.slot_of (k.l, k.e) = some k.s :=
    fun k hk => h.outstanding_issue (show sys'.copying = sys.copying from rfl) rfl hk
  have hold : ∀ k, Outstanding sys k → Outstanding sys' k := fun k hk =>
    hk.imp id (List.mem_append_left _)
  have hmid : ∀ m, Safe P mem sys.slots (Outstanding sys) m ∧
      (∀ n', m.ready n' = true → n' < sys.cache.events) →
      Safe P mem sys.slots (Outstanding sys') m := fun m hm =>
    hm.1.extend fun k hk => (hout k hk).imp id fun hk => fun hready =>
      absurd (hm.2 _ hready) (by omega)
  have hafter : Safe P mem sys.slots (Outstanding sys')
      (execMain (sys.main.foldl execMain sys.dev) (.record n)) := by
    refine Good.safe h.good (h.safe_last.liveLanded h.good) fun k hk _ => ?_
    rcases hout k hk with hk | ⟨hle, _, hslot⟩
    · exact h.outstanding hk
    · exact ⟨hslot, (h.good.slots.of_mem (List.mem_append_left _ hle)).2⟩
  refine ⟨?_, ?_, ?_, ?_, ?_, ?_, ?_, ?_, h.copyingReady, ?_, h.latched⟩
  · have hgood : Good P (scatterInto (sys.main.foldl execMain sys.dev).table []) sys.cache issued :=
      h.good
    show Good P ((sys.main ++ [MainOp.record n]).foldl execMain sys.dev).table _ []
    rw [List.foldl_append]
    exact promote_good hgood
  · exact ((h.safe.and h.fresh).imp hmid).append
      ⟨hmid _ ⟨h.safe_last, h.fresh.last⟩, hafter⟩
  · have hlast : ∀ n', (sys.main.foldl execMain sys.dev).ready n' = true → n' < n + 1 :=
      fun n' hn' => Nat.lt_succ_of_lt (h.fresh.last n' hn')
    refine (h.fresh.imp fun m hm n' hn' => Nat.lt_succ_of_lt (hm n' hn')).append ⟨hlast, ?_⟩
    intro n' hn'
    rcases eq_or_ne n' n with rfl | hne
    · exact Nat.lt_succ_self _
    · exact hlast n' (by simpa [execMain, Function.update_of_ne hne] using hn')
  · exact fun n' hn' => Nat.lt_succ_of_lt (h.doneFresh n' hn')
  · intro op hop
    show op.batch < n + 1
    rcases List.mem_append.mp hop with hop | hop
    · exact Nat.lt_succ_of_lt (h.sideFresh op hop)
    · rw [promoted_batch hop]
      exact Nat.lt_succ_self _
  · refine List.pairwise_append.mpr ⟨h.order, promoted_order n issued, fun a ha b hb => ?_⟩
    apply inOrder_of_batch_ne
    rw [promoted_batch hb]
    exact (h.sideFresh a ha).ne
  · intro k hk
    show (∃ les, (k.batch, les) ∈ sys.cache.pending ++ [(n, issued)] ∧ _) ∧ _
    rcases hout k hk with hk | ⟨hle, hbatch, hslot⟩
    · obtain ⟨⟨les, hles, hmem⟩, hrest⟩ := h.copies k hk
      exact ⟨⟨les, List.mem_append_left _ hles, hmem⟩, hrest⟩
    · refine ⟨⟨issued, ?_, hle⟩, hslot, ?_⟩
      · rw [hbatch]
        exact List.mem_append_right _ List.mem_cons_self
      · by_contra hdone
        exact absurd (h.doneFresh k.batch (by simpa using hdone)) (by omega)
  · intro k hk
    rcases List.mem_append.mp hk with hk | hk
    · exact (h.waited k hk).imp (List.mem_append_left _) id
    · have hbatch : k.batch = n := promoted_batch hk
      rw [hbatch]
      exact .inl (List.mem_append_right _ List.mem_cons_self)
  · intro n' les hles l e hle j row s hrow hs
    rcases List.mem_append.mp hles with hles | hles
    · exact (h.landing n' les hles l e hle j row s hrow hs).imp (hold _) id
    · -- the new batch copies every hosted projection of its experts
      obtain ⟨rfl, rfl⟩ := Prod.mk.inj (List.mem_singleton.mp hles)
      have hcopy := copy_mem_promoted (n := n) hle hrow hs
      refine .inl (.inr (List.mem_append_right _ ?_))
      exact List.mem_append_left _ (List.mem_cons_of_mem _ hcopy)

theorem Inv.step_begin (h : Inv P mem [] sys) {o : Observed}
    (hlanded : ∀ b ∈ sys.cache.pending.take o.landed, sys.done b.1 = true) :
    Inv P mem [] { sys with
      cache := (stepBegin P o sys.cache).1
      main := sys.main ++ (stepBegin P o sys.cache).2.main
      side := sys.side ++ (stepBegin P o sys.cache).2.side } := by
  obtain ⟨c', hc', hcases⟩ := stepBegin_cases P o sys.cache
  have hdrop : Inv P mem [] { sys with
      cache := c', main := sys.main ++ write (flipLanded P o.landed sys.cache).2 ++ [] } := by
    rw [hc']
    exact (h.flip hlanded).idle rfl rfl rfl rfl rfl (by simp)
  rw [List.append_nil] at hdrop
  rcases hcases with hstop | ⟨ids, hplan⟩
  · rw [hstop, List.append_nil]
    exact hdrop
  · rw [hplan]
    rcases plan_cases hdrop.good ids with
      ⟨c'', heq, hgood, hkeeps⟩ | ⟨c'', issued, updates, heq, hgood, hkeeps⟩
    · have hstay : Inv P mem [] { sys with
          cache := c''
          main := sys.main ++ write (flipLanded P o.landed sys.cache).2 ++ write [] } :=
        hdrop.replan hgood hkeeps
      rw [heq, List.append_nil, List.append_nil]
      rwa [write_nil, List.append_nil] at hstay
    · have hissue := (hdrop.replan hgood hkeeps).issue updates
      rw [heq]
      show Inv P mem [] { sys with
        cache := (promote P issued updates c'').1
        main := sys.main ++ (write (flipLanded P o.landed sys.cache).2 ++
          (write updates ++ [.record c''.events]))
        side := sys.side ++ (.wait c''.events :: promoted P c''.events issued c'' ++
          [.done c''.events]) }
      rw [← List.append_assoc, ← List.append_assoc]
      exact hissue

/-- `step_end` only counts the step and copies the routing out. -/
theorem Inv.step_end (h : Inv P mem [] sys) (decodes : Nat) :
    Inv P mem [] { sys with
      cache := (stepEnd P decodes sys.cache).1
      main := sys.main ++ (stepEnd P decodes sys.cache).2.main
      side := sys.side ++ (stepEnd P decodes sys.cache).2.side } := by
  unfold stepEnd
  dsimp only
  split_ifs <;> rw [List.append_nil sys.side] <;>
    exact h.idle rfl rfl rfl rfl rfl (by simp [execMain])

/-! ## Every reachable state -/

/-- The step lemma of the system. -/
theorem step_inv {sys' : Sys Bytes} (h : Inv P mem [] sys) (hstep : Step P mem sys sys') :
    Inv P mem [] sys' := by
  cases hstep with
  | stepBegin o hlanded => exact h.step_begin hlanded
  | forward kernels =>
    refine h.idle rfl rfl rfl rfl rfl fun op hop m => ?_
    obtain ⟨k, _, rfl⟩ := List.mem_map.mp hop
    rfl
  | stepEnd decodes => exact h.step_end decodes
  | mainOp op rest hmain hidle hop => exact h.mainOp hmain hidle
  | kernelStart l j e rest hmain hidle => exact h.kernelStart hmain hidle
  | kernelEnd => exact h.kernelEnd
  | sideWait n rest hside hidle hready => exact h.sideWait hside hready
  | copyStart k rest hside hidle => exact h.copyStart hside hidle
  | copyEnd k hcopying => exact h.copyEnd hcopying
  | sideDone n rest hside hidle => exact h.sideDone hside hidle

/-- The run lemma of the system. -/
theorem reachable_inv (h : (system P mem).Reachable sys) : Inv P mem [] sys := by
  apply System.invariant (P := Inv P mem []) ?_ (fun _ _ => step_inv) h
  rintro _ rfl
  exact start_inv P mem

/-- Data safety, in every state that any run and any interleaving of the two streams reaches. A
running kernel that serves an offloaded expert reads that expert's host row, so it does so from its
start to its end. While a slot is being overwritten, no table entry of an offloaded expert addresses
it, now or at any later point of what is enqueued, and no running kernel holds its address. At every
such point an entry that addresses a slot addresses one that holds the expert's bytes. -/
theorem data_safety (P : Params) (mem : HostMemory Bytes) (sys : Sys Bytes)
    (h : (system P mem).Reachable sys) :
    (∀ k row, sys.running = some k → P.hostRow k.l k.j k.e = some row →
      sys.deref mem k.addr = some (mem.row k.l k.j row)) ∧
    (∀ w, sys.copying = some w →
      (∀ i l j e row, P.hostRow l j e = some row →
        ((sys.main.take i).foldl execMain sys.dev).table (P.entry l j e) ≠ slotAddr w.l w.j w.s) ∧
      ∀ k row, sys.running = some k → P.hostRow k.l k.j k.e = some row →
        k.addr ≠ slotAddr w.l w.j w.s) ∧
    (∀ i l j e row l' j' s, P.hostRow l j e = some row →
      ((sys.main.take i).foldl execMain sys.dev).table (P.entry l j e) = slotAddr l' j' s →
      sys.slots (l', j', s) = some (mem.row l j row)) := by
  have hinv := reachable_inv h
  have hentry : ∀ i l j e row l' j' s, P.hostRow l j e = some row →
      ((sys.main.take i).foldl execMain sys.dev).table (P.entry l j e) = slotAddr l' j' s →
      l = l' ∧ j = j' ∧ sys.slots (l', j', s) = some (mem.row l j row) := by
    intro i l j e row l' j' s hrow heq
    rcases (hinv.safe.take i).entries l j e row hrow with hhost | ⟨s', hslot, hbytes⟩
    · rw [heq] at hhost
      exact absurd hhost (by simp [slotAddr])
    · rw [heq] at hslot
      obtain ⟨rfl, rfl, rfl⟩ : l' = l ∧ j' = j ∧ s = s' := by simpa [slotAddr] using hslot
      exact ⟨rfl, rfl, hbytes⟩
  have hcopying : ∀ w, sys.copying = some w → ∀ i l j e row, P.hostRow l j e = some row →
      ((sys.main.take i).foldl execMain sys.dev).table (P.entry l j e) ≠ slotAddr w.l w.j w.s := by
    intro w hw i l j e row hrow heq
    obtain ⟨rfl, rfl, _⟩ := hentry i l j e row w.l w.j w.s hrow heq
    have hready := (along_ready (q := sys.main) (hinv.copyingReady w hw)).take i
    exact (hinv.safe.take i).untouched w (.inl hw) hready e row hrow heq
  refine ⟨?_, fun w hw => ⟨hcopying w hw, ?_⟩, ?_⟩
  · intro k row hk hrow
    rw [hinv.latched k hk]
    rcases hinv.safe.head.entries k.l k.j k.e row hrow with hhost | ⟨s, hslot, hbytes⟩
    · rw [hhost]
      rfl
    · rw [hslot]
      exact hbytes
  · intro k row hk hrow
    rw [hinv.latched k hk]
    exact hcopying w hw 0 k.l k.j k.e row hrow
  · intro i l j e row l' j' s hrow heq
    exact (hentry i l j e row l' j' s hrow heq).2.2

/-! ### A run with a kernel and a copy in progress -/

/-- One layer of two experts, both offloaded in every projection, and one slot. -/
def tiny : Params where
  E := 2
  layers := [{ blocks := fun _ => some ⟨PyDict.ofList [(0, 0), (1, 1)]⟩, rows_lt := by decide }]
  slots := 1
  budget := 1
  rows := 1

/-- Row `r` of `tiny`'s host blocks holds the number `r`. -/
def tinyMem : HostMemory Nat where
  row := fun _ _ r => r

/-- Expert 0 decodes; expert 1 is routed and takes its slot; while the first of its rows is copied there, a
kernel that serves expert 0 runs. -/
theorem tiny_promoting : ∃ sys, (system tiny tinyMem).Reachable sys ∧
    sys.running = some ⟨0, 0, 0, .host 0 0 0⟩ ∧ sys.copying = some ⟨0, 0, 0, 0, 1⟩ := by
  have hstart : Relation.ReflTransGen (Step tiny tinyMem) (Sys.start tiny tinyMem)
    (Sys.start tiny tinyMem) := .refl
  have hended := hstart.tail (Step.stepEnd _ 1)
  have hring := hended.tail (Step.mainOp _ (.ring 1 1) [] rfl rfl (fun _ _ _ h => by cases h))
  have hbegun := hring.tail (Step.stepBegin _ ⟨0, 1, fun _ _ => [[1]]⟩
    (fun b hb => absurd hb List.not_mem_nil))
  have hforward := hbegun.tail (Step.forward _ [(0, 0, 0)])
  -- the main stream takes the expert that leaves back to its host rows, and says so
  have hscatter := hforward.tail (Step.mainOp _
    (.scatter [(0, .host 0 0 0), (2, .host 0 1 0), (4, .host 0 2 0)]) [.record 0, .kernel 0 0 0] rfl rfl
    (fun _ _ _ h => by cases h))
  have hrecord := hscatter.tail (Step.mainOp _ (.record 0) [.kernel 0 0 0] rfl rfl
    (fun _ _ _ h => by cases h))
  -- only then does the side stream copy
  have hwait := hrecord.tail (Step.sideWait _ 0
    [.copy ⟨0, 0, 0, 0, 1⟩, .copy ⟨0, 0, 1, 0, 1⟩, .copy ⟨0, 0, 2, 0, 1⟩, .done 0] rfl rfl rfl)
  have hcopy := hwait.tail (Step.copyStart _ ⟨0, 0, 0, 0, 1⟩
    [.copy ⟨0, 0, 1, 0, 1⟩, .copy ⟨0, 0, 2, 0, 1⟩, .done 0] rfl rfl)
  have hkernel := hcopy.tail (Step.kernelStart _ 0 0 0 [] rfl rfl)
  exact ⟨_, ⟨_, rfl, hkernel⟩, rfl, rfl⟩

/-- The kernel reads its own expert's row, and not the slot that is being overwritten. -/
theorem tiny_data_safety : ∃ sys k w, (system tiny tinyMem).Reachable sys ∧ sys.running = some k ∧
    sys.copying = some w ∧ sys.deref tinyMem k.addr = some 0 ∧ k.addr ≠ slotAddr w.l w.j w.s := by
  obtain ⟨sys, hreach, hrunning, hcopying⟩ := tiny_promoting
  obtain ⟨hread, hflip, -⟩ := data_safety tiny tinyMem sys hreach
  exact ⟨sys, _, _, hreach, hrunning, hcopying, hread _ 0 hrunning rfl,
    (hflip _ hcopying).2 _ 0 hrunning rfl⟩

end VllmExl3.ExpertCache
