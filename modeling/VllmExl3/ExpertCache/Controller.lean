/-
# VllmExl3.ExpertCache.Controller — every call keeps the controller's invariant

One specification per function of `expert_cache.py`, from `_victim` up to a whole run. `plan_cases`
and `stepBegin_cases` say once what a call can do, in terms of the state and table it started from;
the device-level argument in `VllmExl3.ExpertCache.Streams` uses nothing else about the controller.
-/
import VllmExl3.ExpertCache.Invariant
import Mathlib.Data.List.Induction

namespace VllmExl3.ExpertCache

variable {P : Params} {c : Cache} {t : Nat → Addr} {extra : List (Nat × Nat)} {l e s : Nat}

/-! ## The transitions together with their table writes -/

/-- Flipping a landed expert with the scatter that points its entries at the slot. -/
theorem Good.land (h : Good P t c ((l, e) :: extra)) (hs : c.slot_of (l, e) = some s) :
    Good P (scatterInto t (toSlot P l e s))
      { c with live := Function.update c.live (l, e) true } extra := by
  refine ⟨h.slots.land, ?_⟩
  have he := (Params.hosted_lt (h.slots.hosted l e s hs)).2
  refine h.table.repoint (fun j _ => slotAddr l j s) he (fun _ _ => rfl)
    (fun le hne => Function.update_of_ne hne _ _) ?_
  intro j row hrow
  simp [pointer, hrow, hs]

/-- Evicting a live owner with the scatter that points its entries back at the host. -/
theorem Good.clear {old : Nat} (h : Good P t c extra) (hown : c.owner (l, s) = some old)
    (hlive : c.live (l, old) = true) :
    Good P (scatterInto t (toHost P l old))
      { c with
        owner := Function.update c.owner (l, s) none
        slot_of := Function.update c.slot_of (l, old) none
        live := Function.update c.live (l, old) false } extra := by
  refine ⟨h.slots.clear hown hlive, ?_⟩
  have he := (Params.hosted_lt (h.slots.hosted l old s ((h.slots.inverse l old s).mp hown))).2
  refine h.table.repoint (fun _ a => a) he (fun le hne => Function.update_of_ne hne _ _)
    (fun le hne => Function.update_of_ne hne _ _) ?_
  intro j row hrow
  simp [pointer, hrow]

/-- Assigning a free slot writes nothing: the entry follows only once the copy has landed. -/
theorem Good.assign (h : Good P t c extra) (hfree : c.owner (l, s) = none)
    (hnone : c.slot_of (l, e) = none) (hcap : s < P.capacity l) (hhost : e ∈ P.hosted l) :
    Good P t { c with
      owner := Function.update c.owner (l, s) (some e)
      slot_of := Function.update c.slot_of (l, e) (some s) } (extra ++ [(l, e)]) := by
  refine ⟨h.slots.assign hfree hnone hcap hhost, ?_⟩
  have hlive := h.slots.live_false hnone
  intro l' j e' he'
  rw [h.table l' j e' he', pointer, pointer]
  by_cases hle : (l', e') = (l, e)
  · obtain ⟨rfl, rfl⟩ := Prod.mk.inj hle
    simp [hlive]
  · simp [Function.update_of_ne hle]

/-! ## `_fill` -/

/-- What `_fill` keeps after the slots `< s` of layer `l` are filled: the invariant, no promotion
in the books, and nothing yet in later slots or layers. -/
structure Filled (P : Params) (t : Nat → Addr) (acc : Cache × List (Nat × Addr)) : Prop where
  good : Good P (scatterInto t acc.2) acc.1 []
  pending : acc.1.pending = []

theorem fillOne_spec {acc : Cache × List (Nat × Addr)} (h : Filled P t acc)
    (hfree : acc.1.owner (l, s) = none) (hnone : acc.1.slot_of (l, e) = none)
    (hcap : s < P.capacity l) (hhost : e ∈ P.hosted l) :
    Filled P t (fillOne P l acc (s, e)) := by
  refine ⟨?_, h.pending⟩
  have hassign : Good P _ _ [(l, e)] := h.good.assign hfree hnone hcap hhost
  have hland := hassign.land (s := s) (by simp)
  rw [fillOne, scatterInto_append]
  exact hland

theorem mem_enumerate {α : Type*} {xs : List α} {i : Nat} {x : α} (h : (i, x) ∈ enumerate xs) :
    i < xs.length ∧ x ∈ xs := by
  have hp := List.of_mem_zip h
  exact ⟨List.mem_range.mp hp.1, hp.2⟩

theorem fillOrder_length_le (P : Params) (l : Nat) : (fillOrder P l).length ≤ P.capacity l := by
  simp [fillOrder]

theorem mem_fillOrder (h : e ∈ fillOrder P l) : e ∈ P.hosted l :=
  (List.perm_insertionSort (· ≤ ·) (P.hosted l)).mem_iff.mp (List.mem_of_mem_take h)

theorem fillOrder_nodup (P : Params) (l : Nat) : (fillOrder P l).Nodup :=
  ((List.perm_insertionSort (· ≤ ·) (P.hosted l)).nodup_iff.mpr (List.nodup_dedup _)).sublist
    (List.take_sublist ..)

/-- One layer of `_fill`, from any point in its enumeration. -/
theorem fillLayer_spec {ses : List (Nat × Nat)} {acc : Cache × List (Nat × Addr)}
    (h : Filled P t acc) (hslots : (ses.map Prod.fst).Nodup) (hexperts : (ses.map Prod.snd).Nodup)
    (hmem : ∀ se ∈ ses, se.1 < P.capacity l ∧ se.2 ∈ P.hosted l)
    (hfree : ∀ se ∈ ses, acc.1.owner (l, se.1) = none ∧ acc.1.slot_of (l, se.2) = none) :
    Filled P t (ses.foldl (fillOne P l) acc) ∧
      ∀ l', l' ≠ l → ∀ i, (ses.foldl (fillOne P l) acc).1.owner (l', i) = acc.1.owner (l', i) ∧
        (ses.foldl (fillOne P l) acc).1.slot_of (l', i) = acc.1.slot_of (l', i) := by
  induction ses generalizing acc with
  | nil => exact ⟨h, fun _ _ _ => ⟨rfl, rfl⟩⟩
  | cons se rest ih =>
    obtain ⟨s, e⟩ := se
    simp only [List.map_cons, List.nodup_cons] at hslots hexperts
    have hse := hmem (s, e) List.mem_cons_self
    have hfse := hfree (s, e) List.mem_cons_self
    have hone := fillOne_spec h hfse.1 hfse.2 hse.1 hse.2
    obtain ⟨hfill, hother⟩ := ih hone hslots.2 hexperts.2
      (fun p hp => hmem p (List.mem_cons_of_mem _ hp)) (by
        intro p hp
        have hs : p.1 ≠ s := fun hh => hslots.1 (List.mem_map.mpr ⟨p, hp, hh⟩)
        have he : p.2 ≠ e := fun hh => hexperts.1 (List.mem_map.mpr ⟨p, hp, hh⟩)
        have hp' := hfree p (List.mem_cons_of_mem _ hp)
        simp [fillOne, hs, he, hp'.1, hp'.2])
    refine ⟨hfill, fun l' hl' i => ?_⟩
    obtain ⟨ho, hs⟩ := hother l' hl' i
    rw [List.foldl_cons, ho, hs]
    simp [fillOne, hl']

theorem enumerate_fst_nodup {α : Type*} (xs : List α) : ((enumerate xs).map Prod.fst).Nodup := by
  rw [enumerate, List.map_fst_zip (by simp)]
  exact List.nodup_range

theorem enumerate_snd {α : Type*} (xs : List α) : (enumerate xs).map Prod.snd = xs := by
  rw [enumerate, List.map_snd_zip (by simp)]

/-- All layers of `_fill`. -/
theorem fillLayers_spec {ls : List Nat} {acc : Cache × List (Nat × Addr)} (h : Filled P t acc)
    (hls : ls.Nodup) (hfree : ∀ l ∈ ls, ∀ i, acc.1.owner (l, i) = none ∧
      acc.1.slot_of (l, i) = none) :
    Filled P t
      (ls.foldl (fun acc l => (enumerate (fillOrder P l)).foldl (fillOne P l) acc) acc) := by
  induction ls generalizing acc with
  | nil => exact h
  | cons l rest ih =>
    rw [List.nodup_cons] at hls
    obtain ⟨hfill, hother⟩ := fillLayer_spec (l := l) h (enumerate_fst_nodup (fillOrder P l))
      (by rw [enumerate_snd]; exact fillOrder_nodup P l)
      (fun se hse => ⟨(mem_enumerate hse).1.trans_le (fillOrder_length_le P l),
        mem_fillOrder (mem_enumerate hse).2⟩)
      (fun se _ => ⟨(hfree l List.mem_cons_self se.1).1, (hfree l List.mem_cons_self se.2).2⟩)
    refine ih hfill hls.2 fun l' hl' i => ?_
    have hne : l' ≠ l := fun hh => hls.1 (hh ▸ hl')
    rw [(hother l' hne i).1, (hother l' hne i).2]
    exact hfree l' (List.mem_cons_of_mem _ hl') i

theorem blank_good (P : Params) : Filled P P.table0 (Cache.blank, []) := by
  refine ⟨⟨⟨?_, ?_, ?_, ?_, ?_⟩, ?_⟩, rfl⟩
  · simp [Cache.blank]
  · simp [Cache.blank]
  · simp [Cache.blank]
  · simp [Cache.blank]
  · simp [Cache.blank, Cache.inFlight]
  intro l j e he
  rw [scatterInto, List.foldl_nil, Params.table0_entry he, Params.trellisPtr, pointer]
  cases P.hostRow l j e <;> simp [Cache.blank]

/-- `_fill` establishes the invariant. -/
theorem fill_good (P : Params) :
    Good P (replay P.table0 (fill P).2) (fill P).1 [] ∧ (fill P).1.pending = [] := by
  have h := fillLayers_spec (blank_good P) (List.nodup_range (n := P.L))
    (fun _ _ _ => ⟨rfl, rfl⟩)
  rw [fill, replay_write]
  exact ⟨h.good, h.pending⟩

/-! ## Flipping landed batches -/

/-- What flips change: nothing but `live`. -/
structure Flipped (c c' : Cache) : Prop where
  slot_of : c'.slot_of = c.slot_of
  owner : c'.owner = c.owner
  pending : c'.pending = c.pending
  steps : c'.steps = c.steps
  step : c'.step = c.step
  events : c'.events = c.events

theorem flips_spec {done : List (Nat × Nat)} {acc : Cache × List (Nat × Addr)}
    (h : Good P (scatterInto t acc.2) acc.1 (done ++ extra)) :
    Good P (scatterInto t (done.foldl (flipOne P) acc).2) (done.foldl (flipOne P) acc).1 extra ∧
      Flipped acc.1 (done.foldl (flipOne P) acc).1 := by
  induction done generalizing acc with
  | nil => exact ⟨h, ⟨rfl, rfl, rfl, rfl, rfl, rfl⟩⟩
  | cons le rest ih =>
    obtain ⟨s, hs⟩ := Option.isSome_iff_exists.mp (h.slots.of_mem
      (show le ∈ (le :: rest) ++ extra ++ acc.1.inFlight by simp)).1
    have hland : Good P _ _ (rest ++ extra) := Good.land (l := le.1) (e := le.2) h hs
    have hone : Good P (scatterInto t (flipOne P acc le).2) (flipOne P acc le).1 (rest ++ extra) := by
      rw [flipOne, hs, scatterInto_append]
      exact hland
    obtain ⟨hgood, hflip⟩ := ih hone
    exact ⟨hgood, ⟨hflip.slot_of, hflip.owner, hflip.pending, hflip.steps, hflip.step,
      hflip.events⟩⟩

theorem inFlight_take_drop (c : Cache) (n : Nat) :
    c.inFlight = (c.pending.take n).flatMap Prod.snd ++ (c.pending.drop n).flatMap Prod.snd := by
  rw [Cache.inFlight, ← List.flatMap_append, List.take_append_drop]

/-- The first phase of `step_begin`: completed batches become live, the rest stay on the way. -/
theorem flipLanded_spec (h : Good P t c []) (n : Nat) :
    Good P (scatterInto t (flipLanded P n c).2) (flipLanded P n c).1 [] ∧
      Flipped { c with pending := c.pending.drop n } (flipLanded P n c).1 := by
  suffices hready : SlotInv P { c with pending := c.pending.drop n }
      ((c.pending.take n).flatMap Prod.snd ++ []) from flips_spec ⟨hready, h.table.congr rfl rfl⟩
  refine ⟨h.slots.inverse, h.slots.slot_lt, h.slots.hosted, h.slots.live_slot, fun le => ?_⟩
  have hcount := h.slots.inFlight le
  rw [List.nil_append, inFlight_take_drop c n] at hcount
  rw [List.append_nil]
  exact hcount

/-! ## `_victim` -/

/-- A slot `_victim` may hand out: a free one, or one whose owner is live and not routed in the
block being planned from. -/
def Takeable (c : Cache) (l s : Nat) : Prop :=
  c.owner (l, s) = none ∨
    ∃ e, c.owner (l, s) = some e ∧ c.live (l, e) = true ∧ c.last_use (l, e) < c.clock

theorem victimScan_takeable {ss : List Nat} {best : Option (Nat × Int)} {b : Nat × Int}
    (hss : ∀ s ∈ ss, s < P.capacity l)
    (hbest : ∀ b, best = some b → b.1 < P.capacity l ∧ Takeable c l b.1)
    (h : ss.foldl (victimScan c l) best = some b) : b.1 < P.capacity l ∧ Takeable c l b.1 := by
  induction ss generalizing best with
  | nil => exact hbest b h
  | cons s rest ih =>
    refine ih (fun s' hs' => hss s' (List.mem_cons_of_mem _ hs')) ?_ h
    intro b' hb'
    unfold victimScan at hb'
    split at hb'
    · exact hbest b' hb'
    · rename_i e howner
      have hs : e = e → c.live (l, e) = true → c.last_use (l, e) < c.clock →
          s < P.capacity l ∧ Takeable c l s := fun _ hl hu =>
        ⟨hss s List.mem_cons_self, .inr ⟨e, howner, hl, hu⟩⟩
      split_ifs at hb' with hlive huse
      · exact hbest b' hb'
      · exact hbest b' hb'
      · have hok := hs rfl (by simpa using hlive) (by omega)
        split at hb'
        · rw [← Option.some.inj hb']
          exact hok
        · split_ifs at hb' with hless
          · rw [← Option.some.inj hb']
            exact hok
          · exact hbest b' hb'

theorem victim_spec (h : victim P c l = some s) : s < P.capacity l ∧ Takeable c l s := by
  unfold victim at h
  split at h
  · rename_i s' hfind
    obtain rfl := Option.some.inj h
    have hmem := List.mem_range.mp (List.mem_of_find?_eq_some hfind)
    have hfree := List.find?_some hfind
    exact ⟨hmem, .inl (by simpa using hfree)⟩
  · obtain ⟨b, hb, rfl⟩ := Option.map_eq_some_iff.mp h
    exact victimScan_takeable (fun s hs => List.mem_range.mp hs) (by simp) hb

/-! ## `_plan` -/

/-- A flat key of a miss: an offloaded expert without a slot. -/
def Wanted (P : Params) (c : Cache) (key : Nat) : Prop :=
  key % P.E ∈ P.hosted (key / P.E) ∧ c.slot_of (key / P.E, key % P.E) = none

/-- What `_plan` leaves alone: the books of earlier promotions, the slots they go to, and the slot
of whatever stays live. -/
structure Keeps (c c' : Cache) : Prop where
  pending : c'.pending = c.pending
  steps : c'.steps = c.steps
  step : c'.step = c.step
  events : c'.events = c.events
  onTheWay : ∀ le, (c.slot_of le).isSome → c.live le = false →
    c'.slot_of le = c.slot_of le ∧ c'.live le = false
  stillLive : ∀ le, c'.live le = true → c.live le = true ∧ c'.slot_of le = c.slot_of le

theorem Keeps.trans {c c' c'' : Cache} (h : Keeps c c') (h' : Keeps c' c'') : Keeps c c'' := by
  refine ⟨h'.pending.trans h.pending, h'.steps.trans h.steps, h'.step.trans h.step,
    h'.events.trans h.events, fun le hs hl => ?_, fun le hl => ?_⟩
  · obtain ⟨hs', hl'⟩ := h.onTheWay le hs hl
    obtain ⟨hs'', hl''⟩ := h'.onTheWay le (by rwa [hs']) hl'
    exact ⟨hs''.trans hs', hl''⟩
  · obtain ⟨hl', hs'⟩ := h'.stillLive le hl
    obtain ⟨hl'', hs''⟩ := h.stillLive le hl'
    exact ⟨hl'', hs'.trans hs''⟩

/-- The loop invariant of `_plan`: the state invariant with the issued experts on the way, the
remaining misses still without a slot, and a write only if something was issued. -/
structure Planning (P : Params) (t : Nat → Addr) (c : Cache) (keys : List Nat) (acc : PlanAcc) :
    Prop where
  good : Good P (scatterInto t acc.updates) acc.cache acc.issued
  wanted : ∀ key ∈ keys, Wanted P acc.cache key
  quiet : acc.issued = [] → acc.updates = []
  keeps : Keeps c acc.cache

/-- The eviction and assignment of one iteration, once a slot was found. -/
theorem planOne_good {key : Nat} {acc : PlanAcc}
    (h : Good P (scatterInto t acc.updates) acc.cache acc.issued) (hw : Wanted P acc.cache key)
    (hv : victim P acc.cache (key / P.E) = some s) :
    Good P (scatterInto t (planOne P key acc).updates) (planOne P key acc).cache
      (planOne P key acc).issued := by
  obtain ⟨hcap, htake⟩ := victim_spec hv
  simp only [planOne, hv, evict]
  cases howner : acc.cache.owner (key / P.E, s) with
  | none =>
    simpa using h.assign howner hw.2 hcap hw.1
  | some old =>
    obtain ⟨_, hsome, hlive, _⟩ := htake.resolve_left (by simp [howner])
    obtain rfl := Option.some.inj (howner.symm.trans hsome)
    have hne : (key / P.E, key % P.E) ≠ (key / P.E, old) := fun hh => by
      have hslot := (h.slots.inverse _ _ _).mp howner
      rw [← hh, hw.2] at hslot
      exact Option.some_ne_none _ hslot.symm
    have hclear := h.clear howner hlive
    have hassign := hclear.assign (l := key / P.E) (s := s) (e := key % P.E) (by simp)
      (by simpa [Function.update_of_ne hne] using hw.2) hcap hw.1
    simpa [scatterInto_append] using hassign

/-- One iteration touches the slot of the miss it serves and of a live victim, nothing else. -/
theorem planOne_slot_of {key : Nat} {acc : PlanAcc} {le : Nat × Nat}
    (hle : le ≠ (key / P.E, key % P.E)) :
    (planOne P key acc).cache.slot_of le = acc.cache.slot_of le ∧
        (planOne P key acc).cache.live le = acc.cache.live le ∨
      acc.cache.live le = true ∧ (planOne P key acc).cache.slot_of le = none ∧
        (planOne P key acc).cache.live le = false := by
  unfold planOne
  dsimp only
  split
  · exact .inl ⟨rfl, rfl⟩
  · rename_i s hv
    unfold evict
    split
    · exact .inl ⟨Function.update_of_ne hle _ _, rfl⟩
    · rename_i old howner
      by_cases hold : le = (key / P.E, old)
      · obtain ⟨_, hsome, hlive, _⟩ := (victim_spec hv).2.resolve_left (by simp [howner])
        obtain rfl := Option.some.inj (howner.symm.trans hsome)
        refine .inr ⟨hold ▸ hlive, ?_, by simp [hold]⟩
        simp only [Function.update_of_ne hle]
        rw [hold, Function.update_self]
      · exact .inl ⟨by simp [Function.update_of_ne hle, Function.update_of_ne hold],
          by simp [Function.update_of_ne hold]⟩

/-- The served miss is not live afterwards either: its copy has yet to land. -/
theorem planOne_live {key : Nat} {acc : PlanAcc} {le : Nat × Nat} (h : acc.cache.live le = false) :
    (planOne P key acc).cache.live le = false := by
  unfold planOne evict
  dsimp only
  split
  · exact h
  · split
    · exact h
    · simp only [Function.update_apply]
      split_ifs
      · rfl
      · exact h

/-- An iteration writes no book but the slots'. -/
theorem planOne_books (P : Params) (key : Nat) (acc : PlanAcc) :
    (planOne P key acc).cache.pending = acc.cache.pending ∧
      (planOne P key acc).cache.steps = acc.cache.steps ∧
      (planOne P key acc).cache.step = acc.cache.step ∧
      (planOne P key acc).cache.events = acc.cache.events := by
  unfold planOne evict
  dsimp only
  split
  · exact ⟨rfl, rfl, rfl, rfl⟩
  · split <;> exact ⟨rfl, rfl, rfl, rfl⟩

theorem planOne_keeps {key : Nat} {acc : PlanAcc} (hw : Wanted P acc.cache key)
    (hlive : acc.cache.live (key / P.E, key % P.E) = false) :
    Keeps acc.cache (planOne P key acc).cache := by
  have hbooks := planOne_books P key acc
  refine ⟨hbooks.1, hbooks.2.1, hbooks.2.2.1, hbooks.2.2.2, fun le hs hl => ?_, fun le hl => ?_⟩
  · have hle : le ≠ (key / P.E, key % P.E) := fun hh => by simp [hh, hw.2] at hs
    rcases planOne_slot_of hle with ⟨hs', hl'⟩ | ⟨hlive', _⟩
    · exact ⟨hs', hl'.trans hl⟩
    · simp [hlive'] at hl
  · have hle : le ≠ (key / P.E, key % P.E) := fun hh => by
      rw [hh, planOne_live hlive] at hl
      exact Bool.false_ne_true hl
    rcases planOne_slot_of hle with ⟨hs', hl'⟩ | ⟨_, _, hdead⟩
    · exact ⟨hl'.symm.trans hl, hs'⟩
    · simp [hdead] at hl

theorem key_of_div_mod {key key' : Nat} (h : (key / P.E, key % P.E) = (key' / P.E, key' % P.E)) :
    key = key' := by
  obtain ⟨hd, hm⟩ := Prod.mk.inj h
  rw [← Nat.div_add_mod key P.E, ← Nat.div_add_mod key' P.E, hd, hm]

/-- The step lemma of `_plan`'s loop. -/
theorem planOne_spec {key : Nat} {keys : List Nat} {acc : PlanAcc}
    (h : Planning P t c (key :: keys) acc) (hkey : key ∉ keys) :
    Planning P t c keys (planOne P key acc) := by
  have hw := h.wanted key List.mem_cons_self
  refine ⟨?_, ?_, ?_, h.keeps.trans (planOne_keeps hw (h.good.slots.live_false hw.2))⟩
  · cases hv : victim P acc.cache (key / P.E) with
    | none =>
      simp only [planOne, hv]
      exact h.good
    | some s => exact planOne_good h.good hw hv
  · intro key' hkey'
    obtain ⟨hhost, hnone⟩ := h.wanted key' (List.mem_cons_of_mem _ hkey')
    refine ⟨hhost, ?_⟩
    have hne : (key' / P.E, key' % P.E) ≠ (key / P.E, key % P.E) := fun hh =>
      hkey (key_of_div_mod hh ▸ hkey')
    rcases planOne_slot_of hne with ⟨hs, _⟩ | ⟨_, hs, _⟩
    · exact hs.trans hnone
    · exact hs
  · intro hissued
    cases hv : victim P acc.cache (key / P.E) with
    | none =>
      simp only [planOne, hv] at hissued ⊢
      exact h.quiet hissued
    | some s => simp [planOne, hv] at hissued

/-- The run lemma of `_plan`'s loop. -/
theorem planLoop_spec {keys : List Nat} {acc : PlanAcc} (h : Planning P t c keys acc)
    (hkeys : keys.Nodup) : Planning P t c [] (planLoop P keys acc) := by
  induction keys generalizing acc with
  | nil => exact h
  | cons key rest ih =>
    rw [List.nodup_cons] at hkeys
    unfold planLoop
    split_ifs
    · exact ⟨h.good, by simp, h.quiet, h.keeps⟩
    · exact ih (planOne_spec h hkeys.1) hkeys.2

theorem unique_fst (keys : List Nat) :
    (unique keys).map Prod.fst = keys.dedup.insertionSort (· ≤ ·) := by
  simp [unique, Function.comp_def]

/-- The ordered misses are the wanted flat keys, each once. -/
theorem missOrder_perm (clock : Nat) (keys : List Nat) :
    (missOrder P clock (unique keys)).Perm keys.dedup := by
  rw [missOrder]
  refine ((List.perm_insertionSort _ _).map _).trans ?_
  rw [unique_fst]
  exact List.perm_insertionSort _ _

/-- The state `_plan`'s loop starts from. -/
theorem planStart_spec (h : Good P t c []) (ids : List (Nat × Nat)) :
    Planning P t c (planStart P ids c).2 ⟨(planStart P ids c).1, [], []⟩ ∧
      (planStart P ids c).2.Nodup := by
  have hperm := missOrder_perm (P := P) (c.clock + 1)
    (((ids.filter fun le => offloaded P le).filter fun le => (c.slot_of le).isNone).map
      fun le => le.1 * P.E + le.2)
  refine ⟨⟨?_, ?_, fun _ => rfl,
    ⟨rfl, rfl, rfl, rfl, fun le _ hl => ⟨rfl, hl⟩, fun le hl => ⟨hl, rfl⟩⟩⟩, ?_⟩
  · exact h.congr rfl rfl rfl rfl
  · intro key hkey
    have hmem := List.mem_dedup.mp (hperm.mem_iff.mp hkey)
    obtain ⟨⟨l, e⟩, hle, rfl⟩ := List.mem_map.mp hmem
    simp only [List.mem_filter, offloaded, decide_eq_true_eq, Option.isNone_iff_eq_none] at hle
    obtain ⟨⟨_, hhost⟩, hnone⟩ := hle
    have he := (Params.hosted_lt hhost).2
    have hE : 0 < P.E := by omega
    have hdiv : (l * P.E + e) / P.E = l := by
      rw [Nat.mul_comm, Nat.mul_add_div hE, Nat.div_eq_of_lt he, Nat.add_zero]
    have hmod : (l * P.E + e) % P.E = e := by
      rw [Nat.mul_comm, Nat.mul_add_mod, Nat.mod_eq_of_lt he]
    exact ⟨by rwa [hdiv, hmod], by rw [hdiv, hmod]; exact hnone⟩
  · exact hperm.nodup_iff.mpr (List.nodup_dedup _)

/-- What `_plan` can do: nothing but bookkeeping, or promote a non-empty list of experts. -/
theorem plan_cases (h : Good P t c []) (ids : List (Nat × Nat)) :
    (∃ c', plan P ids c = (c', ⟨[], []⟩) ∧ Good P t c' [] ∧ Keeps c c') ∨
      ∃ c' issued updates, plan P ids c = promote P issued updates c' ∧
        Good P (scatterInto t updates) c' issued ∧ Keeps c c' := by
  obtain ⟨hstart, hnodup⟩ := planStart_spec h ids
  have hloop := planLoop_spec hstart hnodup
  set acc := planLoop P (planStart P ids c).2 ⟨(planStart P ids c).1, [], []⟩ with hacc
  have hplan : plan P ids c =
      if acc.issued.isEmpty then (acc.cache, ⟨[], []⟩)
      else promote P acc.issued acc.updates acc.cache := rfl
  by_cases hempty : acc.issued = []
  · have hgood := hloop.good
    rw [hempty, hloop.quiet hempty] at hgood
    exact .inl ⟨acc.cache, by rw [hplan, hempty]; rfl, hgood, hloop.keeps⟩
  · exact .inr ⟨acc.cache, acc.issued, acc.updates,
      by rw [hplan, if_neg (by simpa using hempty)], hloop.good, hloop.keeps⟩

/-- `_promote` files the issued experts under a new batch and leaves the table to its write. -/
theorem promote_good {issued : List (Nat × Nat)} {updates : List (Nat × Addr)}
    (h : Good P (scatterInto t updates) c issued) :
    Good P (replay t (promote P issued updates c).2.main) (promote P issued updates c).1 [] := by
  have hmain : (promote P issued updates c).2.main = write updates ++ [.record c.events] := rfl
  rw [hmain, replay_append, replay_write, replay_record]
  refine ⟨⟨h.slots.inverse, h.slots.slot_lt, h.slots.hosted, h.slots.live_slot, fun le => ?_⟩,
    h.table.congr rfl rfl⟩
  have hcount := h.slots.inFlight le
  have hnew : (promote P issued updates c).1.inFlight = c.inFlight ++ issued := by
    simp [promote, Cache.inFlight]
  rw [List.nil_append, hnew, List.count_append, Nat.add_comm, ← List.count_append]
  exact hcount

theorem plan_good (h : Good P t c []) (ids : List (Nat × Nat)) :
    Good P (replay t (plan P ids c).2.main) (plan P ids c).1 [] := by
  rcases plan_cases h ids with ⟨c', hplan, hgood, _⟩ | ⟨c', issued, updates, hplan, hgood, _⟩
  · rw [hplan]
    exact hgood
  · rw [hplan]
    exact promote_good hgood

/-! ## Calls and runs -/

/-- What `step_begin` can do: flip the landed batches, then either stop or plan. -/
theorem stepBegin_cases (P : Params) (o : Observed) (c : Cache) :
    ∃ c' : Cache, c' = { (flipLanded P o.landed c).1 with
        steps := (flipLanded P o.landed c).1.steps.drop o.finished } ∧
      (stepBegin P o c = (c', ⟨write (flipLanded P o.landed c).2, []⟩) ∨
        ∃ ids, stepBegin P o c = ((plan P ids c').1,
          ⟨write (flipLanded P o.landed c).2 ++ (plan P ids c').2.main,
            (plan P ids c').2.side⟩)) := by
  refine ⟨_, rfl, ?_⟩
  unfold stepBegin
  dsimp only
  split
  · exact .inl rfl
  · exact .inr ⟨_, rfl⟩

theorem stepBegin_good (h : Good P t c []) (o : Observed) :
    Good P (replay t (stepBegin P o c).2.main) (stepBegin P o c).1 [] := by
  obtain ⟨hflip, _⟩ := flipLanded_spec h o.landed
  obtain ⟨c', rfl, hstop | ⟨ids, hplan⟩⟩ := stepBegin_cases P o c
  · rw [hstop, replay_write]
    exact hflip.congr rfl rfl rfl rfl
  · rw [hplan, replay_append, replay_write]
    exact plan_good (c := { (flipLanded P o.landed c).1 with
      steps := (flipLanded P o.landed c).1.steps.drop o.finished })
      (hflip.congr rfl rfl rfl rfl) ids

theorem stepEnd_good (h : Good P t c []) (decodes : Nat) :
    Good P (replay t (stepEnd P decodes c).2.main) (stepEnd P decodes c).1 [] := by
  unfold stepEnd
  dsimp only
  split_ifs <;> exact h.congr rfl rfl rfl rfl

/-- The step lemma of a run. -/
theorem call_good (h : Good P t c []) (a : Call) :
    Good P (replay t (call P c a).2.main) (call P c a).1 [] := by
  cases a with
  | stepBegin o => exact stepBegin_good h o
  | stepEnd tokens decodes => exact stepEnd_good h decodes

/-- The run lemma: the invariant holds after every sequence of calls, of the table that replaying
every write in issue order leaves behind. -/
theorem run_good (P : Params) (calls : List Call) :
    Good P (replay P.table0 (run P calls).2) (run P calls).1 [] := by
  induction calls using List.reverseRecOn with
  | nil => exact (fill_good P).1
  | append_singleton calls a ih =>
    have hstep : run P (calls ++ [a]) = ((call P (run P calls).1 a).1,
        (run P calls).2 ++ (call P (run P calls).1 a).2.main) := by
      rw [run, List.foldl_append, ← run]
      rfl
    rw [hstep, replay_append]
    exact call_good ih a

/-- The state invariant of every run. `owner` and `slot_of` are mutually inverse partial injections
within range, a live expert has a slot, the occurrences of an expert over all pending batches number
one if it has a slot and is not live and none otherwise, and the replayed table holds the slot
address of a live expert, the host row address of one that is not, and the initial device address
wherever nothing is hosted. -/
theorem run_state_invariant (P : Params) (calls : List Call) :
    (∀ l e s, (run P calls).1.owner (l, s) = some e ↔ (run P calls).1.slot_of (l, e) = some s) ∧
    (∀ l e s, (run P calls).1.slot_of (l, e) = some s → s < P.capacity l) ∧
    (∀ l e, (run P calls).1.live (l, e) = true → ((run P calls).1.slot_of (l, e)).isSome) ∧
    (∀ l e, (run P calls).1.inFlight.count (l, e) =
      if ((run P calls).1.slot_of (l, e)).isSome ∧ (run P calls).1.live (l, e) = false
      then 1 else 0) ∧
    (∀ l j e row, P.hostRow l j e = some row →
      ((run P calls).1.live (l, e) = true → ∃ s, (run P calls).1.slot_of (l, e) = some s ∧
        replay P.table0 (run P calls).2 (P.entry l j e) = slotAddr l j s) ∧
      ((run P calls).1.live (l, e) = false →
        replay P.table0 (run P calls).2 (P.entry l j e) = .host l j row)) ∧
    (∀ l j e, e < P.E → P.hostRow l j e = none →
      replay P.table0 (run P calls).2 (P.entry l j e) = .device l j e ∧
      P.table0 (P.entry l j e) = .device l j e) := by
  have h := run_good P calls
  refine ⟨h.slots.inverse, h.slots.slot_lt, fun l e => h.slots.live_slot (l, e),
    fun l e => h.slots.inFlight (l, e), ?_, ?_⟩
  · intro l j e row hrow
    have hentry := h.table l j e (Params.hostRow_lt hrow).2
    refine ⟨fun hlive => ?_, fun hlive => ?_⟩
    · obtain ⟨s, hs⟩ := Option.isSome_iff_exists.mp (h.slots.live_slot (l, e) hlive)
      exact ⟨s, hs, by rw [hentry, pointer, hrow]; simp [hlive, hs]⟩
    · rw [hentry, pointer, hrow]
      simp [hlive]
  · intro l j e he hnone
    refine ⟨?_, ?_⟩
    · rw [h.table l j e he, pointer, hnone]
    · rw [Params.table0_entry he, Params.trellisPtr, hnone]

end VllmExl3.ExpertCache
