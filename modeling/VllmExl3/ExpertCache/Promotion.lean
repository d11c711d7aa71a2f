/-
# VllmExl3.ExpertCache.Promotion — what one `_plan` call promotes and what it evicts

`_plan` orders a block's misses by how often they were routed and gives each a slot of its layer
until the budget is spent; a slot changes hands by evicting the least recently used expert that has
landed and that the block did not route. `Promotion` records one iteration that found a slot, and
`Policy` says what the records of a whole call satisfy, in terms of the state the call started from
and the state it left.
-/
import VllmExl3.ExpertCache.Controller

namespace VllmExl3.ExpertCache

variable {P : Params} {c : Cache} {t : Nat → Addr} {l e s : Nat} {ids : List (Nat × Nat)}

/-! ## The record of a call -/

/-- One promotion: expert `e` of layer `l` gets slot `s`, which `evicted` held before. -/
structure Promotion where
  l : Nat
  e : Nat
  s : Nat
  evicted : Option Nat
  deriving DecidableEq, Repr

namespace Promotion

/-- The expert promoted. -/
def expert (p : Promotion) : Nat × Nat := (p.l, p.e)

/-- The expert evicted, if the slot was taken. -/
def victim (p : Promotion) : Option (Nat × Nat) := p.evicted.map fun v => (p.l, v)

end Promotion

/-- What the iteration of `_plan`'s loop for `key` promotes. -/
def promotion (P : Params) (key : Nat) (acc : PlanAcc) : Option Promotion :=
  (victim P acc.cache (key / P.E)).map fun s =>
    ⟨key / P.E, key % P.E, s, acc.cache.owner (key / P.E, s)⟩

/-- What `planLoop` promotes, iteration by iteration. -/
def promotions (P : Params) : List Nat → PlanAcc → List Promotion
  | [], _ => []
  | key :: keys, acc =>
    if (acc.issued.length : Int) ≥ P.budget then []
    else (promotion P key acc).toList ++ promotions P keys (planOne P key acc)

/-- What one `_plan` call promotes. -/
def planned (P : Params) (ids : List (Nat × Nat)) (c : Cache) : List Promotion :=
  promotions P (planStart P ids c).2 ⟨(planStart P ids c).1, [], []⟩

/-- The experts a list of promotions evicts. -/
def victims (ps : List Promotion) : List (Nat × Nat) := ps.filterMap Promotion.victim

/-- An offloaded expert the block routed that holds no slot and is not on the way to one. -/
def Miss (P : Params) (ids : List (Nat × Nat)) (c : Cache) (le : Nat × Nat) : Prop :=
  le.2 ∈ P.hosted le.1 ∧ le ∈ ids ∧ c.slot_of le = none

/-- A slot a promotion could still take: a free one, or one whose owner has landed and was not
routed in the block. -/
def Eligible (ids : List (Nat × Nat)) (c : Cache) (l s : Nat) : Prop :=
  c.owner (l, s) = none ∨ ∃ v, c.owner (l, s) = some v ∧ c.live (l, v) = true ∧ (l, v) ∉ ids

/-- The promotion policy of a call that planned from `ids`, started at `c`, left `c'` and made the
promotions `ps`, in that order. -/
structure Policy (P : Params) (ids : List (Nat × Nat)) (c c' : Cache) (ps : List Promotion) :
    Prop where
  /-- The experts promoted are the batch the call files, each in its slot, and the experts evicted
  are those that stop being live. -/
  filed : c'.inFlight = c.inFlight ++ ps.map Promotion.expert
  placed : ∀ p ∈ ps, c'.owner (p.l, p.s) = some p.e
  cleared : ∀ le, c'.live le = true ↔ c.live le = true ∧ le ∉ victims ps
  budget : (ps.length : Int) ≤ max P.budget 0
  misses : ∀ p ∈ ps, Miss P ids c p.expert
  /-- A victim held the slot, was live and unrouted, and nothing that could have been evicted from
  its layer at that point was used less recently. -/
  lru : ∀ before p after, ps = before ++ p :: after → ∀ v, p.evicted = some v →
    c.owner (p.l, p.s) = some v ∧ c.live (p.l, v) = true ∧ (p.l, v) ∉ ids ∧
      ∀ v', c.live (p.l, v') = true → (p.l, v') ∉ ids → (p.l, v') ∉ victims before →
        c.last_use (p.l, v) ≤ c.last_use (p.l, v')
  promoted_once : (ps.map Promotion.expert).Nodup
  evicted_once : (victims ps).Nodup
  unpromoted : ∀ le, Miss P ids c le → le ∉ ps.map Promotion.expert →
    (P.budget ≤ ps.length ∧ ∀ p ∈ ps, ids.count le ≤ ids.count p.expert) ∨
      ∀ s < P.capacity le.1, ¬ Eligible ids c' le.1 s

/-! ## `_victim` takes the least recently used -/

/-- Slot `s` holds a landed expert `e` last used before the current block. -/
def Evictable (c : Cache) (l s e : Nat) : Prop :=
  c.owner (l, s) = some e ∧ c.live (l, e) = true ∧ c.last_use (l, e) < c.clock

/-- `victimScan`'s invariant once the slots `seen` are behind it: `best` is an evictable slot of
`seen` with its owner's last use, and no evictable slot of `seen` was used less recently. -/
structure Least (c : Cache) (l : Nat) (seen : List Nat) (best : Option (Nat × Int)) : Prop where
  found : ∀ b, best = some b → ∃ e, Evictable c l b.1 e ∧ b.2 = c.last_use (l, e)
  least : ∀ s ∈ seen, ∀ e, Evictable c l s e → ∃ b, best = some b ∧ b.2 ≤ c.last_use (l, e)

/-- A slot that is not evictable leaves the invariant as it was. -/
theorem Least.skip {seen : List Nat} {best : Option (Nat × Int)} (h : Least c l seen best)
    (hs : ∀ e, ¬ Evictable c l s e) : Least c l (seen ++ [s]) best := by
  refine ⟨h.found, ?_⟩
  intro s' hs' e he
  rcases List.mem_append.mp hs' with hseen | hnew
  · exact h.least s' hseen e he
  · rw [List.mem_singleton.mp hnew] at he
    exact absurd he (hs e)

/-- A slot has one owner. -/
theorem Evictable.unique {e' : Nat} (h : Evictable c l s e) (h' : Evictable c l s e') : e' = e :=
  Option.some.inj (h'.1.symm.trans h.1)

/-- An evictable slot used no later than the best so far takes its place. -/
theorem Least.take {seen : List Nat} {best : Option (Nat × Int)} (h : Least c l seen best)
    (he : Evictable c l s e) (hless : ∀ b, best = some b → c.last_use (l, e) ≤ b.2) :
    Least c l (seen ++ [s]) (some (s, c.last_use (l, e))) := by
  refine ⟨?_, ?_⟩
  · intro b hb
    rw [← Option.some.inj hb]
    exact ⟨e, he, rfl⟩
  · intro s' hs' e' he'
    refine ⟨_, rfl, ?_⟩
    rcases List.mem_append.mp hs' with hseen | hnew
    · obtain ⟨b, hb, hle⟩ := h.least s' hseen e' he'
      exact (hless b hb).trans hle
    · rw [List.mem_singleton.mp hnew] at he'
      rw [he.unique he']

/-- One used no earlier is passed over. -/
theorem Least.pass {seen : List Nat} {b : Nat × Int} (h : Least c l seen (some b))
    (he : Evictable c l s e) (hle : b.2 ≤ c.last_use (l, e)) : Least c l (seen ++ [s]) (some b) := by
  refine ⟨h.found, ?_⟩
  intro s' hs' e' he'
  rcases List.mem_append.mp hs' with hseen | hnew
  · exact h.least s' hseen e' he'
  · rw [List.mem_singleton.mp hnew] at he'
    rw [he.unique he']
    exact ⟨b, rfl, hle⟩

/-- The step lemma of the scan. -/
theorem Least.step {seen : List Nat} {best : Option (Nat × Int)} (h : Least c l seen best)
    (s : Nat) : Least c l (seen ++ [s]) (victimScan c l best s) := by
  unfold victimScan
  cases howner : c.owner (l, s) with
  | none =>
    apply h.skip
    intro e he
    simp [he.1] at howner
  | some e =>
    have howned : ∀ e', Evictable c l s e' → e' = e := fun e' he' => by
      simpa [howner] using he'.1.symm
    dsimp only
    split_ifs with hlive huse
    · apply h.skip
      intro e' he'
      simp [← howned e' he', he'.2.1] at hlive
    · apply h.skip
      intro e' he'
      have := he'.2.2
      rw [howned e' he'] at this
      omega
    · have he : Evictable c l s e := ⟨howner, by simpa using hlive, by omega⟩
      cases best with
      | none => exact h.take he fun b hb => nomatch hb
      | some b =>
        obtain ⟨b, use⟩ := b
        dsimp only
        split_ifs with hless
        · apply h.take he
          intro b' hb'
          obtain rfl := Option.some.inj hb'
          exact hless.le
        · exact h.pass he (not_lt.mp hless)

/-- The run lemma of the scan. -/
theorem least_scan (c : Cache) (l : Nat) (ss : List Nat) :
    Least c l ss (ss.foldl (victimScan c l) none) := by
  induction ss using List.reverseRecOn with
  | nil => exact ⟨by simp, by simp⟩
  | append_singleton ss s ih =>
    rw [List.foldl_append, List.foldl_cons, List.foldl_nil]
    exact ih.step s

/-- The slot `_victim` hands out is free, or its owner is the least recently used evictable expert
of the layer. -/
theorem victim_least (h : victim P c l = some s) : c.owner (l, s) = none ∨
    ∃ v, Evictable c l s v ∧ ∀ s' < P.capacity l, ∀ v', Evictable c l s' v' →
      c.last_use (l, v) ≤ c.last_use (l, v') := by
  unfold victim at h
  split at h
  · rename_i s' hfind
    obtain rfl := Option.some.inj h
    exact .inl (by simpa using List.find?_some hfind)
  · obtain ⟨b, hb, rfl⟩ := Option.map_eq_some_iff.mp h
    have hscan := least_scan c l (List.range (P.capacity l))
    obtain ⟨v, hv, huse⟩ := hscan.found b hb
    refine .inr ⟨v, hv, ?_⟩
    intro s' hs' v' hv'
    obtain ⟨b', hb', hle⟩ := hscan.least s' (List.mem_range.mpr hs') v' hv'
    rw [hb] at hb'
    rw [← huse, Option.some.inj hb']
    exact hle

/-- `_victim` finds nothing only when the layer has nothing to hand out. -/
theorem victim_eq_none (h : victim P c l = none) (hs : s < P.capacity l) : ¬ Takeable c l s := by
  unfold victim at h
  split at h
  · cases h
  · rename_i hfind
    have hfull := List.find?_eq_none.mp hfind s (List.mem_range.mpr hs)
    rintro (hfree | ⟨v, hv⟩)
    · simp [hfree] at hfull
    · obtain ⟨b, hb, _⟩ := (least_scan c l (List.range (P.capacity l))).least s
        (List.mem_range.mpr hs) v hv
      simp [hb] at h

/-! ## One iteration -/

section Iteration

variable {key : Nat} {acc : PlanAcc}

/-- An iteration that finds no slot changes nothing. -/
theorem planOne_of_none (h : promotion P key acc = none) : planOne P key acc = acc := by
  simp only [promotion, Option.map_eq_none_iff] at h
  simp [planOne, h]

/-- An iteration that promotes: what it issues and which experts stay live. -/
theorem planOne_of_some {p : Promotion} (h : promotion P key acc = some p) :
    (planOne P key acc).issued = acc.issued ++ [p.expert] ∧
      ∀ le, (planOne P key acc).cache.live le = true ↔
        acc.cache.live le = true ∧ le ∉ p.victim.toList := by
  obtain ⟨s, hs, rfl⟩ := Option.map_eq_some_iff.mp h
  refine ⟨?_, ?_⟩
  · simp [planOne, hs, Promotion.expert]
  · intro le
    simp only [planOne, hs, evict, Promotion.victim]
    cases acc.cache.owner (key / P.E, s) with
    | none => simp
    | some old =>
      by_cases hle : le = (key / P.E, old)
      · simp [hle]
      · simp [hle]

/-- The clock and the last uses stand still while the loop runs. -/
theorem planOne_uses (P : Params) (key : Nat) (acc : PlanAcc) :
    (planOne P key acc).cache.clock = acc.cache.clock ∧
      (planOne P key acc).cache.last_use = acc.cache.last_use := by
  unfold planOne evict
  dsimp only
  split
  · exact ⟨rfl, rfl⟩
  · split <;> exact ⟨rfl, rfl⟩

/-- The slot served keeps its new owner, and no slot becomes takeable. -/
theorem planOne_takeable {l s : Nat} (hw : acc.cache.live (key / P.E, key % P.E) = false)
    (h : Takeable (planOne P key acc).cache l s) : Takeable acc.cache l s := by
  cases hv : victim P acc.cache (key / P.E) with
  | none => simpa [planOne, hv] using h
  | some s₀ =>
    have huse := (planOne_uses P key acc).2
    have hclock := (planOne_uses P key acc).1
    have howner : (planOne P key acc).cache.owner =
        Function.update acc.cache.owner (key / P.E, s₀) (some (key % P.E)) := by
      simp only [planOne, hv, evict]
      split <;> rfl
    have hlive : (planOne P key acc).cache.live (key / P.E, key % P.E) = false := planOne_live hw
    by_cases hs : (l, s) = (key / P.E, s₀)
    · -- the new owner's copy has yet to land
      obtain ⟨rfl, rfl⟩ := Prod.mk.inj hs
      rcases h with hfree | ⟨e, he, hl, _⟩
      · simp [howner] at hfree
      · obtain rfl : key % P.E = e := by simpa [howner] using he
        simp [hlive] at hl
    · rw [Takeable, howner, Function.update_of_ne hs, huse, hclock] at h
      apply h.imp_right
      rintro ⟨e, he, hl, hu⟩
      refine ⟨e, he, ?_, hu⟩
      by_contra hdead
      have hdead' : (planOne P key acc).cache.live (l, e) = false := planOne_live (by simpa using hdead)
      simp [hdead'] at hl

end Iteration

/-! ## The whole loop -/

section Loop

variable {keys : List Nat} {acc : PlanAcc}

theorem victims_cons (p : Promotion) (ps : List Promotion) :
    victims (p :: ps) = p.victim.toList ++ victims ps := by
  cases h : p.victim <;> simp [victims, h]

/-- The loop issues the experts it promotes. -/
theorem planLoop_issued (P : Params) (keys : List Nat) (acc : PlanAcc) :
    (planLoop P keys acc).issued = acc.issued ++ (promotions P keys acc).map Promotion.expert := by
  induction keys generalizing acc with
  | nil => simp [planLoop, promotions]
  | cons key rest ih =>
    unfold planLoop promotions
    split_ifs with hbudget
    · simp
    · rw [ih]
      cases hp : promotion P key acc with
      | none => simp [planOne_of_none hp]
      | some p => simp [(planOne_of_some hp).1]

/-- What is live after the loop was live before it and is nobody's victim. -/
theorem planLoop_live (P : Params) (keys : List Nat) (acc : PlanAcc) (le : Nat × Nat) :
    (planLoop P keys acc).cache.live le = true ↔
      acc.cache.live le = true ∧ le ∉ victims (promotions P keys acc) := by
  induction keys generalizing acc with
  | nil => simp [planLoop, promotions, victims]
  | cons key rest ih =>
    unfold planLoop promotions
    split_ifs with hbudget
    · simp [victims]
    · rw [ih]
      cases hp : promotion P key acc with
      | none => simp [planOne_of_none hp]
      | some p =>
        rw [Option.toList_some, List.singleton_append, victims_cons, List.mem_append, not_or,
          (planOne_of_some hp).2, and_assoc]

theorem promotions_length (P : Params) (keys : List Nat) (acc : PlanAcc) :
    (acc.issued.length + (promotions P keys acc).length : Int) ≤
      max P.budget acc.issued.length := by
  induction keys generalizing acc with
  | nil => simp [promotions]
  | cons key rest ih =>
    unfold promotions
    split_ifs with hbudget
    · simp
    · have hrest := ih (planOne P key acc)
      cases hp : promotion P key acc with
      | none =>
        rw [planOne_of_none hp] at hrest
        simpa [planOne_of_none hp] using hrest
      | some p =>
        rw [(planOne_of_some hp).1] at hrest
        simp only [List.length_append, List.length_singleton, Option.toList_some,
          Nat.cast_add, Nat.cast_one] at hrest ⊢
        omega

/-- The flat key of a promoted expert. -/
def Promotion.key (P : Params) (p : Promotion) : Nat := p.l * P.E + p.e

theorem promotion_key {key : Nat} {p : Promotion} (h : promotion P key acc = some p) :
    p.key P = key ∧ p.expert = (key / P.E, key % P.E) := by
  obtain ⟨s, _, rfl⟩ := Option.map_eq_some_iff.mp h
  exact ⟨by rw [Promotion.key, Nat.mul_comm, Nat.div_add_mod], rfl⟩

/-- The promotions serve a sublist of the misses, in order. -/
theorem promotions_sublist (P : Params) (keys : List Nat) (acc : PlanAcc) :
    ((promotions P keys acc).map (Promotion.key P)).Sublist keys := by
  induction keys generalizing acc with
  | nil => simp [promotions]
  | cons key rest ih =>
    unfold promotions
    split_ifs with hbudget
    · simp
    · rw [List.map_append]
      cases hp : promotion P key acc with
      | none => exact (ih _).cons key
      | some p =>
        rw [Option.toList_some, List.map_singleton, (promotion_key hp).1]
        exact (ih _).cons_cons key

/-- Every promotion is its own key's expert. -/
theorem promotions_expert {p : Promotion} (h : p ∈ promotions P keys acc) :
    p.expert = (p.key P / P.E, p.key P % P.E) := by
  induction keys generalizing acc with
  | nil => simp [promotions] at h
  | cons key rest ih =>
    unfold promotions at h
    split_ifs at h with hbudget
    · cases h
    · rcases List.mem_append.mp h with hone | hrest
      · obtain ⟨hkey, hexpert⟩ := promotion_key (Option.mem_toList.mp hone)
        rw [hkey, hexpert]
      · exact ih hrest

/-- The clock and the last uses after the loop are those before it. -/
theorem planLoop_uses (P : Params) (keys : List Nat) (acc : PlanAcc) :
    (planLoop P keys acc).cache.clock = acc.cache.clock ∧
      (planLoop P keys acc).cache.last_use = acc.cache.last_use := by
  induction keys generalizing acc with
  | nil => exact ⟨rfl, rfl⟩
  | cons key rest ih =>
    unfold planLoop
    split_ifs with hbudget
    · exact ⟨rfl, rfl⟩
    · rw [(ih _).1, (ih _).2]
      exact planOne_uses P key acc

/-- The loop makes no slot takeable. -/
theorem planLoop_takeable (h : Planning P t c keys acc) (hkeys : keys.Nodup)
    (htake : Takeable (planLoop P keys acc).cache l s) : Takeable acc.cache l s := by
  induction keys generalizing acc with
  | nil => exact htake
  | cons key rest ih =>
    have hw := h.wanted key List.mem_cons_self
    rw [List.nodup_cons] at hkeys
    unfold planLoop at htake
    split_ifs at htake with hbudget
    · exact htake
    · apply planOne_takeable (h.good.slots.live_false hw.2)
      exact ih (planOne_spec h hkeys.1) hkeys.2 htake

/-- `p`, made after `before`, evicts the least recently used expert of its layer, judged by the
state `c` the promotions started from. -/
def LeastRecent (c : Cache) (before : List Promotion) (p : Promotion) : Prop :=
  ∀ v, p.evicted = some v → c.slot_of (p.l, v) = some p.s ∧ c.live (p.l, v) = true ∧
    c.last_use (p.l, v) < c.clock ∧
      ∀ v', c.live (p.l, v') = true → c.last_use (p.l, v') < c.clock →
        (p.l, v') ∉ victims before → c.last_use (p.l, v) ≤ c.last_use (p.l, v')

/-- The victim of one iteration. -/
theorem promotion_leastRecent (h : SlotInv P acc.cache extra) {key : Nat} {p : Promotion}
    (hp : promotion P key acc = some p) : LeastRecent acc.cache [] p := by
  obtain ⟨s, hs, rfl⟩ := Option.map_eq_some_iff.mp hp
  intro v hv
  rcases victim_least hs with hfree | ⟨w, hw, hleast⟩
  · exact absurd (hfree.symm.trans hv) (by simp)
  · obtain rfl : w = v := Option.some.inj (hw.1.symm.trans hv)
    refine ⟨(h.inverse _ _ _).mp hv, hw.2.1, hw.2.2, ?_⟩
    intro v' hlive huse _
    obtain ⟨s', hs'⟩ := Option.isSome_iff_exists.mp (h.live_slot _ hlive)
    exact hleast s' (h.slot_lt _ _ _ hs') v' ⟨(h.inverse _ _ _).mpr hs', hlive, huse⟩

/-- A victim chosen after an iteration, judged by the state before it. -/
theorem LeastRecent.of_planOne {key : Nat} {q p : Promotion} {before : List Promotion}
    (hq : promotion P key acc = some q) (hkeeps : Keeps acc.cache (planOne P key acc).cache)
    (h : LeastRecent (planOne P key acc).cache before p) :
    LeastRecent acc.cache (q :: before) p := by
  obtain ⟨hclock, huse⟩ := planOne_uses P key acc
  have hlive := (planOne_of_some hq).2
  intro v hv
  obtain ⟨hslot, hl, hu, hleast⟩ := h v hv
  rw [hclock, huse] at hu hleast
  refine ⟨?_, ((hlive _).mp hl).1, hu, ?_⟩
  · rw [← (hkeeps.stillLive _ hl).2]
    exact hslot
  · intro v' hl' hu' hnew
    rw [victims_cons, List.mem_append, not_or] at hnew
    exact hleast v' ((hlive _).mpr ⟨hl', hnew.1⟩) hu' hnew.2

/-- Every victim of the loop is least recently used when it is chosen. -/
theorem promotions_leastRecent (h : Planning P t c keys acc) (hkeys : keys.Nodup)
    {before after : List Promotion} {p : Promotion}
    (hp : promotions P keys acc = before ++ p :: after) : LeastRecent acc.cache before p := by
  induction keys generalizing acc before with
  | nil => simp [promotions] at hp
  | cons key rest ih =>
    have hw := h.wanted key List.mem_cons_self
    rw [List.nodup_cons] at hkeys
    have hnext := planOne_spec h hkeys.1
    unfold promotions at hp
    split_ifs at hp with hbudget
    · simp at hp
    · cases hq : promotion P key acc with
      | none =>
        rw [hq, planOne_of_none hq] at hp
        rw [planOne_of_none hq] at hnext
        exact ih hnext hkeys.2 hp
      | some q =>
        rw [hq, Option.toList_some, List.singleton_append] at hp
        cases before with
        | nil =>
          obtain ⟨rfl, _⟩ := List.cons.inj hp
          exact promotion_leastRecent h.good.slots hq
        | cons b before =>
          obtain ⟨rfl, hrest⟩ := List.cons.inj hp
          apply LeastRecent.of_planOne hq (planOne_keeps hw (h.good.slots.live_false hw.2))
          exact ih hnext hkeys.2 hrest

/-- Victims are evicted once: an evicted expert is no longer live. -/
theorem victims_nodup (h : Planning P t c keys acc) (hkeys : keys.Nodup) :
    (victims (promotions P keys acc)).Nodup ∧
      ∀ le ∈ victims (promotions P keys acc), acc.cache.live le = true := by
  induction keys generalizing acc with
  | nil => simp [promotions, victims]
  | cons key rest ih =>
    rw [List.nodup_cons] at hkeys
    have hnext := planOne_spec h hkeys.1
    unfold promotions
    split_ifs with hbudget
    · simp [victims]
    · obtain ⟨hnodup, hwas⟩ := ih hnext hkeys.2
      cases hq : promotion P key acc with
      | none =>
        rw [planOne_of_none hq] at hnodup hwas ⊢
        exact ⟨hnodup, hwas⟩
      | some q =>
        have hlive := (planOne_of_some hq).2
        rw [Option.toList_some, List.singleton_append, victims_cons]
        refine ⟨?_, ?_⟩
        · rw [List.nodup_append']
          refine ⟨?_, hnodup, ?_⟩
          · cases q.victim <;> simp
          · intro le hle hlater
            exact ((hlive le).mp (hwas le hlater)).2 hle
        · intro le hle
          rcases List.mem_append.mp hle with hnow | hlater
          · obtain ⟨v, hv, rfl⟩ := Option.map_eq_some_iff.mp (Option.mem_toList.mp hnow)
            exact (promotion_leastRecent h.good.slots hq v hv).2.1
          · exact ((hlive le).mp (hwas le hlater)).1

/-- A miss left out: either the budget went to misses ordered before it, or its layer has no slot
to hand out when the loop is over. -/
theorem unpromoted_cases {R : Nat → Nat → Prop} (h : Planning P t c keys acc) (hkeys : keys.Nodup)
    (hsorted : keys.Pairwise R) {key : Nat} (hkey : key ∈ keys)
    (hout : key ∉ (promotions P keys acc).map (Promotion.key P)) :
    (P.budget ≤ (planLoop P keys acc).issued.length ∧
        ∀ p ∈ promotions P keys acc, R (p.key P) key) ∨
      ∀ s < P.capacity (key / P.E), ¬ Takeable (planLoop P keys acc).cache (key / P.E) s := by
  induction keys generalizing acc with
  | nil => cases hkey
  | cons key₀ rest ih =>
    rw [List.nodup_cons] at hkeys
    rw [List.pairwise_cons] at hsorted
    have hnext := planOne_spec h hkeys.1
    have htake := fun s => planLoop_takeable (l := key / P.E) (s := s) hnext hkeys.2
    unfold promotions at hout ⊢
    unfold planLoop
    split_ifs at hout ⊢ with hbudget
    · exact .inl ⟨hbudget, by simp⟩
    · rw [List.map_append, List.mem_append, not_or] at hout
      rcases List.mem_cons.mp hkey with rfl | hrest
      · cases hq : promotion P key acc with
        | none =>
          -- the layer had nothing to hand out here, and gains nothing later
          refine .inr fun s hs htaken => ?_
          rw [promotion, Option.map_eq_none_iff] at hq
          apply victim_eq_none hq hs
          have := htake s htaken
          rwa [planOne_of_none (by rw [promotion, hq]; rfl)] at this
        | some q => exact absurd (by simp [hq, (promotion_key hq).1]) hout.1
      · rcases ih hnext hkeys.2 hsorted.2 hrest hout.2 with ⟨hfull, hbefore⟩ | hnone
        · refine .inl ⟨hfull, fun p hp => ?_⟩
          rcases List.mem_append.mp hp with hone | hlater
          · rw [(promotion_key (Option.mem_toList.mp hone)).1]
            exact hsorted.1 key hrest
          · exact hbefore p hlater
        · exact .inr hnone

/-- Every promoted expert ends up in the slot its record names. -/
theorem promotions_placed (h : Planning P t c keys acc) (hkeys : keys.Nodup) {p : Promotion}
    (hp : p ∈ promotions P keys acc) :
    (planLoop P keys acc).cache.slot_of p.expert = some p.s := by
  induction keys generalizing acc with
  | nil => simp [promotions] at hp
  | cons key rest ih =>
    rw [List.nodup_cons] at hkeys
    have hnext := planOne_spec h hkeys.1
    unfold promotions at hp
    unfold planLoop
    split_ifs at hp ⊢ with hbudget
    · cases hp
    · rcases List.mem_append.mp hp with hone | hrest
      · have hq := Option.mem_toList.mp hone
        obtain ⟨s, hs, rfl⟩ := Option.map_eq_some_iff.mp hq
        have hslot : (planOne P key acc).cache.slot_of (key / P.E, key % P.E) = some s := by
          simp [planOne, hs]
        have hissued : (key / P.E, key % P.E) ∈
            (planOne P key acc).issued ++ (planOne P key acc).cache.inFlight := by
          simp [(planOne_of_some hq).1, Promotion.expert]
        have hdead := (hnext.good.slots.of_mem hissued).2
        have hkeep := (planLoop_spec (c := (planOne P key acc).cache)
          ⟨hnext.good, hnext.wanted, hnext.quiet, ⟨rfl, rfl, rfl, rfl, fun _ _ hl => ⟨rfl, hl⟩,
            fun _ hl => ⟨hl, rfl⟩⟩⟩ hkeys.2).keeps
        rw [Promotion.expert, (hkeep.onTheWay _ (by simp [hslot]) hdead).1, hslot]
      · exact ih hnext hkeys.2 hrest

end Loop

/-! ## The order of the misses -/

instance (clock : Nat) :
    Std.Total fun a b : Nat × Nat => keyLe (missKey P clock a) (missKey P clock b) :=
  ⟨fun _ _ => by unfold keyLe; omega⟩

instance (clock : Nat) :
    IsTrans (Nat × Nat) fun a b => keyLe (missKey P clock a) (missKey P clock b) :=
  ⟨fun _ _ _ => by unfold keyLe; omega⟩

/-- Misses come most routed first. -/
theorem missOrder_pairwise (P : Params) (clock : Nat) (keys : List Nat) :
    (missOrder P clock (unique keys)).Pairwise fun k k' => keys.count k' ≤ keys.count k := by
  rw [missOrder, List.pairwise_map]
  have hsorted := List.pairwise_insertionSort
    (fun a b : Nat × Nat => keyLe (missKey P clock a) (missKey P clock b)) (unique keys)
  apply hsorted.imp_of_mem
  intro a b ha hb hle
  have hcount : ∀ kc ∈ (unique keys).insertionSort
      (fun a b => keyLe (missKey P clock a) (missKey P clock b)), kc.2 = keys.count kc.1 := by
    intro kc hkc
    rw [List.mem_insertionSort] at hkc
    obtain ⟨k, _, rfl⟩ := List.mem_map.mp hkc
    rfl
  rw [← hcount a ha, ← hcount b hb]
  simp only [keyLe, missKey] at hle
  omega

/-! ## Before the loop -/

theorem foldl_touch (les : List (Nat × Nat)) (t : Nat × Nat → Int) (v : Int) (le : Nat × Nat) :
    les.foldl (fun t le => Function.update t le v) t le = if le ∈ les then v else t le := by
  induction les generalizing t with
  | nil => simp
  | cons x rest ih =>
    rw [List.foldl_cons, ih]
    by_cases hrest : le ∈ rest
    · simp [hrest]
    · by_cases hx : le = x <;> simp [hrest, hx]

/-- The clock has passed every last use. -/
def Aged (c : Cache) : Prop := ∀ le, c.last_use le ≤ c.clock

/-- The flat keys of the misses a block yields, with repetition. -/
def wantedKeys (P : Params) (ids : List (Nat × Nat)) (c : Cache) : List Nat :=
  ((ids.filter fun le => offloaded P le).filter fun le => (c.slot_of le).isNone).map
    fun le => le.1 * P.E + le.2

theorem planStart_keys (P : Params) (ids : List (Nat × Nat)) (c : Cache) :
    (planStart P ids c).2 = missOrder P (c.clock + 1) (unique (wantedKeys P ids c)) := rfl

/-- After the touch, exactly the hosted experts the block routed were used at the new clock. -/
theorem planStart_last_use (P : Params) (ids : List (Nat × Nat)) (c : Cache) (le : Nat × Nat) :
    (planStart P ids c).1.last_use le =
      if le ∈ ids ∧ le.2 ∈ P.hosted le.1 then ((c.clock + 1 : Nat) : Int) else c.last_use le := by
  simp only [planStart, foldl_touch, List.mem_filter, offloaded, decide_eq_true_eq]

/-- So an expert with a slot is older than the new clock exactly when it was not routed. -/
theorem planStart_lt_clock (h : SlotInv P c extra) (haged : Aged c) {le : Nat × Nat}
    (hslot : (c.slot_of le).isSome) :
    (planStart P ids c).1.last_use le < (planStart P ids c).1.clock ↔ le ∉ ids := by
  obtain ⟨s, hs⟩ := Option.isSome_iff_exists.mp hslot
  have hhost := h.hosted le.1 le.2 s hs
  have hclock : (planStart P ids c).1.clock = c.clock + 1 := rfl
  have hle := haged le
  rw [planStart_last_use, hclock]
  by_cases hmem : le ∈ ids
  · simp [hmem, hhost]
  · simp only [hmem, false_and, if_false, not_false_iff, iff_true]
    omega

section Keys

variable {le : Nat × Nat}

theorem key_divMod (he : le.2 < P.E) :
    ((le.1 * P.E + le.2) / P.E, (le.1 * P.E + le.2) % P.E) = le := by
  have hE : 0 < P.E := by omega
  rw [Nat.mul_comm, Nat.mul_add_div hE, Nat.div_eq_of_lt he, Nat.add_zero, Nat.mul_add_mod,
    Nat.mod_eq_of_lt he]

/-- A miss is counted as often as the block routed it. -/
theorem count_wantedKeys (hmiss : Miss P ids c le) :
    (wantedKeys P ids c).count (le.1 * P.E + le.2) = ids.count le := by
  have he := (Params.hosted_lt hmiss.1).2
  rw [wantedKeys, List.count_eq_countP, List.countP_map, List.countP_filter, List.countP_filter,
    List.count_eq_countP]
  apply List.countP_congr
  intro le' _
  simp only [Function.comp_apply, offloaded, Bool.and_eq_true, beq_iff_eq, decide_eq_true_eq,
    Option.isNone_iff_eq_none]
  constructor
  · rintro ⟨⟨hkey, hnone⟩, hhost⟩
    rw [← key_divMod (P := P) (Params.hosted_lt hhost).2, hkey, key_divMod he]
  · rintro rfl
    exact ⟨⟨rfl, hmiss.2.2⟩, hmiss.1⟩

/-- The keys of a block are those of its misses. -/
theorem mem_wantedKeys {key : Nat} :
    key ∈ wantedKeys P ids c ↔ ∃ le, Miss P ids c le ∧ key = le.1 * P.E + le.2 := by
  simp only [wantedKeys, List.mem_map, List.mem_filter, offloaded, decide_eq_true_eq,
    Option.isNone_iff_eq_none]
  constructor
  · rintro ⟨le, ⟨⟨hid, hhost⟩, hnone⟩, rfl⟩
    exact ⟨le, ⟨hhost, hid, hnone⟩, rfl⟩
  · rintro ⟨le, ⟨hhost, hid, hnone⟩, rfl⟩
    exact ⟨le, ⟨⟨hid, hhost⟩, hnone⟩, rfl⟩

theorem mem_planStart_keys {key : Nat} :
    key ∈ (planStart P ids c).2 ↔ ∃ le, Miss P ids c le ∧ key = le.1 * P.E + le.2 := by
  rw [planStart_keys, (missOrder_perm _ _).mem_iff, List.mem_dedup, mem_wantedKeys]

end Keys

/-! ## The policy of one call -/

/-- What `_plan` leaves: the loop's slots, and the issued experts filed as a batch. -/
theorem plan_filed (P : Params) (ids : List (Nat × Nat)) (c : Cache) :
    (plan P ids c).1.inFlight =
        (planLoop P (planStart P ids c).2 ⟨(planStart P ids c).1, [], []⟩).cache.inFlight ++
          (planned P ids c).map Promotion.expert ∧
      (plan P ids c).1.owner =
        (planLoop P (planStart P ids c).2 ⟨(planStart P ids c).1, [], []⟩).cache.owner ∧
      (plan P ids c).1.live =
        (planLoop P (planStart P ids c).2 ⟨(planStart P ids c).1, [], []⟩).cache.live := by
  have hissued := planLoop_issued P (planStart P ids c).2 ⟨(planStart P ids c).1, [], []⟩
  rw [List.nil_append, ← planned] at hissued
  unfold plan
  dsimp only
  rw [hissued]
  split_ifs with hempty
  · rw [List.isEmpty_iff.mp hempty, List.append_nil]
    exact ⟨rfl, rfl, rfl⟩
  · simp [promote, Cache.inFlight]

/-- A promotion is of a miss, under its flat key. -/
theorem planned_miss {p : Promotion} (hp : p ∈ planned P ids c) :
    Miss P ids c p.expert ∧ p.key P = p.expert.1 * P.E + p.expert.2 := by
  have hmem := (promotions_sublist P _ _).subset (List.mem_map.mpr ⟨p, hp, rfl⟩)
  obtain ⟨le, hmiss, hkey⟩ := mem_planStart_keys.mp hmem
  have hle : p.expert = le := by
    rw [promotions_expert hp, hkey, key_divMod (Params.hosted_lt hmiss.1).2]
  rw [hle]
  exact ⟨hmiss, hkey⟩

/-- No expert is promoted twice. -/
theorem planned_once (h : Good P t c []) (ids : List (Nat × Nat)) :
    ((planned P ids c).map Promotion.expert).Nodup := by
  obtain ⟨-, hnodup⟩ := planStart_spec h ids
  have hkeys := hnodup.sublist (promotions_sublist P _ ⟨(planStart P ids c).1, [], []⟩)
  have hpair : (planned P ids c).Pairwise fun p q => p.key P ≠ q.key P := List.pairwise_map.mp hkeys
  apply List.pairwise_map.mpr
  apply hpair.imp
  intro p q hne hpq
  obtain ⟨hl, he⟩ := Prod.mk.inj hpq
  exact hne (by rw [Promotion.key, Promotion.key, hl, he])

/-- A slot that could be taken after the call could be taken when the loop was over. -/
theorem takeable_of_eligible (h : Good P t c []) (haged : Aged c) (ids : List (Nat × Nat))
    (helig : Eligible ids (plan P ids c).1 l s) :
    Takeable (planLoop P (planStart P ids c).2 ⟨(planStart P ids c).1, [], []⟩).cache l s := by
  obtain ⟨hstart, hnodup⟩ := planStart_spec h ids
  obtain ⟨-, howner, hlive⟩ := plan_filed P ids c
  rw [Eligible, howner, hlive] at helig
  apply helig.imp_right
  rintro ⟨v, hv, hl, hout⟩
  have hwas := ((planLoop_spec hstart hnodup).keeps.stillLive _ hl).1
  obtain ⟨hclock, huse⟩ := planLoop_uses P (planStart P ids c).2 ⟨(planStart P ids c).1, [], []⟩
  refine ⟨v, hv, hl, ?_⟩
  rw [hclock, huse]
  exact (planStart_lt_clock h.slots haged (h.slots.live_slot _ hwas)).mpr hout

/-- A miss is left out for the budget, spent on misses routed as often, or for want of a slot. -/
theorem planned_unpromoted (h : Good P t c []) (haged : Aged c) {le : Nat × Nat}
    (hmiss : Miss P ids c le) (hout : le ∉ (planned P ids c).map Promotion.expert) :
    (P.budget ≤ (planned P ids c).length ∧
        ∀ p ∈ planned P ids c, ids.count le ≤ ids.count p.expert) ∨
      ∀ s < P.capacity le.1, ¬ Eligible ids (plan P ids c).1 le.1 s := by
  obtain ⟨hstart, hnodup⟩ := planStart_spec h ids
  have hissued := planLoop_issued P (planStart P ids c).2 ⟨(planStart P ids c).1, [], []⟩
  rw [List.nil_append, ← planned] at hissued
  have hdm := key_divMod (P := P) (Params.hosted_lt hmiss.1).2
  obtain ⟨hdiv, _⟩ := Prod.mk.inj hdm
  have hsorted : (planStart P ids c).2.Pairwise _ := missOrder_pairwise P (c.clock + 1)
    (wantedKeys P ids c)
  have hleft : le.1 * P.E + le.2 ∉ (planned P ids c).map (Promotion.key P) := by
    intro hin
    obtain ⟨p, hp, hpkey⟩ := List.mem_map.mp hin
    obtain ⟨hmiss', hkey'⟩ := planned_miss hp
    apply hout
    refine List.mem_map.mpr ⟨p, hp, ?_⟩
    rw [← key_divMod (P := P) (Params.hosted_lt hmiss'.1).2, ← hkey', hpkey, hdm]
  have hmem := mem_planStart_keys.mpr ⟨le, hmiss, rfl⟩
  rcases unpromoted_cases hstart hnodup hsorted hmem hleft with ⟨hfull, hmore⟩ | hnone
  · refine .inl ⟨by rwa [hissued, List.length_map] at hfull, ?_⟩
    intro p hp
    obtain ⟨hmiss', hkey'⟩ := planned_miss hp
    have := hmore p hp
    rwa [hkey', count_wantedKeys hmiss, count_wantedKeys hmiss'] at this
  · refine .inr fun s hs helig => ?_
    rw [hdiv] at hnone
    exact hnone s hs (takeable_of_eligible h haged ids helig)

/-- A call from a state that keeps the invariant follows the policy. -/
theorem plan_policy (h : Good P t c []) (haged : Aged c) (ids : List (Nat × Nat)) :
    Policy P ids c (plan P ids c).1 (planned P ids c) := by
  obtain ⟨hstart, hnodup⟩ := planStart_spec h ids
  have hdone := planLoop_spec hstart hnodup
  obtain ⟨hflight, howner, hlive⟩ := plan_filed P ids c
  constructor
  case filed =>
    rw [hflight]
    exact congrArg (· ++ _) (congrArg (List.flatMap Prod.snd) hdone.keeps.pending)
  case placed =>
    intro p hp
    rw [howner]
    exact (hdone.good.slots.inverse _ _ _).mpr (promotions_placed hstart hnodup hp)
  case cleared =>
    intro le
    rw [hlive]
    exact planLoop_live P _ _ le
  case budget =>
    have hlen := promotions_length P (planStart P ids c).2 ⟨(planStart P ids c).1, [], []⟩
    rw [← planned] at hlen
    simpa using hlen
  case misses => exact fun p hp => (planned_miss hp).1
  case lru =>
    intro before p after hp v hv
    have hold : ∀ le, c.live le = true →
        ((planStart P ids c).1.last_use le < (planStart P ids c).1.clock ↔ le ∉ ids) := fun le hl =>
      planStart_lt_clock h.slots haged (h.slots.live_slot le hl)
    have huntouched : ∀ le, le ∉ ids → (planStart P ids c).1.last_use le = c.last_use le :=
      fun le hle => by simp [planStart_last_use, hle]
    obtain ⟨hslot, hl, huse, hleast⟩ := promotions_leastRecent hstart hnodup hp v hv
    have hout := (hold _ hl).mp huse
    refine ⟨(h.slots.inverse _ _ _).mpr hslot, hl, hout, ?_⟩
    intro v' hl' hout' hkept
    rw [← huntouched _ hout, ← huntouched _ hout']
    exact hleast v' hl' ((hold _ hl').mpr hout') hkept
  case promoted_once => exact planned_once h ids
  case evicted_once => exact (victims_nodup hstart hnodup).1
  case unpromoted => exact fun le hmiss hout => planned_unpromoted h haged hmiss hout

/-! ## Reachable states -/

/-- The state `step_begin` plans from: landed batches flipped, finished steps dropped. -/
def boundary (P : Params) (o : Observed) (c : Cache) : Cache :=
  { (flipLanded P o.landed c).1 with
    steps := (flipLanded P o.landed c).1.steps.drop o.finished }

/-- Nothing but the touch of `_plan` writes the clock or the last uses. -/
theorem flips_aged (done : List (Nat × Nat)) (acc : Cache × List (Nat × Addr)) (h : Aged acc.1) :
    Aged (done.foldl (flipOne P) acc).1 := by
  induction done generalizing acc with
  | nil => exact h
  | cons le rest ih => exact ih (flipOne P acc le) h

theorem boundary_aged (h : Aged c) (o : Observed) : Aged (boundary P o c) :=
  flips_aged (P := P) _ ({ c with pending := c.pending.drop o.landed }, []) h

theorem fill_aged (P : Params) : Aged (fill P).1 := by
  have hone : ∀ l (ses : List (Nat × Nat)) (acc : Cache × List (Nat × Addr)), Aged acc.1 →
      Aged (ses.foldl (fillOne P l) acc).1 := by
    intro l ses
    induction ses with
    | nil => exact fun _ h => h
    | cons se rest ih => exact fun acc h => ih (fillOne P l acc se) h
  suffices hall : ∀ (ls : List Nat) (acc : Cache × List (Nat × Addr)), Aged acc.1 →
      Aged (ls.foldl (fun acc l => (enumerate (fillOrder P l)).foldl (fillOne P l) acc) acc).1 from
    hall _ _ fun _ => by simp [Cache.blank]
  intro ls
  induction ls with
  | nil => exact fun _ h => h
  | cons l rest ih => exact fun acc h => ih _ (hone l _ acc h)

theorem plan_aged (h : Aged c) (ids : List (Nat × Nat)) : Aged (plan P ids c).1 := by
  obtain ⟨hclock, huse⟩ := planLoop_uses P (planStart P ids c).2 ⟨(planStart P ids c).1, [], []⟩
  have hplan : (plan P ids c).1.clock = (planStart P ids c).1.clock ∧
      (plan P ids c).1.last_use = (planStart P ids c).1.last_use := by
    rw [← hclock, ← huse]
    unfold plan
    dsimp only
    split_ifs <;> exact ⟨rfl, rfl⟩
  intro le
  rw [hplan.1, hplan.2, planStart_last_use]
  have hle := h le
  have hstart : (planStart P ids c).1.clock = c.clock + 1 := rfl
  rw [hstart]
  split_ifs
  · exact le_rfl
  · omega

theorem run_aged (P : Params) (calls : List Call) : Aged (run P calls).1 := by
  induction calls using List.reverseRecOn with
  | nil => exact fill_aged P
  | append_singleton calls a ih =>
    have hstep : (run P (calls ++ [a])).1 = (call P (run P calls).1 a).1 := by
      rw [run, List.foldl_append, ← run]
      rfl
    rw [hstep]
    cases a with
    | stepEnd tokens decodes =>
      simp only [call, stepEnd]
      split_ifs <;> exact ih
    | stepBegin o =>
      obtain ⟨c', rfl, hstop | ⟨ids, hplan⟩⟩ := stepBegin_cases P o (run P calls).1
      · rw [call, hstop]
        exact boundary_aged (P := P) ih ⟨o.landed, o.finished, o.ring⟩
      · rw [call, hplan]
        exact plan_aged (boundary_aged (P := P) ih ⟨o.landed, o.finished, o.ring⟩) ids

/-- From every state a run can plan from, with every list of routed experts, one `_plan` call
follows the promotion policy. -/
theorem run_plan_policy (P : Params) (calls : List Call) (o : Observed) (ids : List (Nat × Nat)) :
    Policy P ids (boundary P o (run P calls).1) (plan P ids (boundary P o (run P calls).1)).1
      (planned P ids (boundary P o (run P calls).1)) := by
  have hflip := (flipLanded_spec (run_good P calls) o.landed).1
  exact plan_policy (c := boundary P o (run P calls).1) (hflip.congr rfl rfl rfl rfl)
    (boundary_aged (run_aged P calls) o) ids

end VllmExl3.ExpertCache
