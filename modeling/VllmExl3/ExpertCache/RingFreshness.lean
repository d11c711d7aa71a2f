/-
# VllmExl3.ExpertCache.RingFreshness — the routing a `_plan` reads is the routing its step copied

The pinned ring has four slots, and a step's slot is its number modulo four. `step_end` files at most
three entries, which keeps a slot from being overwritten while its entry is queued as long as every
step files one. A step without decodes moves the number on and files nothing, so an entry can stay
queued until a step four, eight, … later copies over it.

The stream is in order: a `copy` leaves its slot undefined from its start to its end, and the event
behind it completes any time after. What each step copied is recorded beside the machine.
-/
import VllmExl3.ExpertCache.Controller
import VllmExl3.Lib.Reach

namespace VllmExl3.ExpertCache

/-! ## The ring -/

/-- The contents of `self.route`: for every layer, its rows of expert ids. -/
abbrev Block := Nat → List (List Nat)

/-- The operations of the main stream that matter to the ring. A forward rewrites part of the routing
buffer. -/
inductive RingOp where
  | route (f : Block → Block)
  | copy (slot step : Nat)
  | event (step : Nat)

/-- What `step_end`'s copy is on the stream, with the event recorded behind it. -/
def ringOps : MainOp → List RingOp
  | .ring slot step => [.copy slot step, .event step]
  | .scatter _ => []
  | .record _ => []
  | .kernel _ _ _ => []

/-- The controller with its routing buffer and its ring. `ring` is `none` where a copy is under way;
`copied` is what the copy of each step delivered. -/
structure RingSys where
  cache : Cache
  main : List RingOp
  route : Block
  copying : Option (Nat × Nat)
  ring : Nat → Option Block
  recorded : Nat → Bool
  copied : Nat → Option Block

/-- `torch.zeros((L, _ROWS, top_k))` -/
def zeroBlock (P : Params) (top_k : Nat) : Block := fun _ =>
  List.replicate P.rows (List.replicate top_k 0)

/-- After `__init__`. -/
def RingSys.start (P : Params) (top_k : Nat) : RingSys where
  cache := (fill P).1
  main := []
  route := zeroBlock P top_k
  copying := none
  ring := fun _ => some (zeroBlock P top_k)
  recorded := fun _ => false
  copied := fun _ => none

/-- What `step_begin` may find: it takes an entry only once its event has completed, and reads landed
memory as it is. -/
structure RingSys.Observes (sys : RingSys) (o : Observed) : Prop where
  finished : ∀ entry ∈ sys.cache.steps.take o.finished, sys.recorded entry.step = true
  ring : ∀ s block, sys.ring s = some block → o.ring s = block

/-- The steps of the system: three host calls and four device moves, interleaved arbitrarily. `ok`
restricts which steps may end in which states. -/
inductive RingStep (P : Params) (ok : Nat → Cache → Prop) : RingSys → RingSys → Prop
  | stepBegin (sys : RingSys) (o : Observed) (hobs : sys.Observes o) :
      RingStep P ok sys { sys with
        cache := (stepBegin P o sys.cache).1
        main := sys.main ++ (stepBegin P o sys.cache).2.main.flatMap ringOps }
  | forward (sys : RingSys) (fs : List (Block → Block)) :
      RingStep P ok sys { sys with main := sys.main ++ fs.map .route }
  | stepEnd (sys : RingSys) (decodes : Nat) (hok : ok decodes sys.cache) :
      RingStep P ok sys { sys with
        cache := (stepEnd P decodes sys.cache).1
        main := sys.main ++ (stepEnd P decodes sys.cache).2.main.flatMap ringOps }
  | route (sys : RingSys) (f : Block → Block) (rest : List RingOp)
      (hmain : sys.main = .route f :: rest) (hidle : sys.copying = none) :
      RingStep P ok sys { sys with main := rest, route := f sys.route }
  | copyStart (sys : RingSys) (slot step : Nat) (rest : List RingOp)
      (hmain : sys.main = .copy slot step :: rest) (hidle : sys.copying = none) :
      RingStep P ok sys { sys with
        main := rest
        copying := some (slot, step)
        ring := Function.update sys.ring slot none }
  | copyEnd (sys : RingSys) (slot step : Nat) (hcopying : sys.copying = some (slot, step)) :
      RingStep P ok sys { sys with
        copying := none
        ring := Function.update sys.ring slot (some sys.route)
        copied := Function.update sys.copied step (some sys.route) }
  | event (sys : RingSys) (step : Nat) (rest : List RingOp)
      (hmain : sys.main = .event step :: rest) (hidle : sys.copying = none) :
      RingStep P ok sys { sys with
        main := rest
        recorded := Function.update sys.recorded step true }

/-- The controller driving the ring. -/
def ringSystem (P : Params) (top_k : Nat) (ok : Nat → Cache → Prop) : System RingSys where
  init := fun sys => sys = RingSys.start P top_k
  step := RingStep P ok

/-- Whatever `step_begin` reads is what the step it is attributed to copied, whole; and no copy of a
later step is on its way to the slot of a queued entry. -/
structure Fresh (sys : RingSys) : Prop where
  reads : ∀ o, sys.Observes o → ∀ entry, (sys.cache.steps.take o.finished).getLast? = some entry →
    sys.copied entry.step = some (o.ring (entry.slot % RING))
  untouched : ∀ entry ∈ sys.cache.steps, ∀ slot step,
    .copy slot step ∈ sys.main ∨ sys.copying = some (slot, step) → entry.step < step →
      slot ≠ entry.slot

/-! ## The controller's queue -/

section Queue

variable {P : Params} {c : Cache}

/-- The entries that stay queued when a step files its own. -/
def kept (c : Cache) : List StepEntry :=
  if c.steps.length ≥ RING - 1 then c.steps.tail else c.steps

theorem mem_of_mem_kept {entry : StepEntry} (h : entry ∈ kept c) : entry ∈ c.steps := by
  unfold kept at h
  split at h
  · exact List.mem_of_mem_tail h
  · exact h

theorem fill_queue (P : Params) : (fill P).1.steps = [] ∧ (fill P).1.step = 0 := by
  have hlayer : ∀ (l : Nat) (ses : List (Nat × Nat)) (acc : Cache × List (Nat × Addr)),
      (ses.foldl (fillOne P l) acc).1.steps = acc.1.steps ∧
        (ses.foldl (fillOne P l) acc).1.step = acc.1.step := by
    intro l ses
    induction ses with
    | nil => exact fun acc => ⟨rfl, rfl⟩
    | cons se rest ih => exact fun acc => ih _
  have hlayers : ∀ (ls : List Nat) (acc : Cache × List (Nat × Addr)),
      (ls.foldl (fun acc l => (enumerate (fillOrder P l)).foldl (fillOne P l) acc) acc).1.steps =
          acc.1.steps ∧
        (ls.foldl (fun acc l => (enumerate (fillOrder P l)).foldl (fillOne P l) acc) acc).1.step =
          acc.1.step := by
    intro ls
    induction ls with
    | nil => exact fun acc => ⟨rfl, rfl⟩
    | cons l rest ih =>
      intro acc
      obtain ⟨hsteps, hstep⟩ := ih ((enumerate (fillOrder P l)).foldl (fillOne P l) acc)
      exact ⟨hsteps.trans (hlayer l _ acc).1, hstep.trans (hlayer l _ acc).2⟩
  exact hlayers (List.range P.L) (Cache.blank, [])

theorem flipLanded_queue (P : Params) (n : Nat) (c : Cache) :
    (flipLanded P n c).1.steps = c.steps ∧ (flipLanded P n c).1.step = c.step := by
  have hflips : ∀ (done : List (Nat × Nat)) (acc : Cache × List (Nat × Addr)),
      (done.foldl (flipOne P) acc).1.steps = acc.1.steps ∧
        (done.foldl (flipOne P) acc).1.step = acc.1.step := by
    intro done
    induction done with
    | nil => exact fun acc => ⟨rfl, rfl⟩
    | cons le rest ih => exact fun acc => ih _
  exact hflips _ ({ c with pending := c.pending.drop n }, [])

theorem planLoop_queue (keys : List Nat) (acc : PlanAcc) :
    (planLoop P keys acc).cache.steps = acc.cache.steps ∧
      (planLoop P keys acc).cache.step = acc.cache.step := by
  induction keys generalizing acc with
  | nil => exact ⟨rfl, rfl⟩
  | cons key keys ih =>
    rw [planLoop]
    split
    · exact ⟨rfl, rfl⟩
    · obtain ⟨_, hsteps, hstep, _⟩ := planOne_books P key acc
      exact ⟨(ih _).1.trans hsteps, (ih _).2.trans hstep⟩

theorem flatMap_write (updates : List (Nat × Addr)) : (write updates).flatMap ringOps = [] := by
  unfold write
  split <;> rfl

theorem plan_queue (ids : List (Nat × Nat)) (c : Cache) :
    (plan P ids c).1.steps = c.steps ∧ (plan P ids c).1.step = c.step ∧
      (plan P ids c).2.main.flatMap ringOps = [] := by
  have hloop := planLoop_queue (P := P) (planStart P ids c).2 ⟨(planStart P ids c).1, [], []⟩
  unfold plan
  dsimp only
  split
  · exact ⟨hloop.1, hloop.2, rfl⟩
  · refine ⟨hloop.1, hloop.2, ?_⟩
    rw [promote]
    dsimp only
    rw [List.flatMap_append, flatMap_write]
    rfl

/-- `step_begin` drops the entries it found finished and copies nothing into the ring. -/
theorem stepBegin_queue (P : Params) (o : Observed) (c : Cache) :
    (stepBegin P o c).1.steps = c.steps.drop o.finished ∧ (stepBegin P o c).1.step = c.step ∧
      (stepBegin P o c).2.main.flatMap ringOps = [] := by
  obtain ⟨hsteps, hstep⟩ := flipLanded_queue P o.landed c
  obtain ⟨c', rfl, hstop | ⟨ids, hplan⟩⟩ := stepBegin_cases P o c
  · rw [hstop]
    exact ⟨congrArg (List.drop o.finished) hsteps, hstep, flatMap_write _⟩
  · obtain ⟨hpsteps, hpstep, hmain⟩ := plan_queue (P := P) ids { (flipLanded P o.landed c).1 with
      steps := (flipLanded P o.landed c).1.steps.drop o.finished }
    rw [hplan]
    refine ⟨hpsteps.trans (congrArg (List.drop o.finished) hsteps), hpstep.trans hstep, ?_⟩
    rw [List.flatMap_append, flatMap_write, hmain]
    rfl

/-- `step_end` moves the number on; with decode rows, it files an entry and copies into its slot. -/
theorem stepEnd_queue (P : Params) (decodes : Nat) (c : Cache) :
    (stepEnd P decodes c).1.step = c.step + 1 ∧
      (min decodes P.rows = 0 ∧ (stepEnd P decodes c).1.steps = c.steps ∧
          (stepEnd P decodes c).2.main.flatMap ringOps = [] ∨
        min decodes P.rows ≠ 0 ∧
          (stepEnd P decodes c).1.steps =
            kept c ++ [⟨(c.step + 1) % RING, min decodes P.rows, c.step + 1⟩] ∧
          (stepEnd P decodes c).2.main.flatMap ringOps =
            [.copy ((c.step + 1) % RING) (c.step + 1), .event (c.step + 1)]) := by
  unfold stepEnd
  dsimp only
  by_cases hrows : min decodes P.rows = 0
  · rw [if_pos hrows]
    exact ⟨rfl, .inl ⟨hrows, rfl, rfl⟩⟩
  · rw [if_neg hrows]
    exact ⟨rfl, .inr ⟨hrows, rfl, rfl⟩⟩

end Queue

/-! ## What holds of a queued entry -/

/-- No copy into `slot` among the operations. -/
def Quiet (slot : Nat) (ops : List RingOp) : Prop := ∀ s m, .copy s m ∈ ops → s ≠ slot

/-- Where the copy of a queued entry is: still issued, under way, or landed; and after it nothing is
copied into its slot. Its event completes only behind it. -/
inductive Settling (sys : RingSys) (slot step : Nat) : Prop
  | issued (pre post : List RingOp)
      (hmain : sys.main = pre ++ .copy slot step :: .event step :: post)
      (hevent : .event step ∉ pre) (hbefore : ∀ s m, .copy s m ∈ pre → m < step)
      (hcopying : ∀ s m, sys.copying = some (s, m) → m < step)
      (hquiet : Quiet slot post) (hrec : sys.recorded step = false)
  | copying (post : List RingOp) (hcopying : sys.copying = some (slot, step))
      (hmain : sys.main = .event step :: post) (hquiet : Quiet slot post)
      (hrec : sys.recorded step = false)
  | landed (block : Block) (hring : sys.ring slot = some block)
      (hcopied : sys.copied step = some block)
      (hcopying : ∀ s m, sys.copying = some (s, m) → s ≠ slot) (hquiet : Quiet slot sys.main)

/-- The invariant: slots and numbers agree, nothing on the stream is ahead of the controller, and the
copy of every queued entry settles. -/
structure RingInv (sys : RingSys) : Prop where
  slot_eq : ∀ entry ∈ sys.cache.steps, entry.slot = entry.step % RING
  step_le : ∀ entry ∈ sys.cache.steps, entry.step ≤ sys.cache.step
  copy_slot : ∀ s m, .copy s m ∈ sys.main → s = m % RING ∧ m ≤ sys.cache.step
  copying_slot : ∀ s m, sys.copying = some (s, m) → s = m % RING ∧ m ≤ sys.cache.step
  event_le : ∀ m, .event m ∈ sys.main → m ≤ sys.cache.step
  recorded_le : ∀ m, sys.recorded m = true → m ≤ sys.cache.step
  settling : ∀ entry ∈ sys.cache.steps, Settling sys entry.slot entry.step

/-- A step files its routing only when no entry that stays queued is a multiple of four steps old. -/
def Spaced (P : Params) (decodes : Nat) (c : Cache) : Prop :=
  min decodes P.rows ≠ 0 → ∀ entry ∈ kept c, ¬RING ∣ c.step + 1 - entry.step

section Invariant

variable {P : Params} {top_k : Nat} {sys : RingSys} {slot step : Nat}

/-- An entry whose event has completed has landed. -/
theorem Settling.of_recorded (h : Settling sys slot step) (hrec : sys.recorded step = true) :
    ∃ block, sys.ring slot = some block ∧ sys.copied step = some block := by
  cases h with
  | issued pre post hmain hevent hbefore hcopying hquiet hfalse =>
    rw [hfalse] at hrec
    cases hrec
  | copying post hcopying hmain hquiet hfalse =>
    rw [hfalse] at hrec
    cases hrec
  | landed block hring hcopied hcopying hquiet => exact ⟨block, hring, hcopied⟩

/-- Behind an entry's copy, none goes to its slot. -/
theorem Settling.untouched (h : Settling sys slot step) {s m : Nat}
    (hcopy : .copy s m ∈ sys.main ∨ sys.copying = some (s, m)) (hlater : step < m) : s ≠ slot := by
  cases h with
  | issued pre post hmain hevent hbefore hcopying hquiet hrec =>
    rcases hcopy with hcopy | hcopy
    · rw [hmain, List.mem_append, List.mem_cons, List.mem_cons] at hcopy
      rcases hcopy with hpre | hself | hother | hpost
      · exact absurd (hbefore s m hpre) (by omega)
      · obtain ⟨rfl, rfl⟩ := RingOp.copy.inj hself
        omega
      · cases hother
      · exact hquiet s m hpost
    · exact absurd (hcopying s m hcopy) (by omega)
  | copying post hcopying hmain hquiet hrec =>
    rcases hcopy with hcopy | hcopy
    · rw [hmain, List.mem_cons] at hcopy
      rcases hcopy with hother | hpost
      · cases hother
      · exact hquiet s m hpost
    · rw [hcopying] at hcopy
      obtain ⟨rfl, rfl⟩ := Prod.mk.inj (Option.some.inj hcopy)
      omega
  | landed block hring hcopied hcopying hquiet =>
    rcases hcopy with hcopy | hcopy
    · exact hquiet s m hcopy
    · exact hcopying s m hcopy

theorem RingInv.fresh (h : RingInv sys) : Fresh sys := by
  constructor
  · intro o hobs entry hlast
    have htaken := List.mem_of_getLast? hlast
    have hentry := List.mem_of_mem_take htaken
    obtain ⟨block, hring, hcopied⟩ :=
      (h.settling entry hentry).of_recorded (hobs.finished entry htaken)
    have hslot : entry.slot % RING = entry.slot := by
      rw [h.slot_eq entry hentry, Nat.mod_mod]
    rw [hcopied, hslot, hobs.ring _ _ hring]
  · intro entry hentry s m hcopy hlater
    exact (h.settling entry hentry).untouched hcopy hlater

theorem ringInv_start (P : Params) (top_k : Nat) : RingInv (RingSys.start P top_k) := by
  have hnone : ∀ entry, entry ∉ (RingSys.start P top_k).cache.steps := by
    intro entry hmem
    rw [show (RingSys.start P top_k).cache.steps = [] from (fill_queue P).1] at hmem
    cases hmem
  refine ⟨fun entry h => absurd h (hnone entry), fun entry h => absurd h (hnone entry), ?_, ?_, ?_,
    ?_, fun entry h => absurd h (hnone entry)⟩
  all_goals intros; contradiction

/-! ## Each move keeps it -/

/-- Issuing more work that spares the slot. -/
theorem Settling.append {ops : List RingOp} (h : Settling sys slot step) (hops : Quiet slot ops)
    (c : Cache) : Settling { sys with cache := c, main := sys.main ++ ops } slot step := by
  have hquiet' : ∀ {post : List RingOp}, Quiet slot post → Quiet slot (post ++ ops) := by
    intro post hpost s m hmem
    rcases List.mem_append.mp hmem with hmem | hmem
    · exact hpost s m hmem
    · exact hops s m hmem
  cases h with
  | issued pre post hmain hevent hbefore hcopying hquiet hrec =>
    refine .issued pre (post ++ ops) ?_ hevent hbefore hcopying (hquiet' hquiet) hrec
    show sys.main ++ ops = _
    rw [hmain, List.append_assoc, List.cons_append, List.cons_append]
  | copying post hcopying hmain hquiet hrec =>
    refine .copying (post ++ ops) hcopying ?_ (hquiet' hquiet) hrec
    show sys.main ++ ops = _
    rw [hmain, List.cons_append]
  | landed block hring hcopied hcopying hquiet =>
    exact .landed block hring hcopied hcopying (hquiet' hquiet)

theorem Settling.route {f : Block → Block} {rest : List RingOp} (h : Settling sys slot step)
    (hmain : sys.main = .route f :: rest) :
    Settling { sys with main := rest, route := f sys.route } slot step := by
  cases h with
  | issued pre post hissued hevent hbefore hcopying hquiet hrec =>
    rw [hmain] at hissued
    cases pre with
    | nil => cases hissued
    | cons op pre =>
      obtain ⟨_, hrest⟩ := List.cons.inj hissued
      exact .issued pre post hrest (fun hmem => hevent (List.mem_cons_of_mem op hmem))
        (fun s m hmem => hbefore s m (List.mem_cons_of_mem op hmem)) hcopying hquiet hrec
  | copying post hcopying hevent hquiet hrec =>
    rw [hmain] at hevent
    cases hevent
  | landed block hring hcopied hcopying hquiet =>
    refine .landed block hring hcopied hcopying fun s m hmem => hquiet s m ?_
    rw [hmain]
    exact List.mem_cons_of_mem _ hmem

theorem Settling.copyStart {s m : Nat} {rest : List RingOp} (h : Settling sys slot step)
    (hmain : sys.main = .copy s m :: rest) :
    Settling { sys with
      main := rest
      copying := some (s, m)
      ring := Function.update sys.ring s none } slot step := by
  cases h with
  | issued pre post hissued hevent hbefore hcopying hquiet hrec =>
    rw [hmain] at hissued
    cases pre with
    | nil =>
      obtain ⟨hself, hrest⟩ := List.cons.inj hissued
      obtain ⟨rfl, rfl⟩ := RingOp.copy.inj hself
      exact .copying post rfl hrest hquiet hrec
    | cons op pre =>
      obtain ⟨rfl, hrest⟩ := List.cons.inj hissued
      refine .issued pre post hrest (fun hmem => hevent (List.mem_cons_of_mem _ hmem))
        (fun s' m' hmem => hbefore s' m' (List.mem_cons_of_mem _ hmem)) ?_ hquiet hrec
      intro s' m' hcopy
      obtain ⟨rfl, rfl⟩ := Prod.mk.inj (Option.some.inj hcopy)
      exact hbefore s m List.mem_cons_self
  | copying post hcopying hevent hquiet hrec =>
    rw [hmain] at hevent
    cases hevent
  | landed block hring hcopied hcopying hquiet =>
    have hother : s ≠ slot := by
      apply hquiet s m
      rw [hmain]
      exact List.mem_cons_self
    refine .landed block ?_ hcopied ?_ fun s' m' hmem => hquiet s' m' ?_
    · rwa [← Function.update_of_ne hother.symm none sys.ring] at hring
    · intro s' m' hcopy
      obtain ⟨rfl, rfl⟩ := Prod.mk.inj (Option.some.inj hcopy)
      exact hother
    · rw [hmain]
      exact List.mem_cons_of_mem _ hmem

theorem Settling.copyEnd {s m : Nat} (h : Settling sys slot step)
    (hcopying : sys.copying = some (s, m)) (hsame : m = step → s = slot) :
    Settling { sys with
      copying := none
      ring := Function.update sys.ring s (some sys.route)
      copied := Function.update sys.copied m (some sys.route) } slot step := by
  cases h with
  | issued pre post hmain hevent hbefore _ hquiet hrec =>
    exact .issued pre post hmain hevent hbefore (fun _ _ hcopy => nomatch hcopy) hquiet hrec
  | copying post hself hmain hquiet hrec =>
    rw [hcopying] at hself
    obtain ⟨rfl, rfl⟩ := Prod.mk.inj (Option.some.inj hself)
    refine .landed sys.route (Function.update_self _ _ _) (Function.update_self _ _ _)
      (fun _ _ hcopy => nomatch hcopy) fun s' m' hmem => ?_
    rw [hmain] at hmem
    rcases List.mem_cons.mp hmem with hevent | hpost
    · cases hevent
    · exact hquiet s' m' hpost
  | landed block hring hcopied hother hquiet =>
    have hslot : s ≠ slot := hother s m hcopying
    have hstep : m ≠ step := fun heq => hslot (hsame heq)
    refine .landed block ?_ ?_ (fun _ _ hcopy => nomatch hcopy) hquiet
    · rwa [← Function.update_of_ne hslot.symm (some sys.route) sys.ring] at hring
    · rwa [← Function.update_of_ne hstep.symm (some sys.route) sys.copied] at hcopied

theorem Settling.event {m : Nat} {rest : List RingOp} (h : Settling sys slot step)
    (hmain : sys.main = .event m :: rest) (hidle : sys.copying = none) :
    Settling { sys with
      main := rest
      recorded := Function.update sys.recorded m true } slot step := by
  cases h with
  | issued pre post hissued hevent hbefore hcopying hquiet hrec =>
    rw [hmain] at hissued
    cases pre with
    | nil => cases hissued
    | cons op pre =>
      obtain ⟨rfl, hrest⟩ := List.cons.inj hissued
      have hother : m ≠ step := fun heq => hevent (heq ▸ List.mem_cons_self)
      refine .issued pre post hrest (fun hmem => hevent (List.mem_cons_of_mem _ hmem))
        (fun s' m' hmem => hbefore s' m' (List.mem_cons_of_mem _ hmem)) hcopying hquiet ?_
      rwa [← Function.update_of_ne hother.symm true sys.recorded] at hrec
  | copying post hcopying hevent hquiet hrec =>
    rw [hidle] at hcopying
    cases hcopying
  | landed block hring hcopied hcopying hquiet =>
    refine .landed block hring hcopied hcopying fun s m' hmem => hquiet s m' ?_
    rw [hmain]
    exact List.mem_cons_of_mem _ hmem

/-- The entry a step files is issued behind everything else. -/
theorem settling_new (h : RingInv sys) (c : Cache) :
    Settling { sys with
      cache := c
      main := sys.main ++ [.copy slot (sys.cache.step + 1), .event (sys.cache.step + 1)] }
      slot (sys.cache.step + 1) := by
  refine .issued sys.main [] rfl ?_ ?_ ?_ (fun _ _ hmem => nomatch hmem) ?_
  · intro hmem
    have hle := h.event_le _ hmem
    omega
  · intro s m hmem
    have hle := (h.copy_slot s m hmem).2
    omega
  · intro s m hcopy
    have hle := (h.copying_slot s m hcopy).2
    omega
  · by_contra hrec
    have hle := h.recorded_le _ (Bool.eq_true_of_not_eq_false hrec)
    omega

/-- A call that files nothing keeps the invariant. -/
theorem RingInv.quietCall (h : RingInv sys) {c : Cache} {ops : List RingOp}
    (hsteps : ∀ entry ∈ c.steps, entry ∈ sys.cache.steps) (hstep : sys.cache.step ≤ c.step)
    (hcopy : ∀ s m, .copy s m ∉ ops) (hevent : ∀ m, .event m ∉ ops) :
    RingInv { sys with cache := c, main := sys.main ++ ops } where
  slot_eq entry hentry := h.slot_eq entry (hsteps entry hentry)
  step_le entry hentry := (h.step_le entry (hsteps entry hentry)).trans hstep
  copy_slot s m hmem := by
    have hold := h.copy_slot s m ((List.mem_append.mp hmem).resolve_right (hcopy s m))
    exact ⟨hold.1, hold.2.trans hstep⟩
  copying_slot s m hcopying := by
    have hold := h.copying_slot s m hcopying
    exact ⟨hold.1, hold.2.trans hstep⟩
  event_le m hmem :=
    (h.event_le m ((List.mem_append.mp hmem).resolve_right (hevent m))).trans hstep
  recorded_le m hrec := (h.recorded_le m hrec).trans hstep
  settling entry hentry :=
    (h.settling entry (hsteps entry hentry)).append (fun s m hmem => absurd hmem (hcopy s m)) c

/-- A step that files its routing keeps the invariant, if it spares the slots of the entries that
stay queued. -/
theorem RingInv.file (h : RingInv sys) {c : Cache} {rows : Nat}
    (hspaced : ∀ entry ∈ kept sys.cache, ¬RING ∣ sys.cache.step + 1 - entry.step)
    (hstep : c.step = sys.cache.step + 1)
    (hsteps : c.steps = kept sys.cache ++
      [⟨(sys.cache.step + 1) % RING, rows, sys.cache.step + 1⟩]) :
    RingInv { sys with
      cache := c
      main := sys.main ++ [.copy ((sys.cache.step + 1) % RING) (sys.cache.step + 1),
        .event (sys.cache.step + 1)] } := by
  have hentry : ∀ entry ∈ c.steps, entry ∈ kept sys.cache ∨
      entry = ⟨(sys.cache.step + 1) % RING, rows, sys.cache.step + 1⟩ := by
    intro entry hmem
    rw [hsteps, List.mem_append, List.mem_singleton] at hmem
    exact hmem
  refine ⟨fun entry hmem => ?_, fun entry hmem => ?_, fun s m hmem => ?_, fun s m hcopying => ?_,
    fun m hmem => ?_, fun m hrec => ?_, fun entry hmem => ?_⟩
  · rcases hentry entry hmem with hkept | rfl
    · exact h.slot_eq entry (mem_of_mem_kept hkept)
    · rfl
  · show entry.step ≤ c.step
    rcases hentry entry hmem with hkept | rfl
    · have hle := h.step_le entry (mem_of_mem_kept hkept)
      omega
    · exact hstep.ge
  · show s = m % RING ∧ m ≤ c.step
    rcases List.mem_append.mp hmem with hold | hnew
    · have hle := h.copy_slot s m hold
      exact ⟨hle.1, by omega⟩
    · rcases List.mem_cons.mp hnew with hself | hother
      · obtain ⟨rfl, rfl⟩ := RingOp.copy.inj hself
        exact ⟨rfl, hstep.ge⟩
      · cases List.mem_singleton.mp hother
  · show s = m % RING ∧ m ≤ c.step
    have hle := h.copying_slot s m hcopying
    exact ⟨hle.1, by omega⟩
  · show m ≤ c.step
    rcases List.mem_append.mp hmem with hold | hnew
    · have hle := h.event_le m hold
      omega
    · rcases List.mem_cons.mp hnew with hother | hself
      · cases hother
      · obtain rfl := RingOp.event.inj (List.mem_singleton.mp hself)
        exact hstep.ge
  · show m ≤ c.step
    have hle := h.recorded_le m hrec
    omega
  · rcases hentry entry hmem with hkept | rfl
    · have hold := mem_of_mem_kept hkept
      -- the new copy goes to another slot: the entry is not a multiple of four steps old
      refine (h.settling entry hold).append (fun s m hcopy => ?_) c
      rcases List.mem_cons.mp hcopy with hself | hother
      · obtain ⟨rfl, rfl⟩ := RingOp.copy.inj hself
        have hgap := hspaced entry hkept
        have hle := h.step_le entry hold
        rw [h.slot_eq entry hold]
        unfold RING at hgap ⊢
        omega
      · cases List.mem_singleton.mp hother
    · exact settling_new h c

/-- The step lemma. -/
theorem ringInv_step {sys' : RingSys} (h : RingInv sys) (hstep : RingStep P (Spaced P) sys sys') :
    RingInv sys' := by
  cases hstep with
  | stepBegin o hobs =>
    obtain ⟨hsteps, hnumber, hmain⟩ := stepBegin_queue P o sys.cache
    rw [hmain]
    refine h.quietCall (fun entry hmem => ?_) hnumber.ge (fun _ _ hmem => nomatch hmem)
      (fun _ hmem => nomatch hmem)
    rw [hsteps] at hmem
    exact List.mem_of_mem_drop hmem
  | forward fs =>
    refine h.quietCall (fun entry hmem => hmem) (Nat.le_refl _) (fun s m hmem => ?_)
      (fun m hmem => ?_)
    · obtain ⟨f, _, hf⟩ := List.mem_map.mp hmem
      cases hf
    · obtain ⟨f, _, hf⟩ := List.mem_map.mp hmem
      cases hf
  | stepEnd decodes hok =>
    obtain ⟨hnumber, ⟨_, hsteps, hmain⟩ | ⟨hrows, hsteps, hmain⟩⟩ :=
      stepEnd_queue P decodes sys.cache
    · rw [hmain]
      refine h.quietCall (fun entry hmem => ?_) (by omega) (fun _ _ hmem => nomatch hmem)
        (fun _ hmem => nomatch hmem)
      rwa [hsteps] at hmem
    · rw [hmain]
      exact h.file (hok hrows) hnumber hsteps
  | route f rest hmain hidle =>
    have hrest : ∀ op ∈ rest, op ∈ sys.main := by
      intro op hmem
      rw [hmain]
      exact List.mem_cons_of_mem _ hmem
    exact ⟨h.slot_eq, h.step_le, fun s m hmem => h.copy_slot s m (hrest _ hmem), h.copying_slot,
      fun m hmem => h.event_le m (hrest _ hmem), h.recorded_le,
      fun entry hentry => (h.settling entry hentry).route hmain⟩
  | copyStart s m rest hmain hidle =>
    have hrest : ∀ op ∈ rest, op ∈ sys.main := by
      intro op hmem
      rw [hmain]
      exact List.mem_cons_of_mem _ hmem
    have hself := h.copy_slot s m (by rw [hmain]; exact List.mem_cons_self)
    refine ⟨h.slot_eq, h.step_le, fun s' m' hmem => h.copy_slot s' m' (hrest _ hmem),
      fun s' m' hcopy => ?_, fun m' hmem => h.event_le m' (hrest _ hmem), h.recorded_le,
      fun entry hentry => (h.settling entry hentry).copyStart hmain⟩
    obtain ⟨rfl, rfl⟩ := Prod.mk.inj (Option.some.inj hcopy)
    exact hself
  | copyEnd s m hcopying =>
    refine ⟨h.slot_eq, h.step_le, h.copy_slot, fun _ _ hcopy => (nomatch hcopy), h.event_le,
      h.recorded_le, fun entry hentry => (h.settling entry hentry).copyEnd hcopying ?_⟩
    rintro rfl
    rw [(h.copying_slot s entry.step hcopying).1, h.slot_eq entry hentry]
  | event m rest hmain hidle =>
    have hrest : ∀ op ∈ rest, op ∈ sys.main := by
      intro op hmem
      rw [hmain]
      exact List.mem_cons_of_mem _ hmem
    have hself := h.event_le m (by rw [hmain]; exact List.mem_cons_self)
    refine ⟨h.slot_eq, h.step_le, fun s' m' hmem => h.copy_slot s' m' (hrest _ hmem),
      h.copying_slot, fun m' hmem => h.event_le m' (hrest _ hmem), fun m' hrec => ?_,
      fun entry hentry => (h.settling entry hentry).event hmain hidle⟩
    by_cases hm : m' = m
    · exact hm ▸ hself
    · exact h.recorded_le m' ((Function.update_of_ne hm true sys.recorded).symm.trans hrec)

/-- The run lemma. -/
theorem ringInv_reachable (h : (ringSystem P top_k (Spaced P)).Reachable sys) : RingInv sys := by
  refine System.invariant (P := RingInv) (fun s hinit => ?_) (fun s t hinv hstep => ?_) h
  · rw [show s = RingSys.start P top_k from hinit]
    exact ringInv_start P top_k
  · exact ringInv_step hinv hstep

/-- In every run whose decode-bearing steps are spaced from the entries they leave queued, every
block `_plan` reads is the block its step copied, whole. -/
theorem ring_fresh (P : Params) (top_k : Nat) (sys : RingSys)
    (h : (ringSystem P top_k (Spaced P)).Reachable sys) : Fresh sys :=
  (ringInv_reachable h).fresh

/-- One layer of one hosted expert. -/
def oneExpert : Params where
  E := 1
  layers := [⟨fun _ => some ⟨⟨[(0, 0)], by decide⟩⟩, by
    rintro j b hb e he
    obtain rfl := Option.some.inj hb
    exact (by decide : ∀ e ∈ [0], e < 1) e he⟩]
  slots := 1
  budget := 32
  rows := 32

/-- A decode's routing, copied and landed, and a second one under way. -/
theorem oneExpert_fresh : ∃ sys, Fresh sys ∧ sys.cache.steps = [⟨1, 1, 1⟩, ⟨2, 1, 2⟩] ∧
    sys.recorded 1 = true ∧ sys.copying = some (2, 2) := by
  have h0 : Relation.ReflTransGen (RingStep oneExpert (Spaced oneExpert))
    (RingSys.start oneExpert 8) _ := .refl
  have h1 := h0.tail (.forward _ [fun _ _ => List.replicate 32 (List.replicate 8 0)])
  have h2 := h1.tail (.stepEnd _ 1 fun _ entry hmem => nomatch hmem)
  have h3 := h2.tail (.stepEnd _ 1 fun _ entry hmem => by
    rw [List.mem_singleton.mp (show entry ∈ [⟨1, 1, 1⟩] from hmem)]
    decide)
  have h4 := h3.tail (.route _ _ _ rfl rfl)
  have h5 := h4.tail (.copyStart _ 1 1 _ rfl rfl)
  have h6 := h5.tail (.copyEnd _ 1 1 rfl)
  have h7 := h6.tail (.event _ 1 _ rfl rfl)
  have h8 := h7.tail (.copyStart _ 2 2 _ rfl rfl)
  exact ⟨_, ring_fresh oneExpert 8 _ ⟨_, rfl, h8⟩, rfl, rfl, rfl⟩

/-- Five steps issued ahead of the device, of which the first and the last bear a decode: the first
entry is still queued, its copy has landed and its event completed, when the fifth step's copy begins
to overwrite its slot. -/
theorem oneExpert_overwritten : ¬∀ sys, (ringSystem oneExpert 8 fun _ _ => True).Reachable sys →
    Fresh sys := by
  intro hfresh
  obtain ⟨sys, hrun, hsteps, hrec, hring, hcopied⟩ :
      ∃ sys, (ringSystem oneExpert 8 fun _ _ => True).Reachable sys ∧
        sys.cache.steps = [⟨1, 1, 1⟩, ⟨1, 1, 5⟩] ∧ sys.recorded 1 = true ∧ sys.ring 1 = none ∧
        sys.copied 1 = some (zeroBlock oneExpert 8) := by
    have h0 : Relation.ReflTransGen (RingStep oneExpert fun _ _ => True)
      (RingSys.start oneExpert 8) _ := .refl
    have h1 := h0.tail (.stepEnd _ 1 trivial)
    have h2 := h1.tail (.stepEnd _ 0 trivial)
    have h3 := h2.tail (.stepEnd _ 0 trivial)
    have h4 := h3.tail (.stepEnd _ 0 trivial)
    have h5 := h4.tail (.stepEnd _ 1 trivial)
    have h6 := h5.tail (.copyStart _ 1 1 [.event 1, .copy 1 5, .event 5] rfl rfl)
    have h7 := h6.tail (.copyEnd _ 1 1 rfl)
    have h8 := h7.tail (.event _ 1 [.copy 1 5, .event 5] rfl rfl)
    have h9 := h8.tail (.copyStart _ 1 5 [.event 5] rfl rfl)
    exact ⟨_, ⟨_, rfl, h9⟩, rfl, rfl, rfl, rfl⟩
  -- `step_begin` finds the first entry finished and reads a slot that is being written
  have hread := (hfresh sys hrun).reads ⟨0, 1, fun s => (sys.ring s).getD fun _ => []⟩ ⟨?_, ?_⟩
    ⟨1, 1, 1⟩ (by rw [hsteps]; rfl)
  · have hsame : zeroBlock oneExpert 8 = (sys.ring 1).getD fun _ => [] :=
      Option.some.inj (hcopied.symm.trans hread)
    rw [hring] at hsame
    exact absurd (congrFun hsame 0) (by decide)
  · intro entry hmem
    rw [hsteps] at hmem
    rw [List.mem_singleton.mp (show entry ∈ [⟨1, 1, 1⟩] from hmem)]
    exact hrec
  · intro s block hs
    show (sys.ring s).getD _ = block
    rw [hs]
    rfl

/-! ## Where every step files its routing -/

/-- The queue holds the latest steps, in order and without a gap. -/
structure Gapless (c : Cache) : Prop where
  length_lt : c.steps.length < RING
  step_eq : ∀ i entry, c.steps[i]? = some entry → entry.step + c.steps.length = c.step + 1 + i

theorem kept_eq_drop (c : Cache) :
    kept c = c.steps.drop (if c.steps.length ≥ RING - 1 then 1 else 0) := by
  unfold kept
  split
  · rw [List.drop_one]
  · rw [List.drop_zero]

theorem Gapless.drop {c c' : Cache} (h : Gapless c) (n : Nat) (hsteps : c'.steps = c.steps.drop n)
    (hstep : c'.step = c.step) : Gapless c' := by
  have hlen : c'.steps.length = c.steps.length - n := by rw [hsteps, List.length_drop]
  refine ⟨?_, fun i entry hi => ?_⟩
  · have hlt := h.length_lt
    omega
  · rw [hsteps, List.getElem?_drop] at hi
    have hbound := (List.getElem?_eq_some_iff.mp hi).1
    have hold := h.step_eq (n + i) entry hi
    omega

/-- Filing a step's entry behind a gapless queue. -/
theorem Gapless.file {c c' : Cache} {rows : Nat} (h : Gapless c)
    (hsteps : c'.steps = kept c ++ [⟨(c.step + 1) % RING, rows, c.step + 1⟩])
    (hstep : c'.step = c.step + 1) : Gapless c' := by
  have hlt := h.length_lt
  have hkept : (kept c).length + 1 < RING ∧ ∀ i entry, (kept c)[i]? = some entry →
      entry.step + (kept c).length = c.step + 1 + i := by
    have hdrop : Gapless { c with steps := kept c } := h.drop _ (kept_eq_drop c) rfl
    refine ⟨?_, hdrop.step_eq⟩
    rw [kept_eq_drop, List.length_drop]
    unfold RING at hlt ⊢
    split <;> omega
  have hlen : c'.steps.length = (kept c).length + 1 := by
    rw [hsteps, List.length_append, List.length_singleton]
  refine ⟨by omega, fun i entry hi => ?_⟩
  rw [hsteps] at hi
  rcases Nat.lt_or_ge i (kept c).length with hbefore | hafter
  · rw [List.getElem?_append_left hbefore] at hi
    have hold := hkept.2 i entry hi
    omega
  · rw [List.getElem?_append_right hafter] at hi
    obtain ⟨hzero, hself⟩ := List.getElem?_eq_some_iff.mp hi
    rw [List.length_singleton] at hzero
    obtain rfl : entry = ⟨(c.step + 1) % RING, rows, c.step + 1⟩ := by
      rw [← hself]
      exact List.getElem_singleton ..
    show c.step + 1 + c'.steps.length = c'.step + 1 + i
    omega

/-- A gapless queue is spaced from the next step: nothing it keeps is four steps old. -/
theorem Gapless.spaced {c : Cache} (h : Gapless c) (decodes : Nat) : Spaced P decodes c := by
  intro _ entry hmem
  have hlt := h.length_lt
  have hdrop : Gapless { c with steps := kept c } := h.drop _ (kept_eq_drop c) rfl
  obtain ⟨i, hi⟩ := List.mem_iff_getElem?.mp hmem
  have hbound := (List.getElem?_eq_some_iff.mp hi).1
  have hold : entry.step + (kept c).length = c.step + 1 + i := hdrop.step_eq i entry hi
  unfold RING at hlt ⊢
  have hkept : (kept c).length ≤ 3 := by
    rw [kept_eq_drop, List.length_drop]
    omega
  omega

/-- Where every step bears decodes, the ring is fresh in every run. -/
theorem ring_fresh_of_decodes (P : Params) (top_k : Nat) (sys : RingSys)
    (h : (ringSystem P top_k fun decodes _ => min decodes P.rows ≠ 0).Reachable sys) :
    Fresh sys := by
  refine (System.invariant (P := fun sys => RingInv sys ∧ Gapless sys.cache) (fun s hinit => ?_)
    (fun s t hinv hstep => ?_) h).1.fresh
  · rw [show s = RingSys.start P top_k from hinit]
    refine ⟨ringInv_start P top_k, ?_⟩
    have hsteps : (RingSys.start P top_k).cache.steps = [] := (fill_queue P).1
    refine ⟨by rw [hsteps]; decide, fun i entry hi => ?_⟩
    rw [hsteps] at hi
    cases hi
  · obtain ⟨hring, hgapless⟩ := hinv
    cases hstep with
    | stepBegin o hobs =>
      obtain ⟨hsteps, hnumber, _⟩ := stepBegin_queue P o s.cache
      exact ⟨ringInv_step hring (.stepBegin s o hobs), hgapless.drop _ hsteps hnumber⟩
    | forward fs => exact ⟨ringInv_step (P := P) hring (.forward s fs), hgapless⟩
    | stepEnd decodes hok =>
      obtain ⟨hnumber, ⟨hrows, _, _⟩ | ⟨_, hsteps, _⟩⟩ := stepEnd_queue P decodes s.cache
      · exact absurd hrows hok
      · exact ⟨ringInv_step hring (.stepEnd s decodes (hgapless.spaced decodes)),
          hgapless.file hsteps hnumber⟩
    | route f rest hmain hidle =>
      exact ⟨ringInv_step (P := P) hring (.route s f rest hmain hidle), hgapless⟩
    | copyStart slot step rest hmain hidle =>
      exact ⟨ringInv_step (P := P) hring (.copyStart s slot step rest hmain hidle), hgapless⟩
    | copyEnd slot step hcopying =>
      exact ⟨ringInv_step (P := P) hring (.copyEnd s slot step hcopying), hgapless⟩
    | event step rest hmain hidle =>
      exact ⟨ringInv_step (P := P) hring (.event s step rest hmain hidle), hgapless⟩

end Invariant

end VllmExl3.ExpertCache
