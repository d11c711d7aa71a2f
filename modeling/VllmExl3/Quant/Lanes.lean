/-
# VllmExl3.Quant.Lanes — the lanes of a batch over several slots, and what every run of it does

With several slots `run_jobs` starts one thread per slot, its lane. A lane of GPU `g` pops the next
task of `share[g]` under the lock, calls it, and, when it did not return true, announces it and
appends its name to `failed` under the lock; it returns when its share is empty. `run` catches
`Exception` and nothing wider, so any other exception ends the lane: its name is not appended, and
the share goes on with the lanes that are left.

A lane is deterministic given what the lanes share; the interleaving is the system's freedom to pick
the next lane. The invariant is an account: the tasks called, held and still dealt are the batch, the
calls started are those ended and those open, and the names reported are the failures among the ended.

The docstring's "Every task runs, whatever fails" holds of a batch over several slots exactly when no
task raises outside `Exception`, and of one slot exactly when no task raises.
-/
import VllmExl3.Lib.Reach
import VllmExl3.Quant.Jobs

namespace VllmExl3.Quant

/-! ## The lanes -/

/-- Where a lane stands. -/
inductive Status where
  /-- About to look for a task. -/
  | idle
  /-- It popped a task and has not called it yet. -/
  | took (task : Task)
  /-- Inside the call. -/
  | running (task : Task)
  /-- The call did not return true; the name is not appended yet. -/
  | reporting (task : Task)
  /-- Its share was empty. -/
  | returned
  /-- An exception left `run`. -/
  | died (error : PyError)
deriving DecidableEq, Repr

/-- One thread: the GPU it serves and where it stands. -/
structure Lane where
  gpu : String
  status : Status
deriving DecidableEq, Repr

/-- What the lanes share: the shares left, the names failed, and the calls so far. -/
structure Pool where
  share : Share
  failed : List String
  log : List Event

/-- The next step of a lane; `none` once its thread is over. -/
def laneStep (p : Pool) (l : Lane) : Option (Pool × Lane) :=
  match l.status with
  | .idle =>
    match p.share l.gpu with
    | [] => some (p, { l with status := .returned })
    | task :: items =>
      some ({ p with share := Function.update p.share l.gpu items }, { l with status := .took task })
  | .took task =>
    some ({ p with log := p.log ++ [.started l.gpu task] }, { l with status := .running task })
  | .running task =>
    let p' := { p with log := p.log ++ [.ended l.gpu task] }
    match task.outcome with
    | .returned true => some (p', { l with status := .idle })
    | .returned false => some (p', { l with status := .reporting task })
    | .raised error =>
      -- `except Exception`: anything wider leaves `run`, and with it the thread
      if error.caught then some (p', { l with status := .reporting task })
      else some (p', { l with status := .died error })
  | .reporting task =>
    some ({ p with failed := p.failed ++ [task.name] }, { l with status := .idle })
  | .returned => none
  | .died _ => none

/-- What a lane's step can do. -/
inductive Moves (p : Pool) : Lane → Pool → Lane → Prop
  | take {g : String} {task : Task} {items : List Task} (h : p.share g = task :: items) :
      Moves p ⟨g, .idle⟩ { p with share := Function.update p.share g items } ⟨g, .took task⟩
  | leave {g : String} (h : p.share g = []) : Moves p ⟨g, .idle⟩ p ⟨g, .returned⟩
  | call {g : String} {task : Task} :
      Moves p ⟨g, .took task⟩ { p with log := p.log ++ [.started g task] } ⟨g, .running task⟩
  | finish {g : String} {task : Task} (h : task.outcome = .returned true) :
      Moves p ⟨g, .running task⟩ { p with log := p.log ++ [.ended g task] } ⟨g, .idle⟩
  | fail {g : String} {task : Task} (h : task.outcome.failed = true) :
      Moves p ⟨g, .running task⟩ { p with log := p.log ++ [.ended g task] } ⟨g, .reporting task⟩
  | die {g : String} {task : Task} {error : PyError} (h : task.outcome = .raised error)
      (hwide : error.caught = false) :
      Moves p ⟨g, .running task⟩ { p with log := p.log ++ [.ended g task] } ⟨g, .died error⟩
  | report {g : String} {task : Task} :
      Moves p ⟨g, .reporting task⟩ { p with failed := p.failed ++ [task.name] } ⟨g, .idle⟩

theorem moves_of_laneStep {p p' : Pool} {l l' : Lane} (h : laneStep p l = some (p', l')) :
    Moves p l p' l' := by
  obtain ⟨g, status⟩ := l
  cases status with
  | idle =>
    cases hs : p.share g with
    | nil =>
      simp only [laneStep, hs, Option.some.injEq, Prod.mk.injEq] at h
      obtain ⟨rfl, rfl⟩ := h
      exact .leave hs
    | cons task items =>
      simp only [laneStep, hs, Option.some.injEq, Prod.mk.injEq] at h
      obtain ⟨rfl, rfl⟩ := h
      exact .take hs
  | took task =>
    simp only [laneStep, Option.some.injEq, Prod.mk.injEq] at h
    obtain ⟨rfl, rfl⟩ := h
    exact .call
  | running task =>
    cases ho : task.outcome with
    | returned ok =>
      cases ok with
      | true =>
        simp only [laneStep, ho, Option.some.injEq, Prod.mk.injEq] at h
        obtain ⟨rfl, rfl⟩ := h
        exact .finish ho
      | false =>
        simp only [laneStep, ho, Option.some.injEq, Prod.mk.injEq] at h
        obtain ⟨rfl, rfl⟩ := h
        exact .fail (by simp [ho, Outcome.failed])
    | raised error =>
      cases hc : error.caught with
      | true =>
        simp only [laneStep, ho, hc, if_true, Option.some.injEq, Prod.mk.injEq] at h
        obtain ⟨rfl, rfl⟩ := h
        exact .fail (by simp [ho, Outcome.failed, hc])
      | false =>
        simp only [laneStep, ho, hc, Bool.false_eq_true, if_false, Option.some.injEq,
          Prod.mk.injEq] at h
        obtain ⟨rfl, rfl⟩ := h
        exact .die ho hc
  | reporting task =>
    simp only [laneStep, Option.some.injEq, Prod.mk.injEq] at h
    obtain ⟨rfl, rfl⟩ := h
    exact .report
  | returned => simp [laneStep] at h
  | died error => simp [laneStep] at h

/-- The thread is over. -/
def Lane.ended (l : Lane) : Bool :=
  match l.status with
  | .returned => true
  | .died _ => true
  | _ => false

theorem exists_laneStep {l : Lane} (h : l.ended = false) (p : Pool) :
    ∃ p' l', laneStep p l = some (p', l') := by
  obtain ⟨g, status⟩ := l
  cases status with
  | idle => cases hs : p.share g <;> simp [laneStep, hs]
  | running task =>
    cases ho : task.outcome with
    | returned ok => cases ok <;> simp [laneStep, ho]
    | raised error => cases hc : error.caught <;> simp [laneStep, ho, hc]
  | took task => simp [laneStep]
  | reporting task => simp [laneStep]
  | returned => simp [Lane.ended] at h
  | died error => simp [Lane.ended] at h

/-! ## The system -/

/-- The pool and the threads, in the order they were created. -/
structure State where
  pool : Pool
  lanes : List Lane

/-- `[Thread(target=lane, args=(g, share[g])) for g in gpus for _ in range(width[g])]`. -/
def threads (slots : List String) : List Lane :=
  (gpus slots).flatMap fun g => List.replicate (width slots g) ⟨g, .idle⟩

/-- The state before the first thread moves. -/
def start (slots : List String) (share : Share) : State where
  pool := { share := share, failed := [], log := [] }
  lanes := threads slots

/-- Any lane may move next. -/
def Step (s t : State) : Prop :=
  ∃ before l after p l', s.lanes = before ++ l :: after ∧ laneStep s.pool l = some (p, l') ∧
    t = ⟨p, before ++ l' :: after⟩

/-- The runs of the lanes on a deal. -/
def lanes (slots : List String) (share : Share) : System State where
  init s := s = start slots share
  step := Step

/-- Every thread is over: the joins are through. -/
def State.joined (s : State) : Prop := ∀ l ∈ s.lanes, l.ended = true

/-- The runs of `run_jobs(tasks, slots, what)`. -/
def RunJobs (slots : List String) (tasks : List Task) (e : Execution) : Prop :=
  match slots with
  | [slot] => e = inOrder slot [] tasks
  | _ =>
    match deal slots tasks with
    | none => e = ⟨[], .error (.exception "ValueError" "min() iterable argument is empty")⟩
    | some share => ∃ s, (lanes slots share).Reachable s ∧ s.joined ∧ e = ⟨s.pool.log, .ok s.pool.failed⟩

/-- Repeating each listed GPU by its own number counts that number. -/
theorem count_flatMap_replicate {ks : List String} (hks : ks.Nodup) (w : String → Nat) (g : String) :
    (ks.flatMap fun k => List.replicate (w k) k).count g = if g ∈ ks then w g else 0 := by
  induction ks with
  | nil => simp
  | cons k ks ih =>
    rw [List.nodup_cons] at hks
    have hrest := ih hks.2
    by_cases hk : k = g
    · subst hk
      simp [hks.1, hrest]
    · simp [List.count_replicate, hrest, hk, Ne.symm hk]

/-- One thread for each slot. -/
theorem threads_gpus (slots : List String) : ((threads slots).map Lane.gpu).Perm slots := by
  have hmap : (threads slots).map Lane.gpu
      = (gpus slots).flatMap fun k => List.replicate (width slots k) k := by
    simp [threads, List.map_flatMap]
  rw [hmap, List.perm_iff_count]
  intro g
  rw [count_flatMap_replicate (nodup_gpus slots)]
  by_cases hg : g ∈ slots
  · simp [mem_gpus, hg, width]
  · simp [mem_gpus, hg, List.count_eq_zero_of_not_mem hg]

/-! ## The account of a run -/

/-- The task a lane popped and has not called. -/
def Lane.holds (l : Lane) : List Task :=
  match l.status with
  | .took task => [task]
  | _ => []

/-- The task whose call is open. -/
def Lane.runs (l : Lane) : List Task :=
  match l.status with
  | .running task => [task]
  | _ => []

/-- The task whose name is still to be appended. -/
def Lane.reports (l : Lane) : List Task :=
  match l.status with
  | .reporting task => [task]
  | _ => []

/-- Is a call open on `g`? -/
def Lane.runsOn (g : String) (l : Lane) : Bool := l.gpu = g && !l.runs.isEmpty

/-- The account: where every task of the batch is, and what the names reported stand for. -/
structure Account (slots : List String) (tasks : List Task) (s : State) : Prop where
  onePerSlot : (s.lanes.map Lane.gpu).Perm slots
  everyTask : (starts s.pool.log ++ s.lanes.flatMap Lane.holds ++ dealt slots s.pool.share).Perm tasks
  openCalls : (starts s.pool.log).Perm (ends s.pool.log ++ s.lanes.flatMap Lane.runs)
  openOn : ∀ g, startsOn g s.pool.log = endsOn g s.pool.log + s.lanes.countP (Lane.runsOn g)
  failures : (s.pool.failed ++ (s.lanes.flatMap Lane.reports).map Task.name).Perm
    (((ends s.pool.log).filter fun t => t.outcome.failed).map Task.name)
  listed : ∀ gpu task, .started gpu task ∈ s.pool.log → gpu ∈ slots
  within : ∀ p, p <+: s.pool.log → ∀ gpu, startsOn gpu p ≤ endsOn gpu p + width slots gpu
  drained : ∀ l ∈ s.lanes, l.status = .returned → s.pool.share l.gpu = []
  died : ∀ l ∈ s.lanes, ∀ error, l.status = .died error →
    ∃ t ∈ ends s.pool.log, t.outcome.contained = false

/-- The account at the start: everything is still dealt. -/
theorem account_start {slots : List String} {tasks : List Task} {share : Share}
    (hdealt : (dealt slots share).Perm tasks) : Account slots tasks (start slots share) := by
  have idle : ∀ l ∈ threads slots, l.status = .idle := by
    intro l hl
    simp only [threads, List.mem_flatMap, List.mem_replicate] at hl
    obtain ⟨g, -, -, rfl⟩ := hl
    rfl
  have holds : (threads slots).flatMap Lane.holds = [] :=
    List.flatMap_eq_nil_iff.mpr fun l hl => by simp [Lane.holds, idle l hl]
  have runs : (threads slots).flatMap Lane.runs = [] :=
    List.flatMap_eq_nil_iff.mpr fun l hl => by simp [Lane.runs, idle l hl]
  have reports : (threads slots).flatMap Lane.reports = [] :=
    List.flatMap_eq_nil_iff.mpr fun l hl => by simp [Lane.reports, idle l hl]
  refine ⟨threads_gpus slots, ?_, ?_, ?_, ?_, ?_, ?_, ?_, ?_⟩
  · simpa [start, starts, holds] using hdealt
  · simp [start, starts, ends, runs]
  · intro g
    have none : (threads slots).countP (Lane.runsOn g) = 0 := by
      rw [List.countP_eq_zero]
      intro l hl
      simp [Lane.runsOn, Lane.runs, idle l hl]
    simp [start, startsOn, endsOn, none]
  · simp [start, ends, reports]
  · simp [start]
  · intro p hp gpu
    have hnil : p = [] := by simpa [start] using hp
    simp [hnil, startsOn]
  · intro l hl h
    simp [idle l hl] at h
  · intro l hl error h
    simp [idle l hl] at h

section Steps

variable {slots : List String} {tasks : List Task} {p p' : Pool} {l l' : Lane}
  {before after : List Lane}

theorem Moves.gpu (h : Moves p l p' l') : l'.gpu = l.gpu := by
  cases h <;> rfl

/-- Popping moves a task from the shares to the lane, calling moves it to the calls. -/
theorem Moves.everyTask (h : Moves p l p' l') (hl : l.gpu ∈ gpus slots) :
    (starts p'.log ++ l'.holds ++ dealt slots p'.share).Perm
      (starts p.log ++ l.holds ++ dealt slots p.share) := by
  rw [List.perm_iff_count]
  intro a
  cases h with
  | @take g task items hs =>
    have hmoved := List.perm_iff_count.mp (dealt_update p.share hl items) a
    rw [hs] at hmoved
    simp only [Lane.holds, List.count_append, List.count_cons, List.count_nil] at hmoved ⊢
    omega
  | call => simp [Lane.holds, starts]
  | _ => simp [Lane.holds, starts]

theorem Moves.openCalls (h : Moves p l p' l') (a : Task) :
    (starts p'.log).count a + (ends p.log).count a + l.runs.count a
      = (starts p.log).count a + (ends p'.log).count a + l'.runs.count a := by
  cases h <;> simp [Lane.runs, starts, ends] <;> omega

theorem Moves.openOn (h : Moves p l p' l') (g : String) :
    startsOn g p'.log + endsOn g p.log + [l].countP (Lane.runsOn g)
      = startsOn g p.log + endsOn g p'.log + [l'].countP (Lane.runsOn g) := by
  cases h <;> simp [Lane.runsOn, Lane.runs, startsOn, endsOn, List.countP_cons] <;> omega

/-- Ending a failed call leaves its name to the lane, reporting moves it to the names failed. -/
theorem Moves.failures (h : Moves p l p' l') (n : String) :
    p'.failed.count n + (l'.reports.map Task.name).count n
        + (((ends p.log).filter fun t => t.outcome.failed).map Task.name).count n
      = p.failed.count n + (l.reports.map Task.name).count n
        + (((ends p'.log).filter fun t => t.outcome.failed).map Task.name).count n := by
  cases h with
  | finish h => simp [Lane.reports, ends, h, Outcome.failed]
  | fail h => simp [Lane.reports, ends, h]; omega
  | die h hwide => simp [Lane.reports, ends, h, hwide, Outcome.failed]
  | report => simp [Lane.reports]
  | _ => simp [Lane.reports, ends]

/-- A step logs at most one event, and a call it starts is on the lane's GPU. -/
theorem Moves.log (h : Moves p l p' l') :
    p'.log = p.log ∨ ∃ ev, p'.log = p.log ++ [ev] ∧ ∀ gpu task, ev = .started gpu task → gpu = l.gpu := by
  cases h with
  | take => exact Or.inl rfl
  | leave => exact Or.inl rfl
  | report => exact Or.inl rfl
  | call =>
    refine Or.inr ⟨_, rfl, ?_⟩
    rintro gpu task ⟨⟩
    rfl
  | finish => exact Or.inr ⟨_, rfl, by simp⟩
  | fail => exact Or.inr ⟨_, rfl, by simp⟩
  | die => exact Or.inr ⟨_, rfl, by simp⟩

theorem Moves.mem_ends (h : Moves p l p' l') {t : Task} (ht : t ∈ ends p.log) : t ∈ ends p'.log := by
  rcases h.log with hlog | ⟨ev, hlog, -⟩
  · rwa [hlog]
  · simp [hlog, ht]

/-- A share that is empty stays empty. -/
theorem Moves.share_nil (h : Moves p l p' l') {g : String} (hg : p.share g = []) :
    p'.share g = [] := by
  cases h with
  | @take g' task items hs =>
    have hne : g ≠ g' := by
      rintro rfl
      rw [hg] at hs
      cases hs
    simpa [hne] using hg
  | _ => exact hg

/-- Calls under way on a GPU are lanes of it, one to a slot. -/
theorem runsOn_le_width {lanes : List Lane} (h : (lanes.map Lane.gpu).Perm slots) (gpu : String) :
    lanes.countP (Lane.runsOn gpu) ≤ width slots gpu := by
  rw [width, ← h.count_eq, List.count, List.countP_map]
  apply List.countP_mono_left
  intro x _ hx
  simp only [Lane.runsOn, Bool.and_eq_true, decide_eq_true_eq] at hx
  simp [hx.1]

/-- **One step keeps the account.** Each field is the lane's own change with the other lanes added. -/
theorem account_step {s t : State} (h : Account slots tasks s) (hstep : Step s t) :
    Account slots tasks t := by
  obtain ⟨before, l, after, p, l', hlanes, hlane, rfl⟩ := hstep
  have hm := moves_of_laneStep hlane
  have hl : l.gpu ∈ slots := h.onePerSlot.subset (List.mem_map_of_mem (by simp [hlanes]))
  have onePerSlot : ((before ++ l' :: after).map Lane.gpu).Perm slots := by
    simpa [hlanes, hm.gpu] using h.onePerSlot
  have openOn : ∀ g, startsOn g p.log = endsOn g p.log + (before ++ l' :: after).countP (Lane.runsOn g) := by
    intro g
    have hs := h.openOn g
    have hd := hm.openOn g
    rw [hlanes] at hs
    simp only [List.countP_append, List.countP_cons, List.countP_nil] at hs hd ⊢
    omega
  -- counted task by task, the other lanes' share of each sum is what it was
  refine ⟨onePerSlot, ?_, ?_, openOn, ?_, ?_, ?_, ?_, ?_⟩
  · have hmove := hm.everyTask (mem_gpus.mpr hl)
    have hall := h.everyTask
    rw [List.perm_iff_count] at hmove hall ⊢
    intro a
    have hmove := hmove a
    have hall := hall a
    simp only [hlanes, List.flatMap_append, List.flatMap_cons, List.count_append] at hmove hall ⊢
    omega
  · have hall := h.openCalls
    rw [List.perm_iff_count] at hall ⊢
    intro a
    have hmove := hm.openCalls a
    have hall := hall a
    simp only [hlanes, List.flatMap_append, List.flatMap_cons, List.count_append] at hall ⊢
    omega
  · have hall := h.failures
    rw [List.perm_iff_count] at hall ⊢
    intro n
    have hmove := hm.failures n
    have hall := hall n
    simp only [hlanes, List.flatMap_append, List.flatMap_cons, List.map_append, List.count_append]
      at hall ⊢
    omega
  · intro gpu task hev
    rcases hm.log with hlog | ⟨ev, hlog, hgpu⟩
    · exact h.listed gpu task (hlog ▸ hev)
    · rw [hlog, List.mem_append, List.mem_singleton] at hev
      rcases hev with hev | hev
      · exact h.listed gpu task hev
      · exact hgpu gpu task hev.symm ▸ hl
  · intro q hq gpu
    -- a prefix of the new log is an old one, or the whole: there the open calls are lanes of `gpu`
    have hwhole : startsOn gpu p.log ≤ endsOn gpu p.log + width slots gpu := by
      have := openOn gpu
      have := runsOn_le_width onePerSlot gpu
      omega
    rcases hm.log with hlog | ⟨ev, hlog, -⟩
    · exact h.within q (hlog ▸ hq) gpu
    · rw [hlog, List.prefix_concat_iff] at hq
      rcases hq with rfl | hq
      · rwa [hlog] at hwhole
      · exact h.within q hq gpu
  · intro x hx hret
    rw [List.mem_append, List.mem_cons] at hx
    rcases hx with hx | rfl | hx
    · exact hm.share_nil (h.drained x (by simp [hlanes, hx]) hret)
    · cases hm with
      | leave hs => exact hs
      | _ => cases hret
    · exact hm.share_nil (h.drained x (by simp [hlanes, hx]) hret)
  · intro x hx error hdied
    have old : x ∈ s.lanes → ∃ t ∈ ends p.log, t.outcome.contained = false := by
      intro hmem
      obtain ⟨t, ht, hc⟩ := h.died x hmem error hdied
      exact ⟨t, hm.mem_ends ht, hc⟩
    rw [List.mem_append, List.mem_cons] at hx
    rcases hx with hx | rfl | hx
    · exact old (by simp [hlanes, hx])
    · cases hm with
      | @die g task error' ho hwide =>
        exact ⟨task, by simp [ends], by simp [ho, Outcome.contained, hwide]⟩
      | _ => cases hdied
    · exact old (by simp [hlanes, hx])

end Steps

/-- **The account holds in every state of every run**, whatever the tasks do. -/
theorem account_of_reachable {slots : List String} {tasks : List Task} {share : Share}
    (hdealt : (dealt slots share).Perm tasks) {s : State} (h : (lanes slots share).Reachable s) :
    Account slots tasks s := by
  apply System.invariant _ _ h
  · rintro s rfl
    exact account_start hdealt
  · exact fun s t hs hst => account_step hs hst

/-! ## Every run ends -/

/-- Steps a lane may still take before it looks for its next task. -/
def Lane.rest (l : Lane) : Nat :=
  match l.status with
  | .took _ => 5
  | .running _ => 4
  | .reporting _ => 3
  | .idle => 1
  | .returned => 0
  | .died _ => 0

/-- What is left to do: five steps a dealt task, and what the lanes are at. -/
def State.rest (slots : List String) (s : State) : Nat :=
  5 * (dealt slots s.pool.share).length + (s.lanes.map Lane.rest).sum

theorem Moves.rest {slots : List String} {p p' : Pool} {l l' : Lane} (h : Moves p l p' l')
    (hl : l.gpu ∈ gpus slots) :
    5 * (dealt slots p'.share).length + l'.rest < 5 * (dealt slots p.share).length + l.rest := by
  cases h with
  | @take g task items hs =>
    have hlen := (dealt_update p.share hl items).length_eq
    simp only [hs, List.length_append, List.length_cons] at hlen
    simp only [Lane.rest]
    omega
  | _ => simp [Lane.rest]

theorem Account.rest_lt {slots : List String} {tasks : List Task} {s t : State}
    (h : Account slots tasks s) (hstep : Step s t) : t.rest slots < s.rest slots := by
  obtain ⟨before, l, after, p, l', hlanes, hlane, rfl⟩ := hstep
  have hl : l.gpu ∈ slots := h.onePerSlot.subset (List.mem_map_of_mem (by simp [hlanes]))
  have hfall := (moves_of_laneStep hlane).rest (mem_gpus.mpr hl)
  simp only [State.rest, hlanes, List.map_append, List.map_cons, List.sum_append, List.sum_cons]
  omega

/-- No interleaving goes on for ever. -/
theorem lanes_end {slots : List String} {tasks : List Task} {share : Share}
    (hdealt : (dealt slots share).Perm tasks) {s : State} (h : (lanes slots share).Reachable s) :
    Acc (fun t s => Step s t) s := by
  apply System.acc_of_measure (S := lanes slots share) (P := Account slots tasks) (State.rest slots)
  · exact fun s t hs hst => account_step hs hst
  · exact fun s t hs hst => hs.rest_lt hst
  · exact account_of_reachable hdealt h

/-- A state without a step is one whose threads are over. -/
theorem joined_of_stuck {s : State} (h : ∀ t, ¬ Step s t) : s.joined := by
  intro l hl
  by_contra hrun
  obtain ⟨before, after, hlanes⟩ := List.append_of_mem hl
  obtain ⟨p, l', hstep⟩ := exists_laneStep (by simpa using hrun) s.pool
  exact h _ ⟨before, l, after, p, l', hlanes, hstep, rfl⟩

/-- `run_jobs` comes back. -/
theorem exists_joined {slots : List String} {tasks : List Task} {share : Share}
    (hdealt : (dealt slots share).Perm tasks) :
    ∃ s, (lanes slots share).Reachable s ∧ s.joined := by
  have hstart : (lanes slots share).Reachable (start slots share) := ⟨_, rfl, .refl⟩
  obtain ⟨t, hrun, hstuck⟩ := System.exists_last (S := lanes slots share) (lanes_end hdealt hstart)
  exact ⟨t, ⟨_, rfl, hrun⟩, joined_of_stuck hstuck⟩

/-! ## What a joined run reports -/

section Joined

variable {slots : List String} {tasks : List Task} {s : State}

theorem holds_of_ended {l : Lane} (h : l.ended = true) : l.holds = [] ∧ l.runs = [] ∧ l.reports = [] := by
  obtain ⟨g, status⟩ := l
  cases status <;> simp_all [Lane.ended, Lane.holds, Lane.runs, Lane.reports]

/-- Joined: the calls started are the calls ended, and every failure among them is reported. -/
theorem Account.of_joined (h : Account slots tasks s) (hj : s.joined) :
    (starts s.pool.log ++ dealt slots s.pool.share).Perm tasks ∧
    (starts s.pool.log).Perm (ends s.pool.log) ∧
    s.pool.failed.Perm (((ends s.pool.log).filter fun t => t.outcome.failed).map Task.name) := by
  have holds : s.lanes.flatMap Lane.holds = [] :=
    List.flatMap_eq_nil_iff.mpr fun l hl => (holds_of_ended (hj l hl)).1
  have runs : s.lanes.flatMap Lane.runs = [] :=
    List.flatMap_eq_nil_iff.mpr fun l hl => (holds_of_ended (hj l hl)).2.1
  have reports : s.lanes.flatMap Lane.reports = [] :=
    List.flatMap_eq_nil_iff.mpr fun l hl => (holds_of_ended (hj l hl)).2.2
  have hall := h.everyTask
  have hopen := h.openCalls
  have hfail := h.failures
  rw [holds, List.append_nil] at hall
  rw [runs, List.append_nil] at hopen
  rw [reports, List.map_nil, List.append_nil] at hfail
  exact ⟨hall, hopen, hfail⟩

/-- No exception wider than `Exception`: every lane returned, so every share is empty. -/
theorem Account.nothing_left (h : Account slots tasks s) (hj : s.joined)
    (hcontained : ∀ t ∈ tasks, t.outcome.contained = true) : dealt slots s.pool.share = [] := by
  obtain ⟨hall, hopen, -⟩ := h.of_joined hj
  apply List.flatMap_eq_nil_iff.mpr
  intro g hg
  have hlane : g ∈ s.lanes.map Lane.gpu := h.onePerSlot.symm.subset (mem_gpus.mp hg)
  obtain ⟨l, hl, rfl⟩ := List.mem_map.mp hlane
  have hend := hj l hl
  cases hstatus : l.status with
  | returned => exact h.drained l hl hstatus
  | died error =>
    obtain ⟨t, ht, hwide⟩ := h.died l hl error hstatus
    have hmem : t ∈ tasks := hall.subset (List.mem_append_left _ (hopen.symm.subset ht))
    rw [hcontained t hmem] at hwide
    cases hwide
  | _ => simp [Lane.ended, hstatus] at hend

/-- A failure of a contained task is exactly a task that did not return true. -/
theorem failed_eq_unsuccessful {outcome : Outcome} (h : outcome.contained = true) :
    outcome.failed = outcome.unsuccessful := by
  cases outcome with
  | returned ok => cases ok <;> rfl
  | raised error => simpa [Outcome.failed, Outcome.unsuccessful, Outcome.contained] using h

/-- Joined, and every task contained: the run did what it is for. -/
theorem Account.everyJobRuns (h : Account slots tasks s) (hj : s.joined)
    (hcontained : ∀ t ∈ tasks, t.outcome.contained = true) :
    EveryJobRuns slots tasks ⟨s.pool.log, .ok s.pool.failed⟩ := by
  obtain ⟨hall, hopen, hfail⟩ := h.of_joined hj
  rw [h.nothing_left hj hcontained, List.append_nil] at hall
  have hends : (ends s.pool.log).Perm tasks := hopen.symm.trans hall
  refine ⟨hall, h.listed, h.within, _, rfl, ?_⟩
  have hsame : (tasks.filter fun t => t.outcome.failed) = tasks.filter fun t => t.outcome.unsuccessful :=
    List.filter_congr fun t ht => failed_eq_unsuccessful (hcontained t ht)
  rw [← hsame]
  exact hfail.trans ((hends.filter _).map _)

/-- A task that raises outside `Exception` spoils every joined run: it is not called, or it is called
and its name, which no other task has, is not reported. -/
theorem Account.not_everyJobRuns (h : Account slots tasks s) (hj : s.joined)
    (hnames : (tasks.map Task.name).Nodup) {t : Task} (ht : t ∈ tasks)
    (hwide : t.outcome.contained = false) :
    ¬ EveryJobRuns slots tasks ⟨s.pool.log, .ok s.pool.failed⟩ := by
  intro hrun
  obtain ⟨hall, hopen, hfail⟩ := h.of_joined hj
  obtain ⟨failed, hok, hreported⟩ := hrun.reported
  obtain rfl : s.pool.failed = failed := by simpa using hok
  have hunsuccessful : t.outcome.unsuccessful = true := by
    cases ho : t.outcome with
    | returned ok => simp [ho, Outcome.contained] at hwide
    | raised error => simp [Outcome.unsuccessful]
  have hname : t.name ∈ s.pool.failed := by
    apply hreported.symm.subset
    exact List.mem_map_of_mem (List.mem_filter.mpr ⟨ht, hunsuccessful⟩)
  obtain ⟨t', ht', heq⟩ := List.mem_map.mp (hfail.subset hname)
  obtain ⟨hend', hfailed'⟩ := List.mem_filter.mp ht'
  have hmem' : t' ∈ tasks := hall.subset (List.mem_append_left _ (hopen.symm.subset hend'))
  obtain rfl : t' = t := List.inj_on_of_nodup_map hnames hmem' ht heq
  cases ho : t'.outcome with
  | returned ok => simp [ho, Outcome.contained] at hwide
  | raised error => simp_all [Outcome.contained, Outcome.failed]

end Joined

/-! ## Both paths -/

/-- Does the docstring's "Every task runs, whatever fails" reach this batch: with one slot no task may
raise, with several none may raise outside `Exception`. -/
def Contained (slots : List String) (tasks : List Task) : Prop :=
  if slots.length = 1 then ∀ t ∈ tasks, t.outcome.returns = true
  else ∀ t ∈ tasks, t.outcome.contained = true

/-- What is asked of `run_jobs` on a batch: it comes back, under every interleaving; the deal is
balanced; every run does what it is for; and one slot reports the same names. -/
structure Scheduled (slots : List String) (tasks : List Task) : Prop where
  comesBack : ∃ e, RunJobs slots tasks e
  ends : ∀ share, deal slots tasks = some share → ∀ s, (lanes slots share).Reachable s →
    Acc (fun t s => Step s t) s
  balanced : ∀ share, deal slots tasks = some share → Balanced slots share
  everyRun : ∀ e, RunJobs slots tasks e → EveryJobRuns slots tasks e
  sameAsOneSlot : ∀ slot e e', RunJobs [slot] tasks e → RunJobs slots tasks e' →
    ∃ failed failed', e.result = .ok failed ∧ e'.result = .ok failed' ∧ failed.Perm failed'

section BothPaths

variable {slots : List String} {tasks : List Task}

/-- With several slots a run is a joined run of the lanes on the deal. -/
theorem runJobs_lanes (hone : slots.length ≠ 1) {share : Share} (hdeal : deal slots tasks = some share)
    (e : Execution) :
    RunJobs slots tasks e ↔
      ∃ s, (lanes slots share).Reachable s ∧ s.joined ∧ e = ⟨s.pool.log, .ok s.pool.failed⟩ := by
  match slots, hone, hdeal with
  | [], _, hdeal => simp [RunJobs, hdeal]
  | _ :: _ :: _, _, hdeal => simp [RunJobs, hdeal]

theorem exists_runJobs (hslots : slots ≠ []) (tasks : List Task) : ∃ e, RunJobs slots tasks e := by
  by_cases hone : slots.length = 1
  · obtain ⟨slot, rfl⟩ := List.length_eq_one_iff.mp hone
    exact ⟨_, rfl⟩
  · obtain ⟨share, hdeal, -, hperm⟩ := deal_spec hslots tasks
    obtain ⟨s, hs, hj⟩ := exists_joined hperm
    exact ⟨_, (runJobs_lanes hone hdeal _).mpr ⟨s, hs, hj, rfl⟩⟩

/-- **Whatever the tasks do**, calls are on listed GPUs and within each GPU's width. -/
theorem runJobs_within (hslots : slots ≠ []) {e : Execution} (h : RunJobs slots tasks e) :
    (∀ gpu task, .started gpu task ∈ e.log → gpu ∈ slots) ∧
    ∀ p, p <+: e.log → ∀ gpu, startsOn gpu p ≤ endsOn gpu p + width slots gpu := by
  by_cases hone : slots.length = 1
  · obtain ⟨slot, rfl⟩ := List.length_eq_one_iff.mp hone
    obtain rfl : e = inOrder slot [] tasks := h
    refine ⟨fun gpu task hmem => ?_, fun p hp gpu => inOrder_within tasks hp gpu⟩
    simp [inOrder_listed tasks hmem]
  · obtain ⟨share, hdeal, -, hperm⟩ := deal_spec hslots tasks
    obtain ⟨s, hs, -, rfl⟩ := (runJobs_lanes hone hdeal e).mp h
    have account := account_of_reachable hperm hs
    exact ⟨account.listed, account.within⟩

/-- Every run does what it is for exactly on the contained batches. -/
theorem everyRun_iff (hslots : slots ≠ []) (hnames : (tasks.map Task.name).Nodup) :
    (∀ e, RunJobs slots tasks e → EveryJobRuns slots tasks e) ↔ Contained slots tasks := by
  by_cases hone : slots.length = 1
  · obtain ⟨slot, rfl⟩ := List.length_eq_one_iff.mp hone
    simpa [RunJobs, Contained] using inOrder_iff slot tasks
  · obtain ⟨share, hdeal, -, hperm⟩ := deal_spec hslots tasks
    rw [Contained, if_neg hone]
    constructor
    · intro h t ht
      by_contra hwide
      obtain ⟨s, hs, hj⟩ := exists_joined hperm
      have account := account_of_reachable hperm hs
      apply account.not_everyJobRuns hj hnames ht (by simpa using hwide)
      exact h _ ((runJobs_lanes hone hdeal _).mpr ⟨s, hs, hj, rfl⟩)
    · rintro h e he
      obtain ⟨s, hs, hj, rfl⟩ := (runJobs_lanes hone hdeal e).mp he
      exact (account_of_reachable hperm hs).everyJobRuns hj h

/-- Where every task returns, no path meets an exception. -/
theorem contained_of_returns (slots : List String) (h : ∀ t ∈ tasks, t.outcome.returns = true) :
    Contained slots tasks := by
  unfold Contained
  split
  · exact h
  · intro t ht
    cases ho : t.outcome with
    | returned ok => rfl
    | raised error => simpa [ho, Outcome.returns] using h t ht

/-- **The batch runner.** What is asked of it holds of a batch exactly when every task returns; the
part about single runs, without the comparison to one slot, exactly when the batch is contained. -/
theorem run_jobs_iff (hslots : slots ≠ []) (hnames : (tasks.map Task.name).Nodup) :
    (Scheduled slots tasks ↔ ∀ t ∈ tasks, t.outcome.returns = true) ∧
    ((∀ e, RunJobs slots tasks e → EveryJobRuns slots tasks e) ↔ Contained slots tasks) := by
  refine ⟨⟨fun h => ?_, fun h => ?_⟩, everyRun_iff hslots hnames⟩
  · -- one slot raises what any task raises, and then there are no names to compare
    by_contra hraise
    obtain ⟨error, herror⟩ := inOrder_of_raises "0" (by simpa using hraise) []
    obtain ⟨e', he'⟩ := exists_runJobs hslots tasks
    obtain ⟨failed, -, hok, -⟩ := h.sameAsOneSlot "0" _ e' rfl he'
    rw [herror] at hok
    cases hok
  · have hrun := (everyRun_iff hslots hnames).mpr (contained_of_returns slots h)
    obtain ⟨share, hdeal, hbal, hperm⟩ := deal_spec hslots tasks
    refine ⟨exists_runJobs hslots tasks, ?_, ?_, hrun, ?_⟩
    · intro share' hdeal'
      obtain rfl : share = share' := by simpa [hdeal] using hdeal'
      exact fun s hs => lanes_end hperm hs
    · intro share' hdeal'
      obtain rfl : share = share' := by simpa [hdeal] using hdeal'
      exact hbal
    · intro slot e e' he he'
      obtain rfl : e = inOrder slot [] tasks := he
      obtain ⟨failed, hok, hperm⟩ := ((inOrder_iff slot tasks).mpr h).reported
      obtain ⟨failed', hok', hperm'⟩ := (hrun e' he').reported
      exact ⟨failed, failed', hok, hok', hperm.trans hperm'.symm⟩

end BothPaths

/-- The rungs with weights: all return, and the runner does what it is for. -/
theorem returned_rungs_scheduled :
    Scheduled ["0", "1", "0"] [⟨"4.00bpw", .returned true⟩, ⟨"5.00bpw", .returned false⟩] ∧
    ∀ e, RunJobs ["0", "1", "0"] [⟨"4.00bpw", .returned true⟩, ⟨"5.00bpw", .returned false⟩] e →
      EveryJobRuns ["0", "1", "0"] [⟨"4.00bpw", .returned true⟩, ⟨"5.00bpw", .returned false⟩] e := by
  have hreturns : ∀ t ∈ [(⟨"4.00bpw", .returned true⟩ : Task), ⟨"5.00bpw", .returned false⟩],
      t.outcome.returns = true := by decide
  obtain ⟨hscheduled, hevery⟩ := run_jobs_iff (show ["0", "1", "0"] ≠ [] by decide)
    (show ([⟨"4.00bpw", .returned true⟩, ⟨"5.00bpw", .returned false⟩].map Task.name).Nodup by decide)
  exact ⟨hscheduled.mpr hreturns, hevery.mpr (contained_of_returns _ hreturns)⟩

/-! ## A run by its schedule -/

/-- Lane `i` moves. -/
def move (s : State) (i : Nat) : Option State :=
  match s.lanes[i]? with
  | none => none
  | some l => (laneStep s.pool l).map fun q => ⟨q.1, s.lanes.set i q.2⟩

/-- The lanes move in the order of a schedule. -/
def replay (s : State) : List Nat → Option State
  | [] => some s
  | i :: schedule => (move s i).bind fun t => replay t schedule

theorem step_of_move {s t : State} {i : Nat} (h : move s i = some t) : Step s t := by
  unfold move at h
  split at h
  · cases h
  · next l hl =>
    obtain ⟨⟨p, l'⟩, hstep, rfl⟩ := Option.map_eq_some_iff.mp h
    obtain ⟨hi, rfl⟩ := List.getElem?_eq_some_iff.mp hl
    refine ⟨s.lanes.take i, s.lanes[i], s.lanes.drop (i + 1), p, l', by simp, hstep, ?_⟩
    simp only [List.set_eq_take_append_cons_drop, if_pos hi]

/-- A schedule that joins every lane is a run of `run_jobs`. -/
theorem runJobs_of_replay {slots : List String} {tasks : List Task} {share : Share} {s : State}
    {schedule : List Nat} (hone : slots.length ≠ 1) (hdeal : deal slots tasks = some share)
    (h : replay (start slots share) schedule = some s) (hj : s.joined) :
    RunJobs slots tasks ⟨s.pool.log, .ok s.pool.failed⟩ := by
  refine (runJobs_lanes hone hdeal _).mpr ⟨s, ⟨_, rfl, ?_⟩, hj, rfl⟩
  generalize start slots share = t at h
  induction schedule generalizing t with
  | nil =>
    obtain rfl : t = s := by simpa [replay] using h
    exact .refl
  | cons i schedule ih =>
    obtain ⟨u, hmove, hrest⟩ := Option.bind_eq_some_iff.mp h
    exact (ih u hrest).head (step_of_move hmove)

/-- A ladder on several slots does what it is for, in every run, if no group of a recipe is without weight
and the conversions raise nothing but what is caught. -/
theorem ladder_everyRun {β : Type} {slots revs : List String} (hslots : slots ≠ [])
    (hone : slots.length ≠ 1) (hrevs : revs.Nodup) {blend : String → Except Measure.BlendError β}
    {convert : String → Outcome}
    (hblend : ∀ rev ∈ revs, ∀ text, blend rev ≠ .error (.systemExit text))
    (hconvert : ∀ rev ∈ revs, (convert rev).contained = true) {e : Execution}
    (he : RunJobs slots (revs.map fun rev => quantizeTask rev (blend rev) (convert rev)) e) :
    EveryJobRuns slots (revs.map fun rev => quantizeTask rev (blend rev) (convert rev)) e := by
  have hnames : ((revs.map fun rev => quantizeTask rev (blend rev) (convert rev)).map Task.name) = revs := by
    rw [List.map_map]
    exact List.map_id revs
  refine (everyRun_iff hslots (hnames.symm ▸ hrevs)).mpr ?_ e he
  rw [Contained, if_neg hone]
  intro task htask
  obtain ⟨rev, hrev, rfl⟩ := List.mem_map.mp htask
  exact contained_quantizeTask (hblend rev hrev) (hconvert rev hrev)

/-- Own voice half, and a calibration whose categories have no weight left. -/
def weightless : List Measure.Group :=
  [⟨1 / 2, "0.5", .ofList [("self", 1)]⟩, ⟨1 / 2, "0.5", .ofList [("self", 0), ("loop", 0)]⟩]

/-- Three rungs on a recipe blend whose second group has no weight left. -/
def ladder : List Task :=
  ["4.00bpw", "5.00bpw", "6.00bpw"].map fun rev =>
    quantizeTask rev (Measure.blendMeasurement (Measure.twoCategories 1) weightless) (.returned true)

/-- The two lanes of `["0", "1"]`, one after the other: each dies in its first call. -/
theorem replay_ladder :
    ((deal ["0", "1"] ladder).bind fun share => replay (start ["0", "1"] share) [0, 0, 0, 1, 1, 1]).map
        (fun s => (s.lanes.map Lane.ended, s.pool.failed, (starts s.pool.log).map Task.name))
      = some ([true, true], [], ["4.00bpw", "5.00bpw"]) := by
  decide +kernel

/-- A `SystemExit` of the blend on every rung: the third rung is never called, no name is returned,
and the batch reports success. -/
theorem blend_exit_unreported :
    (∃ e, RunJobs ["0", "1"] ladder e ∧ e.result = .ok [] ∧
      (starts e.log).map Task.name = ["4.00bpw", "5.00bpw"]) ∧
    ¬ Scheduled ["0", "1"] ladder := by
  have hrun : ∃ e, RunJobs ["0", "1"] ladder e ∧ e.result = .ok [] ∧
      (starts e.log).map Task.name = ["4.00bpw", "5.00bpw"] := by
    obtain ⟨s, hs, heq⟩ := Option.map_eq_some_iff.mp replay_ladder
    obtain ⟨share, hdeal, hreplay⟩ := Option.bind_eq_some_iff.mp hs
    simp only [Prod.mk.injEq] at heq
    obtain ⟨hended, hfailed, hstarts⟩ := heq
    have hj : s.joined := by
      intro l hl
      have hmem : l.ended ∈ [true, true] := hended ▸ List.mem_map_of_mem hl
      simpa using hmem
    exact ⟨_, runJobs_of_replay (by decide) hdeal hreplay hj, by rw [hfailed], hstarts⟩
  refine ⟨hrun, fun h => ?_⟩
  obtain ⟨e, he, hnone, hstarts⟩ := hrun
  -- three tasks were dealt and two were called
  have hlen := ((h.everyRun e he).once.map Task.name).length_eq
  rw [hstarts] at hlen
  simp [ladder] at hlen

end VllmExl3.Quant
