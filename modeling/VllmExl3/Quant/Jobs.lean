/-
# VllmExl3.Quant.Jobs — the tasks of a batch, how they are dealt to GPUs, and the one-slot path

`run_jobs` (`quantization/quant.py`) runs the tasks of `quantize`, `baseline` and `qbench`. With one
slot it calls them in order; with several it deals them to the GPUs up front, in proportion to each
GPU's slots, and one thread per slot works through its GPU's share (`Quant.Lanes`). Here are the
tasks and what a call of one can do, the deal, and the one-slot path.

A task is called at most once in a run, so its outcome is a field: all outcomes are quantified over,
and an outcome that depends on the GPU or on the moment is one of them. Each path yields an
`Execution`: its calls in order, and what `run_jobs` returns or raises.
-/
import Mathlib.Algebra.Order.Field.Rat
import Mathlib.Data.List.MinMax
import Mathlib.Data.Prod.Lex
import Mathlib.Logic.Function.Basic
import Mathlib.Tactic.Linarith
import Mathlib.Tactic.Positivity
import VllmExl3.Measure.Blend

namespace VllmExl3.Quant

/-! ## Tasks -/

/-- An exception, by its place in Python's hierarchy: `exception` is everything under `Exception`,
the others are under `BaseException` only. -/
inductive PyError where
  | exception (type text : String)
  | systemExit (text : String)
  | keyboardInterrupt
  | generatorExit
  | otherBase (type text : String)
deriving DecidableEq, Repr

/-- Does `except Exception` catch it? -/
def PyError.caught : PyError → Bool
  | .exception _ _ => true
  | _ => false

/-- What calling a task does. -/
inductive Outcome where
  | returned (ok : Bool)
  | raised (error : PyError)
deriving DecidableEq, Repr

/-- The task returned, true or false. -/
def Outcome.returns : Outcome → Bool
  | .returned _ => true
  | .raised _ => false

/-- The task returned, or raised what `except Exception` catches. -/
def Outcome.contained : Outcome → Bool
  | .returned _ => true
  | .raised error => error.caught

/-- `not ok` after the `try` of a lane: false was returned, or an `Exception` was caught. -/
def Outcome.failed : Outcome → Bool
  | .returned ok => !ok
  | .raised error => error.caught

/-- `(name, fn)`, with what this run's call of `fn` does. -/
structure Task where
  name : String
  outcome : Outcome
deriving DecidableEq, Repr

/-- A call of a task on a GPU, and the end of that call. -/
inductive Event where
  | started (gpu : String) (task : Task)
  | ended (gpu : String) (task : Task)
deriving DecidableEq, Repr

/-- One run of `run_jobs`: the calls it made, and the names it returned or the exception it raised. -/
structure Execution where
  log : List Event
  result : Except PyError (List String)

/-! ## What a log says, and what a run is for -/

/-- The tasks called, in order. -/
def starts : List Event → List Task
  | [] => []
  | .started _ task :: log => task :: starts log
  | .ended _ _ :: log => starts log

/-- The tasks whose call ended, in order. -/
def ends : List Event → List Task
  | [] => []
  | .started _ _ :: log => ends log
  | .ended _ task :: log => task :: ends log

/-- Calls started on `gpu`. -/
def startsOn (gpu : String) (log : List Event) : Nat :=
  log.countP fun | .started g _ => g = gpu | .ended _ _ => false

/-- Calls ended on `gpu`. -/
def endsOn (gpu : String) (log : List Event) : Nat :=
  log.countP fun | .started _ _ => false | .ended g _ => g = gpu

@[simp] theorem starts_append (p q : List Event) : starts (p ++ q) = starts p ++ starts q := by
  induction p with
  | nil => rfl
  | cons ev p ih => cases ev <;> simp [starts, ih]

@[simp] theorem ends_append (p q : List Event) : ends (p ++ q) = ends p ++ ends q := by
  induction p with
  | nil => rfl
  | cons ev p ih => cases ev <;> simp [ends, ih]

/-- `width = Counter(slots)`: how many tasks run at a time on `gpu`. -/
def width (slots : List String) (gpu : String) : Nat := slots.count gpu

/-- A task that did not return true. -/
def Outcome.unsuccessful (outcome : Outcome) : Bool := outcome ≠ .returned true

/-- What `run_jobs` is for: each task is called once, on a listed GPU, with at most `width` calls open
at a time on any GPU, and the names returned are those of the tasks that did not return true. -/
structure EveryJobRuns (slots : List String) (tasks : List Task) (e : Execution) : Prop where
  once : (starts e.log).Perm tasks
  listed : ∀ gpu task, .started gpu task ∈ e.log → gpu ∈ slots
  within : ∀ p, p <+: e.log → ∀ gpu, startsOn gpu p ≤ endsOn gpu p + width slots gpu
  reported : ∃ failed, e.result = .ok failed ∧
    failed.Perm ((tasks.filter fun t => t.outcome.unsuccessful).map Task.name)

/-! ## The deal -/

/-- `list(dict.fromkeys(slots))`: each GPU once, in the order of its first slot. -/
def gpus (slots : List String) : List String := (PyDict.ofList (slots.map fun g => (g, ()))).keys

theorem mem_gpus {slots : List String} {g : String} : g ∈ gpus slots ↔ g ∈ slots := by
  simp [gpus, PyDict.mem_keys_ofList, Function.comp_def]

theorem nodup_gpus (slots : List String) : (gpus slots).Nodup :=
  (PyDict.ofList (slots.map fun g => (g, ()))).nodup

theorem width_pos {slots : List String} {g : String} (h : g ∈ gpus slots) : 0 < width slots g :=
  List.count_pos_iff.mpr (mem_gpus.mp h)

/-- The tasks dealt to each GPU so far. -/
abbrev Share := String → List Task

/-- `len(share[g]) / width[g]`, exact: below 2^26 tasks and slots the rounded quotients compare the
same way. -/
def load (slots : List String) (share : Share) (g : String) : Rat :=
  (share g).length / (width slots g : Rat)

/-- `min(gpus, key=lambda g: (len(share[g]) / width[g], gpus.index(g)))`; `none` is the `ValueError`
of an empty slot list. -/
def leastLoaded (slots : List String) (share : Share) : Option String :=
  (gpus slots).argmin fun g => toLex (load slots share g, (gpus slots).idxOf g)

/-- `share[g].append(task)` for each task in turn, on the GPU with the fewest tasks per slot so far. -/
def dealFrom (slots : List String) (share : Share) : List Task → Option Share
  | [] => some share
  | task :: tasks =>
    match leastLoaded slots share with
    | none => none
    | some g => dealFrom slots (Function.update share g (share g ++ [task])) tasks

/-- The whole deal, from empty shares. -/
def deal (slots : List String) (tasks : List Task) : Option Share := dealFrom slots (fun _ => []) tasks

/-- No GPU is a task ahead of another beyond what its slots account for. -/
def Balanced (slots : List String) (share : Share) : Prop :=
  ∀ g ∈ gpus slots, ∀ h ∈ gpus slots,
    (((share g).length : Rat) - 1) / width slots g ≤ (share h).length / (width slots h : Rat)

/-- Every task dealt, in the order of the GPUs. -/
def dealt (slots : List String) (share : Share) : List Task := (gpus slots).flatMap share

theorem leastLoaded_spec {slots : List String} {share : Share} {g : String}
    (h : leastLoaded slots share = some g) :
    g ∈ gpus slots ∧ ∀ k ∈ gpus slots, load slots share g ≤ load slots share k := by
  refine ⟨List.argmin_mem h, fun k hk => ?_⟩
  have hle := List.le_of_mem_argmin hk h
  rcases Prod.Lex.le_iff.mp hle with hlt | ⟨heq, _⟩
  · exact le_of_lt hlt
  · exact le_of_eq heq

theorem exists_leastLoaded {slots : List String} (hslots : slots ≠ []) (share : Share) :
    ∃ g, leastLoaded slots share = some g := by
  obtain ⟨s, hs⟩ := List.exists_mem_of_ne_nil slots hslots
  have hne : gpus slots ≠ [] := List.ne_nil_of_mem (mem_gpus.mpr hs)
  cases h : leastLoaded slots share with
  | none => exact absurd (List.argmin_eq_none.mp h) hne
  | some g => exact ⟨g, rfl⟩

/-- Giving the next task to the least loaded GPU keeps the shares balanced: that GPU was behind every
other before the task, and the others' shares do not change. -/
theorem balanced_update {slots : List String} {share : Share} {g : String}
    (hbal : Balanced slots share) (h : leastLoaded slots share = some g) (task : Task) :
    Balanced slots (Function.update share g (share g ++ [task])) := by
  obtain ⟨-, hleast⟩ := leastLoaded_spec h
  have grows : ∀ k, ((share k).length : Rat) / width slots k
      ≤ ((Function.update share g (share g ++ [task])) k).length / (width slots k : Rat) := by
    intro k
    apply div_le_div_of_nonneg_right _ (Nat.cast_nonneg _)
    by_cases hk : k = g
    · subst hk
      simp
    · simp [hk]
  intro a ha b hb
  apply le_trans _ (grows b)
  by_cases hag : a = g
  · subst hag
    simpa [load] using hleast b hb
  · simpa [hag] using hbal a ha b hb

/-- Replacing one listed GPU's share exchanges that share for the new one among the dealt tasks. -/
theorem dealt_update {slots : List String} (share : Share) {g : String} (hg : g ∈ gpus slots)
    (items : List Task) :
    (dealt slots (Function.update share g items) ++ share g).Perm (dealt slots share ++ items) := by
  suffices h : ∀ ks : List String, ks.Nodup → g ∈ ks →
      (ks.flatMap (Function.update share g items) ++ share g).Perm (ks.flatMap share ++ items) from
    h _ (nodup_gpus slots) hg
  intro ks hks hmem
  rw [List.perm_iff_count]
  intro a
  induction ks with
  | nil => cases hmem
  | cons k ks ih =>
    rw [List.nodup_cons] at hks
    by_cases hk : k = g
    · -- the one occurrence of `g`: the rest of the list does not read its share
      subst hk
      have rest : ks.flatMap (Function.update share k items) = ks.flatMap share := by
        apply List.flatMap_congr
        intro j hj
        have hjk : j ≠ k := fun h => hks.1 (h ▸ hj)
        exact Function.update_of_ne hjk _ _
      simp only [List.flatMap_cons, Function.update_self, rest, List.count_append]
      omega
    · have := ih hks.2 ((List.mem_cons.mp hmem).resolve_left fun h => hk h.symm)
      simp only [List.flatMap_cons, Function.update_of_ne hk, List.count_append] at this ⊢
      omega

/-- What a deal does to any shares it starts from. -/
theorem dealFrom_spec {slots : List String} (hslots : slots ≠ []) (tasks : List Task) {share : Share}
    (hbal : Balanced slots share) :
    ∃ share', dealFrom slots share tasks = some share' ∧ Balanced slots share' ∧
      (dealt slots share').Perm (dealt slots share ++ tasks) := by
  induction tasks generalizing share with
  | nil => exact ⟨share, rfl, hbal, by simp⟩
  | cons task tasks ih =>
    obtain ⟨g, hg⟩ := exists_leastLoaded hslots share
    have hmem := (leastLoaded_spec hg).1
    obtain ⟨share', hdeal, hbal', hperm⟩ := ih (balanced_update hbal hg task)
    refine ⟨share', ?_, hbal', ?_⟩
    · simp [dealFrom, hg, hdeal]
    · rw [List.perm_iff_count] at hperm ⊢
      intro a
      have hmoved := List.perm_iff_count.mp (dealt_update share hmem (share g ++ [task])) a
      have hrest := hperm a
      simp only [List.count_append, List.count_cons, List.count_nil] at hmoved hrest ⊢
      omega

/-- **The deal**: it succeeds on every non-empty slot list, deals each task to one listed GPU, and no
GPU gets a task more than its slots account for. -/
theorem deal_spec {slots : List String} (hslots : slots ≠ []) (tasks : List Task) :
    ∃ share, deal slots tasks = some share ∧ Balanced slots share ∧ (dealt slots share).Perm tasks := by
  have hempty : Balanced slots fun _ => [] := by
    intro g hg h hh
    have hw : (0 : Rat) < width slots g := Nat.cast_pos.mpr (width_pos hg)
    simp only [List.length_nil, Nat.cast_zero, zero_div, zero_sub]
    exact div_nonpos_of_nonpos_of_nonneg (by norm_num) hw.le
  obtain ⟨share, hdeal, hbal, hperm⟩ := dealFrom_spec hslots tasks hempty
  have hnone : dealt slots (fun _ => []) = [] := List.flatMap_eq_nil_iff.mpr fun _ _ => rfl
  refine ⟨share, hdeal, hbal, ?_⟩
  simpa [hnone] using hperm

/-! ## One slot -/

/-- The `len(slots) == 1` path, from the names failed so far: the tasks in order, and an exception of
a task leaves `run_jobs`. -/
def inOrder (slot : String) (failed : List String) : List Task → Execution
  | [] => { log := [], result := .ok failed }
  | task :: tasks =>
    match task.outcome with
    | .returned ok =>
      let rest := inOrder slot (if ok then failed else failed ++ [task.name]) tasks
      { log := .started slot task :: .ended slot task :: rest.log, result := rest.result }
    | .raised error =>
      { log := [.started slot task, .ended slot task], result := .error error }

/-- In order, every call is on the one slot. -/
theorem inOrder_listed {slot gpu : String} {task : Task} (tasks : List Task) {failed : List String}
    (h : .started gpu task ∈ (inOrder slot failed tasks).log) : gpu = slot := by
  induction tasks generalizing failed with
  | nil => simp [inOrder] at h
  | cons t tasks ih =>
    simp only [inOrder] at h
    split at h
    · simp only [List.mem_cons, Event.started.injEq, reduceCtorEq, false_or] at h
      rcases h with ⟨rfl, -⟩ | h
      · rfl
      · exact ih h
    · simp only [List.mem_cons, Event.started.injEq, reduceCtorEq, List.not_mem_nil, or_false] at h
      exact h.1

/-- In order, a call ends before the next one starts. -/
theorem inOrder_within {slot : String} (tasks : List Task) {failed : List String} {p : List Event}
    (h : p <+: (inOrder slot failed tasks).log) (gpu : String) :
    startsOn gpu p ≤ endsOn gpu p + width [slot] gpu := by
  induction tasks generalizing failed p with
  | nil =>
    have hp : p = [] := by simpa [inOrder] using h
    simp [hp, startsOn]
  | cons t tasks ih =>
    -- the log starts with this call's two events, whatever the outcome
    obtain ⟨rest, failed', hlog, hrest⟩ : ∃ rest failed',
        (inOrder slot failed (t :: tasks)).log = .started slot t :: .ended slot t :: rest ∧
        (rest = [] ∨ rest = (inOrder slot failed' tasks).log) := by
      simp only [inOrder]
      split
      · exact ⟨_, _, rfl, Or.inr rfl⟩
      · exact ⟨[], failed, rfl, Or.inl rfl⟩
    rw [hlog] at h
    match p, h with
    | [], _ => simp [startsOn]
    | [ev], h =>
      obtain rfl : ev = .started slot t := by simpa using h
      simp [startsOn, endsOn, width, List.countP_cons, List.count_cons]
    | ev :: ev' :: p, h =>
      obtain ⟨rfl, rfl, hp⟩ : ev = .started slot t ∧ ev' = .ended slot t ∧ p <+: rest := by
        simpa [List.cons_prefix_cons] using h
      have hbound : startsOn gpu p ≤ endsOn gpu p + width [slot] gpu := by
        rcases hrest with rfl | rfl
        · have hnil : p = [] := by simpa using hp
          simp [hnil, startsOn]
        · exact ih hp
      simp only [startsOn, endsOn, List.countP_cons] at hbound ⊢
      by_cases hg : slot = gpu
      · simp [hg] at hbound ⊢
        omega
      · simpa [hg] using hbound

/-- The tasks in order, when all of them return. -/
theorem inOrder_of_returns (slot : String) {tasks : List Task}
    (h : ∀ t ∈ tasks, t.outcome.returns = true) (failed : List String) :
    starts (inOrder slot failed tasks).log = tasks ∧
    (inOrder slot failed tasks).result
      = .ok (failed ++ (tasks.filter fun t => t.outcome.unsuccessful).map Task.name) := by
  induction tasks generalizing failed with
  | nil => simp [inOrder, starts]
  | cons t tasks ih =>
    rw [List.forall_mem_cons] at h
    cases ht : t.outcome with
    | returned ok =>
      obtain ⟨hstarts, hresult⟩ := ih h.2 (if ok then failed else failed ++ [t.name])
      refine ⟨?_, ?_⟩
      · simp [inOrder, ht, starts, hstarts]
      · cases ok <;> simp_all [inOrder, Outcome.unsuccessful]
    | raised error => simp [ht, Outcome.returns] at h

/-- One raise, and the one-slot path returns no names at all. -/
theorem inOrder_of_raises (slot : String) {tasks : List Task}
    (h : ∃ t ∈ tasks, t.outcome.returns = false) (failed : List String) :
    ∃ error, (inOrder slot failed tasks).result = .error error := by
  induction tasks generalizing failed with
  | nil => simp at h
  | cons t tasks ih =>
    cases ht : t.outcome with
    | returned ok =>
      have hrest : ∃ t ∈ tasks, t.outcome.returns = false := by
        simpa [ht, Outcome.returns] using h
      simpa [inOrder, ht] using ih hrest _
    | raised error => exact ⟨error, by simp [inOrder, ht]⟩

/-- **One slot**: the run does what it is for exactly when every task returns. -/
theorem inOrder_iff (slot : String) (tasks : List Task) :
    EveryJobRuns [slot] tasks (inOrder slot [] tasks) ↔ ∀ t ∈ tasks, t.outcome.returns = true := by
  constructor
  · intro h
    by_contra hraise
    obtain ⟨error, herror⟩ := inOrder_of_raises slot (by simpa using hraise) []
    obtain ⟨failed, hok, -⟩ := h.reported
    rw [herror] at hok
    cases hok
  · intro h
    obtain ⟨hstarts, hresult⟩ := inOrder_of_returns slot h []
    refine ⟨?_, ?_, ?_, ?_⟩
    · rw [hstarts]
    · intro gpu task hmem
      simp [inOrder_listed tasks hmem]
    · exact fun p hp gpu => inOrder_within tasks hp gpu
    · exact ⟨_, hresult, by simp⟩

/-! ## The exception a quantize task lets out -/

/-- The exception a blend ends with, by its place in Python's hierarchy. -/
def blendRaises : Measure.BlendError → PyError
  | .systemExit text => .systemExit text
  | .noTemplate => .exception "TypeError" "'NoneType' object is not subscriptable"
  | .python (.exl3Format message) => .exception "EXL3FormatError" message
  | .python (.assertion message) => .exception "AssertionError" message
  | .python (.value message) => .exception "ValueError" message
  | .python (.key key) => .exception "KeyError" key
  | .python (.runtime message) => .exception "RuntimeError" message
  | .python .index => .exception "IndexError" "list index out of range"
  | .python .zeroDivision => .exception "ZeroDivisionError" "division by zero"

/-- Only the guard on a group's weights gets past `except Exception`. -/
theorem caught_blendRaises (error : Measure.BlendError) :
    (blendRaises error).caught = true ↔ ∀ text, error ≠ .systemExit text := by
  cases error with
  | systemExit text => simp [blendRaises, PyError.caught]
  | noTemplate => simp [blendRaises, PyError.caught]
  | python e => cases e <;> simp [blendRaises, PyError.caught]

/-- The task of one revision in `do_quantize`: `blend_measurement` first (`.ok` where no recipe has to be
solved), then the conversion. -/
def quantizeTask {β : Type} (rev : String) (blend : Except Measure.BlendError β) (convert : Outcome) :
    Task where
  name := rev
  outcome :=
    match blend with
    | .error error => .raised (blendRaises error)
    | .ok _ => convert

/-- A revision's task contains what it raises if its conversion does and no group of its recipe is
without weight. -/
theorem contained_quantizeTask {β : Type} {rev : String} {blend : Except Measure.BlendError β}
    {convert : Outcome} (hblend : ∀ text, blend ≠ .error (.systemExit text))
    (hconvert : convert.contained = true) : (quantizeTask rev blend convert).outcome.contained = true := by
  cases blend with
  | error error =>
    refine (caught_blendRaises error).mpr fun text htext => hblend text ?_
    rw [htext]
  | ok out => exact hconvert

end VllmExl3.Quant
