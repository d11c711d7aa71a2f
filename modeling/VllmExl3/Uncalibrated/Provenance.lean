/-
# VllmExl3.Uncalibrated.Provenance — baselines are of one converter

Any number of machines work on one model, each with a job directory and a converter of its own, and share the
repository they upload to and fetch from. A step is a command, a step of a task of a running batch or an
exception in it, or a batch being killed; while a batch runs, nothing else touches its directories or its
converter. That is assumed, the scripts do not see to it: a batch asks for the converter's commit after
the conversion. Converters are changed and directories deleted between commands at will.

In every state that can be reached so, a record that was not adopted names the converter that wrote the
directory last (`Cluster.Honest`). What `qbench` does not refuse is then of the converter that is
checked out (`scored_of_one_converter`), and so is every rung of a `baseline` that succeeds
(`baseline_of_one_converter`).
-/
import VllmExl3.Uncalibrated.Converter
import VllmExl3.Lib.Reach

namespace VllmExl3.Uncalibrated

/-! ## The cluster -/

/-- The machines and the repository they share. -/
structure Cluster (ι : Type) where
  machines : ι → Machine
  repo : Dirs

/-- What can happen. -/
inductive Act (ι : Type) where
  | checkout (m : ι) (converter : Checkout)
  | delete (m : ι) (p : Place)
  | baseline (m : ι) (args : BaselineArgs)
  | traces (m : ι) (tries : Nat)
  | task (m : ι) (i : Nat) (completes : Bool)
  | raised (m : ι) (i : Nat)
  | joined (m : ι)
  | killed (m : ι)
  | upload (m : ι)
  | fetch (m : ι)

/-- A task of the batch moves. -/
def Machine.advance (m : Machine) (i : Nat) (step : Batch → Place → Progress → Option (Dirs × Progress)) :
    Option Machine := do
  let b ← m.batch
  let (p, progress) ← b.tasks[i]?
  let (dirs, progress) ← step b p progress
  return { m with dirs, batch := some { b with tasks := b.tasks.set i (p, progress) } }

/-- It takes a step. -/
def Machine.task (m : Machine) (i : Nat) (completes : Bool) : Option Machine :=
  m.advance i fun b p progress => taskStep m.checkout b.tries completes m.dirs p progress

/-- An exception ends it: `run_jobs` counts it as failed. -/
def Machine.raised (m : Machine) (i : Nat) : Option Machine :=
  m.advance i fun _ _ progress => match progress with
    | .ended _ => none
    | _ => some (m.dirs, .ended false)

/-- `run_jobs` is back: every task is over. -/
def Batch.joined (b : Batch) : Bool := b.tasks.all fun t => match t.2 with
  | .ended _ => true
  | _ => false

variable {ι : Type} [DecidableEq ι]

/-- One machine changes. -/
def Cluster.update (s : Cluster ι) (m : ι) (machine : Machine) : Cluster ι :=
  { s with machines := Function.update s.machines m machine }

/-- A command on a machine that runs nothing else: that no other is given while a batch runs is assumed,
nothing in the scripts forbids it. -/
def Cluster.command (s : Cluster ι) (m : ι) (run : Machine → Machine) : Option (Cluster ι) :=
  if (s.machines m).batch.isSome then none else some (s.update m (run (s.machines m)))

/-- The cluster after an act, where the act is possible. -/
def act (s : Cluster ι) : Act ι → Option (Cluster ι)
  | .checkout m converter => s.command m fun machine => { machine with checkout := converter }
  | .delete m p => s.command m fun machine => { machine with dirs := machine.dirs.pop p }
  | .baseline m args => s.command m fun machine => doBaseline machine args
  | .traces m tries => s.command m fun machine => buildGenerator machine tries
  | .task m i completes => ((s.machines m).task i completes).map (s.update m)
  | .raised m i => ((s.machines m).raised i).map (s.update m)
  | .joined m => match (s.machines m).batch with
    | some b => if b.joined then some (s.update m { s.machines m with batch := none }) else none
    | none => none
  | .killed m => some (s.update m { s.machines m with batch := none })
  | .upload m =>
    if (s.machines m).batch.isSome then none
    else
      let (dirs, repo) := uploadUncalibrated (s.machines m).dirs s.repo
      some { s.update m { s.machines m with dirs } with repo }
  | .fetch m => s.command m fun machine => { machine with dirs := fetchUncalibrated machine.dirs s.repo }

/-- Any machines, nothing made yet. -/
def cluster (ι : Type) [DecidableEq ι] : System (Cluster ι) where
  init s := s.repo = .empty ∧ ∀ m, (s.machines m).dirs = .empty ∧ (s.machines m).batch = none
  step s t := ∃ a, act s a = some t

/-! ## Honest records -/

/-- Its record says who wrote it, unless it says that it was adopted; one that is not complete has none. -/
structure Conversion.Honest (c : Conversion) : Prop where
  made : ∀ r tree, c.record = some r → r.adopted = false → r.id.tree = some tree →
    (converterId c.builder).tree = some tree
  incomplete : c.config = false → c.record = none

def Dirs.Honest (dirs : Dirs) : Prop := ∀ p c, dirs.get? p = some c → c.Honest

/-- It is of the converter that is checked out: that one wrote it, or its record names that one. -/
def Conversion.OfCurrent (checkout : Checkout) (c : Conversion) : Prop :=
  c.builder = checkout ∨ ∃ r tree, c.record = some r ∧ r.id.tree = some tree ∧
    (converterId checkout).tree = some tree

/-- What holds of a directory while a task on it is where it is: one that was there is still there, and one that
was not has been written by this converter only. -/
def Progress.Holds (checkout : Checkout) (dirs : Dirs) (p : Place) : Progress → Prop
  | .waiting => True
  | .looking existed _ => if existed then dirs.complete p = true
      else ∀ c, dirs.get? p = some c → c.config = true → c.builder = checkout
  | .converting existed _ => existed = false ∧
      ∀ c, dirs.get? p = some c → c.config = true → c.builder = checkout
  | .returned existed ok => (ok = true → dirs.complete p = true) ∧ (existed = false →
      ∀ c, dirs.get? p = some c → c.config = true → c.builder = checkout)
  | .ended ok => ok = true → dirs.complete p = true

/-- What holds while a batch runs. -/
structure Batch.Holds (b : Batch) (checkout : Checkout) (dirs : Dirs) : Prop where
  tasks : ∀ t ∈ b.tasks, t.2.Holds checkout dirs t.1
  asked : ∀ rev ∈ b.revs, ∃ progress, (Place.rung rev, progress) ∈ b.tasks
  current : b.allow = false → ∀ rev ∈ b.revs, ∀ c, dirs.get? (.rung rev) = some c → c.config = true →
    c.OfCurrent checkout

structure Machine.Honest (m : Machine) : Prop where
  dirs : m.dirs.Honest
  batch : ∀ b, m.batch = some b → b.Holds m.checkout m.dirs

structure Cluster.Honest {ι : Type} (s : Cluster ι) : Prop where
  machines : ∀ m, (s.machines m).Honest
  repo : s.repo.Honest

/-! ## Tasks keep records honest -/

variable {checkout : Checkout} {dirs dirs' repo : Dirs} {p q : Place} {c : Conversion} {m : Machine}
  {b : Batch} {cur : ConverterId} {paths : List Place}

theorem complete_iff : dirs.complete p = true ↔ ∃ c, dirs.get? p = some c ∧ c.config = true := by
  simp [Dirs.complete, Option.any_eq_true]

theorem Dirs.Honest.set (h : dirs.Honest) (hc : c.Honest) (p : Place) : Dirs.Honest (dirs.set p c) := by
  intro q c' hget
  rcases PyDict.of_get?_set hget with ⟨rfl, rfl⟩ | ⟨-, hold⟩
  · exact hc
  · exact h q c' hold

/-- While a batch runs, a complete directory stays complete, and is as it was or was written by the converter
of the batch. -/
structure Grows (checkout : Checkout) (dirs dirs' : Dirs) : Prop where
  complete : ∀ p, dirs.complete p = true → dirs'.complete p = true
  written : ∀ p c', dirs'.get? p = some c' → c'.config = true → c'.builder = checkout ∨ dirs.get? p = some c'

theorem Grows.refl (checkout : Checkout) (dirs : Dirs) : Grows checkout dirs dirs :=
  ⟨fun _ h => h, fun _ _ h _ => .inr h⟩

/-- Setting a directory grows if the converter of the batch wrote it, and if it stays complete. -/
theorem Grows.set (hc : c.builder = checkout) (hconfig : dirs.complete p = true → c.config = true) :
    Grows checkout dirs (dirs.set p c) := by
  refine ⟨fun q hq => ?_, fun q c' hget _ => ?_⟩
  · rw [complete_iff] at *
    by_cases hpq : q = p
    · subst hpq
      exact ⟨c, PyDict.get?_set_self _ _ _, hconfig (complete_iff.mp (complete_iff.mpr hq))⟩
    · rwa [PyDict.get?_set_ne _ _ hpq]
  · rcases PyDict.of_get?_set hget with ⟨-, rfl⟩ | ⟨-, hold⟩
    · exact .inl hc
    · exact .inr hold

/-- What holds of a task's directory goes on to hold while the batch runs. -/
theorem Progress.Holds.grow {progress : Progress} (h : progress.Holds checkout dirs p)
    (hgrows : Grows checkout dirs dirs') : progress.Holds checkout dirs' p := by
  have hbuilt : (∀ c, dirs.get? p = some c → c.config = true → c.builder = checkout) →
      ∀ c, dirs'.get? p = some c → c.config = true → c.builder = checkout := by
    intro hold c hget hconfig
    rcases hgrows.written p c hget hconfig with hc | hsame
    · exact hc
    · exact hold c hsame hconfig
  cases progress with
  | waiting => trivial
  | looking existed left =>
    cases existed with
    | true => exact hgrows.complete p h
    | false => exact hbuilt h
  | converting existed left => exact ⟨h.1, hbuilt h.2⟩
  | returned existed ok => exact ⟨fun hok => hgrows.complete p (h.1 hok), fun hnew => hbuilt (h.2 hnew)⟩
  | ended ok => exact fun hok => hgrows.complete p (h hok)

/-- A conversion into a directory that is not complete, or that this converter wrote. -/
theorem convert_spec (hdirs : dirs.Honest)
    (hbuilt : ∀ c, dirs.get? p = some c → c.config = true → c.builder = checkout) (completes : Bool) :
    Grows checkout dirs (convert checkout dirs p completes) ∧ (convert checkout dirs p completes).Honest ∧
      ∀ c, (convert checkout dirs p completes).get? p = some c → c.builder = checkout := by
  refine ⟨Grows.set rfl fun hcomplete => ?_, hdirs.set ?_ p, fun c hget => ?_⟩
  · obtain ⟨c, hget, hconfig⟩ := complete_iff.mp hcomplete
    simp [hget, hconfig]
  · cases hget : dirs.get? p with
    | none => exact ⟨fun r tree hr => by simp at hr, fun _ => rfl⟩
    | some old =>
      refine ⟨fun r tree hr hadopted htree => ?_, fun hconfig => ?_⟩
      · cases hconfig : old.config with
        | true => exact hbuilt old hget hconfig ▸ (hdirs p old hget).made r tree hr hadopted htree
        | false =>
          have hnone := (hdirs p old hget).incomplete hconfig
          simp [hnone] at hr
      · exact (hdirs p old hget).incomplete (by simpa using And.left (Bool.or_eq_false_iff.mp hconfig))
  · rw [convert, PyDict.get?_set_self] at hget
    obtain rfl := Option.some.inj hget
    rfl

/-- Recording the converter on a complete directory that it wrote. -/
theorem recordConverter_spec (hdirs : dirs.Honest) (hget : dirs.get? p = some c) (hconfig : c.config = true)
    (hbuilder : c.builder = checkout) :
    Grows checkout dirs (recordConverter checkout dirs p) ∧ (recordConverter checkout dirs p).Honest := by
  rw [recordConverter, hget]
  refine ⟨Grows.set hbuilder fun _ => hconfig, hdirs.set ⟨fun r tree hr _ htree => ?_, fun hnot => ?_⟩ p⟩
  · obtain rfl := Option.some.inj hr
    rw [hbuilder]
    exact htree
  · simp [hconfig] at hnot

/-- A step of a task. -/
theorem taskStep_spec {tries : Nat} {completes : Bool} {progress progress' : Progress}
    (h : taskStep checkout tries completes dirs p progress = some (dirs', progress')) (hdirs : dirs.Honest)
    (hprogress : progress.Holds checkout dirs p) :
    Grows checkout dirs dirs' ∧ dirs'.Honest ∧ progress'.Holds checkout dirs' p := by
  cases progress with
  | waiting =>
    obtain ⟨rfl, rfl⟩ := Prod.mk.inj (Option.some.inj h)
    refine ⟨.refl _ _, hdirs, ?_⟩
    cases hcomplete : dirs.complete p with
    | true => exact hcomplete
    | false =>
      intro c hget hconfig
      simp [complete_iff.mpr ⟨c, hget, hconfig⟩] at hcomplete
  | looking existed left =>
    cases left with
    | zero =>
      obtain ⟨rfl, rfl⟩ := Prod.mk.inj (Option.some.inj h)
      refine ⟨.refl _ _, hdirs, id, fun hnew => ?_⟩
      subst hnew
      exact hprogress
    | succ left =>
      obtain ⟨rfl, rfl⟩ := Prod.mk.inj (Option.some.inj h)
      refine ⟨.refl _ _, hdirs, ?_⟩
      cases existed with
      | true =>
        have hcomplete : dirs.complete p = true := hprogress
        rw [if_pos hcomplete]
        exact ⟨fun _ => hcomplete, fun hnew => by simp at hnew⟩
      | false =>
        split_ifs with hcomplete
        · exact ⟨fun _ => hcomplete, fun _ => hprogress⟩
        · exact ⟨rfl, hprogress⟩
  | converting existed left =>
    obtain ⟨rfl, rfl⟩ := Prod.mk.inj (Option.some.inj h)
    obtain ⟨rfl, hbuilt⟩ := hprogress
    obtain ⟨hgrows, hhonest, hbuilder⟩ := convert_spec hdirs hbuilt completes
    exact ⟨hgrows, hhonest, fun c hget _ => hbuilder c hget⟩
  | returned existed ok =>
    obtain ⟨rfl, rfl⟩ := Prod.mk.inj (Option.some.inj h)
    split_ifs with hrecord
    · simp only [Bool.and_eq_true, Bool.not_eq_true'] at hrecord
      obtain ⟨c, hget, hconfig⟩ := complete_iff.mp (hprogress.1 hrecord.1)
      obtain ⟨hgrows, hhonest⟩ := recordConverter_spec hdirs hget hconfig (hprogress.2 hrecord.2 c hget hconfig)
      exact ⟨hgrows, hhonest, fun hok => hgrows.complete p (hprogress.1 hok)⟩
    · exact ⟨.refl _ _, hdirs, hprogress.1⟩
  | ended ok => cases h

/-- A task that moves keeps what holds of the batch, if its directories grow. -/
theorem advance_honest {i : Nat} {step : Batch → Place → Progress → Option (Dirs × Progress)} {m' : Machine}
    (h : m.advance i step = some m') (hm : m.Honest)
    (hspec : ∀ b p progress dirs' progress', step b p progress = some (dirs', progress') →
      progress.Holds m.checkout m.dirs p →
        Grows m.checkout m.dirs dirs' ∧ dirs'.Honest ∧ progress'.Holds m.checkout dirs' p) : m'.Honest := by
  simp only [Machine.advance, Option.bind_eq_bind, Option.bind_eq_some_iff, Option.pure_def,
    Option.some.injEq] at h
  obtain ⟨b, hb, ⟨p, progress⟩, htask, ⟨dirs', progress'⟩, hstep, rfl⟩ := h
  obtain ⟨htasks, hasked, hcurrent⟩ := hm.batch b hb
  have hmem := List.mem_of_getElem? htask
  obtain ⟨hgrows, hhonest, hholds⟩ := hspec b p progress dirs' progress' hstep (htasks _ hmem)
  refine ⟨hhonest, fun b' hb' => ?_⟩
  obtain rfl := Option.some.inj hb'
  refine ⟨fun t ht => ?_, fun rev hrev => ?_, fun hallow rev hrev c hget hconfig => ?_⟩
  · rcases List.mem_or_eq_of_mem_set ht with hold | rfl
    · exact (htasks t hold).grow hgrows
    · exact hholds
  · obtain ⟨progress₀, hrung⟩ := hasked rev hrev
    obtain ⟨j, hj⟩ := List.mem_iff_getElem?.mp hrung
    by_cases hij : i = j
    · subst hij
      obtain ⟨rfl, -⟩ := Prod.mk.inj (Option.some.inj (htask.symm.trans hj))
      exact ⟨progress', List.mem_iff_getElem?.mpr ⟨i, by
        rw [List.getElem?_set_self (List.getElem?_eq_some_iff.mp htask).1]⟩⟩
    · exact ⟨progress₀, List.mem_iff_getElem?.mpr ⟨j, by rw [List.getElem?_set_ne hij]; exact hj⟩⟩
  · rcases hgrows.written _ c hget hconfig with hbuilder | hsame
    · exact .inl hbuilder
    · exact hcurrent hallow rev hrev c hsame hconfig

theorem task_honest {i : Nat} {completes : Bool} {m' : Machine} (h : m.task i completes = some m')
    (hm : m.Honest) : m'.Honest := by
  exact advance_honest h hm fun b p progress dirs' progress' hstep => taskStep_spec hstep hm.dirs

theorem raised_honest {i : Nat} {m' : Machine} (h : m.raised i = some m') (hm : m.Honest) : m'.Honest := by
  refine advance_honest h hm fun b p progress dirs' progress' hstep _ => ?_
  split at hstep
  · cases hstep
  · obtain ⟨rfl, rfl⟩ := Prod.mk.inj (Option.some.inj hstep)
    exact ⟨.refl _ _, hm.dirs, fun hok => by cases hok⟩

/-! ## Commands keep records honest -/

/-- Nothing is refused only where every record names the current converter. -/
theorem not_refused (h : refuseConverterMismatch cur dirs paths false = false) (hp : p ∈ paths) :
    ∃ tree, cur.tree = some tree ∧ (dirs.record p).id.tree = some tree := by
  have hmismatch : mismatch cur (dirs.record p) = none := by
    rw [Option.eq_none_iff_forall_ne_some]
    intro why hwhy
    have hmem : p ∈ (converterMismatches cur dirs paths).keys := by
      rw [converterMismatches, PyDict.mem_keys_ofList, List.mem_map]
      exact ⟨(p, why), List.mem_filterMap.mpr ⟨p, hp, by rw [hwhy]; rfl⟩, rfl⟩
    have hempty : (converterMismatches cur dirs paths).items = [] := by
      simpa [refuseConverterMismatch] using h
    simp [PyDict.keys, hempty] at hmem
  unfold mismatch at hmismatch
  split at hmismatch
  · cases hmismatch
  · cases hmismatch
  · next tree made hcur hmade =>
    split_ifs at hmismatch with hdiffer
    exact ⟨tree, hcur, not_not.mp hdiffer ▸ hmade⟩

/-- A record that was read is there. -/
theorem record_of_tree {tree : String} (hget : dirs.get? p = some c) (h : (dirs.record p).id.tree = some tree) :
    ∃ r, c.record = some r ∧ r.id.tree = some tree := by
  rw [Dirs.record, hget, Option.bind_some] at h
  cases hrecord : c.record with
  | none =>
    rw [hrecord] at h
    cases h
  | some r =>
    rw [hrecord] at h
    exact ⟨r, rfl, h⟩

theorem adoptOne_spec (hdirs : dirs.Honest) (hp : dirs.complete p = true) :
    (adoptOne cur dirs p).Honest ∧ ∀ q, (adoptOne cur dirs p).complete q = dirs.complete q := by
  obtain ⟨c, hget, hconfig⟩ := complete_iff.mp hp
  rw [adoptOne, hget]
  dsimp only
  split_ifs with hnamed
  · exact ⟨hdirs, fun _ => rfl⟩
  · refine ⟨hdirs.set ⟨fun r tree hr hadopted => ?_, fun hnot => ?_⟩ p, fun q => ?_⟩
    · obtain rfl := Option.some.inj hr
      simp at hadopted
    · simp [hconfig] at hnot
    · rw [Dirs.complete, PyDict.get?_set, Dirs.complete]
      split_ifs with hpq
      · rw [hpq, hget]
        rfl
      · rfl

theorem adopt_spec (hdirs : dirs.Honest) (hpaths : ∀ p ∈ paths, dirs.complete p = true)
    (h : adoptConverter cur dirs paths = some dirs') :
    dirs'.Honest ∧ ∀ q, dirs'.complete q = dirs.complete q := by
  unfold adoptConverter at h
  split_ifs at h
  obtain rfl := Option.some.inj h
  induction paths generalizing dirs with
  | nil => exact ⟨hdirs, fun _ => rfl⟩
  | cons p rest ih =>
    obtain ⟨hhonest, hcomplete⟩ := adoptOne_spec hdirs (hpaths p List.mem_cons_self)
    obtain ⟨hrest, hsame⟩ :=
      ih hhonest (fun q hq => by rw [hcomplete]; exact hpaths q (List.mem_cons_of_mem p hq)) rfl
    exact ⟨hrest, fun q => (hsame q).trans (hcomplete q)⟩

/-- What `baseline` admits: honest directories, and unless it was told to allow them, no rung of another
converter among those that are there. -/
theorem admitBaseline_spec {args : BaselineArgs} {admitted : Bool} (hm : m.Honest)
    (h : admitBaseline m args = (dirs', admitted)) :
    dirs'.Honest ∧ (admitted = true → args.allow = false → ∀ rev ∈ args.revs, ∀ c,
      dirs'.get? (.rung rev) = some c → c.config = true → c.OfCurrent m.checkout) := by
  unfold admitBaseline at h
  dsimp only at h
  split at h
  · obtain ⟨rfl, rfl⟩ := Prod.mk.inj h
    exact ⟨hm.dirs, fun hadmitted => by simp at hadmitted⟩
  · next dirs hadopt =>
    obtain ⟨rfl, rfl⟩ := Prod.mk.inj h
    have hdirs : dirs.Honest ∧ ∀ q, dirs.complete q = m.dirs.complete q := by
      split_ifs at hadopt
      · refine adopt_spec hm.dirs (fun p hp => ?_) hadopt
        rcases List.mem_append.mp hp with hp | hp <;> exact (List.mem_filter.mp hp).2
      · obtain rfl := Option.some.inj hadopt
        exact ⟨hm.dirs, fun _ => rfl⟩
    refine ⟨hdirs.1, fun hadmitted hallow rev hrev c hget hconfig => .inr ?_⟩
    rw [hallow, Bool.not_eq_true'] at hadmitted
    have hpresent : Place.rung rev ∈ (args.revs.map Place.rung).filter m.dirs.complete := by
      rw [List.mem_filter, ← hdirs.2]
      exact ⟨List.mem_map_of_mem hrev, complete_iff.mpr ⟨c, hget, hconfig⟩⟩
    obtain ⟨tree, hcur, htree⟩ := not_refused hadmitted hpresent
    obtain ⟨r, hr, htree⟩ := record_of_tree hget htree
    exact ⟨r, tree, hr, htree, hcur⟩

theorem doBaseline_honest (hm : m.Honest) (args : BaselineArgs) : (doBaseline m args).Honest := by
  cases hadmit : admitBaseline m args with
  | mk dirs admitted =>
    obtain ⟨hdirs, hcurrent⟩ := admitBaseline_spec hm hadmit
    rw [doBaseline, hadmit]
    refine ⟨hdirs, fun b hb => ?_⟩
    obtain ⟨hadmitted, hb⟩ := Option.ite_none_right_eq_some.mp hb
    obtain rfl := Option.some.inj hb
    refine ⟨fun t ht => ?_, fun rev hrev => ⟨.waiting, ?_⟩, fun hallow => hcurrent hadmitted hallow⟩
    · obtain ⟨p, -, rfl⟩ := List.mem_map.mp ht
      trivial
    · exact List.mem_map.mpr ⟨.rung rev, List.mem_append_right _ (List.mem_map_of_mem hrev), rfl⟩

theorem buildGenerator_honest (hm : m.Honest) (tries : Nat) : (buildGenerator m tries).Honest := by
  unfold buildGenerator
  split_ifs
  · exact hm
  · refine ⟨hm.dirs, fun b hb => ?_⟩
    obtain rfl := Option.some.inj hb
    refine ⟨fun t ht => ?_, fun rev hrev => ?_, fun hallow => ?_⟩
    · rw [List.mem_singleton.mp ht]
      trivial
    · cases hrev
    · cases hallow

/-- What is published names nothing that its record did not. -/
theorem published_honest (hc : c.Honest) (hconfig : c.config = true) :
    Conversion.Honest { c with record := some (c.record.getD .unrecorded) } := by
  refine ⟨fun r tree hr hadopted htree => ?_, fun hnot => ?_⟩
  · cases hrecord : c.record with
    | none =>
      simp only [hrecord, Option.getD_none, Option.some.injEq] at hr
      subst hr
      cases htree
    | some r' =>
      simp only [hrecord, Option.getD_some, Option.some.injEq] at hr
      subst hr
      exact hc.made r' tree hrecord hadopted htree
  · simp [hconfig] at hnot

theorem upload_honest (hdirs : dirs.Honest) (hrepo : repo.Honest) :
    (uploadUncalibrated dirs repo).1.Honest ∧ (uploadUncalibrated dirs repo).2.Honest := by
  have hitems : ∀ item ∈ dirs.items.filter (·.2.config), item.2.Honest ∧ item.2.config = true := by
    intro item hitem
    obtain ⟨hmem, hconfig⟩ := List.mem_filter.mp hitem
    exact ⟨hdirs item.1 item.2 (PyDict.get?_eq_some_iff.mpr hmem), hconfig⟩
  unfold uploadUncalibrated
  generalize dirs.items.filter (·.2.config) = items at hitems
  induction items generalizing dirs repo with
  | nil => exact ⟨hdirs, hrepo⟩
  | cons item rest ih =>
    obtain ⟨hc, hconfig⟩ := hitems item List.mem_cons_self
    have hpublished := published_honest hc hconfig
    exact ih (hdirs.set hpublished item.1) (hrepo.set hpublished item.1)
      fun item' hmem => hitems item' (List.mem_cons_of_mem item hmem)

theorem fetchLoop_honest {todo : List (Place × Conversion)} (hdirs : dirs.Honest)
    (htodo : ∀ item ∈ todo, item.2.Honest) : (fetchLoop dirs todo).Honest := by
  induction todo generalizing dirs with
  | nil => exact hdirs
  | cons item rest ih =>
    rw [fetchLoop]
    split_ifs
    · exact hdirs
    · exact ih (hdirs.set (htodo item List.mem_cons_self) item.1)
        fun item' hmem => htodo item' (List.mem_cons_of_mem item hmem)

theorem fetch_honest (hdirs : dirs.Honest) (hrepo : repo.Honest) : (fetchUncalibrated dirs repo).Honest := by
  refine fetchLoop_honest hdirs fun item hitem => ?_
  exact hrepo item.1 item.2 (PyDict.get?_eq_some_iff.mpr (List.mem_filter.mp hitem).1)

/-! ## Every run -/

variable {s t : Cluster ι}

theorem Cluster.Honest.update (hs : s.Honest) {machine : Machine} (h : machine.Honest) (m : ι) :
    (s.update m machine).Honest := by
  refine ⟨fun m' => ?_, hs.repo⟩
  by_cases hm : m' = m
  · subst hm
    simpa [Cluster.update] using h
  · simpa [Cluster.update, hm] using hs.machines m'

theorem honest_of_idle {batch : Option Batch} (hdirs : dirs.Honest) (hidle : batch = none) :
    Machine.Honest ⟨checkout, dirs, batch⟩ :=
  ⟨hdirs, fun b hb => by simp [hidle] at hb⟩

/-- A command that keeps an idle machine honest keeps the cluster so. -/
theorem command_honest {m : ι} {run : Machine → Machine} (h : s.command m run = some t) (hs : s.Honest)
    (hrun : ∀ machine, machine.Honest → machine.batch = none → (run machine).Honest) : t.Honest := by
  unfold Cluster.command at h
  split_ifs at h with hidle
  obtain rfl := Option.some.inj h
  exact hs.update (hrun _ (hs.machines m) (by simpa using hidle)) m

theorem act_honest {a : Act ι} (hs : s.Honest) (h : act s a = some t) : t.Honest := by
  cases a <;> simp only [act] at h
  case checkout m converter => exact command_honest h hs fun _ hm hidle => honest_of_idle hm.dirs hidle
  case delete m p =>
    refine command_honest h hs fun machine hm hidle => honest_of_idle (fun q c hget => ?_) hidle
    rw [PyDict.get?_pop] at hget
    split_ifs at hget
    exact hm.dirs q c hget
  case baseline m args => exact command_honest h hs fun _ hm _ => doBaseline_honest hm args
  case traces m tries => exact command_honest h hs fun _ hm _ => buildGenerator_honest hm tries
  case task m i completes =>
    obtain ⟨machine, hmachine, rfl⟩ := Option.map_eq_some_iff.mp h
    exact hs.update (task_honest hmachine (hs.machines m)) m
  case raised m i =>
    obtain ⟨machine, hmachine, rfl⟩ := Option.map_eq_some_iff.mp h
    exact hs.update (raised_honest hmachine (hs.machines m)) m
  case joined m =>
    split at h
    · split_ifs at h
      obtain rfl := Option.some.inj h
      exact hs.update (honest_of_idle (hs.machines m).dirs rfl) m
    · cases h
  case killed m =>
    obtain rfl := Option.some.inj h
    exact hs.update (honest_of_idle (hs.machines m).dirs rfl) m
  case upload m =>
    split_ifs at h with hbusy
    obtain rfl := Option.some.inj h
    obtain ⟨hdirs, hrepo⟩ := upload_honest (hs.machines m).dirs hs.repo
    have hidle : (s.machines m).batch = none := by simpa using hbusy
    exact ⟨(hs.update (honest_of_idle hdirs hidle) m).machines, hrepo⟩
  case fetch m =>
    exact command_honest h hs fun _ hm hidle => honest_of_idle (fetch_honest hm.dirs hs.repo) hidle

/-- In every state that can be reached, records are honest. -/
theorem honest_of_reachable (h : (cluster ι).Reachable s) : s.Honest := by
  refine System.invariant ?_ ?_ h
  · rintro s ⟨hrepo, hmachines⟩
    refine ⟨fun m => ⟨fun p c hget => ?_, fun b hb => ?_⟩, fun p c hget => ?_⟩
    · rw [(hmachines m).1] at hget
      cases hget
    · rw [(hmachines m).2] at hb
      cases hb
    · rw [hrepo] at hget
      cases hget
  · rintro s t hs ⟨a, ha⟩
    exact act_honest hs ha

/-- It is of a converter: a checkout of that tree wrote it, or a person adopted it under that tree. -/
def Conversion.MadeBy (tree : String) (c : Conversion) : Prop :=
  (converterId c.builder).tree = some tree ∨ ∃ r, c.record = some r ∧ r.adopted = true ∧ r.id.tree = some tree

/-- An honest record that names a converter is of it. -/
theorem Conversion.Honest.madeBy (hc : c.Honest) {r : ConverterRecord} {tree : String} (hr : c.record = some r)
    (htree : r.id.tree = some tree) : c.MadeBy tree := by
  cases hadopted : r.adopted with
  | true => exact .inr ⟨r, hr, hadopted, htree⟩
  | false => exact .inl (hc.made r tree hr hadopted htree)

theorem mem_baselineRevisions {rev : String} (h : rev ∈ baselineRevisions dirs) :
    ∃ c, dirs.get? (.rung rev) = some c ∧ c.config = true := by
  rw [baselineRevisions, List.mem_insertionSort, List.mem_filterMap] at h
  obtain ⟨⟨p, c⟩, hmem, hrev⟩ := h
  cases p with
  | generator => cases hrev
  | rung rev' =>
    dsimp only at hrev
    split_ifs at hrev with hconfig
    obtain rfl := Option.some.inj hrev
    exact ⟨c, PyDict.get?_eq_some_iff.mpr hmem, hconfig⟩

/-- What `qbench` scores as the baseline is of one converter, the one that is checked out: in every state that
can be reached, on every machine, whatever rungs it is asked for. -/
theorem scored_of_one_converter (h : (cluster ι).Reachable s) {m : ι} {base_want : Option (List String)}
    {revs : List String} (hscored : qbenchBaseline (s.machines m) base_want false = some revs) {rev : String}
    (hrev : rev ∈ revs) :
    ∃ c tree, (s.machines m).dirs.get? (.rung rev) = some c ∧ c.config = true ∧
      (converterId (s.machines m).checkout).tree = some tree ∧ c.MadeBy tree := by
  unfold qbenchBaseline at hscored
  dsimp only at hscored
  split_ifs at hscored with hrefused
  obtain rfl := Option.some.inj hscored
  obtain ⟨c, hget, hconfig⟩ := mem_baselineRevisions (List.mem_filter.mp hrev).1
  obtain ⟨tree, hcur, htree⟩ := not_refused (by simpa using hrefused) (List.mem_map_of_mem hrev)
  obtain ⟨r, hr, htree⟩ := record_of_tree hget htree
  have hhonest := ((honest_of_reachable h).machines m).dirs _ c hget
  exact ⟨c, tree, hget, hconfig, hcur, hhonest.madeBy hr htree⟩

/-- Where `baseline` succeeds without being told to allow other converters, every rung it was asked for
is there, and the converter that is checked out wrote it, or is the one it is of. -/
theorem baseline_of_one_converter (h : (cluster ι).Reachable s) {m : ι} {b : Batch}
    (hbatch : (s.machines m).batch = some b) (hallow : b.allow = false)
    (hsucceeded : ∀ t ∈ b.tasks, t.2 = .ended true) {rev : String} (hrev : rev ∈ b.revs) :
    ∃ c, (s.machines m).dirs.get? (.rung rev) = some c ∧ c.config = true ∧
      (c.builder = (s.machines m).checkout ∨
        ∃ tree, (converterId (s.machines m).checkout).tree = some tree ∧ c.MadeBy tree) := by
  have hm := (honest_of_reachable h).machines m
  obtain ⟨htasks, hasked, hcurrent⟩ := hm.batch b hbatch
  obtain ⟨progress, hmem⟩ := hasked rev hrev
  have hholds := htasks _ hmem
  rw [hsucceeded _ hmem] at hholds
  obtain ⟨c, hget, hconfig⟩ := complete_iff.mp (hholds rfl)
  refine ⟨c, hget, hconfig, ?_⟩
  rcases hcurrent hallow rev hrev c hget hconfig with hbuilder | ⟨r, tree, hr, htree, hcur⟩
  · exact .inl hbuilder
  · exact .inr ⟨tree, hcur, (hm.dirs _ c hget).madeBy hr htree⟩

/-! ### A rung built on one machine and scored on another -/

/-- What acts in a row lead to. -/
def replay (s : Cluster ι) (acts : List (Act ι)) : Option (Cluster ι) := acts.foldlM act s

theorem reachable_of_replay {acts : List (Act ι)} (hs : (cluster ι).Reachable s) (h : replay s acts = some t) :
    (cluster ι).Reachable t := by
  induction acts generalizing s with
  | nil =>
    obtain rfl := Option.some.inj h
    exact hs
  | cons a rest ih =>
    rw [replay, List.foldlM_cons] at h
    obtain ⟨s', hact, hrest⟩ := Option.bind_eq_some_iff.mp h
    obtain ⟨s₀, hinit, hrun⟩ := hs
    exact ih ⟨s₀, hinit, hrun.tail ⟨a, hact⟩⟩ hrest

/-- Two machines with the same converter. -/
def fresh : Cluster Bool := ⟨fun _ => ⟨.git "e1" "c1" "a0b1c2" false, .empty, none⟩, .empty⟩

/-- The first converts a rung. -/
def build : List (Act Bool) :=
  .baseline false ⟨["3.00bpw"], 1, false, false, false⟩ :: List.replicate 5 (.task false 0 true)

/-- It publishes it, and the second fetches it. -/
def share : List (Act Bool) := [.joined false, .upload false, .fetch true]

def built : Cluster Bool := (replay fresh build).getD fresh

def shared : Cluster Bool := (replay built share).getD fresh

theorem built_reachable : (cluster Bool).Reachable built :=
  reachable_of_replay ⟨fresh, ⟨rfl, fun _ => ⟨rfl, rfl⟩⟩, .refl⟩ (show replay fresh build = some built from rfl)

theorem shared_reachable : (cluster Bool).Reachable shared :=
  reachable_of_replay built_reachable (show replay built share = some shared from rfl)

theorem shared_scored :
    ∃ c tree, (shared.machines true).dirs.get? (.rung "3.00bpw") = some c ∧ c.config = true ∧
      (converterId (shared.machines true).checkout).tree = some tree ∧ c.MadeBy tree :=
  scored_of_one_converter shared_reachable
    (show qbenchBaseline (shared.machines true) none false = some ["3.00bpw"] from rfl) List.mem_cons_self

theorem built_succeeded :
    ∃ c, (built.machines false).dirs.get? (.rung "3.00bpw") = some c ∧ c.config = true ∧
      (c.builder = (built.machines false).checkout ∨
        ∃ tree, (converterId (built.machines false).checkout).tree = some tree ∧ c.MadeBy tree) :=
  baseline_of_one_converter built_reachable
    (show (built.machines false).batch = some ⟨["3.00bpw"], false, 1, [(.rung "3.00bpw", .ended true)]⟩ from rfl) rfl
    (fun _ ht => by rw [List.mem_singleton.mp ht]) List.mem_cons_self

end VllmExl3.Uncalibrated
