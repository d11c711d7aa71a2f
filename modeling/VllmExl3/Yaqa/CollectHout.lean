/-
# VllmExl3.Yaqa.CollectHout — factor collection over many runs (`quantization/quant.py`)

`collect_hout` runs the factor tool on a few layers at a time and at the end writes `DONE.json`, without
which the factors are incomplete. A range that is there already is skipped: a marker of it says so, or the
log of the ranges that begin with its first layer. The step may be another in each run, and every run may
end anywhere. What is there afterwards is sound by one invariant (`Sound`): each marker and each answer of
the log stands for a child that exited 0 on just this range.

A negative step is the exception: `range(0, n_layers, step)` is then empty, and `DONE.json` is written with
nothing collected (`done_uncollected`).
-/
import VllmExl3.Lib.PyDict
import VllmExl3.Lib.Tiling
import VllmExl3.Yaqa.RunLog

namespace VllmExl3.Yaqa

/-! ## The state between runs -/

/-- What has happened: a child ran on layers `a` to `b` and exited with a code, if it did; or a range was
skipped. -/
inductive Event where
  | ran (a b : Nat) (rc : Option Int)
  | skipped (a b : Nat)
  deriving DecidableEq, Repr

/-- What `collect_hout` has put in the output directory (`none` where there is no such directory), the
logs, and what has happened so far. -/
structure State where
  out : Option (List String)
  logs : PyDict String (List Char)
  events : List Event

/-- Before the first run. -/
def State.start : State := ⟨none, .empty, []⟩

/-- `YAQA_DONE` -/
def YAQA_DONE : String := "DONE.json"

/-- `f".range-{a}-{b}.done"` -/
def mark (a b : Nat) : String := ".range-" ++ toString a ++ "-" ++ toString b ++ ".done"

/-- `f"yaqa-{name}-{a}"` -/
def logName (f : Factor) (a : Nat) : String := "yaqa-" ++ f.name ++ "-" ++ toString a

/-- `os.path.isfile(os.path.join(out, name))` -/
def State.isFile (s : State) (name : String) : Bool := s.out.any fun files => name ∈ files

/-! ## A run -/

/-- `args.layers_per_run or n_layers` -/
def step (f : Factor) (args : Args) : Int :=
  match args.layers_per_run with
  | none => f.n_layers
  | some k => if k = 0 then f.n_layers else k

/-- `step < n_layers` -/
def isRanged (f : Factor) (args : Args) : Bool := step f args < f.n_layers

/-- The ranges of `range(0, n_layers, step)`; none where that raises. -/
def ranges (f : Factor) (args : Args) : Option (List (Nat × Nat)) :=
  if step f args = 0 then none
  else if step f args < 0 then some []
  else some (steps 0 f.n_layers (step f args).toNat)

/-- Is the range collected already? -/
def State.collected (s : State) (f : Factor) (args : Args) (a b : Nat) : Bool :=
  s.isFile (mark a b) || rangeLoggedOk (s.logs.get? (logName f a)) a b (isRanged f args)

/-- The run of the tool on a range: the state, and what `run_logged` returns. -/
def State.runRange (s : State) (f : Factor) (args : Args) (a b : Nat) (attempt : Attempt) :
    State × Option Int :=
  let r := runLogged ((s.logs.get? (logName f a)).getD []) (command f args (isRanged f args) a b) attempt
  (⟨if attempt.makes_out then some (s.out.getD []) else s.out, s.logs.set (logName f a) r.1,
    s.events ++ [.ran a b attempt.exitCode]⟩, r.2)

/-- `open(os.path.join(out, name), "w")`, which raises where there is no directory. -/
def State.touch (s : State) (name : String) : Option State :=
  s.out.map fun files => { s with out := some (files ++ [name]) }

/-- The loop over the ranges, with what becomes of each if the process gets that far; where the attempts
run out it is killed. `finish` says whether it lives to write `DONE.json`, and what is returned is `none`
where it does not return. -/
def collectRanges (f : Factor) (args : Args) (finish : Bool) :
    List (Nat × Nat) → List Attempt → State → State × Option Bool
  | [], _, s =>
    match if finish then s.touch YAQA_DONE else none with
    | none => (s, none)
    | some s => (s, some true)
  | _ :: _, [], s => (s, none)
  | (a, b) :: rest, attempt :: attempts, s =>
    if s.collected f args a b then
      collectRanges f args finish rest attempts { s with events := s.events ++ [.skipped a b] }
    else
      match s.runRange f args a b attempt with
      | (s, none) => (s, none)
      | (s, some rc) =>
        if rc ≠ 0 then (s, some false)
        else match s.touch (mark a b) with
          | none => (s, none)
          | some s => collectRanges f args finish rest attempts s

/-- One run: its arguments, and what happens in it. -/
structure Run where
  args : Args
  attempts : List Attempt
  finish : Bool

/-- `collect_hout` -/
def collectHout (f : Factor) (run : Run) (s : State) : State × Option Bool :=
  if s.isFile YAQA_DONE then (s, some true)
  else match ranges f run.args with
    | none => (s, none)
    | some rs => collectRanges f run.args run.finish rs run.attempts s

/-- The state after a sequence of runs. -/
def afterRuns (f : Factor) (runs : List Run) : State :=
  runs.foldl (fun s run => (collectHout f run s).1) .start

/-! ## Names -/

theorem mark_injective {a b a' b' : Nat} (h : mark a b = mark a' b') : a = a' ∧ b = b' := by
  have hlist := congrArg String.toList (PyStr.append_right_cancel h)
  simp only [String.toList_append] at hlist
  have hdash : ∀ n : Nat, '-' ∉ (toString n).toList := fun n hmem =>
    absurd (PyStr.isDigit_of_mem_toString hmem) (by decide)
  rw [List.append_assoc, List.append_assoc _ "-".toList] at hlist
  obtain ⟨ha, hb⟩ := PyStr.eq_of_append_sep (hdash b) (hdash b') hlist
  rw [List.append_cancel_left_eq] at ha
  exact ⟨PyStr.toString_nat_injective (String.toList_injective ha),
    PyStr.toString_nat_injective (String.toList_injective hb)⟩

theorem mark_ne_done (a b : Nat) : mark a b ≠ YAQA_DONE := by
  intro h
  have hhead := congrArg (fun s => s.toList.head?) h
  simp [mark, YAQA_DONE, String.toList_append] at hhead

theorem logName_injective {f : Factor} {a a' : Nat} (h : logName f a = logName f a') : a = a' := by
  have hlist := congrArg String.toList h
  simp only [logName, String.toList_append] at hlist
  exact PyStr.toString_nat_injective (String.toList_injective (List.append_cancel_left hlist))

/-! ## What is there is sound -/

/-- A child exited 0 on just this range. -/
def State.Ran (s : State) (a b : Nat) : Prop := .ran a b (some 0) ∈ s.events

/-- Every layer is in the range of a child that exited 0. -/
def State.Covered (s : State) (f : Factor) : Prop :=
  ∀ layer < f.n_layers, ∃ a b, s.Ran a b ∧ a ≤ layer ∧ layer < b

/-- A range was skipped only after a child had exited 0 on just this range. -/
def State.SkipsRan (s : State) : Prop :=
  ∀ before a b after, s.events = before ++ .skipped a b :: after → .ran a b (some 0) ∈ before

/-- The invariant between runs and within them: markers, logs and `DONE.json` stand for children that
exited 0. A log that is asked for the whole model answers for the range of all layers. -/
structure Sound (f : Factor) (s : State) : Prop where
  marks : ∀ a b, s.isFile (mark a b) = true → s.Ran a b
  logs : ∀ a b ranged, rangeLoggedOk (s.logs.get? (logName f a)) a b ranged = true →
    if ranged then s.Ran a b else s.Ran 0 f.n_layers
  done : s.isFile YAQA_DONE = true → s.Covered f
  skips : s.SkipsRan

variable {f : Factor} {args : Args} {s s' : State} {a b : Nat} {name : String}

theorem sound_start : Sound f .start where
  marks _ _ h := nomatch h
  logs _ _ _ h := nomatch h
  done h := nomatch h
  skips _ _ _ _ h := by simp [State.start] at h

/-- One event more: the skips before it stay as they were. -/
theorem State.SkipsRan.concat {e : Event} (h : s.SkipsRan) (hevents : s'.events = s.events ++ [e])
    (he : ∀ a b, e = .skipped a b → s.Ran a b) : s'.SkipsRan := by
  intro before a b after hsplit
  rw [hevents] at hsplit
  rcases List.eq_nil_or_concat after with rfl | ⟨after, e', rfl⟩
  · obtain ⟨rfl, hlast⟩ := List.append_inj' hsplit rfl
    exact he a b (List.cons.inj hlast).1
  · rw [List.concat_eq_append, ← List.cons_append, ← List.append_assoc] at hsplit
    obtain ⟨hbefore, -⟩ := List.append_inj' hsplit rfl
    exact h before a b after hbefore

theorem State.Covered.mono (h : s.Covered f) (hsub : s.events ⊆ s'.events) : s'.Covered f := by
  intro layer hlayer
  obtain ⟨a, b, hran, hin⟩ := h layer hlayer
  exact ⟨a, b, hsub hran, hin⟩

/-- A range that is skipped. -/
theorem Sound.skip (h : Sound f s) (hran : s.Ran a b) :
    Sound f { s with events := s.events ++ [.skipped a b] } := by
  have hsub : s.events ⊆ s.events ++ [.skipped a b] := List.subset_append_left _ _
  refine ⟨fun a' b' hmark => hsub (h.marks a' b' hmark), fun a' b' ranged hok => ?_,
    fun hdone => (h.done hdone).mono hsub, h.skips.concat rfl ?_⟩
  · have hlog := h.logs a' b' ranged hok
    split_ifs at hlog ⊢
    · exact hsub hlog
    · exact hsub hlog
  · intro a' b' heq
    obtain ⟨rfl, rfl⟩ := Event.skipped.inj heq
    exact hran

theorem isFile_runRange (attempt : Attempt) :
    (s.runRange f args a b attempt).1.isFile name = s.isFile name := by
  unfold State.isFile State.runRange
  cases s.out <;> cases attempt.makes_out <;> rfl

/-- A child that exits 0 is on record. -/
theorem ran_runRange {attempt : Attempt} (hcode : attempt.exitCode = some 0) :
    (s.runRange f args a b attempt).1.Ran a b := by
  have hevent : Event.ran a b (some 0) = .ran a b attempt.exitCode := by rw [hcode]
  exact List.mem_append_right _ (List.mem_singleton.mpr hevent)

/-- A run of the tool on a range that is asked for as it is run. -/
theorem Sound.runRange (h : Sound f s) (hlegible : Legible f args) (attempt : Attempt)
    (hwhole : isRanged f args = false → a = 0 ∧ b = f.n_layers) :
    Sound f (s.runRange f args a b attempt).1 := by
  have hsub : s.events ⊆ (s.runRange f args a b attempt).1.events := List.subset_append_left _ _
  refine ⟨fun a' b' hmark => ?_, fun a' b' ranged hok => ?_, fun hdone => ?_, h.skips.concat rfl ?_⟩
  · rw [isFile_runRange] at hmark
    exact hsub (h.marks a' b' hmark)
  · have hold : rangeLoggedOk (s.logs.get? (logName f a')) a' b' ranged = true →
        if ranged then (s.runRange f args a b attempt).1.Ran a' b'
        else (s.runRange f args a b attempt).1.Ran 0 f.n_layers := by
      intro hbefore
      have hlog := h.logs a' b' ranged hbefore
      split_ifs at hlog ⊢
      · exact hsub hlog
      · exact hsub hlog
    by_cases ha : a' = a
    · subst ha
      have hnew : (s.runRange f args a' b attempt).1.logs.get? (logName f a') = some (runLogged
          ((s.logs.get? (logName f a')).getD []) (command f args (isRanged f args) a' b) attempt).1 :=
        PyDict.get?_set_self _ _ _
      rw [hnew] at hok
      rcases rangeLoggedOk_runLogged hlegible _ attempt hok with hbefore | ⟨hcode, rfl, hb⟩
      · apply hold
        cases hlog : s.logs.get? (logName f a') with
        | none =>
          rw [hlog] at hbefore
          cases hbefore
        | some text =>
          rw [hlog] at hbefore
          exact hbefore
      · -- this attempt is the evidence
        have hran : (s.runRange f args a' b attempt).1.Ran a' b := ran_runRange hcode
        split_ifs with hranged
        · rw [hb hranged]
          exact hran
        · obtain ⟨rfl, rfl⟩ := hwhole (by simpa using hranged)
          exact hran
    · apply hold
      have hother : (s.runRange f args a b attempt).1.logs.get? (logName f a') =
          s.logs.get? (logName f a') :=
        PyDict.get?_set_ne _ _ fun hname => ha (logName_injective hname)
      rwa [hother] at hok
  · rw [isFile_runRange] at hdone
    exact (h.done hdone).mono hsub
  · intro a' b' heq
    cases heq

theorem isFile_touch {name' : String} (h : s.touch name = some s') :
    s'.isFile name' = (s.isFile name' || decide (name' = name)) := by
  obtain ⟨files, hfiles, rfl⟩ := Option.map_eq_some_iff.mp h
  simp [State.isFile, hfiles]

/-- A file more, that stands for what it should. -/
theorem Sound.touch (h : Sound f s) (htouch : s.touch name = some s')
    (hmark : ∀ a b, name = mark a b → s.Ran a b) (hdone : name = YAQA_DONE → s.Covered f) :
    Sound f s' := by
  have hfile : ∀ name', s'.isFile name' = (s.isFile name' || decide (name' = name)) :=
    fun _ => isFile_touch htouch
  obtain ⟨files, hfiles, rfl⟩ := Option.map_eq_some_iff.mp htouch
  refine ⟨fun a b hm => ?_, h.logs, fun hd => ?_, h.skips⟩
  · rw [hfile, Bool.or_eq_true, decide_eq_true_eq] at hm
    rcases hm with hm | hm
    · exact h.marks a b hm
    · exact hmark a b hm.symm
  · rw [hfile, Bool.or_eq_true, decide_eq_true_eq] at hd
    rcases hd with hd | hd
    · exact h.done hd
    · exact hdone hd.symm

/-! ## Over a run -/

/-- Where the step is not negative, the ranges cover all layers; and where it is the whole model, the
range is that of all layers. -/
theorem ranges_spec {rs : List (Nat × Nat)} (hstep : 0 ≤ step f args) (h : ranges f args = some rs) :
    (∀ layer < f.n_layers, ∃ r ∈ rs, r.1 ≤ layer ∧ layer < r.2) ∧
      (isRanged f args = false → ∀ r ∈ rs, r = (0, f.n_layers)) := by
  unfold ranges at h
  rw [if_neg (not_lt.mpr hstep)] at h
  split_ifs at h with hzero
  obtain rfl := Option.some.inj h
  have hpos : 0 < (step f args).toNat := by omega
  refine ⟨fun layer hlayer => ?_, fun hwhole r hr => ?_⟩
  · have htiles : Tiles 0 (steps 0 f.n_layers (step f args).toNat) (max 0 f.n_layers) := tiles_steps hpos
    exact htiles.exists_mem (Nat.zero_le layer) (by omega)
  · have hlarge : f.n_layers ≤ (step f args).toNat := by
      simp only [isRanged, decide_eq_false_iff_not] at hwhole
      omega
    obtain ⟨start, hstart, rfl⟩ := List.mem_map.mp hr
    obtain ⟨⟨k, rfl⟩, hlt⟩ := (mem_rangeStep hpos).mp hstart
    -- the first multiple of the step is beyond the last layer
    have hk : k = 0 := by
      by_contra hk
      have : (step f args).toNat * 1 ≤ (step f args).toNat * k :=
        Nat.mul_le_mul_left _ (Nat.pos_of_ne_zero hk)
      omega
    subst hk
    simp only [Nat.mul_zero, Nat.add_zero, Nat.zero_add, Prod.mk.injEq, true_and]
    exact Nat.min_eq_right hlarge

/-- The evidence for a range that is skipped. -/
theorem Sound.ran_of_collected (h : Sound f s) (hwhole : isRanged f args = false → a = 0 ∧ b = f.n_layers)
    (hcollected : s.collected f args a b = true) : s.Ran a b := by
  rcases Bool.or_eq_true_iff.mp hcollected with hmark | hlog
  · exact h.marks a b hmark
  · have hran := h.logs a b _ hlog
    split_ifs at hran with hranged
    · exact hran
    · obtain ⟨rfl, rfl⟩ := hwhole (by simpa using hranged)
      exact hran

/-- Each layer is in the range of a child that exited 0, or in one still to come. -/
def State.CoveredBut (s : State) (f : Factor) (todo : List (Nat × Nat)) : Prop :=
  ∀ layer < f.n_layers, (∃ a b, s.Ran a b ∧ a ≤ layer ∧ layer < b) ∨
    ∃ r ∈ todo, r.1 ≤ layer ∧ layer < r.2

theorem State.CoveredBut.covered (h : s.CoveredBut f []) : s.Covered f := by
  intro layer hlayer
  rcases h layer hlayer with hran | ⟨r, hr, -⟩
  · exact hran
  · cases hr

/-- A range that has run is no longer among those to come. -/
theorem State.CoveredBut.next {rest : List (Nat × Nat)} (h : s.CoveredBut f ((a, b) :: rest))
    (hsub : s.events ⊆ s'.events) (hran : s'.Ran a b) : s'.CoveredBut f rest := by
  intro layer hlayer
  rcases h layer hlayer with ⟨a', b', hran', hin⟩ | ⟨r, hr, hin⟩
  · exact .inl ⟨a', b', hsub hran', hin⟩
  · rcases List.mem_cons.mp hr with rfl | hr
    · exact .inl ⟨a, b, hran, hin⟩
    · exact .inr ⟨r, hr, hin⟩

theorem events_touch (h : s.touch name = some s') : s'.events = s.events := by
  obtain ⟨files, -, rfl⟩ := Option.map_eq_some_iff.mp h
  rfl

theorem Sound.touch_mark (h : Sound f s) (hran : s.Ran a b) (htouch : s.touch (mark a b) = some s') :
    Sound f s' := by
  refine h.touch htouch (fun a' b' hname => ?_) fun hname => absurd hname (mark_ne_done a b)
  obtain ⟨rfl, rfl⟩ := mark_injective hname
  exact hran

theorem Sound.touch_done (h : Sound f s) (hcovered : s.Covered f)
    (htouch : s.touch YAQA_DONE = some s') : Sound f s' :=
  h.touch htouch (fun a b hname => absurd hname.symm (mark_ne_done a b)) fun _ => hcovered

/-- The loop: behind it all ranges have run, and before it those that are not still to come. -/
theorem Sound.collectRanges {finish : Bool} {todo : List (Nat × Nat)} (hlegible : Legible f args)
    (hwhole : isRanged f args = false → ∀ r ∈ todo, r = (0, f.n_layers)) (attempts : List Attempt)
    (h : Sound f s) (hcover : s.CoveredBut f todo) :
    Sound f (collectRanges f args finish todo attempts s).1 := by
  induction todo generalizing attempts s with
  | nil =>
    unfold Yaqa.collectRanges
    split
    · exact h
    · next s' htouch =>
      split_ifs at htouch
      exact h.touch_done hcover.covered htouch
  | cons r rest ih =>
    obtain ⟨a, b⟩ := r
    cases attempts with
    | nil => exact h
    | cons attempt attempts =>
      have hrange : isRanged f args = false → a = 0 ∧ b = f.n_layers := by
        intro hranged
        exact Prod.mk.inj (hwhole hranged (a, b) List.mem_cons_self)
      have hrest : isRanged f args = false → ∀ r ∈ rest, r = (0, f.n_layers) :=
        fun hranged r hr => hwhole hranged r (List.mem_cons_of_mem _ hr)
      rw [Yaqa.collectRanges]
      split_ifs with hcollected
      · have hran := h.ran_of_collected hrange hcollected
        have hsub : s.events ⊆ s.events ++ [.skipped a b] := List.subset_append_left _ _
        exact ih hrest attempts (h.skip hran) (hcover.next hsub (hsub hran))
      · have hrun := h.runRange hlegible attempt hrange
        have hsub : s.events ⊆ (s.runRange f args a b attempt).1.events := List.subset_append_left _ _
        have hzero : (s.runRange f args a b attempt).2 = some 0 →
            (s.runRange f args a b attempt).1.Ran a b :=
          fun hreturned => ran_runRange (exitCode_of_runLogged hreturned)
        generalize s.runRange f args a b attempt = result at hrun hsub hzero
        obtain ⟨s₁, rc⟩ := result
        cases rc with
        | none => exact hrun
        | some rc =>
          dsimp only
          split_ifs with hrc
          · exact hrun
          · obtain rfl := not_ne_iff.mp hrc
            have hran : s₁.Ran a b := hzero rfl
            cases htouch : s₁.touch (mark a b) with
            | none => exact hrun
            | some s₂ =>
              have hevents := events_touch htouch
              apply ih hrest attempts (hrun.touch_mark hran htouch)
              apply hcover.next
              · rw [hevents]
                exact hsub
              · rw [State.Ran, hevents]
                exact hran

theorem Sound.collectHout (h : Sound f s) (run : Run) (hlegible : Legible f run.args)
    (hstep : 0 ≤ step f run.args) : Sound f (collectHout f run s).1 := by
  unfold Yaqa.collectHout
  split_ifs
  · exact h
  · split
    · exact h
    · next rs hrs =>
      obtain ⟨hcover, hwhole⟩ := ranges_spec hstep hrs
      exact h.collectRanges hlegible hwhole run.attempts fun layer hlayer => .inr (hcover layer hlayer)

/-! ## Over all runs -/

/-- A run that keeps the invariant: its texts are legible, and its step is not negative. -/
structure Forward (f : Factor) (run : Run) : Prop where
  legible : Legible f run.args
  layers : ∀ k, run.args.layers_per_run = some k → 0 ≤ k

theorem Forward.step_nonneg {run : Run} (h : Forward f run) : 0 ≤ step f run.args := by
  unfold step
  split
  · exact Int.natCast_nonneg _
  · next k hk =>
    split_ifs
    · exact Int.natCast_nonneg _
    · exact h.layers k hk

theorem sound_afterRuns {runs : List Run} (h : ∀ run ∈ runs, Forward f run) : Sound f (afterRuns f runs) := by
  induction runs using List.reverseRecOn with
  | nil => exact sound_start
  | append_singleton runs run ih =>
    rw [afterRuns, List.foldl_append, ← afterRuns]
    have hrun := h run (by simp)
    have hbefore := ih fun run' hrun' => h run' (List.mem_append_left _ hrun')
    exact hbefore.collectHout run hrun.legible hrun.step_nonneg

/-- What factor collection promises: `DONE.json` is there only if every layer is in the range of a child
that exited 0, and a range is skipped only after one had exited 0 on just this range. -/
structure Resumes (f : Factor) (s : State) : Prop where
  done : s.isFile YAQA_DONE = true → s.Covered f
  skips : s.SkipsRan

/-- Factor collection resumes without gaps, whatever steps the runs have and however they end. -/
theorem collect_hout_resumes (f : Factor) (runs : List Run) (h : ∀ run ∈ runs, Forward f run) :
    Resumes f (afterRuns f runs) :=
  ⟨(sound_afterRuns h).done, (sound_afterRuns h).skips⟩

/-! ## Two runs -/

/-- A model of two layers. -/
def twoLayers : Factor := ⟨"cal", "model", "cal_cal.safetensors", "hess/cal", 2⟩

def perRun (layers_per_run : Option Int) : Args := ⟨"exllamav3", "0", none, layers_per_run⟩

theorem noon_chars : "2026-09-01 12:00:00".toList.all isStampChar = true := by decide

def noon : Stamp := ⟨"2026-09-01 12:00:00".toList, noon_chars⟩

theorem nineSeconds_chars : "9 s".toList.all isTookChar = true := by decide

def nineSeconds : Took := ⟨"9 s".toList, nineSeconds_chars⟩

/-- What the tool writes. -/
def progress : List Char := "layers\n".toList

theorem progress_quiet : PyLines.marked MARK progress = [] := by decide

/-- A child that ends with a code. -/
def exited (rc : Int) : Attempt :=
  ⟨noon, progress, progress_quiet, true, .ended rc noon nineSeconds none⟩

/-- A child that is killed with the process, after so many characters of the log. -/
def killedAfter (kept : Nat) : Attempt := ⟨noon, progress, progress_quiet, true, .killed kept⟩

theorem legible_perRun (layers_per_run : Option Int) : Legible twoLayers (perRun layers_per_run) := by
  have htool : tool (perRun layers_per_run) = "exllamav3/util/yaqa_hessians.py" := by
    show PyPath.join (PyPath.join "exllamav3" "util") "yaqa_hessians.py" = _
    decide +kernel
  have hwords : common twoLayers (perRun layers_per_run) ++ reserved (perRun layers_per_run) =
      ["python3", "exllamav3/util/yaqa_hessians.py", "-m", "model", "-c", "cal_cal.safetensors", "-o",
        "hess/cal", "-d", "0", "--tf32"] := by
    rw [common, htool]
    rfl
  constructor
  · rw [hwords]
    decide +kernel
  · rw [hwords]
    decide +kernel
  · rw [htool]
    decide +kernel

/-- A layer in each range, the second one killed in the middle of its log; then the same again. -/
def interrupted : List Run :=
  [⟨perRun (some 1), [exited 0, killedAfter 40], true⟩, ⟨perRun (some 1), [exited 0, exited 0], true⟩]

theorem interrupted_resumes :
    (afterRuns twoLayers interrupted).isFile YAQA_DONE = true ∧
      Resumes twoLayers (afterRuns twoLayers interrupted) := by
  refine ⟨by decide +kernel, collect_hout_resumes twoLayers interrupted fun run hrun => ?_⟩
  have hargs : run.args = perRun (some 1) := by
    simp only [interrupted, List.mem_cons, List.not_mem_nil, or_false] at hrun
    rcases hrun with rfl | rfl <;> rfl
  constructor
  · rw [hargs]
    exact legible_perRun _
  · rw [hargs]
    intro k hk
    obtain rfl : 1 = k := Option.some.inj hk
    decide

/-- A run that is killed, after which the output directory is there; then one with a step of -1. -/
def negativeStep : List Run :=
  [⟨perRun none, [killedAfter 40], true⟩, ⟨perRun (some (-1)), [], true⟩]

/-- With a negative step no range is run, and `DONE.json` is written. -/
theorem done_uncollected :
    (∀ run ∈ negativeStep, Legible twoLayers run.args) ∧
    (afterRuns twoLayers negativeStep).isFile YAQA_DONE = true ∧ 0 < twoLayers.n_layers ∧
    ∀ a b, ¬ (afterRuns twoLayers negativeStep).Ran a b := by
  refine ⟨fun run hrun => ?_, by decide +kernel, by decide, fun a b hran => ?_⟩
  · simp only [negativeStep, List.mem_cons, List.not_mem_nil, or_false] at hrun
    rcases hrun with rfl | rfl
    · exact legible_perRun none
    · exact legible_perRun (some (-1))
  · have hevents : (afterRuns twoLayers negativeStep).events = [.ran 0 2 none] := by decide +kernel
    rw [State.Ran, hevents, List.mem_singleton] at hran
    cases hran

end VllmExl3.Yaqa
