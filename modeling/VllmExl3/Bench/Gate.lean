/-
# VllmExl3.Bench.Gate — the regression gate (`bench/run.py`, `bench/core.py`)

`check_entry` compares a fresh capture with a baseline and lists what differs; the gate passes on an
empty list. It walks the prompts, and the steps of a prompt, in pairs, so what one side lacks is never
looked at: a missing prompt, a step list that ends early, a position without scores. `Unflagged` is
what an empty list says, `Agree` what it is taken to say, and where the gate passes the second holds
exactly if the fresh capture covers the baseline and no score is NaN (`Unflagged.agree_iff`,
`gate_agrees_iff`).
-/
import VllmExl3.Format
import VllmExl3.Lib.PyDict
import VllmExl3.Lib.PyFloat
import VllmExl3.Lib.Except

namespace VllmExl3.Bench

variable {F : Type}

/-! ## Captures -/

/-- The scores of a position: a token's log-probability. -/
abbrev Step (F : Type) := PyDict String F

/-- One prompt of a capture; `none` is an absent step. -/
structure Prompt (F : Type) where
  ids : List Int
  steps : List (Option (Step F))
  generated_ids : Option (List Int)

/-- The record of the derived checkpoint an entry served. -/
structure Fixture where
  kind : String
  base : String
  digest : String
  deriving DecidableEq

/-- A fixture as Python prints it. -/
def Fixture.repr : Option Fixture → String
  | none => "None"
  | some f => "\x7b'kind': '" ++ f.kind ++ "', 'base': '" ++ f.base ++ "', 'digest': '" ++ f.digest ++ "'\x7d"

/-- The attention backends a log names: one, or several. -/
inductive Backend where
  | one (name : String)
  | many (names : List String)
  deriving DecidableEq

/-- A backend as Python prints it. -/
def Backend.repr : Option Backend → String
  | none => "None"
  | some (.one name) => name
  | some (.many names) => "[" ++ ", ".intercalate (names.map fun n => "'" ++ n ++ "'") ++ "]"

/-- A capture, the fields the gate reads. -/
structure Capture (F : Type) where
  prompts : List (Prompt F)
  fixture : Option Fixture
  attn_backend : Option Backend
  weight_gib : Option F

/-- The thresholds of an entry. -/
structure Tolerance (F : Type) where
  dlogprob_max : F
  kl_max : F
  argmax_disagreements : Int

/-- An entry's `tolerance`: the thresholds it overrides. -/
structure Overrides (F : Type) where
  dlogprob_max : Option F
  kl_max : Option F
  argmax_disagreements : Option Int

variable (o : PyFloat F)

/-- `{**DEFAULT_TOLERANCE, **entry.tolerance}` -/
def tolerance (entry : Overrides F) : Tolerance F where
  dlogprob_max := entry.dlogprob_max.getD (o.ofRat (1 / 4))
  kl_max := entry.kl_max.getD (o.ofRat (5 / 100))
  argmax_disagreements := entry.argmax_disagreements.getD 0

/-! ## Comparing a prompt -/

/-- `d[t]` -/
def item (d : Step F) (t : String) : Except PyError F :=
  match d.get? t with
  | some v => .ok v
  | none => .error (.key t)

/-- `math.exp(x)` -/
def exp (x : F) : Except PyError F :=
  match o.exp x with
  | some y => .ok y
  | none => .error (.runtime "OverflowError: math range error")

/-- `math.log(x)` -/
def log (x : F) : Except PyError F :=
  match o.log x with
  | some y => .ok y
  | none => .error (.value "math domain error")

/-- `math.log(sum(math.exp(p[t]) for t in shared))` -/
def logSumExp (p : Step F) (shared : List String) : Except PyError F := do
  let total ← shared.foldlM (fun total t => do
    let e ← exp o (← item p t)
    return o.add total e) (o.ofRat 0)
  log o total

/-- `kl` -/
def kl (p q : Step F) : Except PyError F :=
  let shared := p.keys.filter fun t => q.contains t
  if shared = [] then .ok o.nan
  else do
    let zp ← logSumExp o p shared
    let zq ← logSumExp o q shared
    shared.foldlM (fun total t => do
      let lp := o.sub (← item p t) zp
      let lq := o.sub (← item q t) zq
      let e ← exp o lp
      return o.add total (o.mul e (o.sub lp lq))) (o.ofRat 0)

/-- `max(s, key=s.get)` -/
def topToken (s : Step F) : Option String := o.maxBy (fun t => (s.get? t).getD o.nan) s.keys

/-- `abs(sa[ta] - sb[ta])`, where `sb` scores the top token of `sa` -/
def gap (sa sb : Step F) : Option F := do
  let ta ← topToken o sa
  let lb ← sb.get? ta
  let la ← sa.get? ta
  return o.abs (o.sub la lb)

/-- What the loop of `compare_prompt` accumulates. -/
structure Scores (F : Type) where
  kls : List F
  dtop : List F
  disagree : Nat
  n : Nat

/-- `sa` and `sb` where a pair of steps is compared: neither is absent or empty. -/
def scoredPair : Option (Step F) × Option (Step F) → Option (Step F × Step F)
  | (some sa, some sb) => if sa.items = [] ∨ sb.items = [] then none else some (sa, sb)
  | _ => none

/-- The loop of `compare_prompt`. -/
def compareSteps : List (Option (Step F) × Option (Step F)) → Scores F → Except PyError (Scores F)
  | [], acc => .ok acc
  | pair :: rest, acc =>
    match scoredPair pair with
    | none => compareSteps rest acc
    | some (sa, sb) => do
      let d ← kl o sa sb
      compareSteps rest
        { kls := acc.kls ++ [d]
          dtop := acc.dtop ++ (gap o sa sb).toList
          disagree := if topToken o sa ≠ topToken o sb then acc.disagree + 1 else acc.disagree
          n := acc.n + 1 }

/-- What `compare_prompt` returns of two captures of one question. -/
structure Comparison (F : Type) where
  positions : Nat
  argmax_disagreements : Nat
  kl_max : F
  dlogprob_max : F
  generated_match : Bool

/-- `compare_prompt`; `none` where the two sides were not asked the same question. -/
def comparePrompt (pa pb : Prompt F) : Except PyError (Option (Comparison F)) :=
  if pa.ids ≠ pb.ids then .ok none
  else do
    let s ← compareSteps o (pa.steps.zip pb.steps) ⟨[], [], 0, 0⟩
    return some {
      positions := s.n
      argmax_disagreements := s.disagree
      kl_max := o.maxD (o.ofRat 0) (s.kls.filter o.number)
      dlogprob_max := o.maxD (o.ofRat 0) s.dtop
      generated_match := pa.generated_ids = pb.generated_ids }

/-! ## Checking an entry -/

/-- The comparison of the two fixture records. -/
def checkFixture (fb ff : Option Fixture) : List String :=
  if (fb.isSome ∨ ff.isSome) ∧ fb ≠ ff then
    match fb, ff with
    | some b, some f =>
      if b.digest ≠ f.digest then
        [s!"fixture {f.kind} content changed: {b.digest} -> {f.digest} (the derived checkpoint differs, so every difference below follows from it; re-bless if the producer change was intended)"]
      else [s!"fixture record changed: {Fixture.repr (some b)} -> {Fixture.repr (some f)}"]
    | fb, ff => [s!"fixture record changed: {Fixture.repr fb} -> {Fixture.repr ff}"]
  else []

/-- The comparison of the attention backends; an unrecorded one is not compared. -/
def checkBackend (base fresh : Option Backend) : List String :=
  if base.isSome ∧ fresh ≠ base then
    [s!"attention backend {Backend.repr base} -> {Backend.repr fresh} (selection is derived from head dim, dtypes, sliding window and what is installed; this entry is no longer testing the same path)"]
  else []

/-- The comparison of the weight bytes, where both sides have them. -/
def checkWeight (base fresh : Option F) : List String :=
  match fresh, base with
  | some f, some b => if o.eq f b then [] else [s!"weight bytes {o.repr b} -> {o.repr f} GiB"]
  | _, _ => []

/-- What `check_entry` holds against a comparison. -/
def overTolerance (tol : Tolerance F) (i : Nat) (m : Comparison F) : List String :=
  (if (m.argmax_disagreements : Int) > tol.argmax_disagreements then
    [s!"prompt {i}: {m.argmax_disagreements}/{m.positions} argmax disagreements"] else []) ++
  (if m.generated_match then [] else [s!"prompt {i}: greedy continuation changed"]) ++
  (if o.lt tol.dlogprob_max m.dlogprob_max then
    [s!"prompt {i}: |dlogprob| max {o.fmt m.dlogprob_max} > {o.fmt tol.dlogprob_max}"] else []) ++
  if o.lt tol.kl_max m.kl_max then
    [s!"prompt {i}: KL max {o.fmt m.kl_max} > {o.fmt tol.kl_max}"] else []

/-- One prompt of the loop of `check_entry`. -/
def checkPrompt (tol : Tolerance F) (i : Nat) (pf pb : Prompt F) : Except PyError (List String) := do
  match ← comparePrompt o pb pf with
  | none => return [s!"prompt {i}: token ids differ from baseline (tokenizer or template changed)"]
  | some m => return overTolerance o tol i m

/-- The loop of `check_entry` over `enumerate(zip(fresh["prompts"], base["prompts"]))`. -/
def checkPrompts (tol : Tolerance F) : Nat → List (Prompt F × Prompt F) → Except PyError (List String)
  | _, [] => .ok []
  | i, (pf, pb) :: rest => do
    let failures ← checkPrompt o tol i pf pb
    let more ← checkPrompts tol (i + 1) rest
    return failures ++ more

/-- `check_entry`; what it prints, the environment and the KV headroom among it, is left out. -/
def checkEntry (entry : Overrides F) (fresh base : Capture F) : Except PyError (List String) := do
  let tol := tolerance o entry
  let failures := checkFixture base.fixture fresh.fixture ++
    checkBackend base.attn_backend fresh.attn_backend ++ checkWeight o base.weight_gib fresh.weight_gib
  let prompts ← checkPrompts o tol 0 (fresh.prompts.zip base.prompts)
  return failures ++ prompts

/-! ## What a pass says, and what it is taken to say -/

/-- Position `j` of a prompt is scored, as `s`. -/
def Scored (p : Prompt F) (j : Nat) (s : Step F) : Prop := p.steps[j]? = some (some s) ∧ s.items ≠ []

/-- The positions both sides score, in order: the baseline's scores first. -/
def both (pf pb : Prompt F) : List (Step F × Step F) := (pb.steps.zip pf.steps).filterMap scoredPair

/-- One position agrees: one top token, its log-probabilities and the KL within the thresholds. -/
structure PositionAgree (tol : Tolerance F) (sb sf : Step F) : Prop where
  top : topToken o sb = topToken o sf
  dlogprob : ∃ d, gap o sb sf = some d ∧ o.le d tol.dlogprob_max = true
  kl : ∃ d, kl o sb sf = .ok d ∧ o.le d tol.kl_max = true

/-- One prompt agrees, at every position the baseline scores. -/
structure PromptAgree (tol : Tolerance F) (pf pb : Prompt F) : Prop where
  ids : pf.ids = pb.ids
  generated : pf.generated_ids = pb.generated_ids
  scored : ∀ j sb, Scored pb j sb → ∃ sf, Scored pf j sf ∧ PositionAgree o tol sb sf

/-- The two captures agree. -/
structure Agree (tol : Tolerance F) (fresh base : Capture F) : Prop where
  count : fresh.prompts.length = base.prompts.length
  prompt : ∀ p ∈ fresh.prompts.zip base.prompts, PromptAgree o tol p.1 p.2

/-- Nothing shows in what is looked at of one pair of prompts. -/
structure PromptUnflagged (tol : Tolerance F) (pf pb : Prompt F) : Prop where
  ids : pb.ids = pf.ids
  generated : pb.generated_ids = pf.generated_ids
  top : ∀ p ∈ both pf pb, topToken o p.1 = topToken o p.2
  dlogprob : o.lt tol.dlogprob_max
    (o.maxD (o.ofRat 0) ((both pf pb).filterMap fun p => gap o p.1 p.2)) = false
  kl : ∃ kls, (both pf pb).mapM (fun p => kl o p.1 p.2) = .ok kls ∧
    o.lt tol.kl_max (o.maxD (o.ofRat 0) (kls.filter o.number)) = false

/-- Nothing shows in what the gate looks at. -/
structure Unflagged (tol : Tolerance F) (fresh base : Capture F) : Prop where
  fixture : base.fixture = fresh.fixture
  backend : base.attn_backend.isSome → fresh.attn_backend = base.attn_backend
  weight : ∀ f ∈ fresh.weight_gib, ∀ b ∈ base.weight_gib, o.eq f b = true
  prompts : ∀ p ∈ fresh.prompts.zip base.prompts, PromptUnflagged o tol p.1 p.2

/-- The fresh capture covers the baseline: the same number of prompts, scores wherever the baseline has
them, and numbers to compare there. -/
structure Covers (tol : Tolerance F) (fresh base : Capture F) : Prop where
  count : fresh.prompts.length = base.prompts.length
  scored : ∀ p ∈ fresh.prompts.zip base.prompts, ∀ j sb, Scored p.2 j sb → ∃ sf, Scored p.1 j sf
  gaps : ∀ p ∈ fresh.prompts.zip base.prompts, ∀ s ∈ both p.1 p.2,
    ∀ d ∈ gap o s.1 s.2, o.number d = true ∧ o.number tol.dlogprob_max = true
  kls : ∀ p ∈ fresh.prompts.zip base.prompts, ∀ s ∈ both p.1 p.2,
    ∀ d, kl o s.1 s.2 = .ok d → o.number d = true ∧ o.number tol.kl_max = true

/-! ## The positions both sides score -/

variable {o} {tol : Tolerance F}

theorem scoredPair_eq_some {pair : Option (Step F) × Option (Step F)} {s : Step F × Step F} :
    scoredPair pair = some s ↔
      pair = (some s.1, some s.2) ∧ s.1.items ≠ [] ∧ s.2.items ≠ [] := by
  obtain ⟨sb, sf⟩ := s
  constructor
  · intro h
    unfold scoredPair at h
    split at h
    · split_ifs at h with hempty
      rw [not_or] at hempty
      cases h
      exact ⟨rfl, hempty⟩
    · cases h
  · rintro ⟨rfl, hb, hf⟩
    rw [scoredPair, if_neg (not_or.mpr ⟨hb, hf⟩)]

theorem mem_both {pf pb : Prompt F} {s : Step F × Step F} :
    s ∈ both pf pb ↔ ∃ j, Scored pb j s.1 ∧ Scored pf j s.2 := by
  simp only [both, List.mem_filterMap, scoredPair_eq_some]
  constructor
  · rintro ⟨pair, hmem, rfl, hb, hf⟩
    obtain ⟨j, hj⟩ := List.mem_iff_getElem?.mp hmem
    obtain ⟨hjb, hjf⟩ := List.getElem?_zip_eq_some.mp hj
    exact ⟨j, ⟨hjb, hb⟩, hjf, hf⟩
  · rintro ⟨j, ⟨hjb, hb⟩, hjf, hf⟩
    exact ⟨_, List.mem_iff_getElem?.mpr ⟨j, List.getElem?_zip_eq_some.mpr ⟨hjb, hjf⟩⟩, rfl, hb, hf⟩

/-- Where the top tokens agree there is a gap to compare. -/
theorem exists_gap {sb sf : Step F} (hb : sb.items ≠ []) (h : topToken o sb = topToken o sf) :
    ∃ d, gap o sb sf = some d := by
  have hkeys : sb.keys ≠ [] := fun hnil => hb (List.map_eq_nil_iff.mp hnil)
  obtain ⟨t, ht⟩ := o.maxBy_isSome hkeys
  have htop : topToken o sb = some t := ht
  obtain ⟨la, hla⟩ := Option.isSome_iff_exists.mp (PyDict.isSome_get?_iff.mpr (o.maxBy_mem ht))
  obtain ⟨lb, hlb⟩ := Option.isSome_iff_exists.mp
    (PyDict.isSome_get?_iff.mpr (o.maxBy_mem (h.symm.trans htop)))
  refine ⟨o.abs (o.sub la lb), ?_⟩
  rw [gap, htop]
  show (do let lb ← sf.get? t; let la ← sb.get? t; return o.abs (o.sub la lb)) = _
  rw [hla, hlb]
  rfl

/-! ## A pass -/

/-- The loop of `compare_prompt` in closed form. -/
theorem compareSteps_eq (steps : List (Option (Step F) × Option (Step F))) (acc : Scores F) :
    compareSteps o steps acc = (do
      let pairs := steps.filterMap scoredPair
      let kls ← pairs.mapM fun p => kl o p.1 p.2
      return {
        kls := acc.kls ++ kls
        dtop := acc.dtop ++ pairs.filterMap fun p => gap o p.1 p.2
        disagree := acc.disagree + pairs.countP fun p => topToken o p.1 ≠ topToken o p.2
        n := acc.n + pairs.length }) := by
  induction steps generalizing acc with
  | nil =>
    obtain ⟨kls, dtop, disagree, n⟩ := acc
    show Except.ok _ = Except.ok _
    simp
  | cons pair rest ih =>
    cases hpair : scoredPair pair with
    | none =>
      rw [compareSteps, hpair, List.filterMap_cons_none hpair]
      exact ih acc
    | some s =>
      rw [compareSteps, hpair, List.filterMap_cons_some hpair]
      dsimp only
      rw [List.mapM_cons]
      cases hkl : kl o s.1 s.2 with
      -- a `d[t]` that raises ends the loop and the `mapM` alike
      | error err => rfl
      | ok d =>
        show compareSteps o rest _ = _
        rw [ih]
        show (List.mapM _ _ >>= _) = (List.mapM _ _ >>= _) >>= _
        cases hrest : (rest.filterMap scoredPair).mapM fun p => kl o p.1 p.2 with
        | error err => rfl
        | ok kls =>
          show Except.ok _ = Except.ok _
          refine congrArg Except.ok ?_
          rw [List.countP_cons, List.length_cons]
          congr 1
          · simp
          · cases hgap : gap o s.1 s.2 with
            | none => simp [List.filterMap_cons_none, hgap]
            | some g => simp [hgap]
          · show (if topToken o s.1 ≠ topToken o s.2 then acc.disagree + 1 else acc.disagree) + _ = _
            by_cases hne : topToken o s.1 ≠ topToken o s.2
            · rw [if_pos hne, if_pos (decide_eq_true hne)]
              omega
            · rw [if_neg hne, if_neg (by simpa using hne)]
              omega
          · show acc.n + 1 + _ = _
            omega

/-- `compare_prompt` in closed form, over the positions both sides score. -/
theorem comparePrompt_eq {pf pb : Prompt F} (hids : pb.ids = pf.ids) :
    comparePrompt o pb pf = (do
      let kls ← (both pf pb).mapM fun p => kl o p.1 p.2
      return some {
        positions := (both pf pb).length
        argmax_disagreements := (both pf pb).countP fun p => topToken o p.1 ≠ topToken o p.2
        kl_max := o.maxD (o.ofRat 0) (kls.filter o.number)
        dlogprob_max := o.maxD (o.ofRat 0) ((both pf pb).filterMap fun p => gap o p.1 p.2)
        generated_match := pb.generated_ids = pf.generated_ids }) := by
  rw [comparePrompt, if_neg (not_not.mpr hids), compareSteps_eq]
  show ((both pf pb).mapM _ >>= _) >>= _ = _
  cases (both pf pb).mapM fun p => kl o p.1 p.2 with
  | error err => rfl
  | ok kls =>
    show Except.ok _ = Except.ok _
    simp [both]

theorem overTolerance_nil_iff {i : Nat} {m : Comparison F} : overTolerance o tol i m = [] ↔
    (m.argmax_disagreements : Int) ≤ tol.argmax_disagreements ∧ m.generated_match = true ∧
      o.lt tol.dlogprob_max m.dlogprob_max = false ∧ o.lt tol.kl_max m.kl_max = false := by
  unfold overTolerance
  split_ifs with hargmax hgenerated hdlogprob hkl <;> simp_all

/-- The gate on one pair of prompts. -/
theorem checkPrompt_nil_iff (hargmax : tol.argmax_disagreements = 0) (i : Nat) (pf pb : Prompt F) :
    checkPrompt o tol i pf pb = .ok [] ↔ PromptUnflagged o tol pf pb := by
  rw [checkPrompt]
  by_cases hids : pb.ids = pf.ids
  · rw [comparePrompt_eq hids]
    have hreturns : ∀ xs : List String, (Except.ok xs : Except PyError (List String)) = .ok [] ↔ xs = [] :=
      fun xs => ⟨Except.ok.inj, congrArg Except.ok⟩
    cases hkls : (both pf pb).mapM fun p => kl o p.1 p.2 with
    | error err =>
      constructor
      · intro h
        cases h
      · intro h
        obtain ⟨kls, hok, _⟩ := h.kl
        rw [hkls] at hok
        cases hok
    | ok kls =>
      refine ((hreturns _).trans overTolerance_nil_iff).trans ?_
      rw [hargmax]
      constructor
      · rintro ⟨hcount, hgenerated, hdlogprob, hkl⟩
        have hzero : (both pf pb).countP (fun p => topToken o p.1 ≠ topToken o p.2) = 0 := by
          dsimp only at hcount
          omega
        refine ⟨hids, of_decide_eq_true hgenerated, fun p hp => ?_, hdlogprob, ⟨kls, hkls, hkl⟩⟩
        simpa using List.countP_eq_zero.mp hzero p hp
      · intro h
        obtain ⟨kls', hok, hkl⟩ := h.kl
        obtain rfl := Except.ok.inj (hkls.symm.trans hok)
        have hzero : (both pf pb).countP (fun p => topToken o p.1 ≠ topToken o p.2) = 0 :=
          List.countP_eq_zero.mpr fun p hp => by simpa using h.top p hp
        refine ⟨?_, decide_eq_true h.generated, h.dlogprob, hkl⟩
        dsimp only
        omega
  · rw [comparePrompt, if_pos hids]
    constructor
    · intro h
      cases h
    · intro h
      exact absurd h.ids hids

theorem checkPrompts_nil_iff (hargmax : tol.argmax_disagreements = 0) (i : Nat)
    (pairs : List (Prompt F × Prompt F)) :
    checkPrompts o tol i pairs = .ok [] ↔ ∀ p ∈ pairs, PromptUnflagged o tol p.1 p.2 := by
  induction pairs generalizing i with
  | nil => exact ⟨fun _ p hp => absurd hp List.not_mem_nil, fun _ => rfl⟩
  | cons p rest ih =>
    rw [List.forall_mem_cons, ← checkPrompt_nil_iff hargmax i, ← ih (i + 1), checkPrompts]
    constructor
    · intro h
      obtain ⟨failures, hfirst, h⟩ := bind_eq_ok h
      obtain ⟨more, hrest, h⟩ := bind_eq_ok h
      obtain ⟨rfl, rfl⟩ := List.append_eq_nil_iff.mp (Except.ok.inj h)
      exact ⟨hfirst, hrest⟩
    · rintro ⟨hfirst, hrest⟩
      rw [hfirst, hrest]
      rfl

theorem checkFixture_nil_iff {fb ff : Option Fixture} : checkFixture fb ff = [] ↔ fb = ff := by
  unfold checkFixture
  constructor
  · intro h
    by_contra hne
    have hsome : fb.isSome ∨ ff.isSome := by
      cases fb <;> cases ff <;> simp_all
    rw [if_pos ⟨hsome, hne⟩] at h
    split at h
    · split_ifs at h
    · cases h
  · rintro rfl
    simp

theorem checkBackend_nil_iff {base fresh : Option Backend} :
    checkBackend base fresh = [] ↔ (base.isSome → fresh = base) := by
  unfold checkBackend
  split_ifs with h
  · exact ⟨fun hnil => absurd hnil (by simp), fun hsame => absurd (hsame h.1) h.2⟩
  · exact ⟨fun _ hsome => by_contra fun hne => h ⟨hsome, hne⟩, fun _ => rfl⟩

theorem checkWeight_nil_iff {base fresh : Option F} :
    checkWeight o base fresh = [] ↔ ∀ f ∈ fresh, ∀ b ∈ base, o.eq f b = true := by
  cases fresh with
  | none => simp [checkWeight]
  | some f =>
    cases base with
    | none => simp [checkWeight]
    | some b =>
      rw [checkWeight]
      split_ifs with h <;> simp [h]

/-- The gate passes exactly where nothing shows in what it looks at. -/
theorem checkEntry_nil_iff {entry : Overrides F} (hargmax : (tolerance o entry).argmax_disagreements = 0)
    (fresh base : Capture F) :
    checkEntry o entry fresh base = .ok [] ↔ Unflagged o (tolerance o entry) fresh base := by
  rw [checkEntry]
  constructor
  · intro h
    obtain ⟨prompts, hprompts, h⟩ := bind_eq_ok h
    obtain ⟨hfailures, rfl⟩ := List.append_eq_nil_iff.mp (Except.ok.inj h)
    obtain ⟨hleft, hweight⟩ := List.append_eq_nil_iff.mp hfailures
    obtain ⟨hfixture, hbackend⟩ := List.append_eq_nil_iff.mp hleft
    exact ⟨checkFixture_nil_iff.mp hfixture, checkBackend_nil_iff.mp hbackend, checkWeight_nil_iff.mp hweight,
      (checkPrompts_nil_iff hargmax 0 _).mp hprompts⟩
  · intro h
    rw [(checkPrompts_nil_iff hargmax 0 _).mpr h.prompts, checkFixture_nil_iff.mpr h.fixture,
      checkBackend_nil_iff.mpr h.backend, checkWeight_nil_iff.mpr h.weight]
    rfl

/-! ## When a pass means agreement -/

/-- Where the gate passes on captures that cover each other, they agree. -/
theorem Unflagged.agree (ho : o.Laws) {fresh base : Capture F} (h : Unflagged o tol fresh base)
    (hcovers : Covers o tol fresh base) : Agree o tol fresh base where
  count := hcovers.count
  prompt p hp := by
    have hprompt := h.prompts p hp
    refine ⟨hprompt.ids.symm, hprompt.generated.symm, fun j sb hsb => ?_⟩
    obtain ⟨sf, hsf⟩ := hcovers.scored p hp j sb hsb
    -- the position is one of those the maxima run over
    have hboth : (sb, sf) ∈ both p.1 p.2 := mem_both.mpr ⟨j, hsb, hsf⟩
    have htop := hprompt.top _ hboth
    obtain ⟨d, hd⟩ := exists_gap hsb.2 htop
    obtain ⟨kls, hkls, hklmax⟩ := hprompt.kl
    obtain ⟨dkl, hdkl, hkl⟩ := exists_of_mapM_ok hkls hboth
    have hnumber : ∀ d ∈ kls, o.number d = true := by
      intro d hd
      obtain ⟨s, hs, hkl⟩ := (mem_mapM_ok hkls).mp hd
      exact (hcovers.kls p hp s hs d hkl).1
    refine ⟨sf, hsf, htop, ⟨d, hd, ?_⟩, dkl, hkl, ?_⟩
    · refine PyFloat.le_of_maxD ho (fun x hx => ?_) (hcovers.gaps p hp _ hboth d hd).2 hprompt.dlogprob d
        (List.mem_filterMap.mpr ⟨_, hboth, hd⟩)
      obtain ⟨s, hs, hgap⟩ := List.mem_filterMap.mp hx
      exact (hcovers.gaps p hp s hs x hgap).1
    · -- no KL is NaN, so the filter before the maximum drops none
      rw [List.filter_eq_self.mpr hnumber] at hklmax
      exact PyFloat.le_of_maxD ho hnumber (hcovers.kls p hp _ hboth dkl hkl).2 hklmax dkl hdkl

/-- Captures that agree cover each other. -/
theorem Agree.covers (ho : o.Laws) {fresh base : Capture F} (h : Agree o tol fresh base) :
    Covers o tol fresh base := by
  have hposition : ∀ p ∈ fresh.prompts.zip base.prompts, ∀ s ∈ both p.1 p.2,
      PositionAgree o tol s.1 s.2 := by
    intro p hp s hs
    obtain ⟨j, hsb, hsf⟩ := mem_both.mp hs
    obtain ⟨sf, hsf', hagree⟩ := (h.prompt p hp).scored j s.1 hsb
    have hsame : sf = s.2 := Option.some.inj (Option.some.inj (hsf'.1.symm.trans hsf.1))
    exact hsame ▸ hagree
  refine ⟨h.count, fun p hp j sb hsb => ?_, fun p hp s hs d hd => ?_, fun p hp s hs d hd => ?_⟩
  · obtain ⟨sf, hsf, _⟩ := (h.prompt p hp).scored j sb hsb
    exact ⟨sf, hsf⟩
  · obtain ⟨d', hgap, hle⟩ := (hposition p hp s hs).dlogprob
    obtain rfl := Option.some.inj (hgap.symm.trans hd)
    exact ho.le_number _ _ hle
  · obtain ⟨d', hkl, hle⟩ := (hposition p hp s hs).kl
    obtain rfl := Except.ok.inj (hkl.symm.trans hd)
    exact ho.le_number _ _ hle

/-- Where nothing shows in what is looked at, the captures agree exactly if the fresh one covers the
baseline: no prompt is missing, no position the baseline scores is without scores, and no gap, KL or
threshold at a position both score is NaN. -/
theorem Unflagged.agree_iff (ho : o.Laws) {fresh base : Capture F} (h : Unflagged o tol fresh base) :
    Agree o tol fresh base ↔ Covers o tol fresh base :=
  ⟨Agree.covers ho, h.agree ho⟩

/-- So a passing gate means agreement exactly if a fresh capture in which nothing shows covers the
baseline. -/
theorem gate_agrees_iff (ho : o.Laws) (entry : Overrides F)
    (hargmax : (tolerance o entry).argmax_disagreements = 0) (fresh base : Capture F) :
    (checkEntry o entry fresh base = .ok [] → Agree o (tolerance o entry) fresh base) ↔
      (Unflagged o (tolerance o entry) fresh base → Covers o (tolerance o entry) fresh base) := by
  rw [checkEntry_nil_iff hargmax]
  exact forall_congr' fun hunflagged => hunflagged.agree_iff ho

/-! ### A prompt of two tokens, scored and not -/

/-- A capture of one prompt of two tokens, with these steps. -/
def twoTokens (steps : List (Option (Step (Option ℝ)))) : Capture (Option ℝ) where
  prompts := [{ ids := [1, 2], steps := steps, generated_ids := some [3] }]
  fixture := none
  attn_backend := some (.one "FLASH_ATTN")
  weight_gib := some (some 1)

/-- An entry with the default thresholds. -/
def defaultEntry : Overrides (Option ℝ) where
  dlogprob_max := none
  kl_max := none
  argmax_disagreements := none

/-- One candidate token with log-probability `-1`. -/
noncomputable def oneCandidate : Step (Option ℝ) := PyDict.empty.set "2" (some (-1))

theorem kl_oneCandidate : kl PyFloat.exact oneCandidate oneCandidate = .ok (some 0) := by
  have hexp : PyFloat.exact.log (some (Real.exp (-1))) = some (some (-1)) := by
    simp [PyFloat.exact, Real.exp_pos]
  have hlog : logSumExp PyFloat.exact oneCandidate ["2"] = .ok (some (-1)) := by
    show log PyFloat.exact (some (((0 : Rat) : ℝ) + Real.exp (-1))) = _
    rw [Rat.cast_zero, zero_add, log, hexp]
  show (logSumExp PyFloat.exact oneCandidate ["2"] >>= fun zp =>
    logSumExp PyFloat.exact oneCandidate ["2"] >>= fun zq => _) = _
  rw [hlog]
  show Except.ok (some (((0 : Rat) : ℝ) + Real.exp (-1 - -1) * ((-1 - -1) - (-1 - -1)))) = _
  simp

/-- A capture passes against itself. -/
theorem scoredTwice_unflagged :
    Unflagged PyFloat.exact (tolerance PyFloat.exact defaultEntry) (twoTokens [none, some oneCandidate])
      (twoTokens [none, some oneCandidate]) := by
  refine ⟨rfl, fun _ => rfl, ?_, fun p hp => ?_⟩
  · simp [twoTokens, PyFloat.exact]
  · obtain rfl := List.mem_singleton.mp hp
    refine ⟨rfl, rfl, fun s hs => ?_, ?_, [some 0], ?_, ?_⟩
    · obtain rfl := List.mem_singleton.mp hs
      rfl
    · show PyFloat.exact.lt _ (PyFloat.exact.maxD _ [some |(-1 : ℝ) - -1|]) = false
      norm_num [tolerance, defaultEntry, PyFloat.maxD, PyFloat.maxFrom, PyFloat.exact]
    · show [(oneCandidate, oneCandidate)].mapM (fun p => kl PyFloat.exact p.1 p.2) = _
      rw [List.mapM_cons, kl_oneCandidate]
      rfl
    · norm_num [tolerance, defaultEntry, PyFloat.maxD, PyFloat.maxFrom, PyFloat.number, PyFloat.exact]

theorem scoredTwice_agrees :
    checkEntry PyFloat.exact defaultEntry (twoTokens [none, some oneCandidate])
        (twoTokens [none, some oneCandidate]) = .ok [] ∧
      Agree PyFloat.exact (tolerance PyFloat.exact defaultEntry) (twoTokens [none, some oneCandidate])
        (twoTokens [none, some oneCandidate]) := by
  have hpass := (checkEntry_nil_iff rfl _ _).mpr scoredTwice_unflagged
  refine ⟨hpass, (gate_agrees_iff PyFloat.exact_laws defaultEntry rfl _ _).mpr (fun _ => ?_) hpass⟩
  refine ⟨rfl, fun p hp j sb hsb => ?_, fun p hp s hs d hd => ?_, fun p hp s hs d hd => ?_⟩
  · obtain rfl := List.mem_singleton.mp hp
    exact ⟨sb, hsb⟩
  · obtain rfl := List.mem_singleton.mp hp
    obtain rfl := List.mem_singleton.mp hs
    obtain rfl := Option.some.inj hd
    simp [PyFloat.number, PyFloat.exact, tolerance, defaultEntry]
  · obtain rfl := List.mem_singleton.mp hp
    obtain rfl := List.mem_singleton.mp hs
    obtain rfl := Except.ok.inj (kl_oneCandidate.symm.trans hd)
    simp [PyFloat.number, PyFloat.exact, tolerance, defaultEntry]

/-- A capture whose step list is empty, as where the engine returns no prompt scores, passes against a
baseline with scores. -/
theorem unscored_passes :
    checkEntry PyFloat.exact defaultEntry (twoTokens []) (twoTokens [none, some oneCandidate]) = .ok [] ∧
      ¬Agree PyFloat.exact (tolerance PyFloat.exact defaultEntry) (twoTokens [])
        (twoTokens [none, some oneCandidate]) := by
  constructor
  · rw [checkEntry_nil_iff rfl]
    refine ⟨rfl, fun _ => rfl, ?_, fun p hp => ?_⟩
    · simp [twoTokens, PyFloat.exact]
    · obtain rfl := List.mem_singleton.mp hp
      refine ⟨rfl, rfl, fun p hp => absurd hp List.not_mem_nil, ?_, [], rfl, ?_⟩
      · simp [both, tolerance, defaultEntry, PyFloat.maxD, PyFloat.exact]
      · norm_num [tolerance, defaultEntry, PyFloat.maxD, PyFloat.exact]
  · intro h
    obtain ⟨sf, hsf, _⟩ := (h.prompt _ List.mem_cons_self).scored 1 oneCandidate
      ⟨rfl, List.cons_ne_nil _ _⟩
    cases hsf.1

end VllmExl3.Bench
