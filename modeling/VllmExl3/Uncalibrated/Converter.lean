/-
# VllmExl3.Uncalibrated.Converter — the record of what converted a checkpoint (`quantization/quant.py`)

An uncalibrated conversion is reused for as long as its model and its converter stay the same, and a comparison
against one from another converter would mix the two. So each directory carries a `converter.json` with git's
tree hashes of the converter that made it. `baseline` and `qbench` refuse a directory whose record is missing or
names another converter; a person may adopt one without a record.

A directory carries one thing the code does not see: the checkout whose `convert.py` wrote it last. The batch of
`baseline` is a list of tasks that move one step at a time, in any order. Left out are the texts printed on the
way, a record's date and note, and what `convert.py` writes besides its config.
-/
import VllmExl3.Lib.PyDict
import Mathlib.Data.List.Sort

namespace VllmExl3.Uncalibrated

/-! ## Converters -/

/-- The working copy of the converter: what git says of it, or no git checkout. -/
inductive Checkout where
  | unknown
  | git (exllamav3 convert commit : String) (dirty : Bool)
  deriving DecidableEq, Repr

/-- `{'tree', 'commit', 'dirty'}` -/
structure ConverterId where
  tree : Option String
  commit : Option String
  dirty : Option Bool
  deriving DecidableEq, Repr

/-- `converter_id` -/
def converterId : Checkout → ConverterId
  | .unknown => ⟨none, none, none⟩
  | .git exllamav3 convert commit dirty =>
    ⟨if dirty then none else some (":".intercalate [exllamav3, convert]), some commit, some dirty⟩

/-- What `converter.json` holds. -/
structure ConverterRecord where
  id : ConverterId
  adopted : Bool
  deriving DecidableEq, Repr

/-- The record of a conversion made before converters were recorded. -/
def ConverterRecord.unrecorded : ConverterRecord := ⟨⟨none, none, none⟩, false⟩

/-! ## Directories -/

/-- An uncalibrated conversion of a job: a rung of the baseline, or the calibration generator. -/
inductive Place where
  | rung (rev : String)
  | generator
  deriving DecidableEq, Repr

/-- A conversion's directory: is `quantization_config.json` there, what does `converter.json` say, and which
converter wrote it last. -/
structure Conversion where
  config : Bool
  record : Option ConverterRecord
  builder : Checkout
  deriving DecidableEq, Repr

abbrev Dirs := PyDict Place Conversion

/-- `os.path.isfile(os.path.join(p, "quantization_config.json"))` -/
def Dirs.complete (dirs : Dirs) (p : Place) : Bool := (dirs.get? p).any (·.config)

/-- `json.load` of `converter.json`, or what a missing one is read as. -/
def Dirs.record (dirs : Dirs) (p : Place) : ConverterRecord :=
  ((dirs.get? p).bind (·.record)).getD .unrecorded

/-- `Job.baseline_revisions` -/
def baselineRevisions (dirs : Dirs) : List String :=
  (dirs.items.filterMap fun
    | (.rung rev, c) => if c.config then some rev else none
    | (.generator, _) => none).insertionSort (· ≤ ·)

/-! ## Records -/

/-- `s[:10]` -/
def short (s : String) : String := String.ofList (s.toList.take 10)

/-- Why a record does not name the current converter, in the loop of `converter_mismatches`. -/
def mismatch (cur : ConverterId) (rec : ConverterRecord) : Option String :=
  match cur.tree, rec.id.tree with
  | none, _ => some (if cur.dirty = some true then "the current converter has uncommitted changes"
      else "the current converter is not a git checkout")
  | some _, none => some "made by an unrecorded or modified converter"
  | some tree, some made =>
    if made ≠ tree then
      let how := if rec.adopted then "adopted under" else "made by"
      let commit := match rec.id.commit with
        | some commit => if commit.isEmpty then "?" else commit
        | none => "?"
      let current := cur.commit.getD ""
      some s!"{how} converter {short commit}, current {short current}"
    else none

/-- `converter_mismatches` -/
def converterMismatches (cur : ConverterId) (dirs : Dirs) (paths : List Place) : PyDict Place String :=
  .ofList (paths.filterMap fun p => (mismatch cur (dirs.record p)).map fun why => (p, why))

/-- `refuse_converter_mismatch` -/
def refuseConverterMismatch (cur : ConverterId) (dirs : Dirs) (paths : List Place) (allow : Bool) : Bool :=
  !(converterMismatches cur dirs paths).items.isEmpty && !allow

/-- `record_converter` -/
def recordConverter (checkout : Checkout) (dirs : Dirs) (p : Place) : Dirs :=
  match dirs.get? p with
  | some c => dirs.set p { c with record := some ⟨converterId checkout, false⟩ }
  | none => dirs

/-- One path of `adopt_converter`: a record that names a converter is kept. -/
def adoptOne (cur : ConverterId) (dirs : Dirs) (p : Place) : Dirs :=
  match dirs.get? p with
  | some c => if (dirs.record p).id.tree.isSome then dirs
    else dirs.set p { c with record := some ⟨cur, true⟩ }
  | none => dirs

/-- `adopt_converter`; nothing where the current converter cannot be named. -/
def adoptConverter (cur : ConverterId) (dirs : Dirs) (paths : List Place) : Option Dirs :=
  if cur.tree.isNone then none else some (paths.foldl (adoptOne cur) dirs)

/-! ## Tasks -/

/-- Where a task of the batch is: not started, or it has looked whether its output `existed` and is in
`run_until` with so many tries left, about to look again or converting, or back from it, or ended. -/
inductive Progress where
  | waiting
  | looking (existed : Bool) (left : Nat)
  | converting (existed : Bool) (left : Nat)
  | returned (existed ok : Bool)
  | ended (ok : Bool)
  deriving DecidableEq, Repr

/-- A run of `convert.py`: it writes into the directory, and the config last. -/
def convert (checkout : Checkout) (dirs : Dirs) (p : Place) (completes : Bool) : Dirs :=
  let old := (dirs.get? p).getD ⟨false, none, checkout⟩
  dirs.set p ⟨old.config || completes, old.record, checkout⟩

/-- One step of a task of `do_baseline`, or of `build_generator`, which is the same; `completes` is whether a
conversion gets to its end. -/
def taskStep (checkout : Checkout) (tries : Nat) (completes : Bool) (dirs : Dirs) (p : Place) :
    Progress → Option (Dirs × Progress)
  | .waiting => some (dirs, .looking (dirs.complete p) tries)
  | .looking existed 0 => some (dirs, .returned existed (dirs.complete p))
  | .looking existed (left + 1) =>
    some (dirs, if dirs.complete p then .returned existed true else .converting existed left)
  | .converting existed left => some (convert checkout dirs p completes, .looking existed left)
  | .returned existed ok =>
    -- only what this run built: an older rung is never stamped as current
    some (if ok && !existed then recordConverter checkout dirs p else dirs, .ended ok)
  | .ended _ => none

/-! ## Commands -/

/-- A batch that is running: what it was asked for, and its tasks. -/
structure Batch where
  revs : List String
  allow : Bool
  tries : Nat
  tasks : List (Place × Progress)

/-- A working job directory and the converter beside it. -/
structure Machine where
  checkout : Checkout
  dirs : Dirs
  batch : Option Batch

/-- The command line of `baseline`; `gen_wanted` is `args.generator and has_chat_template(job.base_repo)`. -/
structure BaselineArgs where
  revs : List String
  tries : Nat
  adopt : Bool
  allow : Bool
  gen_wanted : Bool

/-- The checks `do_baseline` makes, and what it then has to work on: nothing where it refuses. -/
def admitBaseline (m : Machine) (args : BaselineArgs) : Dirs × Bool :=
  let cur := converterId m.checkout
  let present := (args.revs.map Place.rung).filter m.dirs.complete
  let gen := [Place.generator].filter m.dirs.complete
  match if args.adopt then adoptConverter cur m.dirs (present ++ gen) else some m.dirs with
  | none => (m.dirs, false)
  | some dirs => (dirs, !refuseConverterMismatch cur dirs present args.allow)

/-- `do_baseline`, up to `run_jobs`. -/
def doBaseline (m : Machine) (args : BaselineArgs) : Machine :=
  let (dirs, admitted) := admitBaseline m args
  { m with
    dirs := dirs
    batch := if admitted then some
      { revs := args.revs
        allow := args.allow
        tries := args.tries
        tasks := ((if args.gen_wanted then [Place.generator] else []) ++ args.revs.map Place.rung).map
          (·, .waiting) }
      else none }

/-- `do_cal_traces`, where the generator is missing: it builds that alone. -/
def buildGenerator (m : Machine) (tries : Nat) : Machine :=
  if m.dirs.complete .generator then m
  else { m with batch := some ⟨[], true, tries, [(.generator, .waiting)]⟩ }

/-- One directory of `upload_uncalibrated`: without a record it is published as unknown. -/
def uploadOne (dirs_repo : Dirs × Dirs) (item : Place × Conversion) : Dirs × Dirs :=
  let (dirs, repo) := dirs_repo
  let (p, c) := item
  let published := { c with record := some (c.record.getD .unrecorded) }
  (dirs.set p published, repo.set p published)

/-- `upload_uncalibrated`: the job's directories and the repository's. -/
def uploadUncalibrated (dirs repo : Dirs) : Dirs × Dirs :=
  (dirs.items.filter (·.2.config)).foldl uploadOne (dirs, repo)

/-- The loop of `fetch_uncalibrated`: `os.rename` does not go over a directory that is there. -/
def fetchLoop (dirs : Dirs) : List (Place × Conversion) → Dirs
  | [] => dirs
  | (p, c) :: todo => if dirs.contains p then dirs else fetchLoop (dirs.set p c) todo

/-- `fetch_uncalibrated` -/
def fetchUncalibrated (dirs repo : Dirs) : Dirs :=
  fetchLoop dirs (repo.items.filter fun r => !dirs.complete r.1)

/-- The baseline rungs `do_qbench` scores, all or those asked for; nothing where it refuses them. -/
def qbenchBaseline (m : Machine) (base_want : Option (List String)) (allow : Bool) : Option (List String) :=
  let revs := (baselineRevisions m.dirs).filter fun rev => base_want.all (rev ∈ ·)
  if refuseConverterMismatch (converterId m.checkout) m.dirs (revs.map Place.rung) allow then none
  else some revs

end VllmExl3.Uncalibrated
