/-
# VllmExl3.Qbench.Results — a slice's results file (`quantization/quant.py`)

`qbench` scores the quants of a model on one slice at a time and keeps a row for each in `qb_<slice>.json`,
beside the rows of the reference and its noise floor. With several GPUs the quants are dealt round-robin into
parts, one scorer a part, and the parts' rows are put together by label (`qbenchParallel`); a run over a subset
is merged into what is there (`mergeResults`), and so is llama.cpp's own baseline (`mergeParity`).

The scorer is exllamav3's script, an input here (`Scorer`): a row depends on its quant alone, since every part
reads the reference from one cache.
-/
import VllmExl3.Quant.Lanes
import Mathlib.Data.List.Enum

namespace VllmExl3.Qbench

open Quant

/-! ## Rows -/

/-- A row of a results file; what else it records is not looked at. -/
structure Row (ρ : Type) where
  label : String
  group : Option String
  data : ρ
  deriving DecidableEq, Repr

variable {ρ : Type}

/-- `r.get("group") in ("reference", "noise_floor")` -/
def Row.isReference (r : Row ρ) : Bool := r.group = some "reference" || r.group = some "noise_floor"

/-- A quant to score: its label and its path. -/
structure Arm where
  label : String
  path : String
  deriving DecidableEq, Repr

/-- What the script writes: rows for the reference and the noise floor, and one for each quant. -/
structure Scorer (ρ : Type) where
  references : List (Row ρ)
  row : Arm → Row ρ
  isReference_references : ∀ r ∈ references, r.isReference = true
  label_row : ∀ a, (row a).label = a.label
  isReference_row : ∀ a, (row a).isReference = false

/-- The rows of a project with these quants. -/
def Scorer.script (S : Scorer ρ) (arms : List Arm) : List (Row ρ) := S.references ++ arms.map S.row

/-! ## One slice over several GPUs -/

/-- `xs[i::k]` -/
def stride {α : Type} (i k : Nat) (xs : List α) : List α :=
  (xs.zipIdx.filter fun p => i ≤ p.2 ∧ (p.2 - i) % k = 0).map Prod.fst

/-- `min(len(slots), len(sl_arms))` -/
def partCount (slots : List String) (arms : List Arm) : Nat := min slots.length arms.length

/-- The task of one part; `ran` says which parts' scorers succeed. -/
def partTask (sl : String) (slots : List String) (arms : List Arm) (ran : Nat → Bool) (i : Nat) : Task :=
  let quants := (stride i (partCount slots arms) arms).length
  ⟨s!"{sl} part {i} ({quants} quants)", .returned (ran i)⟩

/-- `[task(i) for i in range(k)]` -/
def partTasks (sl : String) (slots : List String) (arms : List Arm) (ran : Nat → Bool) : List Task :=
  (List.range (partCount slots arms)).map (partTask sl slots arms ran)

/-- `results[i]`, loaded: the part's task has to have been called, and its scorer to have succeeded. -/
def partRows (S : Scorer ρ) (sl : String) (slots : List String) (arms : List Arm) (ran : Nat → Bool)
    (e : Execution) (i : Nat) : Option (List (Row ρ)) :=
  if partTask sl slots arms ran i ∈ ends e.log ∧ ran i = true
  then some (S.script (stride i (partCount slots arms) arms)) else none

/-- `by_label`: the last row of each label, over the parts in order. -/
def byLabel (parts : List (List (Row ρ))) : PyDict String (Row ρ) :=
  .ofList ((parts.flatMap (·.filter fun r => !r.isReference)).map fun r => (r.label, r))

/-- `qbench_parallel`: what it writes, or nothing where it fails; `ref_ran` says whether the pass for the
reference succeeds, and `e` is what `run_jobs` does. -/
def qbenchParallel (S : Scorer ρ) (sl : String) (slots : List String) (arms : List Arm) (ref_ran : Bool)
    (ran : Nat → Bool) (e : Execution) : Option (List (Row ρ)) :=
  match ref_ran, e.result with
  | true, .ok [] => do
    let parts ← (List.range (partCount slots arms)).mapM (partRows S sl slots arms ran e)
    let rows ← arms.mapM fun a => (byLabel parts).get? a.label
    return (S.script []).filter Row.isReference ++ rows
  | _, _ => none

/-! ## Merging -/

/-- `merge_results` -/
def mergeResults (old new : List (Row ρ)) : List (Row ρ) :=
  let labels := new.map Row.label
  let keep_ref := old.filter Row.isReference
  (if keep_ref.isEmpty then new.filter Row.isReference else keep_ref) ++
    (old.filter fun r => !r.isReference && r.label ∉ labels) ++ new.filter fun r => !r.isReference

/-- `add` of `qbench_parity` -/
def parityRows (res : List (Row ρ)) : PyDict String (Row ρ) :=
  .ofList ((res.filter fun r => !r.isReference).map fun r => (r.label, r))

/-- `qbench_parity`, once its scorer has written `res`. -/
def mergeParity (merged res : List (Row ρ)) : List (Row ρ) :=
  (merged.filter fun r => r.label ∉ (parityRows res).keys) ++ (parityRows res).values

end VllmExl3.Qbench
