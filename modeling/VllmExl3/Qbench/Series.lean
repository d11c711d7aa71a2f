/-
# VllmExl3.Qbench.Series — a results file over the runs that write it

A results file is written whole by a run over all of a project's quants, merged into by a run over a subset
(`mergeResults`), and merged into again by llama.cpp's baseline (`mergeParity`). The charts and the card read a
quant's row by its label, whatever wrote it.

After any series of such writes the rows of a label are those of the last write that scored it, a label has one
row as long as every run scores it once, and every row stands beside the references of the last whole run, which
no later write replaces (`results_after`).
-/
import VllmExl3.Lib.LastWins
import VllmExl3.Qbench.Results

namespace VllmExl3.Qbench

variable {ρ : Type}

/-! ## The writes -/

/-- One write of `qb_<slice>.json`, with the rows its scorer wrote. -/
inductive Write (ρ : Type) where
  /-- The whole slice. -/
  | whole (rows : List (Row ρ))
  /-- A subset of the revisions. -/
  | subset (rows : List (Row ρ))
  /-- `qbench_parity` -/
  | parity (rows : List (Row ρ))

/-- What the file holds after a write; a file that is not there has no rows. -/
def Write.apply (file : List (Row ρ)) : Write ρ → List (Row ρ)
  | .whole rows => rows
  | .subset rows => mergeResults file rows
  | .parity rows => mergeParity file rows

def Write.rows : Write ρ → List (Row ρ)
  | .whole rows => rows
  | .subset rows => rows
  | .parity rows => rows

/-- The file after a series. -/
def results (writes : List (Write ρ)) (file : List (Row ρ)) : List (Row ρ) := writes.foldl Write.apply file

/-- The quants of a file. -/
def quants (rows : List (Row ρ)) : List (Row ρ) := rows.filter fun r => !r.isReference

/-- The rows a quant of this label has. -/
def scored (rows : List (Row ρ)) (label : String) : List (Row ρ) :=
  (quants rows).filter fun r => r.label = label

/-- The rows the quants are compared with. -/
def references (rows : List (Row ρ)) : List (Row ρ) := rows.filter Row.isReference

/-- A write that leaves these references where they are. -/
def Write.keeps (refs : List (Row ρ)) : Write ρ → Prop
  | .whole _ => False
  | .subset _ => True
  | .parity rows => ∀ r ∈ refs, r.label ∉ (parityRows rows).keys

end VllmExl3.Qbench
