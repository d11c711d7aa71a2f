/-
# VllmExl3.Compose.Checkpoint — the tensors of a checkpoint and the modules they make up

`compose_checkpoint.py` plans from safetensors headers alone: every tensor's shard, shape and dtype,
by name. Tensors are grouped into modules by stripping a known suffix, and a module's bit width is
read off its trellis. What the tool exits with is one type for all of its steps.
-/
import VllmExl3.Format
import VllmExl3.Names
import VllmExl3.Lib.PyDict
import Mathlib.Data.List.Sort

namespace VllmExl3.Compose

open PyStr Names Format

/-! ## Exits -/

/-- The rules, in the order the command line gives them. -/
inductive Rule where
  | fromDonor (value : String)
  | take (value : String)
  | restore (value : String)
  | map (value : String)
  | keep (value : String)
  deriving DecidableEq, Repr

/-- Why the tool stops: its own exits with what their messages print, a file that is missing or does
not parse, and other exceptions. -/
inductive Exit where
  | nothingToCompose
  | noSafetensors (dir : String)
  | noIndex (dir : String) (shards : Nat)
  | unreadable (path : String)
  | noSelectorMatch (sel : String)
  | beforeFrom (rule : Rule)
  | restoreMatchedNoQuantized (value : String)
  | restoreAbsent (value current : String) (absent : List String)
  | mapUnreadable (path : String)
  | mapNotADict (path : String)
  | mapNotABitWidth (path key : String)
  | mapUnknown (value : String) (unknown : List String)
  | mapUnmet (value : String) (unmet : List (String × Int))
  | takeMissing (value current : String) (missing : List String)
  | selectedNothing
  | outputNotEmpty (dir : String)
  | shortRead (src name : String)
  | raised (err : PyError)
  deriving DecidableEq, Repr

/-- `raise SystemExit` on a condition. -/
def exitIf (condition : Bool) (exit : Exit) : Except Exit Unit :=
  if condition then .error exit else .ok ()

@[simp] theorem exitIf_eq_ok {condition : Bool} {exit : Exit} {u : Unit} :
    exitIf condition exit = .ok u ↔ condition = false := by
  cases condition <;> simp [exitIf]

/-- `d[key]` -/
def item {α : Type} (d : PyDict String α) (key : String) : Except Exit α :=
  match d.get? key with
  | some v => .ok v
  | none => .error (.raised (.key key))

@[simp] theorem item_eq_ok {α : Type} {d : PyDict String α} {key : String} {v : α} :
    item d key = .ok v ↔ d.get? key = some v := by
  unfold item
  cases d.get? key <;> simp

/-! ## Modules -/

/-- `_GROUPING_SUFFIXES` -/
def GROUPING_SUFFIXES : List String := EXL3_SUFFIXES ++ BLOCKQ_SUFFIXES ++ [".weight", ".bias"]

/-- `module_key` -/
def moduleKey (name : String) : String :=
  match GROUPING_SUFFIXES.find? fun suffix => endswith name suffix with
  | some suffix => dropEnd name suffix.toList.length
  | none => name

/-- `modules_of` -/
def modulesOf (tensors : List String) : PyDict String (List String) :=
  (PyDict.groupBy moduleKey tensors).mapValues (·.insertionSort (· ≤ ·))

/-! ## Tensors -/

/-- The path `os.path.join(dir, name)` of a checkpoint's file. -/
structure ShardPath where
  dir : String
  name : String
  deriving DecidableEq, Repr

/-- The path as a string. -/
def ShardPath.str (p : ShardPath) : String :=
  if p.dir.isEmpty || endswith p.dir "/" then p.dir ++ p.name else p.dir ++ "/" ++ p.name

/-- What a header says of a tensor: the shard it lies in, its shape and its dtype. -/
structure TensorInfo where
  path : ShardPath
  shape : List Nat
  dtype : String
  deriving DecidableEq, Repr

/-- What `read_headers` returns: name to shard path, shape and dtype. -/
abbrev Tensors := PyDict String TensorInfo

/-- `modules_of(tensors)` -/
def Tensors.modules (t : Tensors) : PyDict String (List String) := modulesOf t.keys

/-- `format.quantized_module_keys(tensors)` -/
def Tensors.quantized (t : Tensors) : List String := quantizedModuleKeys t.keys

/-- `trellis_bits`, for the module's group of names. -/
def trellisBits (group : List String) (tensors : Tensors) : Except PyError (Option Bits) :=
  match group.find? fun name => endswith name ".trellis" with
  | some name => match tensors.get? name with
    | some info => (bitsFromTrellisShape info.shape none).map some
    | none => .error (.key name)
  | none => .ok none

/-! ## What the groups are -/

theorem get?_modulesOf (names : List String) (mod : String) :
    (modulesOf names).get? mod = if ∃ name ∈ names, moduleKey name = mod
      then some ((names.filter fun name => moduleKey name = mod).insertionSort (· ≤ ·)) else none := by
  rw [modulesOf, PyDict.get?_mapValues, PyDict.get?_groupBy]
  split_ifs <;> rfl

theorem mem_keys_modulesOf {names : List String} {mod : String} :
    mod ∈ (modulesOf names).keys ↔ ∃ name ∈ names, moduleKey name = mod := by
  rw [← PyDict.isSome_get?_iff, get?_modulesOf]
  split_ifs with h <;> simp [h]

end VllmExl3.Compose
