/-
# VllmExl3.Compose.Write — writing the composed checkpoint

`write` keeps the base's shard layout. A shard no replaced module begins in is linked; any other is
rewritten without the tensors of the modules that begin in it and with what the donors bring for them.
The dictionaries keyed by shard (`replaced`, `incoming`) are only looked up, so they are lookups in the
list of moves here. `quantization_config.json`, written beside the shards, has a module of its own; the
warnings about stale manifests are left out.
-/
import VllmExl3.Compose.Safetensors
import VllmExl3.Compose.Rules
import Mathlib.Data.List.Dedup

namespace VllmExl3.Compose

open PyStr

/-! ## Moves -/

/-- What moving a module does: the shard its first tensor lies in, the base tensors that go away there
and the donor tensors that arrive, each with its donor shard. -/
structure Move where
  mod : String
  shard : ShardPath
  drop : List String
  bring : List (String × ShardPath)

/-- One module of `assign` or `restore`; `brings` says which of the donor's tensors travel. -/
def moveModule (brings : String → Bool) (base_t : Tensors) (donors : PyDict String Donor)
    (move : String × String) : Except Exit Move := do
  let (mod, donor_dir) := move
  let group ← item base_t.modules mod
  let first ← item base_t (group.headD "")
  let d ← item donors donor_dir
  let names ← item d.tensors.modules mod
  let bring ← (names.filter brings).mapM fun name => do
    let info ← item d.tensors name
    return (name, info.path)
  return ⟨mod, first.path, group, bring⟩

/-- A taken module brings every tensor of the donor's. -/
def assignMove : Tensors → PyDict String Donor → String × String → Except Exit Move :=
  moveModule fun _ => true

/-- `name.endswith((".weight", ".bias"))` -/
def isDense (name : String) : Bool := endswith name ".weight" || endswith name ".bias"

/-- A restored module brings only the donor's dense tensors. -/
def restoreMove : Tensors → PyDict String Donor → String × String → Except Exit Move :=
  moveModule isDense

/-- The moves of every module that changes. -/
def movesOf (base_t : Tensors) (donors : PyDict String Donor) (assign restore : PyDict String String) :
    Except Exit (List Move) := do
  let assigned ← assign.items.mapM (assignMove base_t donors)
  let restored ← restore.items.mapM (restoreMove base_t donors)
  return assigned ++ restored

/-! ## Shards -/

/-- The record of a donor's tensor. -/
def bringEntry (json : Json) (disk : Disk) (incoming : String × ShardPath) :
    Except Exit (String × Record) := do
  let (name, donor_shard) := incoming
  let file ← disk.read donor_shard
  let (hdr, _) ← rawHeader json donor_shard file
  let rec ← item hdr name
  return (name, rec)

/-- A shard nothing moves in or out of is linked. -/
def linkShard (json : Json) (disk : Disk) (shard : ShardPath) : Except Exit (Bytes × List String) := do
  let file ← disk.read shard
  let (_, header) ← loadHeader json shard file
  return (file, header.tensors.keys)

/-- Any other is rewritten; `here` are the moves of the modules that begin in it. -/
def rewriteShard (json : Json) (disk : Disk) (here : List Move) (shard : ShardPath) :
    Except Exit (Bytes × List String) := do
  let drop := here.flatMap (·.drop)
  let file ← disk.read shard
  let (src_hdr, metadata) ← rawHeader json shard file
  let kept := src_hdr.items.filter fun p => p.1 ∉ drop
  let incoming := here.flatMap (·.bring)
  -- `incoming[shard]` has an entry only where something arrives
  exitIf incoming.isEmpty (.raised (.key shard.str))
  let brought ← incoming.mapM (bringEntry json disk)
  let entries := kept ++ brought
  let out ← writeShard json disk entries (if metadata.isEmpty then [("format", "pt")] else metadata)
  return (out, entries.map Prod.fst)

/-- One shard of the output: its bytes and the names the index lists for it. -/
def outputShard (json : Json) (disk : Disk) (moves : List Move) (shard : ShardPath) :
    Except Exit (Bytes × List String) :=
  let here := moves.filter (·.shard = shard)
  if here.isEmpty then linkShard json disk shard else rewriteShard json disk here shard

/-- The loop over shards: the directory so far and the index's `weight_map`. -/
def writeStep (json : Json) (disk : Disk) (moves : List Move) (acc : Dir × PyDict String String)
    (shard : ShardPath) : Except Exit (Dir × PyDict String String) := do
  let (out, names) ← outputShard json disk moves shard
  return (acc.1.set shard.name out,
    names.foldl (fun weight_map k => weight_map.set k shard.name) acc.2)

/-- `sorted({v[0] for v in base_t.values()})` -/
def shardsOf (base_t : Tensors) : List ShardPath :=
  ((base_t.values.map (·.path)).dedup).insertionSort fun p q => p.str ≤ q.str

/-! ## The directory -/

/-- The base's files that travel unchanged. -/
def passesThrough (name : String) : Bool :=
  !endswith name ".safetensors" && name ≠ INDEX_NAME && name ≠ "quantization_config.json"

/-- The regenerated index. -/
def outputIndex (out : Dir) (metadata : PyDict String MetaValue) (weight_map : PyDict String String) :
    Index :=
  let sizes := weight_map.values.dedup.map fun n => ((out.get? n).getD []).length
  ⟨metadata.set "total_size" (.int sizes.sum), weight_map⟩

/-- `write`: the files of the output directory. -/
def write (json : Json) (disk : Disk) (base output : String) (base_t : Tensors)
    (donors : PyDict String Donor) (assign restore : PyDict String String) : Except Exit Dir := do
  exitIf (!((disk output).elim [] PyDict.keys).isEmpty) (.outputNotEmpty output)
  let moves ← movesOf base_t donors assign restore
  let (out, weight_map) ←
    (shardsOf base_t).foldlM (writeStep json disk moves) (.empty, .empty)
  let src := (disk base).getD .empty
  let out := (src.items.filter fun f => passesThrough f.1).foldl
    (fun out f => out.set f.1 f.2) out
  match src.get? INDEX_NAME with
  | none => return out
  | some file => match json.loadsIndex file with
    | none => .error (.unreadable (ShardPath.str ⟨base, INDEX_NAME⟩))
    | some index =>
      return out.set INDEX_NAME (json.dumpsIndex (outputIndex out index.metadata weight_map))

end VllmExl3.Compose
