/-
# VllmExl3.Tools.QuantizeEmbedding — the output directory of `quantize_embedding.py`

The tool writes a checkpoint whose token embedding is quantized, in one of three modes: the shard of
the embedding rewritten with `bq_*` in its place, the same with exllamav3's trellis (`--trellis`), or
the `bq_*` in a shard of their own beside the untouched ones (`--sidecar`). Here is `main` from the
command line to the files written. What it prints is left out.

Outside the repository are the `safetensors` library, `json` and the two encoders. `safe_open` and
`save_file` are parameters with their round trip; of the encoders only the tensors they return are
used. A hard link and a copy hold the same bytes, so `link_or_copy` is a copy here.
-/
import VllmExl3.Compose.Write
import VllmExl3.Lib.Chunks

namespace VllmExl3.QuantizeEmbedding

open PyStr (endswith dropEnd zeroPad)
open Names (EMBED_WEIGHT_SUFFIX)
open Format (checkBlockqHidden BLOCKQ_BLOCK BLOCKQ_BITS)
open Compose (Stored Dir Disk Json Index INDEX_NAME outputIndex)

/-! ## Outside the tool -/

/-- What `safe_open` shows of a file. -/
structure Content where
  metadata : Option (List (String × String))
  tensors : PyDict String Stored
  deriving DecidableEq

/-- `safetensors`: a saved file opens with the tensors that were saved, in an order of its own. -/
structure Safetensors where
  safeOpen : Bytes → Option Content
  saveFile : Content → Bytes
  open_save : ∀ content, ∃ opened, safeOpen (saveFile content) = some opened ∧
    ∀ n, opened.tensors.get? n = content.tensors.get? n

/-- `tie_word_embeddings` of a config, at the top and in `text_config`. -/
structure TieFlags where
  top : Bool
  text_config : Bool
  deriving DecidableEq, Repr

/-- The tensors of a block-scaled embedding, or of a chunk of its rows. -/
structure BlockqParts where
  bq_q : Stored
  bq_s : Stored
  bq_r : Stored

/-- The entry of `tensor_storage` that describes the new tensors. -/
structure StorageEntry where
  stored_tensors : List (String × List Nat × Nat × String)
  quant_format : String
  bits_per_weight : Int
  block_size : Option Nat
  dense_embedding_retained : Bool
  deriving DecidableEq, Repr

/-- The rest of what the tool calls: `json` on `config.json`, the encoders, and `json` on
`quantization_config.json`, with the entry put in place of the module's old one. -/
structure Env where
  safetensors : Safetensors
  json : Json
  tieFlags : Bytes → Option TieFlags
  blockqEncode : Stored → Except PyError BlockqParts
  trellisEncode : Stored → Int → Except PyError (Stored × Stored)
  describe : Option Bytes → String → StorageEntry → Option Bytes

/-! ## Exits -/

/-- Why the tool stops: its own exits, files that do not parse, and other exceptions. -/
inductive Exit where
  | sidecarTrellis
  | trellisTied
  | outputNotEmpty (dst : String)
  | noSafetensors (src : String)
  | noEmbedding (shards : Nat)
  | unreadable (name : String)
  | raised (err : PyError)
  deriving DecidableEq, Repr

/-- The text of a `SystemExit`. -/
def Exit.text : Exit → Option String
  | .sidecarTrellis => "--sidecar is for bq_*: a trellis embedding replaces the dense one"
  | .trellisTied => "a trellis embedding cannot serve a tied head, and conversion unties a model that quantizes its embedding; this tool does not"
  | .outputNotEmpty dst => some s!"{dst} exists and is not empty"
  | .noSafetensors src => some s!"no .safetensors in {src}"
  | .noEmbedding shards =>
    some s!"no tensor ending {EMBED_WEIGHT_SUFFIX} in {shards} shard(s); there is no dense embedding here to quantize (already repaired?)"
  | .unreadable _ => none
  | .raised _ => none

/-- An optional value, or the exit. -/
def orExit {α : Type} (exit : Exit) : Option α → Except Exit α
  | some a => .ok a
  | none => .error exit

/-- `raise SystemExit` on a condition. -/
def exitIf (condition : Bool) (exit : Exit) : Except Exit Unit :=
  if condition then .error exit else .ok ()

/-- An exception of a called function. -/
def lift {α : Type} : Except PyError α → Except Exit α
  | .ok a => .ok a
  | .error err => .error (.raised err)

/-! ## The command line and the source -/

structure Args where
  checkpoint : String
  output : String
  chunk : Int
  sidecar : Bool
  trellis : Option Int

variable (env : Env)

/-- A shard of the directory, opened. -/
def openShard (src : Dir) (name : String) : Except Exit Content :=
  orExit (.unreadable name) ((src.get? name).bind env.safetensors.safeOpen)

/-- `is_tied`; `none` without a config. -/
def isTied (src : Dir) : Except Exit (Option Bool) :=
  match src.get? "config.json" with
  | none => .ok none
  | some file => do
    let flags ← orExit (.unreadable "config.json") (env.tieFlags file)
    return some (flags.top || flags.text_config)

/-- `sorted(os.path.join(src, f) for f in os.listdir(src) if f.endswith(".safetensors"))` -/
def shardsOf (src : Dir) : List String :=
  (src.keys.filter fun name => endswith name ".safetensors").insertionSort (· ≤ ·)

/-- `find_embedding`: the first shard with a dense embedding, and the first one in it. -/
def findEmbedding (src : Dir) (total : Nat) : List String → Except Exit (String × String × Stored)
  | [] => .error (.noEmbedding total)
  | name :: names => do
    let content ← openShard env src name
    match content.tensors.items.find? fun p => endswith p.1 EMBED_WEIGHT_SUFFIX with
    | some (key, weight) => return (name, key, weight)
    | none => findEmbedding src total names

/-! ## Encoding -/

/-- `sl[a:b]` of a `[vocab, hidden]` tensor. -/
def rows (weight : Stored) (vocab hidden a b : Nat) : Stored :=
  let width := weight.data.length / vocab
  ⟨weight.dtype, [b - a, hidden], slice (a * width) (b * width) weight.data⟩

/-- `torch.cat(parts, dim=0)` -/
def cat : List Stored → Except Exit Stored
  | [] => .error (.raised (.runtime "torch.cat(): expected a non-empty list of Tensors"))
  | part :: parts => .ok
      ⟨part.dtype, ((part :: parts).map fun p => p.shape.headD 0).sum :: part.shape.tail,
        ((part :: parts).map (·.data)).flatten⟩

/-- The starts of `range(0, vocab, chunk)`. -/
def chunkStarts (vocab : Nat) (chunk : Int) : Except Exit (List Nat) :=
  if chunk = 0 then .error (.raised (.value "range() arg 3 must not be zero"))
  else .ok (if chunk < 0 then [] else rangeStep vocab chunk.toNat)

/-- `encode_embedding` -/
def encodeEmbedding (weight : Stored) (vocab hidden : Nat) (chunk : Int) :
    Except Exit (List (String × Stored)) := do
  lift (checkBlockqHidden hidden BLOCKQ_BLOCK)
  let starts ← chunkStarts vocab chunk
  let parts ← starts.mapM fun a =>
    lift (env.blockqEncode (rows weight vocab hidden a (min (a + chunk.toNat) vocab)))
  let bq_q ← cat (parts.map (·.bq_q))
  let bq_s ← cat (parts.map (·.bq_s))
  let bq_r ← cat (parts.map (·.bq_r))
  return [("bq_q", bq_q), ("bq_s", bq_s), ("bq_r", bq_r)]

/-- `encode_trellis` -/
def encodeTrellis (weight : Stored) (k : Int) : Except Exit (List (String × Stored)) := do
  let (trellis, signs) ← lift (env.trellisEncode weight k)
  return [("trellis", trellis), ("signs", signs)]

/-- The encoder of the mode. -/
def encode (args : Args) (weight : Stored) (vocab hidden : Nat) : Except Exit (List (String × Stored)) :=
  match args.trellis with
  | some k => encodeTrellis env weight k
  | none => encodeEmbedding env weight vocab hidden args.chunk

/-- `vocab, hidden = shape` -/
def unpackShape (weight : Stored) : Except Exit (Nat × Nat) :=
  match weight.shape with
  | [vocab, hidden] => .ok (vocab, hidden)
  | _ => .error (.raised (.value "not two dimensions to unpack"))

/-- What is settled before the first file is written. -/
structure Plan where
  shards : List String
  embed_file : String
  embed_key : String
  stored : List (String × Stored)
  deriving DecidableEq

/-- `prefix` -/
def Plan.module (plan : Plan) : String := dropEnd plan.embed_key ".weight".toList.length

/-- `bq_named` -/
def Plan.named (plan : Plan) : PyDict String Stored :=
  PyDict.ofList (plan.stored.map fun p => (plan.module ++ "." ++ p.1, p.2))

/-- `main` up to the first write. -/
def planOf (disk : Disk) (args : Args) : Except Exit Plan := do
  exitIf (args.trellis.isSome && args.sidecar) .sidecarTrellis
  -- without a config nothing says the head is not tied
  let tied ← isTied env ((disk args.checkpoint).getD .empty)
  exitIf (args.trellis.isSome && tied ≠ some false) .trellisTied
  exitIf (!((disk args.output).elim [] PyDict.keys).isEmpty) (.outputNotEmpty args.output)
  -- the output directory is made here, also where the tool stops below
  let src ← orExit (.unreadable args.checkpoint) (disk args.checkpoint)
  let shards := shardsOf src
  exitIf shards.isEmpty (.noSafetensors args.checkpoint)
  let (embed_file, embed_key, weight) ← findEmbedding env src shards.length shards
  let (vocab, hidden) ← unpackShape weight
  let stored ← encode env args weight vocab hidden
  return ⟨shards, embed_file, embed_key, stored⟩

/-! ## Writing -/

/-- `model-{i:05d}-of-{total:05d}.safetensors` -/
def shardName (total i : Nat) : String :=
  "model-" ++ zeroPad 5 i ++ "-of-" ++ zeroPad 5 total ++ ".safetensors"

/-- `write_index` -/
def writeIndex (src out : Dir) (weight_map : PyDict String String) : Except Exit Dir := do
  -- the source's metadata is carried over, but for the `total_size` counted anew
  let metadata ← match src.get? INDEX_NAME with
    | none => pure .empty
    | some file => do
      let index ← orExit (.unreadable INDEX_NAME) (env.json.loadsIndex file)
      pure index.metadata
  return out.set INDEX_NAME (env.json.dumpsIndex (outputIndex out metadata weight_map))

/-- One shard of the sidecar loop: linked under its new name, its tensors mapped to it. -/
def sidecarStep (src : Dir) (total : Nat) (acc : Dir × PyDict String String) (p : String × Nat) :
    Except Exit (Dir × PyDict String String) := do
  let name := shardName total p.2
  let file ← orExit (.unreadable p.1) (src.get? p.1)
  let content ← openShard env src p.1
  return (acc.1.set name file, content.tensors.keys.foldl (fun weight_map k => weight_map.set k name) acc.2)

/-- `--sidecar`: every shard linked under a new name, the new tensors in a shard of their own, and an
index of all of them. -/
def sidecarShards (src : Dir) (plan : Plan) : Except Exit Dir := do
  let total := plan.shards.length + 1
  let (out, weight_map) ← (plan.shards.zipIdx 1).foldlM (sidecarStep env src total) (.empty, .empty)
  let side := shardName total total
  let out := out.set side (env.safetensors.saveFile ⟨some [("format", "pt")], plan.named⟩)
  let weight_map := plan.named.keys.foldl (fun weight_map k => weight_map.set k side) weight_map
  writeIndex env src out weight_map

/-- One shard of the rewriting loop. -/
def rewriteStep (src : Dir) (plan : Plan) (out : Dir) (path : String) : Except Exit Dir :=
  if path ≠ plan.embed_file then do
    let file ← orExit (.unreadable path) (src.get? path)
    return out.set path file
  else do
    -- a name that is there already is overwritten in place
    let content ← openShard env src path
    let keep := (content.tensors.pop plan.embed_key).update plan.named
    return out.set path (env.safetensors.saveFile ⟨content.metadata, keep⟩)

/-- Without `--sidecar`: the shard of the embedding rewritten, the others linked. -/
def rewriteShards (src : Dir) (plan : Plan) : Except Exit Dir :=
  plan.shards.foldlM (rewriteStep env src plan) .empty

/-- The index with the new tensors in the place of the embedding. -/
def patchIndex (plan : Plan) (index : Index) : Except Exit Index := do
  let shard ← orExit (.raised (.key plan.embed_key)) (index.weight_map.get? plan.embed_key)
  return ⟨index.metadata, plan.named.keys.foldl (fun weight_map k => weight_map.set k shard)
    (index.weight_map.pop plan.embed_key)⟩

/-- Files the loop over the source leaves out: the shards and the configuration are written apart. -/
def skipped (name : String) : Bool := endswith name ".safetensors" || name = "quantization_config.json"

/-- What the output gets for a file of the source, if anything. -/
def carried (args : Args) (plan : Plan) (f : String × Bytes) : Except Exit (Option Bytes) :=
  if skipped f.1 then .ok none
  else if args.sidecar && f.1 = INDEX_NAME then .ok none
  else if args.trellis.isSome && f.1 = INDEX_NAME then do
    let index ← orExit (.unreadable INDEX_NAME) (env.json.loadsIndex f.2)
    let index ← patchIndex plan index
    return some (env.json.dumpsIndex index)
  else .ok (some f.2)

/-- One round of the loop over `os.listdir(src)`. -/
def otherStep (args : Args) (plan : Plan) (out : Dir) (f : String × Bytes) : Except Exit Dir := do
  let file ← carried env args plan f
  return file.elim out (out.set f.1)

/-- `str(t.dtype)`, from the name the header spells it with. -/
def torchDtype (dtype : String) : String :=
  match dtype with
  | "U8" => "torch.uint8"
  | "I8" => "torch.int8"
  | "I16" => "torch.int16"
  | "I32" => "torch.int32"
  | "F16" => "torch.float16"
  | "BF16" => "torch.bfloat16"
  | "F32" => "torch.float32"
  | "F64" => "torch.float64"
  | other => other

/-- The entry of `quantization_config.json` for the new tensors. -/
def storageEntry (args : Args) (plan : Plan) : StorageEntry where
  stored_tensors := plan.stored.map fun p =>
    (plan.module ++ "." ++ p.1, p.2.shape, p.2.data.length, torchDtype p.2.dtype)
  quant_format := if args.trellis.isSome then "exl3_trellis_embedding" else "exl3_blockq"
  bits_per_weight := args.trellis.getD BLOCKQ_BITS
  block_size := if args.trellis.isSome then none else some BLOCKQ_BLOCK
  dense_embedding_retained := args.sidecar

/-- The shards of the mode, with the index where it makes one. -/
def newShards (src : Dir) (args : Args) (plan : Plan) : Except Exit Dir :=
  if args.sidecar then sidecarShards env src plan else rewriteShards env src plan

/-- `main` from the first write on: the files of the output directory. -/
def writeOut (src : Dir) (args : Args) (plan : Plan) : Except Exit Dir := do
  let out ← newShards env src args plan
  let out ← src.items.foldlM (otherStep env args plan) out
  let config ← orExit (.unreadable "quantization_config.json")
    (env.describe (src.get? "quantization_config.json") plan.module (storageEntry args plan))
  return out.set "quantization_config.json" config

/-- `main` -/
def main (disk : Disk) (args : Args) : Except Exit Dir := do
  let plan ← planOf env disk args
  writeOut env ((disk args.checkpoint).getD .empty) args plan

end VllmExl3.QuantizeEmbedding
