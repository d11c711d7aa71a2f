/-
# VllmExl3.BlockqCache.Model — the on-disk embedding cache (`blockq_cache.py`)

`read`, `write` and `evict` as the system calls they make, one step each, so that any number of
processes may take their steps in any order. A process may die between any two of them; its pid is then
free for another. What `safetensors` makes of bytes is a parameter, and so are the time, the ceiling,
and what `os.listdir` says of a directory that is changing under it: any list of names.
-/
import VllmExl3.Lib.FileSystem
import VllmExl3.Lib.PyPath
import VllmExl3.Lib.Reach
import VllmExl3.Embedding.Blockq
import Mathlib.Data.List.Sort

namespace VllmExl3.BlockqCache

open PyStr
open VllmExl3.Embedding (VocabTensor)
open Format (BLOCKQ_BLOCK BlockqShapes blockqShapes)

/-! ## Entries -/

/-- `Entry`: where an encoding lives, and the metadata it carries. -/
structure Entry where
  path : String
  metadata : PyDict String String
  path_entry : endswith path ".safetensors" = true

/-- The temporary a process writes an entry to. -/
def tmpPath (path : String) (pid : Nat) : String := s!"{path}.{pid}.tmp"

/-- The names of temporaries. -/
def IsTemporary (name : String) : Prop := ∃ path pid, name = tmpPath path pid

theorem endswith_tmpPath (path : String) (pid : Nat) : endswith (tmpPath path pid) ".tmp" = true :=
  endswith_append _ _

/-- No entry has a temporary's name. -/
theorem not_temporary {name : String} (h : endswith name ".safetensors" = true) :
    ¬ IsTemporary name := by
  rintro ⟨path, pid, rfl⟩
  have hentry := not_endswith (endswith_tmpPath path pid)
    (show (endswith ".tmp" ".safetensors" || endswith ".safetensors" ".tmp") = false by decide)
  rw [h] at hentry
  cases hentry

/-- Two processes never share a temporary. -/
theorem tmpPath_injective {path path' : String} {pid pid' : Nat}
    (h : tmpPath path pid = tmpPath path' pid') : path = path' ∧ pid = pid' := by
  have hlist : ∀ (p : String) (n : Nat), tmpPath p n = (p ++ "." ++ toString n) ++ ".tmp" :=
    fun _ _ => rfl
  rw [hlist, hlist] at h
  have hdot := congrArg String.toList (append_right_cancel h)
  rw [String.toList_append, String.toList_append, String.toList_append, String.toList_append,
    List.append_assoc, List.append_assoc] at hdot
  obtain ⟨hpath, hpid⟩ := eq_of_append_sep (dot_notMem_toString pid) (dot_notMem_toString pid') hdot
  exact ⟨String.toList_injective hpath, toString_nat_injective (String.toList_injective hpid)⟩

/-! ## Files -/

/-- `safetensors`: a file that `save_file` wrote opens as the tensors it was given. -/
structure SafeTensors (ρ : Type) where
  serialize : PyDict String (VocabTensor ρ) → PyDict String String → Bytes
  parse : Bytes → Option (PyDict String (VocabTensor ρ))
  parse_serialize : ∀ tensors metadata, parse (serialize tensors metadata) = some tensors

/-- `want.items()` -/
def wantItems (want : BlockqShapes) : List (String × List Nat) :=
  [("bq_q", want.bq_q), ("bq_s", want.bq_s), ("bq_r", want.bq_r)]

/-- The arguments of `read`. -/
structure ReadCall where
  entry : Entry
  rows : Nat
  hidden : Nat
  row_start : Nat
  row_stop : Nat

/-- `sliced[row_start:row_stop]` of one tensor, if the file has it in the shape expected. -/
def ReadCall.slice {ρ : Type} (call : ReadCall) (tensors : PyDict String (VocabTensor ρ))
    (item : String × List Nat) : Option (String × VocabTensor ρ) :=
  match tensors.get? item.1 with
  | none => none
  | some t =>
    if t.shape ≠ item.2 then none else some (item.1, t.slice call.row_start call.row_stop)

/-- What a `read` of these tensors returns: the rows asked for, of all that the format needs. -/
def ReadCall.rowsOf {ρ : Type} (call : ReadCall) (tensors : PyDict String (VocabTensor ρ)) :
    Option (List (String × VocabTensor ρ)) :=
  match blockqShapes call.rows call.hidden BLOCKQ_BLOCK with
  | .error _ => none
  | .ok want => (wantItems want).mapM (call.slice tensors)

/-- One `write`: who wrote, and what `save_file` was given. -/
structure Write (ρ : Type) where
  pid : Nat
  tensors : PyDict String (VocabTensor ρ)
  metadata : PyDict String String

/-- The bytes of a write. -/
def Write.contents {ρ : Type} (codec : SafeTensors ρ) (w : Write ρ) : Bytes :=
  codec.serialize w.tensors w.metadata

/-! ## Eviction -/

/-- What `evict` knows of an entry. -/
structure Found where
  mtime_ns : Nat
  size : Nat
  path : String
  deriving DecidableEq, Repr

/-- The order of the triples, component by component. -/
def Found.le (a b : Found) : Prop :=
  a.mtime_ns < b.mtime_ns ∨ a.mtime_ns = b.mtime_ns ∧
    (a.size < b.size ∨ a.size = b.size ∧ a.path ≤ b.path)

instance decidableFoundLe : DecidableRel Found.le := fun _ _ => inferInstanceAs (Decidable (_ ∨ _))

/-- `sorted(found)` -/
def sortFound (found : List Found) : List Found := found.insertionSort Found.le

/-- `sum(size for _, size, _ in found)` -/
def totalSize (found : List Found) : Int := (found.map fun f => (f.size : Int)).sum

/-- One `evict`: the path it keeps, and the write it belongs to, if it is called by one. -/
structure EvictCall where
  keep : String
  writing : Option Entry

/-! ## A process -/

/-- Where a process is in `read`, `write` or `evict`. -/
inductive Pc (ρ : Type) where
  | idle
  /-- `read`, once the path has been seen to exist -/
  | opening (call : ReadCall)
  /-- inside `with safe_open`: the descriptor, the tensors still to read, and `out` -/
  | reading (call : ReadCall) (ino : Nat) (todo : List (String × List Nat))
      (out : List (String × VocabTensor ρ))
  | touching (call : ReadCall) (out : List (String × VocabTensor ρ))
  /-- inside `save_file`: the temporary's descriptor, and the bytes still to write -/
  | saving (entry : Entry) (w : Write ρ) (ino : Nat) (rest : Bytes)
  | replacing (entry : Entry) (w : Write ρ)
  /-- the handler of `write` -/
  | undoing (entry : Entry)
  | limiting (ev : EvictCall)
  | listing (ev : EvictCall) (limit : Nat)
  | stating (ev : EvictCall) (limit : Nat) (names : List String) (found : List Found)
  | evicting (ev : EvictCall) (limit : Nat) (todo : List Found) (total : Int)

/-- What a step shows: a `read` returning tensors, a write's file taking an entry's name, or an `evict`
deleting a file. -/
inductive Label (ρ : Type) where
  | quiet
  | returned (call : ReadCall) (out : List (String × VocabTensor ρ))
  | stored (publication : Publication String (Write ρ))
  | evicted (ev : EvictCall) (path : String)

section Steps

variable {ρ : Type} (root : String) (codec : SafeTensors ρ) (pid : Nat)

/-- The steps of a process: from its place and the directory, to its place and the directory after. -/
inductive Step : Pc ρ → FileSystem String → Label ρ → Pc ρ → FileSystem String → Prop where
  -- `read`
  | absent (fs : FileSystem String) (call : ReadCall) (h : fs.lookup call.entry.path = none) :
      Step .idle fs .quiet .idle fs
  | present (fs : FileSystem String) (call : ReadCall) (h : fs.lookup call.entry.path ≠ none) :
      Step .idle fs .quiet (.opening call) fs
  | safe_open (fs : FileSystem String) (call : ReadCall) (ino : Nat) (want : BlockqShapes)
      (hwant : blockqShapes call.rows call.hidden BLOCKQ_BLOCK = .ok want)
      (h : fs.lookup call.entry.path = some ino) (hparse : codec.parse (fs.inode ino).data ≠ none) :
      Step (.opening call) fs .quiet (.reading call ino (wantItems want) []) fs
  | get_slice (fs : FileSystem String) (call : ReadCall) (ino : Nat) (item : String × List Nat)
      (todo : List (String × List Nat)) (out : List (String × VocabTensor ρ))
      (tensors : PyDict String (VocabTensor ρ)) (sliced : String × VocabTensor ρ)
      (hparse : codec.parse (fs.inode ino).data = some tensors)
      (hslice : call.slice tensors item = some sliced) :
      Step (.reading call ino (item :: todo) out) fs .quiet (.reading call ino todo (out ++ [sliced])) fs
  | close (fs : FileSystem String) (call : ReadCall) (ino : Nat)
      (out : List (String × VocabTensor ρ)) :
      Step (.reading call ino [] out) fs .quiet (.touching call out) fs
  | touch (fs : FileSystem String) (call : ReadCall) (out : List (String × VocabTensor ρ))
      (ino now : Nat) (h : fs.lookup call.entry.path = some ino) :
      Step (.touching call out) fs (.returned call out) .idle (fs.utime ino now)
  | touch_fails (fs : FileSystem String) (call : ReadCall) (out : List (String × VocabTensor ρ)) :
      Step (.touching call out) fs (.returned call out) .idle fs
  -- a file that is gone or cannot be read, an exception, a shape that differs: a miss
  | miss_open (fs : FileSystem String) (call : ReadCall) : Step (.opening call) fs .quiet .idle fs
  | miss (fs : FileSystem String) (call : ReadCall) (ino : Nat) (todo : List (String × List Nat))
      (out : List (String × VocabTensor ρ)) : Step (.reading call ino todo out) fs .quiet .idle fs
  -- `write`
  | save_file (fs : FileSystem String) (entry : Entry) (tensors : PyDict String (VocabTensor ρ))
      (now : Nat) :
      Step .idle fs .quiet
        (.saving entry ⟨pid, tensors, entry.metadata⟩ (fs.createIno (tmpPath entry.path pid))
          (codec.serialize tensors entry.metadata))
        (fs.create (tmpPath entry.path pid) now)
  | save_file_write (fs : FileSystem String) (entry : Entry) (w : Write ρ) (ino now : Nat)
      (chunk rest : Bytes) :
      Step (.saving entry w ino (chunk ++ rest)) fs .quiet (.saving entry w ino rest)
        (fs.append ino chunk now)
  | save_file_done (fs : FileSystem String) (entry : Entry) (w : Write ρ) (ino : Nat) :
      Step (.saving entry w ino []) fs .quiet (.replacing entry w) fs
  | replace (fs : FileSystem String) (entry : Entry) (w : Write ρ) (ino : Nat)
      (h : fs.lookup (tmpPath entry.path pid) = some ino) :
      Step (.replacing entry w) fs (.stored ⟨entry.path, ino, w⟩)
        (.limiting ⟨entry.path, some entry⟩) (fs.rename (tmpPath entry.path pid) entry.path ino h)
  -- an exception before the temporary is there, while it is written, or in the rename
  | save_file_raises (fs : FileSystem String) (entry : Entry) :
      Step .idle fs .quiet (.undoing entry) fs
  | save_file_write_raises (fs : FileSystem String) (entry : Entry) (w : Write ρ) (ino : Nat)
      (rest : Bytes) : Step (.saving entry w ino rest) fs .quiet (.undoing entry) fs
  | replace_raises (fs : FileSystem String) (entry : Entry) (w : Write ρ) :
      Step (.replacing entry w) fs .quiet (.undoing entry) fs
  | undo (fs : FileSystem String) (entry : Entry) :
      Step (.undoing entry) fs .quiet .idle (fs.unlink (tmpPath entry.path pid))
  | undo_fails (fs : FileSystem String) (entry : Entry) : Step (.undoing entry) fs .quiet .idle fs
  -- `evict`, of a write or by itself
  | evict (fs : FileSystem String) (keep : String) :
      Step .idle fs .quiet (.limiting ⟨keep, none⟩) fs
  | max_bytes (fs : FileSystem String) (ev : EvictCall) (limit : Nat) :
      Step (.limiting ev) fs .quiet (.listing ev limit) fs
  | no_ceiling (fs : FileSystem String) (ev : EvictCall) : Step (.limiting ev) fs .quiet .idle fs
  -- a ceiling that does not convert raises out of `evict`, and into the handler of `write`
  | max_bytes_raises (fs : FileSystem String) (ev : EvictCall) (entry : Entry)
      (h : ev.writing = some entry) : Step (.limiting ev) fs .quiet (.undoing entry) fs
  | listdir (fs : FileSystem String) (ev : EvictCall) (limit : Nat) (names : List String) :
      Step (.listing ev limit) fs .quiet (.stating ev limit names []) fs
  | listdir_fails (fs : FileSystem String) (ev : EvictCall) (limit : Nat) :
      Step (.listing ev limit) fs .quiet .idle fs
  | not_an_entry (fs : FileSystem String) (ev : EvictCall) (limit : Nat) (name : String)
      (names : List String) (found : List Found) (h : endswith name ".safetensors" = false) :
      Step (.stating ev limit (name :: names) found) fs .quiet (.stating ev limit names found) fs
  | stat (fs : FileSystem String) (ev : EvictCall) (limit : Nat) (name : String)
      (names : List String) (found : List Found) (ino : Nat)
      (h : endswith name ".safetensors" = true)
      (hino : fs.lookup (PyPath.join root name) = some ino) :
      Step (.stating ev limit (name :: names) found) fs .quiet
        (.stating ev limit names (found ++
          [⟨(fs.inode ino).mtime, (fs.inode ino).data.length, PyPath.join root name⟩])) fs
  | stat_fails (fs : FileSystem String) (ev : EvictCall) (limit : Nat) (name : String)
      (names : List String) (found : List Found) (h : endswith name ".safetensors" = true) :
      Step (.stating ev limit (name :: names) found) fs .quiet (.stating ev limit names found) fs
  | sort (fs : FileSystem String) (ev : EvictCall) (limit : Nat) (found : List Found) :
      Step (.stating ev limit [] found) fs .quiet
        (.evicting ev limit (sortFound found) (totalSize found)) fs
  | all_seen (fs : FileSystem String) (ev : EvictCall) (limit : Nat) (total : Int) :
      Step (.evicting ev limit [] total) fs .quiet .idle fs
  | fits (fs : FileSystem String) (ev : EvictCall) (limit : Nat) (f : Found) (todo : List Found)
      (total : Int) (h : total ≤ limit) : Step (.evicting ev limit (f :: todo) total) fs .quiet .idle fs
  | kept (fs : FileSystem String) (ev : EvictCall) (limit : Nat) (f : Found) (todo : List Found)
      (total : Int) (hlimit : ¬ total ≤ limit) (h : f.path = ev.keep) :
      Step (.evicting ev limit (f :: todo) total) fs .quiet (.evicting ev limit todo total) fs
  | unlink (fs : FileSystem String) (ev : EvictCall) (limit : Nat) (f : Found) (todo : List Found)
      (total : Int) (hlimit : ¬ total ≤ limit) (h : f.path ≠ ev.keep)
      (hpath : fs.lookup f.path ≠ none) :
      Step (.evicting ev limit (f :: todo) total) fs (.evicted ev f.path)
        (.evicting ev limit todo (total - f.size)) (fs.unlink f.path)
  | unlink_fails (fs : FileSystem String) (ev : EvictCall) (limit : Nat) (f : Found)
      (todo : List Found) (total : Int) (hlimit : ¬ total ≤ limit) (h : f.path ≠ ev.keep) :
      Step (.evicting ev limit (f :: todo) total) fs .quiet
        (.evicting ev limit todo (total - f.size)) fs
  -- the process dies, wherever it is
  | crash (pc : Pc ρ) (fs : FileSystem String) : Step pc fs .quiet .idle fs

end Steps

/-! ## All of them -/

/-- The directory, the processes by their pids, and the writes that have landed, the latest first. -/
structure State (ρ : Type) where
  fs : FileSystem String
  procs : Nat → Pc ρ
  stored : List (Publication String (Write ρ))

/-- The writes that have landed, after a step. -/
def Label.record {ρ : Type} (stored : List (Publication String (Write ρ))) :
    Label ρ → List (Publication String (Write ρ))
  | .stored publication => publication :: stored
  | _ => stored

/-- After a step of one process. -/
def State.next {ρ : Type} (s : State ρ) (pid : Nat) (label : Label ρ) (pc : Pc ρ)
    (fs : FileSystem String) : State ρ where
  fs := fs
  procs := Function.update s.procs pid pc
  stored := label.record s.stored

/-- Any number of processes on one directory, which starts out empty. -/
def cache {ρ : Type} (root : String) (codec : SafeTensors ρ) : System (State ρ) where
  init := fun s => s = ⟨FileSystem.empty, fun _ => .idle, []⟩
  step := fun s t => ∃ pid label pc fs,
    Step root codec pid (s.procs pid) s.fs label pc fs ∧ t = s.next pid label pc fs

end VllmExl3.BlockqCache
