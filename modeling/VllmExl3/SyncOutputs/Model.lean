/-
# VllmExl3.SyncOutputs.Model — mirroring a working tree into the archive (`tools/sync_outputs.py`)

The workload writes and deletes files on a disk that is lost with its container; `sync_pass` walks the tree and
copies what has settled into an archive volume, and `restore` copies the archive back onto a new disk.
The archive cannot say what it holds, since its mtimes cannot be set, so the (size, mtime) of every
copied file is recorded on the source side, and a file whose stat is its recorded one is not copied
again.

A pass looks at one file, reads it into a temporary file, renames that into place, looks again and
records what it saw first. The workload moves at any point in between, the read is torn where it does,
an `OSError` skips the file, and the process can be killed or the disk be lost at every step (`act`).
-/
import Mathlib.Logic.Function.Basic

namespace VllmExl3.SyncOutputs

/-! ## Files and records -/

/-- A path below the root, in components. -/
abbrev Path := List String

abbrev Content := List UInt8

structure File where
  content : Content
  mtime_ns : Nat
  deriving DecidableEq, Repr

/-- `[st.st_size, st.st_mtime_ns]` -/
structure Key where
  size : Nat
  mtime_ns : Nat
  deriving DecidableEq, Repr

/-- `os.stat`, as far as it is read. -/
def File.key (f : File) : Key := ⟨f.content.length, f.mtime_ns⟩

/-- What `.sync_state.json` says. -/
abbrev Record := Path → Option Key

/-- Does `walk` yield this path? `exclude` says whether a name matches one of the patterns: a directory
that does is not entered. -/
def listed (exclude : String → Bool) (rel : Path) : Bool := rel.all fun x => !exclude x

/-! ## The process -/

/-- What a pass, or a restore, keeps between two files: the record it read and what the walk has still
to yield. -/
structure Pass where
  state : Record
  todo : List Path

/-- The file a pass is at and its key; `since` is when the pass looked, which it does not keep. -/
structure Copying where
  rel : Path
  key : Key
  since : Nat
  deriving DecidableEq, Repr

/-- Where the process stands. -/
inductive Process where
  | down
  | walking (p : Pass)
  /-- About to read the file. -/
  | reading (p : Pass) (c : Copying)
  /-- The temporary file is written. -/
  | staged (p : Pass) (c : Copying) (content : Content)
  /-- It has its real name. -/
  | placed (p : Pass) (c : Copying)
  | restoring (p : Pass)

/-- The tree with its record, the archive and the clock. -/
structure Volumes where
  tree : Path → Option File
  archive : Path → Option Content
  /-- `.sync_state.json`; nothing where it is missing or does not parse. -/
  saved : Option Record
  now : Nat

structure Machine extends Volumes where
  process : Process

/-- The record a pass reads, and an empty one where it cannot. -/
def Volumes.record (v : Volumes) : Record := v.saved.getD fun _ => none

/-- The next step of `sync_pass`, with its `copy_one`, or of `restore`; `torn` is what a read finds in a
file that changes under it. -/
def Machine.next (settle : Nat) (m : Machine) (torn : Content) : Option Machine :=
  match m.process with
  | .down => none
  | .walking ⟨_, []⟩ => some { m with process := .down }
  | .walking ⟨state, rel :: todo⟩ =>
    match m.tree rel with
    | none => some { m with process := .walking ⟨state, todo⟩ }
    | some f =>
      if state rel = some f.key ∨ m.now < f.mtime_ns + settle
      then some { m with process := .walking ⟨state, todo⟩ }
      else some { m with process := .reading ⟨state, todo⟩ ⟨rel, f.key, m.now⟩ }
  | .reading p c =>
    match m.tree c.rel with
    -- `FileNotFoundError` is an `OSError`
    | none => some { m with process := .walking p }
    | some f => some { m with process := .staged p c (if f.key = c.key then f.content else torn) }
  | .staged p c content =>
    some { m with archive := Function.update m.archive c.rel (some content), process := .placed p c }
  | .placed p c =>
    match m.tree c.rel with
    -- the second `os.stat` is outside the `try`
    | none => some { m with process := .down }
    | some f =>
      if f.key = c.key then
        let state := Function.update p.state c.rel (some c.key)
        some { m with saved := some state, process := .walking ⟨state, p.todo⟩ }
      else some { m with process := .walking p }
  -- the workload starts after the restore, by a later reading of the clock
  | .restoring ⟨state, []⟩ => some { m with saved := some state, process := .down, now := m.now + 1 }
  | .restoring ⟨state, rel :: todo⟩ =>
    match m.archive rel with
    | none => some { m with process := .down }
    | some content =>
      let copy : File := ⟨content, m.now⟩
      let f := ((m.tree rel).filter fun f => f.content.length = content.length).getD copy
      some { m with
        tree := Function.update m.tree rel (some f)
        process := .restoring ⟨Function.update state rel (some f.key), todo⟩ }

/-- The file a restore leaves at a path of the archive: the one that is there, where it has the size, or
a copy. -/
def Volumes.restored (v : Volumes) (rel : Path) (content : Content) : File :=
  ((v.tree rel).filter fun f => f.content.length = content.length).getD ⟨content, v.now⟩

/-- What the next step of a pass or of a restore can do. -/
inductive Moves (settle : Nat) (torn : Content) (v : Volumes) : Process → Machine → Prop
  | finish {state : Record} : Moves settle torn v (.walking ⟨state, []⟩) ⟨v, .down⟩
  | gone {state : Record} {rel : Path} {todo : List Path} (h : v.tree rel = none) :
      Moves settle torn v (.walking ⟨state, rel :: todo⟩) ⟨v, .walking ⟨state, todo⟩⟩
  | skip {state : Record} {rel : Path} {todo : List Path} {f : File} (hf : v.tree rel = some f)
      (h : state rel = some f.key ∨ v.now < f.mtime_ns + settle) :
      Moves settle torn v (.walking ⟨state, rel :: todo⟩) ⟨v, .walking ⟨state, todo⟩⟩
  | look {state : Record} {rel : Path} {todo : List Path} {f : File} (hf : v.tree rel = some f)
      (hnew : state rel ≠ some f.key) (hsettled : f.mtime_ns + settle ≤ v.now) :
      Moves settle torn v (.walking ⟨state, rel :: todo⟩) ⟨v, .reading ⟨state, todo⟩ ⟨rel, f.key, v.now⟩⟩
  | vanish {p : Pass} {c : Copying} (h : v.tree c.rel = none) : Moves settle torn v (.reading p c)
      ⟨v, .walking p⟩
  | read {p : Pass} {c : Copying} {f : File} (hf : v.tree c.rel = some f) :
      Moves settle torn v (.reading p c) ⟨v, .staged p c (if f.key = c.key then f.content else torn)⟩
  | place {p : Pass} {c : Copying} {content : Content} :
      Moves settle torn v (.staged p c content)
        ⟨{ v with archive := Function.update v.archive c.rel (some content) }, .placed p c⟩
  | die {p : Pass} {c : Copying} (h : v.tree c.rel = none) : Moves settle torn v (.placed p c) ⟨v, .down⟩
  | record {p : Pass} {c : Copying} {f : File} (hf : v.tree c.rel = some f) (heq : f.key = c.key) :
      Moves settle torn v (.placed p c) ⟨{ v with saved := some (Function.update p.state c.rel (some c.key)) },
        .walking ⟨Function.update p.state c.rel (some c.key), p.todo⟩⟩
  | changed {p : Pass} {c : Copying} {f : File} (hf : v.tree c.rel = some f) (hne : f.key ≠ c.key) :
      Moves settle torn v (.placed p c) ⟨v, .walking p⟩
  | restored {state : Record} :
      Moves settle torn v (.restoring ⟨state, []⟩) ⟨{ v with saved := some state, now := v.now + 1 }, .down⟩
  | missing {state : Record} {rel : Path} {todo : List Path} (h : v.archive rel = none) :
      Moves settle torn v (.restoring ⟨state, rel :: todo⟩) ⟨v, .down⟩
  | restore {state : Record} {rel : Path} {todo : List Path} {content : Content}
      (h : v.archive rel = some content) :
      Moves settle torn v (.restoring ⟨state, rel :: todo⟩)
        ⟨{ v with tree := Function.update v.tree rel (some (v.restored rel content)) },
          .restoring ⟨Function.update state rel (some (v.restored rel content).key), todo⟩⟩

/-- A process that is not down has a next step, and it is one of these. -/
theorem next_cases (settle : Nat) (v : Volumes) (process : Process) (torn : Content) :
    (process = .down ∧ (⟨v, process⟩ : Machine).next settle torn = none) ∨
      ∃ m', (⟨v, process⟩ : Machine).next settle torn = some m' ∧ Moves settle torn v process m' := by
  cases process with
  | down => exact .inl ⟨rfl, rfl⟩
  | walking p =>
    refine .inr ?_
    obtain ⟨state, _ | ⟨rel, todo⟩⟩ := p
    · exact ⟨_, rfl, .finish⟩
    · cases hf : v.tree rel with
      | none => exact ⟨_, by simp only [Machine.next, hf], .gone hf⟩
      | some f =>
        by_cases hskip : state rel = some f.key ∨ v.now < f.mtime_ns + settle
        · exact ⟨_, by simp only [Machine.next, hf, if_pos hskip], .skip hf hskip⟩
        · obtain ⟨hnew, hsettled⟩ := not_or.mp hskip
          exact ⟨_, by simp only [Machine.next, hf, if_neg hskip], .look hf hnew (Nat.le_of_not_lt hsettled)⟩
  | reading p c =>
    refine .inr ?_
    cases hf : v.tree c.rel with
    | none => exact ⟨_, by simp only [Machine.next, hf], .vanish hf⟩
    | some f => exact ⟨_, by simp only [Machine.next, hf], .read hf⟩
  | staged p c content => exact .inr ⟨_, rfl, .place⟩
  | placed p c =>
    refine .inr ?_
    cases hf : v.tree c.rel with
    | none => exact ⟨_, by simp only [Machine.next, hf], .die hf⟩
    | some f =>
      by_cases heq : f.key = c.key
      · exact ⟨_, by simp only [Machine.next, hf, if_pos heq], .record hf heq⟩
      · exact ⟨_, by simp only [Machine.next, hf, if_neg heq], .changed hf heq⟩
  | restoring p =>
    refine .inr ?_
    obtain ⟨state, _ | ⟨rel, todo⟩⟩ := p
    · exact ⟨_, rfl, .restored⟩
    · cases hcontent : v.archive rel with
      | none => exact ⟨_, by simp only [Machine.next, hcontent], .missing hcontent⟩
      | some content => exact ⟨_, by simp only [Machine.next, hcontent, Volumes.restored], .restore hcontent⟩

theorem moves_of_next {settle : Nat} {m m' : Machine} {torn : Content} (h : m.next settle torn = some m') :
    Moves settle torn m.toVolumes m.process m' := by
  obtain ⟨-, hnone⟩ | ⟨m'', hnext, hmoves⟩ := next_cases settle m.toVolumes m.process torn
  · cases hnone.symm.trans h
  · exact Option.some.inj (hnext.symm.trans h) ▸ hmoves

theorem down_of_next {settle : Nat} {m : Machine} {torn : Content} (h : m.next settle torn = none) :
    m.process = .down := by
  obtain ⟨hdown, -⟩ | ⟨m', hnext, -⟩ := next_cases settle m.toVolumes m.process torn
  · exact hdown
  · cases hnext.symm.trans h

/-! ## What happens -/

inductive Act where
  | tick (ns : Nat)
  | write (rel : Path) (content : Content)
  | delete (rel : Path)
  /-- A pass begins; `walk` is what the walk will find. -/
  | sync (readable : Bool) (walk : List Path)
  | restore (readable : Bool) (walk : List Path)
  | next (torn : Content)
  /-- An `OSError` while the file is copied. -/
  | fail
  /-- The process is killed; a restore's record is not renamed into place, and can be truncated. -/
  | kill (truncated : Bool)
  /-- The disk is lost, and the process with it. -/
  | lose

/-- The record in memory when the process starts. -/
def Volumes.read (v : Volumes) (readable : Bool) : Record := if readable then v.record else fun _ => none

/-- What the process keeps when it starts, with what its walk will find. -/
def Volumes.pass (v : Volumes) (exclude : String → Bool) (readable : Bool) (walk : List Path) : Pass :=
  ⟨v.read readable, walk.filter (listed exclude)⟩

def Machine.lost (m : Machine) : Machine := { m with tree := fun _ => none, saved := none, process := .down }

/-- The workload is not there while the archive is copied back. -/
def Process.isRestoring : Process → Bool
  | .restoring _ => true
  | _ => false

def act (settle : Nat) (exclude : String → Bool) (m : Machine) : Act → Option Machine
  | .tick ns => some { m with now := m.now + ns }
  | .write rel content =>
    if m.process.isRestoring then none
    else some { m with tree := Function.update m.tree rel (some ⟨content, m.now⟩) }
  | .delete rel =>
    if m.process.isRestoring then none else some { m with tree := Function.update m.tree rel none }
  | .sync readable walk =>
    match m.process with
    | .down => some { m with process := .walking (m.pass exclude readable walk) }
    | _ => none
  | .restore readable walk =>
    match m.process with
    | .down => some { m with process := .restoring (m.pass exclude readable walk) }
    | _ => none
  | .next torn => m.next settle torn
  | .fail =>
    match m.process with
    | .reading p _ => some { m with process := .walking p }
    | .staged p _ _ => some { m with process := .walking p }
    | _ => none
  | .kill truncated =>
    match m.process with
    | .restoring ⟨_, []⟩ => some { m with saved := if truncated then none else m.saved, process := .down }
    | _ => some { m with process := .down }
  | .lose => some m.lost

end VllmExl3.SyncOutputs
