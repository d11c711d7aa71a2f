/-
# VllmExl3.Lib.FileSystem — one directory: names, inodes, and files published by a rename

A name is linked to an inode, and a process that has a file open holds the inode: what it reads and
writes stays what it is when the name is unlinked or given to another file. A file is drafted under a
private name and published by renaming it. `Published` is what that discipline keeps: a public name is
always linked to a file that was complete when it was published, and nothing published changes.
Nothing here names the repository.
-/
import VllmExl3.Lib.PyDict
import VllmExl3.Lib.Bytes
import Mathlib.Logic.Function.Basic

namespace VllmExl3

/-- A file, apart from its name. -/
structure Inode where
  data : Bytes
  mtime : Nat

/-- A directory. No two names are linked to one inode. -/
structure FileSystem (ν : Type*) [DecidableEq ν] where
  names : PyDict ν Nat
  inode : Nat → Inode
  next : Nat
  lt_next : ∀ {a i}, names.get? a = some i → i < next
  inj : ∀ {a b i}, names.get? a = some i → names.get? b = some i → a = b

namespace FileSystem

variable {ν : Type*} [DecidableEq ν]

/-- The inode a name is linked to. -/
def lookup (fs : FileSystem ν) (name : ν) : Option Nat := fs.names.get? name

/-- A directory without files. -/
def empty : FileSystem ν where
  names := PyDict.empty
  inode := fun _ => ⟨[], 0⟩
  next := 0
  lt_next := fun h => nomatch h
  inj := fun h => nomatch h

/-- A change to the file of an inode. -/
def setInode (fs : FileSystem ν) (i : Nat) (file : Inode) : FileSystem ν :=
  { fs with inode := Function.update fs.inode i file }

/-- The inode that opening `name` for writing yields. -/
def createIno (fs : FileSystem ν) (name : ν) : Nat := (fs.lookup name).getD fs.next

/-- A name linked to a new inode. -/
def link (fs : FileSystem ν) (name : ν) : FileSystem ν where
  names := fs.names.set name fs.next
  inode := fs.inode
  next := fs.next + 1
  lt_next := by
    intro a i h
    rcases PyDict.of_get?_set h with ⟨_, rfl⟩ | ⟨_, hold⟩
    · exact Nat.lt_succ_self _
    · exact Nat.lt_succ_of_lt (fs.lt_next hold)
  inj := by
    intro a b i ha hb
    rcases PyDict.of_get?_set ha with ⟨rfl, rfl⟩ | ⟨_, holda⟩
    · rcases PyDict.of_get?_set hb with ⟨rfl, _⟩ | ⟨_, holdb⟩
      · rfl
      · exact absurd (fs.lt_next holdb) (Nat.lt_irrefl _)
    · rcases PyDict.of_get?_set hb with ⟨_, rfl⟩ | ⟨_, holdb⟩
      · exact absurd (fs.lt_next holda) (Nat.lt_irrefl _)
      · exact fs.inj holda holdb

/-- `open(name, "wb")`: an existing file is emptied. -/
def create (fs : FileSystem ν) (name : ν) (now : Nat) : FileSystem ν :=
  match fs.lookup name with
  | some i => fs.setInode i ⟨[], now⟩
  | none => (fs.link name).setInode fs.next ⟨[], now⟩

/-- Bytes written at the end of an open file. -/
def append (fs : FileSystem ν) (i : Nat) (chunk : Bytes) (now : Nat) : FileSystem ν :=
  fs.setInode i ⟨(fs.inode i).data ++ chunk, now⟩

/-- `os.utime` of a linked inode -/
def utime (fs : FileSystem ν) (i : Nat) (now : Nat) : FileSystem ν :=
  fs.setInode i ⟨(fs.inode i).data, now⟩

/-- `os.unlink` of a name that exists -/
def unlink (fs : FileSystem ν) (name : ν) : FileSystem ν where
  names := fs.names.pop name
  inode := fs.inode
  next := fs.next
  lt_next := by
    intro a i h
    rw [PyDict.get?_pop] at h
    split_ifs at h
    exact fs.lt_next h
  inj := by
    intro a b i ha hb
    rw [PyDict.get?_pop] at ha hb
    split_ifs at ha hb
    exact fs.inj ha hb

/-- What a directory says of a name after `os.replace(src, dst)`. -/
theorem get?_renamed {fs : FileSystem ν} {src dst a : ν} {i j : Nat}
    (h : ((fs.names.pop src).set dst i).get? a = some j) :
    a = dst ∧ j = i ∨ a ≠ dst ∧ a ≠ src ∧ fs.names.get? a = some j := by
  rcases PyDict.of_get?_set h with hset | ⟨hdst, hold⟩
  · exact .inl hset
  · rw [PyDict.get?_pop] at hold
    split_ifs at hold with hsrc
    exact .inr ⟨hdst, hsrc, hold⟩

/-- `os.replace(src, dst)`, of a `src` linked to `i` -/
def rename (fs : FileSystem ν) (src dst : ν) (i : Nat) (h : fs.lookup src = some i) :
    FileSystem ν where
  names := (fs.names.pop src).set dst i
  inode := fs.inode
  next := fs.next
  lt_next := by
    intro a j hj
    rcases get?_renamed hj with ⟨_, rfl⟩ | ⟨_, _, hold⟩
    · exact fs.lt_next h
    · exact fs.lt_next hold
  inj := by
    intro a b j ha hb
    rcases get?_renamed ha with ⟨rfl, rfl⟩ | ⟨_, hasrc, hold⟩
    · rcases get?_renamed hb with ⟨rfl, _⟩ | ⟨_, hbsrc, hold⟩
      · rfl
      · exact absurd (fs.inj hold h) hbsrc
    · rcases get?_renamed hb with ⟨_, rfl⟩ | ⟨_, _, hold'⟩
      · exact absurd (fs.inj hold h) hasrc
      · exact fs.inj hold hold'

/-! ## What each operation leaves -/

section Lemmas

variable {fs : FileSystem ν} {name other : ν} {i j now : Nat}

theorem inode_setInode_self (fs : FileSystem ν) (i : Nat) (file : Inode) :
    (fs.setInode i file).inode i = file := Function.update_self ..

theorem inode_setInode_ne (fs : FileSystem ν) (file : Inode) (h : j ≠ i) :
    (fs.setInode i file).inode j = fs.inode j := Function.update_of_ne h ..

theorem lookup_lt (h : fs.lookup name = some i) : i < fs.next := fs.lt_next h

theorem lookup_inj (h : fs.lookup name = some i) (h' : fs.lookup other = some i) : name = other :=
  fs.inj h h'

theorem lookup_link : (fs.link name).lookup other =
    if other = name then some fs.next else fs.lookup other := PyDict.get?_set ..

/-- A name that was opened for writing is linked to the inode that was opened. -/
theorem lookup_create_self (fs : FileSystem ν) (name : ν) (now : Nat) :
    (fs.create name now).lookup name = some (fs.createIno name) := by
  unfold create createIno
  cases hold : fs.lookup name with
  | none =>
    show (fs.link name).lookup name = _
    rw [lookup_link, if_pos rfl, Option.getD_none]
  | some i => exact hold

theorem lookup_create_ne (h : other ≠ name) :
    (fs.create name now).lookup other = fs.lookup other := by
  unfold create
  cases fs.lookup name with
  | none =>
    show (fs.link name).lookup other = _
    rw [lookup_link, if_neg h]
  | some i => rfl

/-- It is empty. -/
theorem data_create_self (fs : FileSystem ν) (name : ν) (now : Nat) :
    ((fs.create name now).inode (fs.createIno name)).data = [] := by
  unfold create createIno
  cases fs.lookup name with
  | none => exact congrArg Inode.data (inode_setInode_self (fs.link name) fs.next ⟨[], now⟩)
  | some i => exact congrArg Inode.data (inode_setInode_self fs i ⟨[], now⟩)

theorem inode_create_ne (h : j ≠ fs.createIno name) :
    (fs.create name now).inode j = fs.inode j := by
  unfold createIno at h
  unfold create
  cases hold : fs.lookup name with
  | none =>
    rw [hold] at h
    exact inode_setInode_ne (fs.link name) _ h
  | some i =>
    rw [hold] at h
    exact inode_setInode_ne fs _ h

theorem next_le_create : fs.next ≤ (fs.create name now).next := by
  unfold create
  cases fs.lookup name with
  | none => exact Nat.le_succ _
  | some i => exact Nat.le_refl _

/-- A file opened for writing is the name's own, or new. -/
theorem createIno_cases (fs : FileSystem ν) (name : ν) :
    fs.lookup name = some (fs.createIno name) ∨ fs.createIno name = fs.next := by
  unfold createIno
  cases fs.lookup name with
  | none => exact .inr rfl
  | some i => exact .inl rfl

theorem data_append_self (chunk : Bytes) :
    ((fs.append i chunk now).inode i).data = (fs.inode i).data ++ chunk :=
  congrArg Inode.data (inode_setInode_self fs i _)

theorem inode_append_ne (chunk : Bytes) (h : j ≠ i) :
    (fs.append i chunk now).inode j = fs.inode j := inode_setInode_ne fs _ h

@[simp] theorem data_utime : ((fs.utime i now).inode j).data = (fs.inode j).data := by
  by_cases h : j = i
  · subst h
    rw [utime, inode_setInode_self]
  · rw [utime, inode_setInode_ne fs _ h]

theorem lookup_unlink : (fs.unlink name).lookup other =
    if other = name then none else fs.lookup other := PyDict.get?_pop ..

/-- A name that is left after an unlink was there before. -/
theorem lookup_of_unlink (h : (fs.unlink name).lookup other = some i) :
    fs.lookup other = some i := by
  rw [lookup_unlink] at h
  split_ifs at h
  exact h

theorem lookup_rename_self {src dst : ν} (h : fs.lookup src = some i) :
    (fs.rename src dst i h).lookup dst = some i := PyDict.get?_set_self ..

theorem lookup_rename_ne {src dst : ν} (h : fs.lookup src = some i) (hsrc : other ≠ src)
    (hdst : other ≠ dst) : (fs.rename src dst i h).lookup other = fs.lookup other := by
  show ((fs.names.pop src).set dst i).get? other = _
  rw [PyDict.get?_set, if_neg hdst, PyDict.get?_pop, if_neg hsrc]
  rfl

end Lemmas

/-! ## A file under a name of one's own -/

/-- `name` is linked to `i`, which holds `data`. -/
def Holds (fs : FileSystem ν) (name : ν) (i : Nat) (data : Bytes) : Prop :=
  fs.lookup name = some i ∧ (fs.inode i).data = data

section Holds

variable {fs : FileSystem ν} {name other : ν} {i j now : Nat} {data : Bytes}

theorem holds_create (fs : FileSystem ν) (name : ν) (now : Nat) :
    (fs.create name now).Holds name (fs.createIno name) [] :=
  ⟨lookup_create_self .., data_create_self ..⟩

/-- Opening another name for writing touches another inode. -/
theorem Holds.create (h : fs.Holds name i data) (hne : name ≠ other) :
    (fs.create other now).Holds name i data := by
  refine ⟨(lookup_create_ne hne).trans h.1, ?_⟩
  -- the inode opened is linked to the other name, or new
  rw [inode_create_ne, h.2]
  rintro rfl
  rcases createIno_cases fs other with hold | hnew
  · exact hne (lookup_inj h.1 hold)
  · have hlt := lookup_lt h.1
    omega

theorem Holds.append_self (h : fs.Holds name i data) (chunk : Bytes) :
    (fs.append i chunk now).Holds name i (data ++ chunk) :=
  ⟨h.1, by rw [data_append_self, h.2]⟩

theorem Holds.append (h : fs.Holds name i data) (hother : fs.lookup other = some j)
    (hne : name ≠ other) (chunk : Bytes) : (fs.append j chunk now).Holds name i data := by
  refine ⟨h.1, ?_⟩
  rw [inode_append_ne, h.2]
  rintro rfl
  exact hne (lookup_inj h.1 hother)

theorem Holds.utime (h : fs.Holds name i data) : (fs.utime j now).Holds name i data :=
  ⟨h.1, data_utime.trans h.2⟩

theorem Holds.unlink (h : fs.Holds name i data) (hne : name ≠ other) :
    (fs.unlink other).Holds name i data :=
  ⟨by rw [lookup_unlink, if_neg hne, h.1], h.2⟩

theorem Holds.rename {src dst : ν} (h : fs.Holds name i data) (hsrc : fs.lookup src = some j)
    (hne : name ≠ src) (hne' : name ≠ dst) : (fs.rename src dst j hsrc).Holds name i data :=
  ⟨(lookup_rename_ne hsrc hne hne').trans h.1, h.2⟩

end Holds

end FileSystem

/-! ## Publishing by a rename -/

/-- A file put under a public name: the name, the inode, and what it was made of. -/
structure Publication (ν α : Type*) where
  name : ν
  ino : Nat
  source : α

/-- Whatever public names are linked to has been published under them, and nothing published has
changed; what private names are linked to is not published. -/
structure Published {ν α : Type*} [DecidableEq ν] (isPublic : ν → Prop) (contents : α → Bytes)
    (log : List (Publication ν α)) (fs : FileSystem ν) : Prop where
  unchanged : ∀ r ∈ log, r.ino < fs.next ∧ (fs.inode r.ino).data = contents r.source
  listed : ∀ {name i}, isPublic name → fs.lookup name = some i →
    ∃ r ∈ log, r.name = name ∧ r.ino = i
  draft : ∀ {name i}, ¬ isPublic name → fs.lookup name = some i → ∀ r ∈ log, r.ino ≠ i

namespace Published

open FileSystem

variable {ν α : Type*} [DecidableEq ν] {isPublic : ν → Prop} {contents : α → Bytes}
  {log : List (Publication ν α)} {fs : FileSystem ν} {name : ν} {i now : Nat}

theorem empty : Published isPublic contents [] (FileSystem.empty : FileSystem ν) where
  unchanged := fun _ h => nomatch h
  listed := fun _ h => nomatch h
  draft := fun _ h => nomatch h

/-- Drafting starts under a private name. -/
theorem create (h : Published isPublic contents log fs) (hpriv : ¬ isPublic name) :
    Published isPublic contents log (fs.create name now) := by
  have hino : ∀ r ∈ log, r.ino ≠ fs.createIno name := by
    intro r hr hsame
    rcases createIno_cases fs name with hold | hnew
    · exact h.draft hpriv hold r hr hsame
    · have hlt := (h.unchanged r hr).1
      omega
  refine ⟨?_, ?_, ?_⟩
  · intro r hr
    rw [inode_create_ne (hino r hr)]
    exact ⟨Nat.lt_of_lt_of_le (h.unchanged r hr).1 next_le_create, (h.unchanged r hr).2⟩
  · intro other j hpub hlookup
    have hne : other ≠ name := fun hsame => hpriv (hsame ▸ hpub)
    rw [lookup_create_ne hne] at hlookup
    exact h.listed hpub hlookup
  · intro other j hpriv' hlookup r hr
    by_cases hsame : other = name
    · subst hsame
      rw [lookup_create_self] at hlookup
      obtain rfl := Option.some.inj hlookup
      exact hino r hr
    · rw [lookup_create_ne hsame] at hlookup
      exact h.draft hpriv' hlookup r hr

/-- Drafting goes on in a file under a private name. -/
theorem append (h : Published isPublic contents log fs) (hpriv : ¬ isPublic name)
    (hlookup : fs.lookup name = some i) (chunk : Bytes) :
    Published isPublic contents log (fs.append i chunk now) where
  unchanged := by
    intro r hr
    rw [inode_append_ne chunk (h.draft hpriv hlookup r hr)]
    exact h.unchanged r hr
  listed := h.listed
  draft := h.draft

theorem utime (h : Published isPublic contents log fs) :
    Published isPublic contents log (fs.utime i now) where
  unchanged := by
    intro r hr
    rw [data_utime]
    exact h.unchanged r hr
  listed := h.listed
  draft := h.draft

/-- A published file outlives its name. -/
theorem unlink (h : Published isPublic contents log fs) :
    Published isPublic contents log (fs.unlink name) where
  unchanged := h.unchanged
  listed := fun hpub hlookup => h.listed hpub (lookup_of_unlink hlookup)
  draft := fun hpriv hlookup => h.draft hpriv (lookup_of_unlink hlookup)

/-- A finished draft is published. -/
theorem rename {src dst : ν} {source : α} (h : Published isPublic contents log fs)
    (hpub : isPublic dst) (hdraft : fs.Holds src i (contents source)) :
    Published isPublic contents (⟨dst, i, source⟩ :: log) (fs.rename src dst i hdraft.1) := by
  have hne : ∀ {other j}, other ≠ dst → (fs.rename src dst i hdraft.1).lookup other = some j →
      other ≠ src ∧ fs.lookup other = some j := by
    intro other j hdst hlookup
    rcases get?_renamed hlookup with ⟨hsame, _⟩ | ⟨_, hsrc, hold⟩
    · exact absurd hsame hdst
    · exact ⟨hsrc, hold⟩
  refine ⟨?_, ?_, ?_⟩
  · intro r hr
    rcases List.mem_cons.mp hr with rfl | hold
    · exact ⟨fs.lt_next hdraft.1, hdraft.2⟩
    · exact h.unchanged r hold
  · intro other j hpub' hlookup
    rcases get?_renamed hlookup with ⟨rfl, rfl⟩ | ⟨_, _, hold⟩
    · exact ⟨_, List.mem_cons_self, rfl, rfl⟩
    · obtain ⟨r, hr, hname, hino⟩ := h.listed hpub' hold
      exact ⟨r, List.mem_cons_of_mem _ hr, hname, hino⟩
  · intro other j hpriv' hlookup r hr
    -- the inode just published has lost its private name
    have hdst : other ≠ dst := fun hsame => hpriv' (hsame ▸ hpub)
    obtain ⟨hsrc, hold⟩ := hne hdst hlookup
    rcases List.mem_cons.mp hr with rfl | hr
    · rintro rfl
      exact hsrc (lookup_inj hold hdraft.1)
    · exact h.draft hpriv' hold r hr

end Published

end VllmExl3
