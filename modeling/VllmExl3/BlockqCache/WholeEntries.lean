/-
# VllmExl3.BlockqCache.WholeEntries — a reader sees a whole entry or a miss

A temporary belongs to one process, and an entry's name is only ever given to a finished temporary. So
whatever an entry's name is linked to is complete and stays as it is, also for a reader whose entry is
replaced or evicted while it reads. Each process's place says what it relies on (`PlaceOk`); its own
steps keep that (`Step.own`), and so do the steps of all the others (`Step.other`).
-/
import VllmExl3.BlockqCache.Model
import VllmExl3.Lib.TableCodec

namespace VllmExl3.BlockqCache

open PyStr
open VllmExl3.Embedding (VocabTensor)
open Format (BLOCKQ_BLOCK BlockqShapes blockqShapes)

variable {ρ : Type}

/-- The names under which files are published. -/
def IsEntry (name : String) : Prop := endswith name ".safetensors" = true

theorem tmpPath_not_entry (path : String) (pid : Nat) : ¬ IsEntry (tmpPath path pid) :=
  fun h => not_temporary h ⟨path, pid, rfl⟩

/-- The path of the entry a process wrote last. -/
def lastStored (stored : List (Publication String (Write ρ))) (pid : Nat) : Option String :=
  (stored.find? fun r => r.source.pid = pid).map Publication.name

theorem lastStored_cons (stored : List (Publication String (Write ρ)))
    (r : Publication String (Write ρ)) (pid : Nat) :
    lastStored (r :: stored) pid = if r.source.pid = pid then some r.name else lastStored stored pid := by
  unfold lastStored
  by_cases hpid : r.source.pid = pid
  · rw [if_pos hpid, List.find?_cons_of_pos (by simpa using hpid)]
    rfl
  · rw [if_neg hpid, List.find?_cons_of_neg (by simpa using hpid)]

/-! ## What a process relies on -/

/-- An eviction that belongs to a write keeps what that write has just stored. -/
def EvictOk (stored : List (Publication String (Write ρ))) (pid : Nat) (ev : EvictCall) : Prop :=
  ∀ entry, ev.writing = some entry → ev.keep = entry.path ∧ lastStored stored pid = some entry.path

/-- What holds of the place a process is at. -/
def PlaceOk (codec : SafeTensors ρ) (fs : FileSystem String)
    (stored : List (Publication String (Write ρ))) (pid : Nat) : Pc ρ → Prop
  | .reading call ino todo out => ∃ r ∈ stored, r.name = call.entry.path ∧ r.ino = ino ∧
      ∃ want read, blockqShapes call.rows call.hidden BLOCKQ_BLOCK = .ok want ∧
        wantItems want = read ++ todo ∧ read.mapM (call.slice r.source.tensors) = some out
  | .touching call out => ∃ r ∈ stored, r.name = call.entry.path ∧
      call.rowsOf r.source.tensors = some out
  | .saving entry w ino rest => w.pid = pid ∧ ∃ written,
      fs.Holds (tmpPath entry.path pid) ino written ∧ written ++ rest = w.contents codec
  | .replacing entry w => w.pid = pid ∧
      ∃ ino, fs.Holds (tmpPath entry.path pid) ino (w.contents codec)
  | .limiting ev => EvictOk stored pid ev
  | .listing ev _ => EvictOk stored pid ev
  | .stating ev _ _ found => EvictOk stored pid ev ∧ ∀ f ∈ found, IsEntry f.path
  | .evicting ev _ todo _ => EvictOk stored pid ev ∧ ∀ f ∈ todo, IsEntry f.path
  | .idle | .opening _ | .undoing _ => True

/-- The directory keeps its entries whole, and every process is at a place it may be at. -/
structure Inv (codec : SafeTensors ρ) (s : State ρ) : Prop where
  published : Published IsEntry (Write.contents codec) s.stored s.fs
  place : ∀ pid, PlaceOk codec s.fs s.stored pid (s.procs pid)

section Steps

variable {root : String} {codec : SafeTensors ρ} {pid : Nat} {pc pc' : Pc ρ}
  {fs fs' : FileSystem String} {label : Label ρ}
  {stored stored' : List (Publication String (Write ρ))}

/-- A place stays all right while the process's temporaries, the writes on record and the process's
last write stay. -/
theorem PlaceOk.mono (h : PlaceOk codec fs stored pid pc)
    (hholds : ∀ path ino data, fs.Holds (tmpPath path pid) ino data →
      fs'.Holds (tmpPath path pid) ino data)
    (hstored : ∀ r ∈ stored, r ∈ stored') (hlast : lastStored stored' pid = lastStored stored pid) :
    PlaceOk codec fs' stored' pid pc := by
  have hevict : ∀ ev, EvictOk stored pid ev → EvictOk stored' pid ev := by
    intro ev hev entry hwriting
    rw [hlast]
    exact hev entry hwriting
  cases pc with
  | idle => trivial
  | opening => trivial
  | undoing => trivial
  | reading =>
    obtain ⟨r, hr, hrest⟩ := h
    exact ⟨r, hstored r hr, hrest⟩
  | touching =>
    obtain ⟨r, hr, hrest⟩ := h
    exact ⟨r, hstored r hr, hrest⟩
  | saving =>
    obtain ⟨hpid, written, hwritten, hrest⟩ := h
    exact ⟨hpid, written, hholds _ _ _ hwritten, hrest⟩
  | replacing =>
    obtain ⟨hpid, ino, hdraft⟩ := h
    exact ⟨hpid, ino, hholds _ _ _ hdraft⟩
  | limiting ev => exact hevict ev h
  | listing ev => exact hevict ev h
  | stating ev => exact ⟨hevict ev h.1, h.2⟩
  | evicting ev => exact ⟨hevict ev h.1, h.2⟩

/-- A step leaves the other processes' temporaries alone. -/
theorem Step.holds_other (hstep : Step root codec pid pc fs label pc' fs')
    (hplace : PlaceOk codec fs stored pid pc) {other : Nat} (hne : other ≠ pid) {path : String}
    {ino : Nat} {data : Bytes} (h : fs.Holds (tmpPath path other) ino data) :
    fs'.Holds (tmpPath path other) ino data := by
  have htmp : ∀ path', tmpPath path other ≠ tmpPath path' pid :=
    fun path' hsame => hne (tmpPath_injective hsame).2
  have hentry : ∀ name, IsEntry name → tmpPath path other ≠ name :=
    fun name hname hsame => tmpPath_not_entry path other (hsame ▸ hname)
  cases hstep with
  -- what a step changes is a temporary of its own process, or an entry
  | touch => exact h.utime
  | save_file => exact h.create (htmp _)
  | save_file_write =>
    obtain ⟨_, _, hdraft, _⟩ := hplace
    exact h.append hdraft.1 (htmp _) _
  | replace _ entry _ i hi => exact h.rename hi (htmp _) (hentry _ entry.path_entry)
  | undo => exact h.unlink (htmp _)
  | unlink _ ev limit f => exact h.unlink (hentry _ (hplace.2 f List.mem_cons_self))
  | _ => exact h

/-- A step puts on record only writes of the process that takes it. -/
theorem Step.record_other (hstep : Step root codec pid pc fs label pc' fs')
    (hplace : PlaceOk codec fs stored pid pc) {other : Nat} (hne : other ≠ pid) :
    lastStored (label.record stored) other = lastStored stored other := by
  cases hstep with
  | replace _ entry w i hi =>
    have hpid : w.pid ≠ other := by
      rw [hplace.1]
      exact hne.symm
    exact (lastStored_cons stored ⟨entry.path, i, w⟩ other).trans (if_neg hpid)
  | _ => rfl

theorem Label.mem_record {r : Publication String (Write ρ)} (hr : r ∈ stored) (label : Label ρ) :
    r ∈ label.record stored := by
  cases label with
  | stored publication => exact List.mem_cons_of_mem _ hr
  | _ => exact hr

/-- What another process relies on survives the step. -/
theorem Step.other (hstep : Step root codec pid pc fs label pc' fs')
    (hplace : PlaceOk codec fs stored pid pc) {other : Nat} (hne : other ≠ pid) {place : Pc ρ}
    (h : PlaceOk codec fs stored other place) :
    PlaceOk codec fs' (label.record stored) other place :=
  h.mono (fun _ _ _ => hstep.holds_other hplace hne) (fun _ hr => Label.mem_record hr label)
    (hstep.record_other hplace hne)

/-- A step keeps the directory's entries whole. -/
theorem Step.published (hstep : Step root codec pid pc fs label pc' fs')
    (hplace : PlaceOk codec fs stored pid pc)
    (h : Published IsEntry (Write.contents codec) stored fs) :
    Published IsEntry (Write.contents codec) (label.record stored) fs' := by
  cases hstep with
  | touch => exact h.utime
  | save_file => exact h.create (tmpPath_not_entry _ pid)
  | save_file_write =>
    obtain ⟨_, _, hdraft, _⟩ := hplace
    exact h.append (tmpPath_not_entry _ pid) hdraft.1 _
  | replace _ entry w i hi =>
    -- the temporary is finished: `save_file` returned
    obtain ⟨_, j, hdraft⟩ := hplace
    obtain rfl : i = j := Option.some.inj (hi.symm.trans hdraft.1)
    exact h.rename entry.path_entry hdraft
  | undo => exact h.unlink
  | unlink => exact h.unlink
  | _ => exact h

/-- An open entry parses as the tensors some write of it stored. -/
theorem parse_published (h : Published IsEntry (Write.contents codec) stored fs)
    {r : Publication String (Write ρ)} (hr : r ∈ stored) :
    codec.parse (fs.inode r.ino).data = some r.source.tensors := by
  rw [(h.unchanged r hr).2]
  exact codec.parse_serialize ..

/-- A process's own step takes it to a place that is all right. -/
theorem Step.own (hstep : Step root codec pid pc fs label pc' fs')
    (hplace : PlaceOk codec fs stored pid pc)
    (h : Published IsEntry (Write.contents codec) stored fs) :
    PlaceOk codec fs' (label.record stored) pid pc' := by
  cases hstep with
  | safe_open _ call ino want hwant hlookup =>
    -- whatever has the entry's name was published under it
    obtain ⟨r, hr, hname, hino⟩ := h.listed call.entry.path_entry hlookup
    exact ⟨r, hr, hname, hino, want, [], hwant, rfl, rfl⟩
  | get_slice _ call ino item todo out tensors sliced hparse hslice =>
    obtain ⟨r, hr, hname, rfl, want, read, hwant, hitems, hread⟩ := hplace
    -- the descriptor still reads what that write stored, whatever became of the name
    rw [parse_published h hr, Option.some.injEq] at hparse
    refine ⟨r, hr, hname, rfl, want, read ++ [item], hwant, ?_, ?_⟩
    · rw [hitems, List.append_assoc]
      rfl
    · rw [List.mapM_append, hread, hparse]
      show (do let sliced' ← [item].mapM (call.slice tensors); pure (out ++ sliced')) = _
      rw [List.mapM_cons, hslice]
      rfl
  | close _ call ino out =>
    obtain ⟨r, hr, hname, _, want, read, hwant, hitems, hread⟩ := hplace
    refine ⟨r, hr, hname, ?_⟩
    rw [ReadCall.rowsOf, hwant]
    rw [List.append_nil] at hitems
    show (wantItems want).mapM _ = _
    rw [hitems, hread]
  | save_file _ entry tensors now =>
    exact ⟨rfl, [], FileSystem.holds_create .., rfl⟩
  | save_file_write _ entry w ino now chunk rest =>
    obtain ⟨hpid, written, hdraft, hrest⟩ := hplace
    exact ⟨hpid, written ++ chunk, hdraft.append_self chunk, by rw [List.append_assoc, hrest]⟩
  | save_file_done _ entry w ino =>
    obtain ⟨hpid, written, hdraft, hrest⟩ := hplace
    rw [List.append_nil] at hrest
    exact ⟨hpid, ino, hrest ▸ hdraft⟩
  | replace _ entry w i hi =>
    intro entry' hwriting
    obtain rfl := Option.some.inj hwriting
    refine ⟨rfl, ?_⟩
    exact (lastStored_cons stored ⟨entry.path, i, w⟩ pid).trans (if_pos hplace.1)
  | evict _ keep => exact fun entry hwriting => nomatch hwriting
  | max_bytes => exact hplace
  | listdir => exact ⟨hplace, fun f hf => nomatch hf⟩
  | not_an_entry => exact hplace
  | stat _ ev limit name names found ino hentry =>
    refine ⟨hplace.1, fun f hf => ?_⟩
    rcases List.mem_append.mp hf with hold | hnew
    · exact hplace.2 f hold
    · rw [List.mem_singleton.mp hnew]
      exact PyPath.endswith_join hentry
  | stat_fails => exact hplace
  | sort _ ev limit found =>
    -- sorting neither adds nor drops a path
    refine ⟨hplace.1, fun f hf => hplace.2 f ?_⟩
    exact (List.perm_insertionSort Found.le found).mem_iff.mp hf
  | kept => exact ⟨hplace.1, fun f hf => hplace.2 f (List.mem_cons_of_mem _ hf)⟩
  | unlink => exact ⟨hplace.1, fun f hf => hplace.2 f (List.mem_cons_of_mem _ hf)⟩
  | unlink_fails => exact ⟨hplace.1, fun f hf => hplace.2 f (List.mem_cons_of_mem _ hf)⟩
  | _ => trivial

end Steps

/-! ## Every run -/

section Runs

variable {root : String} {codec : SafeTensors ρ} {s t : State ρ}

theorem Inv.step (h : Inv codec s) (hstep : (cache root codec).step s t) : Inv codec t := by
  obtain ⟨pid, label, pc, fs, hstep, rfl⟩ := hstep
  refine ⟨hstep.published (h.place pid) h.published, fun other => ?_⟩
  show PlaceOk codec fs (label.record s.stored) other (Function.update s.procs pid pc other)
  by_cases hself : other = pid
  · rw [hself, Function.update_self]
    exact hstep.own (h.place pid) h.published
  · rw [Function.update_of_ne hself]
    exact hstep.other (h.place pid) hself (h.place other)

theorem inv_of_reachable (h : (cache root codec).Reachable s) : Inv codec s := by
  refine System.invariant ?_ (fun _ _ => Inv.step) h
  rintro _ rfl
  exact ⟨Published.empty, fun _ => trivial⟩

/-- What a step of a process must not do: return anything but the complete rows of one write of the
entry, delete a temporary, or delete the entry its own write has just stored. -/
def Sound (s : State ρ) (pid : Nat) : Label ρ → Prop
  | .returned call out => ∃ r ∈ s.stored, r.name = call.entry.path ∧
      call.rowsOf r.source.tensors = some out
  | .evicted ev path => ¬ IsTemporary path ∧ path ≠ ev.keep ∧
      ∀ entry, ev.writing = some entry →
        lastStored s.stored pid = some entry.path ∧ path ≠ entry.path
  | .quiet | .stored _ => True

/-- Whatever the processes on a directory do, in whatever order, and wherever some of them die. -/
theorem readers_see_whole_entries (h : (cache root codec).Reachable s) {pid : Nat} {label : Label ρ}
    {pc : Pc ρ} {fs : FileSystem String}
    (hstep : Step root codec pid (s.procs pid) s.fs label pc fs) : Sound s pid label := by
  have hplace := (inv_of_reachable h).place pid
  generalize s.procs pid = place at hstep hplace
  cases hstep with
  | touch => exact hplace
  | touch_fails => exact hplace
  | unlink _ ev limit f todo total _ hkeep =>
    refine ⟨not_temporary (hplace.2 f List.mem_cons_self), hkeep, fun entry hwriting => ?_⟩
    obtain ⟨hpath, hlast⟩ := hplace.1 entry hwriting
    exact ⟨hlast, hpath ▸ hkeep⟩
  | _ => trivial

/-! ## A write and a read that nothing comes between -/

theorem reachable_next (h : (cache root codec).Reachable s) {pid : Nat} {label : Label ρ} {pc : Pc ρ}
    {fs : FileSystem String} (hstep : Step root codec pid (s.procs pid) s.fs label pc fs) :
    (cache root codec).Reachable (s.next pid label pc fs) := by
  obtain ⟨s₀, hinit, hrun⟩ := h
  exact ⟨s₀, hinit, hrun.tail ⟨pid, label, pc, fs, hstep, rfl⟩⟩

/-- One step of a process whose place is known. -/
theorem reachable_go (h : (cache root codec).Reachable s) {pid : Nat} {label : Label ρ}
    {pc pc' : Pc ρ} {fs' : FileSystem String} (hpc : s.procs pid = pc)
    (hstep : Step root codec pid pc s.fs label pc' fs') :
    ∃ t, (cache root codec).Reachable t ∧ t.procs pid = pc' ∧ t.fs = fs' ∧
      ∀ other, other ≠ pid → t.procs other = s.procs other := by
  subst hpc
  refine ⟨_, reachable_next h hstep, Function.update_self .., rfl, fun other hne => ?_⟩
  exact Function.update_of_ne hne ..

/-- A write can land: the entry's name is linked to a file of its tensors. -/
theorem write_lands (h : (cache root codec).Reachable s) {pid : Nat} (hidle : s.procs pid = .idle)
    (entry : Entry) (tensors : PyDict String (VocabTensor ρ)) :
    ∃ t, (cache root codec).Reachable t ∧
      (∀ other, other ≠ pid → t.procs other = s.procs other) ∧
      ∃ ino, t.fs.lookup entry.path = some ino ∧
        codec.parse (t.fs.inode ino).data = some tensors := by
  obtain ⟨s₁, h₁, hpc₁, _, hothers₁⟩ := reachable_go h hidle (.save_file s.fs entry tensors 0)
  rw [← List.append_nil (codec.serialize tensors entry.metadata)] at hpc₁
  obtain ⟨s₂, h₂, hpc₂, _, hothers₂⟩ :=
    reachable_go h₁ hpc₁ (.save_file_write s₁.fs entry _ _ 0 (codec.serialize tensors _) [])
  obtain ⟨s₃, h₃, hpc₃, _, hothers₃⟩ := reachable_go h₂ hpc₂ (.save_file_done s₂.fs entry _ _)
  have hplace := (inv_of_reachable h₃).place pid
  rw [hpc₃] at hplace
  obtain ⟨_, ino, hdraft⟩ := hplace
  obtain ⟨s₄, h₄, _, hfs₄, hothers₄⟩ :=
    reachable_go h₃ hpc₃ (.replace s₃.fs entry _ ino hdraft.1)
  refine ⟨s₄, h₄, fun other hne => ?_, ino, ?_, ?_⟩
  · rw [hothers₄ other hne, hothers₃ other hne, hothers₂ other hne, hothers₁ other hne]
  · rw [hfs₄]
    exact FileSystem.lookup_rename_self hdraft.1
  · rw [hfs₄]
    show codec.parse (s₃.fs.inode ino).data = _
    rw [hdraft.2]
    exact codec.parse_serialize ..

/-- A reader gets on with the tensors it has still to read. -/
theorem slices_read {pid ino : Nat} {call : ReadCall} {tensors : PyDict String (VocabTensor ρ)}
    (todo : List (String × List Nat)) {out more : List (String × VocabTensor ρ)}
    (h : (cache root codec).Reachable s) (hpc : s.procs pid = .reading call ino todo out)
    (hparse : codec.parse (s.fs.inode ino).data = some tensors)
    (hmore : todo.mapM (call.slice tensors) = some more) :
    ∃ t, (cache root codec).Reachable t ∧ t.procs pid = .reading call ino [] (out ++ more) := by
  induction todo generalizing s out more with
  | nil =>
    obtain rfl : [] = more := Option.some.inj hmore
    exact ⟨s, h, by rw [List.append_nil, hpc]⟩
  | cons item todo ih =>
    rw [List.mapM_cons] at hmore
    obtain ⟨sliced, hsliced, hmore⟩ := Option.bind_eq_some_iff.mp hmore
    obtain ⟨rest, hrest, hmore⟩ := Option.bind_eq_some_iff.mp hmore
    obtain rfl : sliced :: rest = more := Option.some.inj hmore
    obtain ⟨s₁, h₁, hpc₁, hfs₁, _⟩ :=
      reachable_go h hpc (.get_slice s.fs call ino item todo out tensors sliced hparse hsliced)
    obtain ⟨t, ht, hpct⟩ := ih h₁ hpc₁ (by rw [hfs₁, hparse]) hrest
    exact ⟨t, ht, by rw [hpct, List.append_assoc]; rfl⟩

/-- A write that no other process disturbs can be read back: the rows of the tensors it was given. -/
theorem write_then_read (h : (cache root codec).Reachable s) {writer reader : Nat}
    (hne : reader ≠ writer) (hwriter : s.procs writer = .idle) (hreader : s.procs reader = .idle)
    {call : ReadCall} {tensors : PyDict String (VocabTensor ρ)} {out : List (String × VocabTensor ρ)}
    (hrows : call.rowsOf tensors = some out) :
    ∃ t, (cache root codec).Reachable t ∧ t.procs reader = .touching call out := by
  obtain ⟨s₁, h₁, hothers, ino, hlookup, hparse⟩ := write_lands h hwriter call.entry tensors
  rw [← hothers reader hne] at hreader
  obtain ⟨want, hwant, hitems⟩ : ∃ want, blockqShapes call.rows call.hidden BLOCKQ_BLOCK = .ok want ∧
      (wantItems want).mapM (call.slice tensors) = some out := by
    unfold ReadCall.rowsOf at hrows
    cases hwant : blockqShapes call.rows call.hidden BLOCKQ_BLOCK with
    | error e =>
      rw [hwant] at hrows
      cases hrows
    | ok want =>
      rw [hwant] at hrows
      exact ⟨want, rfl, hrows⟩
  obtain ⟨s₂, h₂, hpc₂, hfs₂, _⟩ := reachable_go h₁ hreader
    (.present s₁.fs call (fun hnone => nomatch hnone.symm.trans hlookup))
  rw [← hfs₂] at hlookup hparse
  obtain ⟨s₃, h₃, hpc₃, hfs₃, _⟩ := reachable_go h₂ hpc₂
    (.safe_open s₂.fs call ino want hwant hlookup (fun hnone => nomatch hnone.symm.trans hparse))
  obtain ⟨s₄, h₄, hpc₄⟩ := slices_read (wantItems want) h₃ hpc₃ (by rw [hfs₃, hparse]) hitems
  obtain ⟨s₅, h₅, hpc₅, _, _⟩ := reachable_go h₄ hpc₄ (.close s₄.fs call ino _)
  exact ⟨s₅, h₅, hpc₅⟩

end Runs

/-! ## One row, written and read -/

instance encodableVocabTensor : Encodable (VocabTensor Bytes) :=
  Encodable.ofLeftInjection (fun t => (t.tail, t.rows)) (fun p => some ⟨p.1, p.2⟩) fun _ => rfl

/-- A vocabulary of one row of 32 values. -/
def oneRow : PyDict String (VocabTensor Bytes) :=
  ⟨[("bq_q", ⟨[16], [List.replicate 16 0x5A]⟩), ("bq_s", ⟨[2, 1], [[63, 0]]⟩),
    ("bq_r", ⟨[4], [List.replicate 16 1]⟩)], by decide⟩

def oneRowMetadata : PyDict String String := ⟨[("format", "pt")], by decide⟩

/-- The file `save_file` makes of them: the header's length, the header, and the tensors, those of the
widest type first. -/
def oneRowFile : Bytes :=
  leBytes 8 216 ++ (
    "\x7b\"__metadata__\":\x7b\"format\":\"pt\"\x7d," ++
    "\"bq_r\":\x7b\"dtype\":\"F32\",\"shape\":[1,4],\"data_offsets\":[0,16]\x7d," ++
    "\"bq_q\":\x7b\"dtype\":\"U8\",\"shape\":[1,16],\"data_offsets\":[16,32]\x7d," ++
    "\"bq_s\":\x7b\"dtype\":\"U8\",\"shape\":[1,2,1],\"data_offsets\":[32,34]\x7d\x7d    ").toByteArray.data.toList ++
  (List.replicate 16 1 ++ List.replicate 16 0x5A ++ [63, 0])

def oneRowTable : List ((PyDict String (VocabTensor Bytes) × PyDict String String) × Bytes) :=
  [((oneRow, oneRowMetadata), oneRowFile)]

theorem oneRowTable_ok : TableOk oneRowTable := by decide +kernel

/-- A `SafeTensors` that is the real one on these tensors. -/
def oneRowCodec : SafeTensors Bytes where
  serialize := fun tensors metadata => tableDumps oneRowTable (tensors, metadata)
  parse := fun file => (tableLoads oneRowTable file).map Prod.fst
  parse_serialize := by
    intro tensors metadata
    have hloads := tableLoads_tableDumps oneRowTable_ok (tensors, metadata) 0
    rw [List.replicate_zero, List.append_nil] at hloads
    rw [hloads]
    rfl

def oneRowEntry : Entry := ⟨"/cache/model-0a.safetensors", oneRowMetadata, by decide⟩

/-- Process 7 writes the row, process 8 reads it. -/
theorem oneRow_read : ∃ s pc fs, (cache "/cache" oneRowCodec).Reachable s ∧
    Step "/cache" oneRowCodec 8 (s.procs 8) s.fs
      (.returned ⟨oneRowEntry, 1, 32, 0, 1⟩ oneRow.items) pc fs ∧
    Sound s 8 (.returned ⟨oneRowEntry, 1, 32, 0, 1⟩ oneRow.items) := by
  have hempty : (cache "/cache" oneRowCodec).Reachable ⟨FileSystem.empty, fun _ => .idle, []⟩ :=
    ⟨_, rfl, .refl⟩
  obtain ⟨s, h, hpc⟩ := write_then_read hempty (show 8 ≠ 7 by decide) rfl rfl
    (show ReadCall.rowsOf ⟨oneRowEntry, 1, 32, 0, 1⟩ oneRow = some oneRow.items by decide +kernel)
  have hstep : Step "/cache" oneRowCodec 8 (s.procs 8) s.fs
      (.returned ⟨oneRowEntry, 1, 32, 0, 1⟩ oneRow.items) .idle s.fs := by
    rw [hpc]
    exact .touch_fails ..
  exact ⟨s, .idle, s.fs, h, hstep, readers_see_whole_entries h hstep⟩

end VllmExl3.BlockqCache
