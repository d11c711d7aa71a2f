/-
# VllmExl3.Compose.MovesWhole — when composition moves modules whole

Every shard of the output is either the base's or a rewrite of it, and a rewrite drops a module's base
tensors only in the shard the module begins in (`outputShard_spec`). So a base tensor of a replaced
module that lies in another shard survives there, beside or in front of the donor's. The output is
what the tool promises exactly when no module that is replaced is spread over several shards
(`write_moves_whole`).
-/
import VllmExl3.Compose.Write
import VllmExl3.Compose.JsonText

namespace VllmExl3.Compose

open PyStr

/-! ## The promise -/

/-- What a checkpoint's files store under a name. -/
def Tensors.stored (json : Json) (disk : Disk) (t : Tensors) (name : String) : Option Stored :=
  (t.get? name).bind fun info => tensorIn json (disk.file info.path) name

/-- A shard of a directory stores a tensor. -/
def Holds (json : Json) (out : Dir) (shard name : String) (st : Stored) : Prop :=
  isShard shard = true ∧ ∃ file, out.get? shard = some file ∧ tensorIn json file name = some st

/-- Modules move whole: each taken module is stored with exactly the donor's tensors, each restored one
with exactly the donor's dense ones, every other tensor is the base's, no name is in two shards, and
the index, which is there where the base has one, maps each name to its shard and lists nothing
else. -/
structure MovesWhole (json : Json) (disk : Disk) (base : String) (base_t : Tensors)
    (donors : PyDict String Donor) (assign restore : PyDict String String) (out : Dir) : Prop where
  taken : ∀ mod dir d, assign.get? mod = some dir → donors.get? dir = some d →
    ∀ name, moduleKey name = mod → ∀ st,
      (∃ shard, Holds json out shard name st) ↔ d.tensors.stored json disk name = some st
  restored : ∀ mod dir d, restore.get? mod = some dir → donors.get? dir = some d →
    ∀ name, moduleKey name = mod → ∀ st,
      (∃ shard, Holds json out shard name st) ↔
        isDense name = true ∧ d.tensors.stored json disk name = some st
  kept : ∀ name, assign.get? (moduleKey name) = none → restore.get? (moduleKey name) = none → ∀ st,
    (∃ shard, Holds json out shard name st) ↔ base_t.stored json disk name = some st
  once : ∀ name shard shard' st st', Holds json out shard name st → Holds json out shard' name st' →
    shard = shard'
  indexed : (((disk base).getD .empty).get? INDEX_NAME).isSome → ∃ file index,
    out.get? INDEX_NAME = some file ∧ json.loadsIndex file = some index ∧
      ∀ name shard, index.weight_map.get? name = some shard ↔ ∃ st, Holds json out shard name st

/-- The base's tensors are assigned to shards: no name is in two of them. -/
def OneShardEach (json : Json) (disk : Disk) (base : String) : Prop :=
  ∀ p ∈ shardNames disk base, ∀ q ∈ shardNames disk base, ∀ name,
    (tensorIn json (disk.file ⟨base, p⟩) name).isSome →
      (tensorIn json (disk.file ⟨base, q⟩) name).isSome → p = q

/-- Every base tensor of a replaced module lies in the same shard. -/
def ReplacedInOneShard (base_t : Tensors) (assign restore : PyDict String String) : Prop :=
  ∀ n n' info info', base_t.get? n = some info → base_t.get? n' = some info' →
    moduleKey n = moduleKey n' →
    ((assign.get? (moduleKey n)).isSome ∨ (restore.get? (moduleKey n)).isSome) →
    info.path = info'.path

variable {json : Json} {disk : Disk} {base output d : String} {base_t t : Tensors}
  {donors : PyDict String Donor} {assign restore : PyDict String String} {out : Dir}
  {shard : ShardPath} {name mod : String} {st : Stored} {moves : List Move}

/-! ## Reading the base -/

theorem isShard_of_mem {p : String} (h : p ∈ shardNames disk d) : isShard p = true := by
  rw [shardNames, List.mem_insertionSort] at h
  exact (List.mem_filter.mp h).2

/-- The names a header lists are those the file stores. -/
theorem isSome_tensorIn_iff {file : Bytes} {parsed : Nat × Header}
    (h : parseHeader json file = some parsed) :
    (tensorIn json file name).isSome ↔ name ∈ parsed.2.tensors.keys := by
  rw [tensorIn, h, Option.bind_some, Option.isSome_map, PyDict.isSome_get?_iff]

theorem readHeader_spec {t' : Tensors} {p : String} (name : String)
    (h : readHeader json disk d t p = .ok t') :
    (∀ info, t'.get? name = some info →
      info.path = ⟨d, p⟩ ∧ (tensorIn json (disk.file ⟨d, p⟩) name).isSome ∨
        t.get? name = some info) ∧
    ((tensorIn json (disk.file ⟨d, p⟩) name).isSome ∨ (t.get? name).isSome →
      (t'.get? name).isSome) := by
  obtain ⟨file, hfile, h⟩ := bind_eq_ok h
  obtain ⟨⟨n, header⟩, hheader, h⟩ := bind_eq_ok h
  obtain rfl := Except.ok.inj h
  rw [Disk.read_eq_ok hfile, isSome_tensorIn_iff (loadHeader_eq_ok.mp hheader),
    ← PyDict.isSome_get?_iff, PyDict.get?_update, PyDict.get?_mapValues]
  cases hrec : header.tensors.get? name with
  | none => simp
  | some rec =>
    refine ⟨fun info hinfo => .inl ⟨?_, rfl⟩, fun _ => rfl⟩
    obtain rfl := Option.some.inj hinfo
    rfl

theorem readHeaders_fold {shards : List String} {t' : Tensors} (name : String)
    (h : shards.foldlM (readHeader json disk d) t = .ok t') :
    (∀ info, t'.get? name = some info →
      (∃ p ∈ shards, info.path = ⟨d, p⟩ ∧ (tensorIn json (disk.file ⟨d, p⟩) name).isSome) ∨
        t.get? name = some info) ∧
    ((∃ p ∈ shards, (tensorIn json (disk.file ⟨d, p⟩) name).isSome) ∨ (t.get? name).isSome →
      (t'.get? name).isSome) := by
  induction shards generalizing t with
  | nil =>
    obtain rfl := Except.ok.inj h
    simp
  | cons p rest ih =>
    rw [List.foldlM_cons] at h
    obtain ⟨t₁, hhead, h⟩ := bind_eq_ok h
    obtain ⟨hget, hsome⟩ := readHeader_spec name hhead
    obtain ⟨hget', hsome'⟩ := ih h
    refine ⟨fun info hinfo => ?_, ?_⟩
    · rcases hget' info hinfo with ⟨q, hq, hpath⟩ | hinfo₁
      · exact .inl ⟨q, List.mem_cons_of_mem p hq, hpath⟩
      · rcases hget info hinfo₁ with hhere | hold
        · exact .inl ⟨p, List.mem_cons_self, hhere⟩
        · exact .inr hold
    · rintro (⟨q, hq, hin⟩ | hold)
      · rcases List.mem_cons.mp hq with rfl | hrest
        · exact hsome' (.inr (hsome (.inl hin)))
        · exact hsome' (.inl ⟨q, hrest, hin⟩)
      · exact hsome' (.inr (hsome (.inr hold)))

/-- What `read_headers` records of a checkpoint whose shards share no name: each tensor's shard. -/
theorem readHeaders_spec (h : readHeaders json disk d = .ok t) (hone : OneShardEach json disk d)
    (path : ShardPath) :
    (∃ info, t.get? name = some info ∧ info.path = path) ↔
      path.dir = d ∧ path.name ∈ shardNames disk d ∧ (tensorIn json (disk.file path) name).isSome := by
  obtain ⟨-, -, h⟩ := bind_eq_ok h
  obtain ⟨-, -, h⟩ := bind_eq_ok h
  obtain ⟨hget, hsome⟩ := readHeaders_fold name h
  constructor
  · rintro ⟨info, hinfo, rfl⟩
    rcases hget info hinfo with ⟨p, hp, hpath, hin⟩ | hold
    · rw [hpath]
      exact ⟨rfl, hp, hin⟩
    · cases hold
  · obtain ⟨dir, p⟩ := path
    rintro ⟨rfl, hp, hin⟩
    obtain ⟨info, hinfo⟩ := Option.isSome_iff_exists.mp (hsome (.inl ⟨p, hp, hin⟩))
    refine ⟨info, hinfo, ?_⟩
    rcases hget info hinfo with ⟨q, hq, hpath, hin'⟩ | hold
    · rw [hpath, hone p hp q hq name hin hin']
    · cases hold

/-! ## Moves -/

/-- Where a replaced module's tensors come from: its donor, and which of them travel. -/
def Replaced (donors : PyDict String Donor) (assign restore : PyDict String String) (mod : String)
    (d : Donor) (brings : String → Bool) : Prop :=
  (∃ dir, assign.get? mod = some dir ∧ donors.get? dir = some d ∧ brings = fun _ => true) ∨
    ∃ dir, restore.get? mod = some dir ∧ donors.get? dir = some d ∧ brings = isDense

/-- The move is that of a replaced module. -/
structure IsMove (base_t : Tensors) (m : Move) (d : Donor) (brings : String → Bool) : Prop where
  shard : ∃ group first, base_t.modules.get? m.mod = some group ∧
    base_t.get? (group.headD "") = some first ∧ m.shard = first.path
  drop : ∀ n, n ∈ m.drop ↔ n ∈ base_t.keys ∧ moduleKey n = m.mod
  bring : ∀ n p, (n, p) ∈ m.bring ↔ moduleKey n = m.mod ∧ brings n = true ∧
    ∃ info, d.tensors.get? n = some info ∧ info.path = p

theorem mem_group {group : List String} (h : t.modules.get? mod = some group) {n : String} :
    n ∈ group ↔ n ∈ t.keys ∧ moduleKey n = mod := by
  rw [Tensors.modules, get?_modulesOf] at h
  split_ifs at h
  obtain rfl := Option.some.inj h
  simp [List.mem_insertionSort]

theorem moveModule_spec {brings : String → Bool} {dir : String} {m : Move}
    (h : moveModule brings base_t donors (mod, dir) = .ok m) :
    m.mod = mod ∧ ∃ d, donors.get? dir = some d ∧ IsMove base_t m d brings := by
  obtain ⟨group, hgroup, h⟩ := bind_eq_ok h
  obtain ⟨first, hfirst, h⟩ := bind_eq_ok h
  obtain ⟨d, hd, h⟩ := bind_eq_ok h
  obtain ⟨names, hnames, h⟩ := bind_eq_ok h
  obtain ⟨bring, hbring, h⟩ := bind_eq_ok h
  obtain rfl := Except.ok.inj h
  rw [item_eq_ok] at hgroup hfirst hd hnames
  refine ⟨rfl, d, hd, ⟨group, first, hgroup, hfirst, rfl⟩, fun n => mem_group hgroup,
    fun n p => ?_⟩
  -- each travelling name is paired with the donor shard that holds it
  have hpair : ∀ name r, (do
        let info ← item d.tensors name
        return (name, info.path) : Except Exit (String × ShardPath)) = .ok r →
      ∃ info, d.tensors.get? name = some info ∧ r = (name, info.path) := by
    intro name r hr
    obtain ⟨info, hinfo, hr⟩ := bind_eq_ok hr
    exact ⟨info, item_eq_ok.mp hinfo, (Except.ok.inj hr).symm⟩
  constructor
  · intro hmem
    obtain ⟨name, hname, hcall⟩ := (mem_mapM_ok hbring).mp hmem
    obtain ⟨info, hinfo, heq⟩ := hpair name _ hcall
    obtain ⟨rfl, rfl⟩ := Prod.mk.inj heq
    obtain ⟨hin, hbrings⟩ := List.mem_filter.mp hname
    exact ⟨((mem_group hnames).mp hin).2, hbrings, info, hinfo, rfl⟩
  · rintro ⟨hmod, hbrings, info, hinfo, rfl⟩
    have hin : n ∈ names := (mem_group hnames).mpr ⟨PyDict.mem_keys_of_get? hinfo, hmod⟩
    obtain ⟨r, hr, hcall⟩ := exists_of_mapM_ok hbring (List.mem_filter.mpr ⟨hin, hbrings⟩)
    obtain ⟨info', hinfo', rfl⟩ := hpair n r hcall
    obtain rfl := Option.some.inj (hinfo.symm.trans hinfo')
    exact hr

/-- The moves of a run: those of the replaced modules. -/
structure AreMoves (base_t : Tensors) (donors : PyDict String Donor)
    (assign restore : PyDict String String) (moves : List Move) : Prop where
  isMove : ∀ m ∈ moves, ∃ d brings,
    Replaced donors assign restore m.mod d brings ∧ IsMove base_t m d brings
  all : ∀ mod, (assign.get? mod).isSome ∨ (restore.get? mod).isSome → ∃ m ∈ moves, m.mod = mod

theorem movesOf_spec (h : movesOf base_t donors assign restore = .ok moves) :
    AreMoves base_t donors assign restore moves := by
  obtain ⟨assigned, hassigned, h⟩ := bind_eq_ok h
  obtain ⟨restored, hrestored, h⟩ := bind_eq_ok h
  obtain rfl := Except.ok.inj h
  constructor
  · intro m hm
    rcases List.mem_append.mp hm with hm | hm
    · obtain ⟨⟨mod, dir⟩, hitem, hcall⟩ := (mem_mapM_ok hassigned).mp hm
      obtain ⟨rfl, d, hd, hmove⟩ := moveModule_spec hcall
      exact ⟨d, _, .inl ⟨dir, PyDict.get?_eq_some_iff.mpr hitem, hd, rfl⟩, hmove⟩
    · obtain ⟨⟨mod, dir⟩, hitem, hcall⟩ := (mem_mapM_ok hrestored).mp hm
      obtain ⟨rfl, d, hd, hmove⟩ := moveModule_spec hcall
      exact ⟨d, _, .inr ⟨dir, PyDict.get?_eq_some_iff.mpr hitem, hd, rfl⟩, hmove⟩
  · rintro mod (hmod | hmod)
    · obtain ⟨dir, hdir⟩ := Option.isSome_iff_exists.mp hmod
      obtain ⟨m, hm, hcall⟩ := exists_of_mapM_ok hassigned (PyDict.get?_eq_some_iff.mp hdir)
      exact ⟨m, List.mem_append_left _ hm, (moveModule_spec hcall).1⟩
    · obtain ⟨dir, hdir⟩ := Option.isSome_iff_exists.mp hmod
      obtain ⟨m, hm, hcall⟩ := exists_of_mapM_ok hrestored (PyDict.get?_eq_some_iff.mp hdir)
      exact ⟨m, List.mem_append_right _ hm, (moveModule_spec hcall).1⟩

/-- No module is both assigned and restored, so a replaced module has one donor. -/
theorem Replaced.unique {d d' : Donor} {brings brings' : String → Bool}
    (hdisjoint : ∀ mod, assign.get? mod = none ∨ restore.get? mod = none)
    (h : Replaced donors assign restore mod d brings)
    (h' : Replaced donors assign restore mod d' brings') : d = d' ∧ brings = brings' := by
  rcases h with ⟨dir, hdir, hd, rfl⟩ | ⟨dir, hdir, hd, rfl⟩ <;>
    rcases h' with ⟨dir', hdir', hd', rfl⟩ | ⟨dir', hdir', hd', rfl⟩
  · obtain rfl := Option.some.inj (hdir.symm.trans hdir')
    exact ⟨Option.some.inj (hd.symm.trans hd'), rfl⟩
  · rcases hdisjoint mod with hnone | hnone
    · exact absurd (hdir.symm.trans hnone) (by simp)
    · exact absurd (hdir'.symm.trans hnone) (by simp)
  · rcases hdisjoint mod with hnone | hnone
    · exact absurd (hdir'.symm.trans hnone) (by simp)
    · exact absurd (hdir.symm.trans hnone) (by simp)
  · obtain rfl := Option.some.inj (hdir.symm.trans hdir')
    exact ⟨Option.some.inj (hd.symm.trans hd'), rfl⟩

/-! ## One shard of the output -/

/-- What the output's copy of a base shard stores under a name: what a move that begins in the shard
brings, or the base's own tensor where no such move is of its module. -/
def ShardHolds (json : Json) (disk : Disk) (moves : List Move) (shard : ShardPath) (name : String)
    (st : Stored) : Prop :=
  (∃ m ∈ moves, m.shard = shard ∧
    ∃ p, (name, p) ∈ m.bring ∧ tensorIn json (disk.file p) name = some st) ∨
  (∀ m ∈ moves, m.shard = shard → m.mod ≠ moduleKey name) ∧
    tensorIn json (disk.file shard) name = some st

theorem bringEntry_spec {incoming : String × ShardPath} {entry : String × Record}
    (h : bringEntry json disk incoming = .ok entry) :
    entry.1 = incoming.1 ∧ tensorIn json (disk.file incoming.2) incoming.1 =
      some (entry.2.stored (disk.file entry.2.path)) := by
  obtain ⟨n, p⟩ := incoming
  obtain ⟨file, hfile, h⟩ := bind_eq_ok h
  obtain ⟨⟨hdr, metadata⟩, hhdr, h⟩ := bind_eq_ok h
  obtain ⟨rec, hrec, h⟩ := bind_eq_ok h
  obtain rfl := Except.ok.inj h
  obtain ⟨htensor, hpath⟩ := rawHeader_spec hhdr n
  rw [item_eq_ok] at hrec
  refine ⟨rfl, ?_⟩
  show tensorIn json (disk.file p) n = some (rec.stored (disk.file rec.path))
  rw [hpath rec hrec, Disk.read_eq_ok hfile, htensor, hrec]
  rfl

/-- What a rewritten shard keeps of its own are the tensors no move takes away. -/
theorem mem_kept {src : Bytes} {src_hdr : PyDict String Record} {metadata : List (String × String)}
    {drop : List String} (hsrc : disk.read shard = .ok src)
    (hhdr : rawHeader json shard src = .ok (src_hdr, metadata)) {n : String} {st : Stored} :
    (n, st) ∈ (src_hdr.items.filter fun p => p.1 ∉ drop).map disk.stored ↔
      n ∉ drop ∧ tensorIn json (disk.file shard) n = some st := by
  obtain ⟨htensor, hpath⟩ := rawHeader_spec hhdr n
  have hfile : ∀ rec, src_hdr.get? n = some rec →
      disk.stored (n, rec) = (n, rec.stored src) := by
    intro rec hget
    rw [Disk.stored, hpath rec hget, Disk.read_eq_ok hsrc]
  rw [Disk.read_eq_ok hsrc, htensor]
  constructor
  · intro hmem
    obtain ⟨⟨n', rec⟩, hentry, heq⟩ := List.mem_map.mp hmem
    obtain ⟨hitem, hout⟩ := List.mem_filter.mp hentry
    obtain rfl : n' = n := congrArg Prod.fst heq
    have hget := PyDict.get?_eq_some_iff.mpr hitem
    rw [hfile rec hget] at heq
    obtain rfl := (Prod.mk.inj heq).2
    exact ⟨by simpa using hout, by rw [hget]; rfl⟩
  · rintro ⟨hkeep, hin⟩
    obtain ⟨rec, hget, rfl⟩ := Option.map_eq_some_iff.mp hin
    refine List.mem_map.mpr ⟨(n, rec), List.mem_filter.mpr ⟨PyDict.get?_eq_some_iff.mp hget, ?_⟩,
      hfile rec hget⟩
    simpa using hkeep

/-- What it brings in are the tensors the sources of the arriving names store. -/
theorem mem_brought {incoming : List (String × ShardPath)} {brought : List (String × Record)}
    (h : incoming.mapM (bringEntry json disk) = .ok brought) {n : String} {st : Stored} :
    (n, st) ∈ brought.map disk.stored ↔
      ∃ p, (n, p) ∈ incoming ∧ tensorIn json (disk.file p) n = some st := by
  constructor
  · intro hmem
    obtain ⟨entry, hentry, heq⟩ := List.mem_map.mp hmem
    obtain ⟨⟨n', p⟩, hin, hcall⟩ := (mem_mapM_ok h).mp hentry
    obtain ⟨hname, htensor⟩ := bringEntry_spec hcall
    obtain ⟨rfl, rfl⟩ := Prod.mk.inj heq
    exact ⟨p, by rw [hname]; exact hin, by rw [hname]; exact htensor⟩
  · rintro ⟨p, hin, htensor⟩
    obtain ⟨entry, hentry, hcall⟩ := exists_of_mapM_ok h hin
    obtain ⟨hname, htensor'⟩ := bringEntry_spec hcall
    refine List.mem_map.mpr ⟨entry, hentry, ?_⟩
    exact Prod.ext hname (Option.some.inj (htensor'.symm.trans htensor))

/-- A rewritten shard: `hdrop` says which of its own tensors go away, `hbring` that what arrives for a
name is unique and belongs to a module that moves. -/
theorem rewriteShard_spec {here : List Move} {file : Bytes} {names : List String}
    (h : rewriteShard json disk here shard = .ok (file, names))
    (hdrop : ∀ n, (tensorIn json (disk.file shard) n).isSome →
      (n ∈ here.flatMap (·.drop) ↔ ∃ m ∈ here, m.mod = moduleKey n))
    (hunique : ∀ n p p', (n, p) ∈ here.flatMap (·.bring) → (n, p') ∈ here.flatMap (·.bring) → p = p')
    (hbring : ∀ n p, (n, p) ∈ here.flatMap (·.bring) → ∃ m ∈ here, m.mod = moduleKey n) :
    (∀ n st, tensorIn json file n = some st ↔
      (∃ p, (n, p) ∈ here.flatMap (·.bring) ∧ tensorIn json (disk.file p) n = some st) ∨
      (∀ m ∈ here, m.mod ≠ moduleKey n) ∧ tensorIn json (disk.file shard) n = some st) ∧
    ∀ n, n ∈ names ↔ (tensorIn json file n).isSome := by
  obtain ⟨src, hsrc, h⟩ := bind_eq_ok h
  obtain ⟨⟨src_hdr, metadata⟩, hhdr, h⟩ := bind_eq_ok h
  obtain ⟨-, -, h⟩ := bind_eq_ok h
  obtain ⟨brought, hbrought, h⟩ := bind_eq_ok h
  obtain ⟨bytes, hwrite, h⟩ := bind_eq_ok h
  obtain ⟨rfl, rfl⟩ := Prod.mk.inj (Except.ok.inj h)
  have hspec := writeShard_spec hwrite
  set incoming := here.flatMap (·.bring) with hincoming
  set kept := src_hdr.items.filter fun p => p.1 ∉ here.flatMap (·.drop) with hkept
  -- what the entries store, the base's own first
  have hmem : ∀ n st, (n, st) ∈ (kept ++ brought).map disk.stored ↔
      (∃ p, (n, p) ∈ incoming ∧ tensorIn json (disk.file p) n = some st) ∨
      (∀ m ∈ here, m.mod ≠ moduleKey n) ∧ tensorIn json (disk.file shard) n = some st := by
    intro n st
    rw [List.map_append, List.mem_append, mem_kept hsrc hhdr, mem_brought hbrought, or_comm]
    refine or_congr_right (and_congr_left fun hin => ?_)
    rw [hdrop n (by rw [hin]; rfl), not_exists]
    exact forall_congr' fun m => not_and
  -- a name has one entry: what arrives displaces the base's own
  have hagree : ∀ n st st', (n, st) ∈ (kept ++ brought).map disk.stored →
      (n, st') ∈ (kept ++ brought).map disk.stored → st = st' := by
    intro n st st' h₁ h₂
    rcases (hmem n st).mp h₁ with ⟨p, hp, hst⟩ | ⟨hnone, hst⟩ <;>
      rcases (hmem n st').mp h₂ with ⟨p', hp', hst'⟩ | ⟨hnone', hst'⟩
    · obtain rfl := hunique n p p' hp hp'
      exact Option.some.inj (hst.symm.trans hst')
    · obtain ⟨m, hm, heq⟩ := hbring n p hp
      exact absurd heq (hnone' m hm)
    · obtain ⟨m, hm, heq⟩ := hbring n p' hp'
      exact absurd heq (hnone m hm)
    · exact Option.some.inj (hst.symm.trans hst')
  refine ⟨fun n st => ?_, fun n => ?_⟩
  · rw [hspec, PyDict.get?_ofList_eq_some_iff (hagree n)]
    exact hmem n st
  · rw [hspec, PyDict.isSome_get?_iff, PyDict.mem_keys_ofList, List.map_map]
    rfl

theorem linkShard_spec {file : Bytes} {names : List String}
    (h : linkShard json disk shard = .ok (file, names)) :
    file = disk.file shard ∧ ∀ n, n ∈ names ↔ (tensorIn json file n).isSome := by
  obtain ⟨src, hsrc, h⟩ := bind_eq_ok h
  obtain ⟨⟨len, header⟩, hheader, h⟩ := bind_eq_ok h
  obtain ⟨rfl, rfl⟩ := Prod.mk.inj (Except.ok.inj h)
  exact ⟨(Disk.read_eq_ok hsrc).symm,
    fun n => (isSome_tensorIn_iff (loadHeader_eq_ok.mp hheader)).symm⟩

/-- Whatever arrives for a name is named by a tensor of the module that moves. -/
theorem AreMoves.bring_module (hmoves : AreMoves base_t donors assign restore moves) {m : Move}
    (hm : m ∈ moves) {n : String} {p : ShardPath} (h : (n, p) ∈ m.bring) : m.mod = moduleKey n := by
  obtain ⟨d, brings, -, hmove⟩ := hmoves.isMove m hm
  exact ((hmove.bring n p).mp h).1.symm

/-- It comes from the module's one donor. -/
theorem AreMoves.bring_unique (hmoves : AreMoves base_t donors assign restore moves)
    (hdisjoint : ∀ mod, assign.get? mod = none ∨ restore.get? mod = none) {m m' : Move}
    (hm : m ∈ moves) (hm' : m' ∈ moves) {n : String} {p p' : ShardPath} (h : (n, p) ∈ m.bring)
    (h' : (n, p') ∈ m'.bring) : p = p' := by
  have hmod := (hmoves.bring_module hm h).trans (hmoves.bring_module hm' h').symm
  obtain ⟨d, brings, hrep, hmove⟩ := hmoves.isMove m hm
  obtain ⟨d', brings', hrep', hmove'⟩ := hmoves.isMove m' hm'
  rw [hmod] at hrep
  obtain ⟨rfl, -⟩ := hrep.unique hdisjoint hrep'
  obtain ⟨-, -, info, hinfo, rfl⟩ := (hmove.bring n p).mp h
  obtain ⟨-, -, info', hinfo', rfl⟩ := (hmove'.bring n p').mp h'
  rw [Option.some.inj (hinfo.symm.trans hinfo')]

/-- Every shard of the output stores what `ShardHolds` says, and the index lists its names. -/
theorem outputShard_spec (hmoves : AreMoves base_t donors assign restore moves)
    (hdisjoint : ∀ mod, assign.get? mod = none ∨ restore.get? mod = none)
    (hbase : ∀ n, (tensorIn json (disk.file shard) n).isSome → n ∈ base_t.keys)
    {file : Bytes} {names : List String}
    (h : outputShard json disk moves shard = .ok (file, names)) :
    (∀ n st, tensorIn json file n = some st ↔ ShardHolds json disk moves shard n st) ∧
    ∀ n, n ∈ names ↔ (tensorIn json file n).isSome := by
  unfold outputShard at h
  dsimp only at h
  set here := moves.filter (·.shard = shard) with hhere
  have hmem : ∀ m, m ∈ here ↔ m ∈ moves ∧ m.shard = shard := by simp [hhere]
  split_ifs at h with hempty
  · -- nothing moves here
    obtain ⟨rfl, hnames⟩ := linkShard_spec h
    refine ⟨fun n st => ?_, hnames⟩
    have hnone : ∀ m ∈ moves, m.shard ≠ shard := by
      intro m hm heq
      rw [List.isEmpty_iff.mp hempty] at hmem
      exact List.not_mem_nil ((hmem m).mpr ⟨hm, heq⟩)
    constructor
    · exact fun hin => .inr ⟨fun m hm heq => absurd heq (hnone m hm), hin⟩
    · rintro (⟨m, hm, heq, -⟩ | ⟨-, hin⟩)
      · exact absurd heq (hnone m hm)
      · exact hin
  · obtain ⟨hstored, hnames⟩ := rewriteShard_spec h
      (fun n hin => by
        rw [List.mem_flatMap]
        refine exists_congr fun m => and_congr_right fun hm => ?_
        obtain ⟨d, brings, -, hmove⟩ := hmoves.isMove m ((hmem m).mp hm).1
        rw [hmove.drop, and_iff_right (hbase n hin), eq_comm])
      (fun n p p' hp hp' => by
        obtain ⟨m, hm, hbring⟩ := List.mem_flatMap.mp hp
        obtain ⟨m', hm', hbring'⟩ := List.mem_flatMap.mp hp'
        exact hmoves.bring_unique hdisjoint ((hmem m).mp hm).1 ((hmem m').mp hm').1 hbring hbring')
      (fun n p hp => by
        obtain ⟨m, hm, hbring⟩ := List.mem_flatMap.mp hp
        exact ⟨m, hm, hmoves.bring_module ((hmem m).mp hm).1 hbring⟩)
    refine ⟨fun n st => ?_, hnames⟩
    rw [hstored, ShardHolds]
    simp only [List.mem_flatMap, hmem, and_imp, and_assoc]
    refine or_congr ?_ Iff.rfl
    constructor
    · rintro ⟨p, ⟨m, hm, hshard, hbring⟩, hin⟩
      exact ⟨m, hm, hshard, p, hbring, hin⟩
    · rintro ⟨m, hm, hshard, p, hbring, hin⟩
      exact ⟨p, ⟨m, hm, hshard, hbring⟩, hin⟩

/-! ## The directory -/

/-- The loop over shards whose file names are distinct: each shard's file, and in `weight_map` one
shard for each of the names listed. -/
theorem writeSteps_spec {shards : List ShardPath} (hnodup : (shards.map (·.name)).Nodup)
    {acc acc' : Dir × PyDict String String}
    (h : shards.foldlM (writeStep json disk moves) acc = .ok acc') :
    (∀ s ∈ shards, ∃ file names, outputShard json disk moves s = .ok (file, names) ∧
      acc'.1.get? s.name = some file ∧ ∀ k ∈ names, (acc'.2.get? k).isSome) ∧
    (∀ n, n ∉ shards.map (·.name) → acc'.1.get? n = acc.1.get? n) ∧
    (∀ k n, acc'.2.get? k = some n → acc.2.get? k = some n ∨ ∃ s ∈ shards, s.name = n ∧
      ∃ file names, outputShard json disk moves s = .ok (file, names) ∧ k ∈ names) ∧
    ∀ k, (acc.2.get? k).isSome → (acc'.2.get? k).isSome := by
  induction shards generalizing acc with
  | nil =>
    obtain rfl := Except.ok.inj h
    simp
  | cons s rest ih =>
    obtain ⟨hout, hnodup⟩ := List.nodup_cons.mp hnodup
    rw [List.foldlM_cons] at h
    obtain ⟨acc₁, hstep, h⟩ := bind_eq_ok h
    obtain ⟨⟨file, names⟩, hshard, hstep⟩ := bind_eq_ok hstep
    obtain rfl := Except.ok.inj hstep
    obtain ⟨hfiles, hothers, hmap, hkeep⟩ := ih hnodup h
    refine ⟨fun s' hs' => ?_, fun n hn => ?_, fun k n hk => ?_, fun k hk => hkeep k ?_⟩
    · rcases List.mem_cons.mp hs' with rfl | hrest
      · refine ⟨file, names, hshard, ?_, fun k hk => hkeep k ?_⟩
        · rw [hothers s'.name hout, PyDict.get?_set_self]
        · rw [PyDict.get?_foldl_set_const, if_pos hk]
          rfl
      · exact hfiles s' hrest
    · obtain ⟨hne, hrest⟩ : n ≠ s.name ∧ n ∉ rest.map (·.name) := by simpa using hn
      rw [hothers n hrest, PyDict.get?_set_ne _ _ hne]
    · rcases hmap k n hk with hk₁ | ⟨s', hs', hrest⟩
      · rw [PyDict.get?_foldl_set_const] at hk₁
        split_ifs at hk₁ with hin
        · exact .inr ⟨s, List.mem_cons_self, Option.some.inj hk₁, file, names, hshard, hin⟩
        · exact .inl hk₁
      · exact .inr ⟨s', List.mem_cons_of_mem s hs', hrest⟩
    · rw [PyDict.get?_foldl_set_const]
      split_ifs
      · rfl
      · exact hk

theorem mem_shardsOf : shard ∈ shardsOf t ↔ ∃ n info, t.get? n = some info ∧ info.path = shard := by
  simp only [shardsOf, List.mem_insertionSort, List.mem_dedup, PyDict.values, List.mem_map,
    PyDict.get?_eq_some_iff]
  constructor
  · rintro ⟨info, ⟨⟨n, info'⟩, hmem, rfl⟩, rfl⟩
    exact ⟨n, info', hmem, rfl⟩
  · rintro ⟨n, info, hmem, rfl⟩
    exact ⟨info, ⟨(n, info), hmem, rfl⟩, rfl⟩

/-- Files that travel unchanged are no shards. -/
theorem get?_passed {files : List (String × Bytes)} {n : String} (hn : isShard n = true) :
    ((files.filter fun f => passesThrough f.1).foldl (fun out f => out.set f.1 f.2) out).get? n =
      out.get? n := by
  have hsuffix : endswith n ".safetensors" = true := (Bool.and_eq_true_iff.mp hn).1
  have hnone : ((files.filter fun f => passesThrough f.1).reverse.find? fun f => f.1 = n) = none := by
    rw [List.find?_eq_none]
    intro f hf
    have hpasses := (List.mem_filter.mp (List.mem_reverse.mp hf)).2
    intro heq
    rw [decide_eq_true_eq] at heq
    rw [heq, passesThrough, hsuffix] at hpasses
    simp at hpasses
  rw [PyDict.get?_foldl_set, hnone]
  rfl

theorem write_spec (h : write json disk base output base_t donors assign restore = .ok out) :
    ∃ moves dir weight_map, movesOf base_t donors assign restore = .ok moves ∧
      (shardsOf base_t).foldlM (writeStep json disk moves) (.empty, .empty) = .ok (dir, weight_map) ∧
      (∀ n, isShard n = true → out.get? n = dir.get? n) ∧
      ((((disk base).getD .empty).get? INDEX_NAME).isSome → ∃ file index,
        out.get? INDEX_NAME = some file ∧ json.loadsIndex file = some index ∧
          index.weight_map = weight_map) := by
  obtain ⟨-, -, h⟩ := bind_eq_ok h
  obtain ⟨moves, hmoves, h⟩ := bind_eq_ok h
  obtain ⟨⟨dir, weight_map⟩, hloop, h⟩ := bind_eq_ok h
  refine ⟨moves, dir, weight_map, hmoves, hloop, ?_⟩
  dsimp only at h
  cases hindex : ((disk base).getD .empty).get? INDEX_NAME with
  | none =>
    rw [hindex] at h
    obtain rfl := Except.ok.inj h
    exact ⟨fun n hn => get?_passed hn, fun hsome => absurd hsome Bool.false_ne_true⟩
  | some src =>
    rw [hindex] at h
    cases hload : json.loadsIndex src with
    | none =>
      simp only [hload] at h
      cases h
    | some index =>
      simp only [hload] at h
      obtain rfl := Except.ok.inj h
      refine ⟨fun n hn => ?_, fun _ => ⟨_, _, PyDict.get?_set_self _ _ _,
        json.loads_dumpsIndex _, rfl⟩⟩
      rw [PyDict.get?_set_ne, get?_passed hn]
      rintro rfl
      revert hn
      decide

/-- What a written directory is, in terms of the shards and moves it was written from. -/
structure Written (json : Json) (disk : Disk) (base_t : Tensors) (moves : List Move)
    (weight_map : PyDict String String) (out : Dir) : Prop where
  holds_iff : ∀ n name st, Holds json out n name st ↔
    ∃ s ∈ shardsOf base_t, s.name = n ∧ ShardHolds json disk moves s name st
  listed : ∀ name n, weight_map.get? name = some n → ∃ st, Holds json out n name st
  lists : ∀ n name st, Holds json out n name st → (weight_map.get? name).isSome

section Output

variable (hbase : readHeaders json disk base = .ok base_t) (hone : OneShardEach json disk base)
  (hdisjoint : ∀ mod, assign.get? mod = none ∨ restore.get? mod = none)

include hbase hone

theorem shardsOf_nodup : ((shardsOf base_t).map (·.name)).Nodup := by
  have hnodup : (shardsOf base_t).Nodup :=
    (List.perm_insertionSort _ _).nodup_iff.mpr (List.nodup_dedup _)
  refine hnodup.map_on fun p hp q hq heq => ?_
  obtain ⟨n, info, hinfo, hpath⟩ := mem_shardsOf.mp hp
  obtain ⟨n', info', hinfo', hpath'⟩ := mem_shardsOf.mp hq
  have hdir := ((readHeaders_spec hbase hone p).mp ⟨info, hinfo, hpath⟩).1
  have hdir' := ((readHeaders_spec hbase hone q).mp ⟨info', hinfo', hpath'⟩).1
  obtain ⟨pdir, pname⟩ := p
  obtain ⟨qdir, qname⟩ := q
  obtain rfl : pdir = base := hdir
  obtain rfl : qdir = pdir := hdir'
  obtain rfl : pname = qname := heq
  rfl

/-- The base's tensors of a shard, as `read_headers` records them. -/
theorem base_in_shard (hshard : shard ∈ shardsOf base_t) (name : String) :
    (tensorIn json (disk.file shard) name).isSome ↔
      ∃ info, base_t.get? name = some info ∧ info.path = shard := by
  obtain ⟨n, info, hinfo, hpath⟩ := mem_shardsOf.mp hshard
  obtain ⟨hdir, hglob, -⟩ := (readHeaders_spec hbase hone shard).mp ⟨info, hinfo, hpath⟩
  rw [readHeaders_spec hbase hone shard, and_iff_right hdir, and_iff_right hglob]

include hdisjoint

/-- The loop writes, of each base shard, what `ShardHolds` says, and lists it. -/
theorem written {dir : Dir} {weight_map : PyDict String String}
    (hmoves : AreMoves base_t donors assign restore moves)
    (hloop : (shardsOf base_t).foldlM (writeStep json disk moves) (.empty, .empty) =
      .ok (dir, weight_map))
    (hdir : ∀ n, isShard n = true → out.get? n = dir.get? n) :
    Written json disk base_t moves weight_map out := by
  obtain ⟨hfiles, hothers, hmap, -⟩ := writeSteps_spec (shardsOf_nodup hbase hone) hloop
  have hspec : ∀ s ∈ shardsOf base_t, ∀ file names,
      outputShard json disk moves s = .ok (file, names) →
      (∀ n st, tensorIn json file n = some st ↔ ShardHolds json disk moves s n st) ∧
        ∀ n, n ∈ names ↔ (tensorIn json file n).isSome := by
    intro s hs file names hout
    refine outputShard_spec hmoves hdisjoint (fun n hin => ?_) hout
    obtain ⟨info, hinfo, -⟩ := (base_in_shard hbase hone hs n).mp hin
    exact PyDict.mem_keys_of_get? hinfo
  have hglob : ∀ s ∈ shardsOf base_t, isShard s.name = true := by
    intro s hs
    obtain ⟨n, info, hinfo, hpath⟩ := mem_shardsOf.mp hs
    exact isShard_of_mem ((readHeaders_spec hbase hone s).mp ⟨info, hinfo, hpath⟩).2.1
  -- a shard of the output is a file the loop wrote
  have hwritten : ∀ n file, isShard n = true → out.get? n = some file → ∃ s ∈ shardsOf base_t,
      s.name = n ∧ ∃ names, outputShard json disk moves s = .ok (file, names) ∧
        ∀ k ∈ names, (weight_map.get? k).isSome := by
    intro n file hshard hget
    rw [hdir n hshard] at hget
    have hmem : n ∈ (shardsOf base_t).map (·.name) := by
      by_contra hout
      rw [hothers n hout] at hget
      cases hget
    obtain ⟨s, hs, rfl⟩ := List.mem_map.mp hmem
    obtain ⟨file', names, hout, hfile', hlisted⟩ := hfiles s hs
    obtain rfl := Option.some.inj (hget.symm.trans hfile')
    exact ⟨s, hs, rfl, names, hout, hlisted⟩
  have hholds : ∀ s ∈ shardsOf base_t, ∀ file, dir.get? s.name = some file →
      ∀ name st, tensorIn json file name = some st → Holds json out s.name name st := by
    intro s hs file hfile name st hin
    refine ⟨hglob s hs, file, ?_, hin⟩
    rw [hdir _ (hglob s hs), hfile]
  refine ⟨fun n name st => ?_, fun name n hget => ?_, fun n name st hholds' => ?_⟩
  · constructor
    · rintro ⟨hshard, file, hget, hin⟩
      obtain ⟨s, hs, rfl, names, hout, -⟩ := hwritten n file hshard hget
      exact ⟨s, hs, rfl, ((hspec s hs file names hout).1 name st).mp hin⟩
    · rintro ⟨s, hs, rfl, hin⟩
      obtain ⟨file, names, hout, hfile, -⟩ := hfiles s hs
      exact hholds s hs file hfile name st
        (((hspec s hs file names hout).1 name st).mpr hin)
  · rcases hmap name n hget with hempty | ⟨s, hs, rfl, file, names, hout, hin⟩
    · cases hempty
    · obtain ⟨file', names', hout', hfile, -⟩ := hfiles s hs
      obtain ⟨rfl, rfl⟩ := Prod.mk.inj (Except.ok.inj (hout.symm.trans hout'))
      obtain ⟨st, hst⟩ :=
        Option.isSome_iff_exists.mp (((hspec s hs file names hout).2 name).mp hin)
      exact ⟨st, hholds s hs file hfile name st hst⟩
  · obtain ⟨hshard, file, hget, hin⟩ := hholds'
    obtain ⟨s, hs, rfl, names, hout, hlisted⟩ := hwritten n file hshard hget
    exact hlisted name (((hspec s hs file names hout).2 name).mpr (by rw [hin]; rfl))

end Output

/-! ## Replaced modules -/

/-- A module begins in one shard: that of its first tensor. -/
theorem IsMove.begins {m : Move} {d : Donor} {brings : String → Bool}
    (h : IsMove base_t m d brings) :
    ∃ n info, base_t.get? n = some info ∧ moduleKey n = m.mod ∧ info.path = m.shard := by
  obtain ⟨group, first, hgroup, hfirst, hshard⟩ := h.shard
  have hmem := PyDict.mem_keys_of_get? hfirst
  cases group with
  | nil =>
    -- a group is never empty
    obtain ⟨n, hn, hmod⟩ := mem_keys_modulesOf.mp (PyDict.mem_keys_of_get? hgroup)
    exact absurd ((mem_group hgroup).mpr ⟨hn, hmod⟩) List.not_mem_nil
  | cons n rest =>
    exact ⟨n, first, hfirst, ((mem_group hgroup).mp List.mem_cons_self).2, hshard.symm⟩

theorem IsMove.shard_unique {m m' : Move} {d d' : Donor} {brings brings' : String → Bool}
    (h : IsMove base_t m d brings) (h' : IsMove base_t m' d' brings') (hmod : m.mod = m'.mod) :
    m.shard = m'.shard := by
  obtain ⟨group, first, hgroup, hfirst, hshard⟩ := h.shard
  obtain ⟨group', first', hgroup', hfirst', hshard'⟩ := h'.shard
  rw [hmod] at hgroup
  obtain rfl := Option.some.inj (hgroup.symm.trans hgroup')
  obtain rfl := Option.some.inj (hfirst.symm.trans hfirst')
  rw [hshard, hshard']

/-- The one move of a replaced module. -/
structure Moves (base_t : Tensors) (donors : PyDict String Donor)
    (assign restore : PyDict String String) (moves : List Move) (mod : String) (m : Move) (d : Donor)
    (brings : String → Bool) : Prop where
  mem : m ∈ moves
  mod_eq : m.mod = mod
  replaced : Replaced donors assign restore mod d brings
  isMove : IsMove base_t m d brings

theorem AreMoves.of_replaced (hmoves : AreMoves base_t donors assign restore moves)
    (h : (assign.get? mod).isSome ∨ (restore.get? mod).isSome) :
    ∃ m d brings, Moves base_t donors assign restore moves mod m d brings := by
  obtain ⟨m, hm, rfl⟩ := hmoves.all mod h
  obtain ⟨d, brings, hrep, hmove⟩ := hmoves.isMove m hm
  exact ⟨m, d, brings, hm, rfl, hrep, hmove⟩

/-- What moves bring of a replaced module: its donor's travelling tensors, into the shard it begins
in. -/
theorem arrives_iff (hmoves : AreMoves base_t donors assign restore moves)
    (hdisjoint : ∀ mod, assign.get? mod = none ∨ restore.get? mod = none) {m : Move} {d : Donor}
    {brings : String → Bool}
    (h : Moves base_t donors assign restore moves (moduleKey name) m d brings) :
    (∃ m' ∈ moves, m'.shard = shard ∧
      ∃ p, (name, p) ∈ m'.bring ∧ tensorIn json (disk.file p) name = some st) ↔
    shard = m.shard ∧ brings name = true ∧ d.tensors.stored json disk name = some st := by
  constructor
  · rintro ⟨m', hm', rfl, p, hbring, hin⟩
    obtain ⟨d', brings', hrep', hmove'⟩ := hmoves.isMove m' hm'
    obtain ⟨hmod, hbrings, info, hinfo, rfl⟩ := (hmove'.bring name p).mp hbring
    obtain ⟨rfl, rfl⟩ := h.replaced.unique hdisjoint (hmod ▸ hrep')
    refine ⟨hmove'.shard_unique h.isMove (hmod.symm.trans h.mod_eq.symm), hbrings, ?_⟩
    rw [Tensors.stored, hinfo]
    exact hin
  · rintro ⟨rfl, hbrings, hstored⟩
    obtain ⟨info, hinfo, hin⟩ := Option.bind_eq_some_iff.mp hstored
    exact ⟨m, h.mem, rfl, info.path,
      (h.isMove.bring name info.path).mpr ⟨h.mod_eq.symm, hbrings, info, hinfo, rfl⟩, hin⟩

/-- Of a module that is not replaced a shard holds the base's own tensors. -/
theorem shardHolds_kept (hmoves : AreMoves base_t donors assign restore moves)
    (hassign : assign.get? (moduleKey name) = none)
    (hrestore : restore.get? (moduleKey name) = none) :
    ShardHolds json disk moves shard name st ↔ tensorIn json (disk.file shard) name = some st := by
  have hnone : ∀ m ∈ moves, m.mod ≠ moduleKey name := by
    intro m hm hmod
    obtain ⟨d, brings, hrep, -⟩ := hmoves.isMove m hm
    rw [hmod] at hrep
    rcases hrep with ⟨dir, hdir, -, -⟩ | ⟨dir, hdir, -, -⟩
    · rw [hassign] at hdir
      cases hdir
    · rw [hrestore] at hdir
      cases hdir
  rw [ShardHolds]
  constructor
  · rintro (⟨m, hm, -, p, hbring, -⟩ | ⟨-, hin⟩)
    · obtain ⟨d, brings, -, hmove⟩ := hmoves.isMove m hm
      exact absurd ((hmove.bring name p).mp hbring).1.symm (hnone m hm)
    · exact hin
  · exact fun hin => .inr ⟨fun m hm _ => hnone m hm, hin⟩

section Whole

variable (hbase : readHeaders json disk base = .ok base_t) (hone : OneShardEach json disk base)
  (hdisjoint : ∀ mod, assign.get? mod = none ∨ restore.get? mod = none)
  (hmoves : AreMoves base_t donors assign restore moves)

include hbase hone hdisjoint hmoves

/-- Where no replaced module is spread over shards, a shard holds of it exactly what arrives. -/
theorem shardHolds_replaced (hwhole : ReplacedInOneShard base_t assign restore) {m : Move}
    {d : Donor} {brings : String → Bool}
    (h : Moves base_t donors assign restore moves (moduleKey name) m d brings)
    (hshard : shard ∈ shardsOf base_t) :
    ShardHolds json disk moves shard name st ↔
      shard = m.shard ∧ brings name = true ∧ d.tensors.stored json disk name = some st := by
  rw [ShardHolds, arrives_iff hmoves hdisjoint h, or_iff_left]
  rintro ⟨hnone, hin⟩
  obtain ⟨info, hinfo, rfl⟩ := (base_in_shard hbase hone hshard name).mp (by rw [hin]; rfl)
  obtain ⟨n, first, hfirst, hmod, hbegins⟩ := h.isMove.begins
  have hreplaced : (assign.get? (moduleKey n)).isSome ∨ (restore.get? (moduleKey n)).isSome := by
    rw [hmod, h.mod_eq]
    rcases h.replaced with ⟨dir, hdir, -, -⟩ | ⟨dir, hdir, -, -⟩
    · exact .inl (by rw [hdir]; rfl)
    · exact .inr (by rw [hdir]; rfl)
  have hsame := hwhole n name first info hfirst hinfo (hmod.trans h.mod_eq) hreplaced
  exact hnone m h.mem (hbegins.symm.trans hsame) h.mod_eq

/-- In the output, then, a replaced module's tensors are its donor's, in the shard it begins in. -/
theorem holds_replaced {weight_map : PyDict String String}
    (hout : Written json disk base_t moves weight_map out)
    (hwhole : ReplacedInOneShard base_t assign restore) {m : Move} {d : Donor}
    {brings : String → Bool}
    (h : Moves base_t donors assign restore moves (moduleKey name) m d brings) {n : String} :
    Holds json out n name st ↔
      m.shard.name = n ∧ brings name = true ∧ d.tensors.stored json disk name = some st := by
  rw [hout.holds_iff]
  constructor
  · rintro ⟨s, hs, rfl, hin⟩
    obtain ⟨rfl, hrest⟩ := (shardHolds_replaced hbase hone hdisjoint hmoves hwhole h hs).mp hin
    exact ⟨rfl, hrest⟩
  · rintro ⟨rfl, hrest⟩
    obtain ⟨first, finfo, hfirst, -, hbegins⟩ := h.isMove.begins
    have hs : m.shard ∈ shardsOf base_t := mem_shardsOf.mpr ⟨first, finfo, hfirst, hbegins⟩
    exact ⟨m.shard, hs, rfl,
      (shardHolds_replaced hbase hone hdisjoint hmoves hwhole h hs).mpr ⟨rfl, hrest⟩⟩

omit hdisjoint in
/-- And any other tensor is the base's, where it was. -/
theorem holds_kept {weight_map : PyDict String String}
    (hout : Written json disk base_t moves weight_map out)
    (hassign : assign.get? (moduleKey name) = none)
    (hrestore : restore.get? (moduleKey name) = none) {n : String} :
    Holds json out n name st ↔ ∃ info, base_t.get? name = some info ∧ info.path.name = n ∧
      base_t.stored json disk name = some st := by
  rw [hout.holds_iff]
  constructor
  · rintro ⟨s, hs, rfl, hin⟩
    rw [shardHolds_kept hmoves hassign hrestore] at hin
    obtain ⟨info, hinfo, rfl⟩ := (base_in_shard hbase hone hs name).mp (by rw [hin]; rfl)
    refine ⟨info, hinfo, rfl, ?_⟩
    rw [Tensors.stored, hinfo]
    exact hin
  · rintro ⟨info, hinfo, rfl, hstored⟩
    refine ⟨info.path, mem_shardsOf.mpr ⟨name, info, hinfo, rfl⟩, rfl, ?_⟩
    rw [shardHolds_kept hmoves hassign hrestore]
    rw [Tensors.stored, hinfo] at hstored
    exact hstored

/-- No name is in two shards of the output. -/
theorem holds_once {weight_map : PyDict String String}
    (hout : Written json disk base_t moves weight_map out)
    (hwhole : ReplacedInOneShard base_t assign restore) {n n' : String} {st st' : Stored}
    (h : Holds json out n name st) (h' : Holds json out n' name st') : n = n' := by
  by_cases hmod : (assign.get? (moduleKey name)).isSome ∨ (restore.get? (moduleKey name)).isSome
  · obtain ⟨m, d, brings, hm⟩ := hmoves.of_replaced hmod
    rw [holds_replaced hbase hone hdisjoint hmoves hout hwhole hm] at h h'
    rw [← h.1, ← h'.1]
  · obtain ⟨hassign, hrestore⟩ : assign.get? (moduleKey name) = none ∧
        restore.get? (moduleKey name) = none := by simpa using hmod
    rw [holds_kept hbase hone hmoves hout hassign hrestore] at h h'
    obtain ⟨info, hinfo, rfl, -⟩ := h
    obtain ⟨info', hinfo', rfl, -⟩ := h'
    rw [Option.some.inj (hinfo.symm.trans hinfo')]

/-- Where modules did move whole, no tensor of a replaced module lies outside the shard the module
begins in: it would stay there. -/
theorem path_eq_of_movesWhole {weight_map : PyDict String String}
    (hout : Written json disk base_t moves weight_map out)
    (hpromise : MovesWhole json disk base base_t donors assign restore out) {info : TensorInfo}
    (hinfo : base_t.get? name = some info) {m : Move} {d : Donor} {brings : String → Bool}
    (h : Moves base_t donors assign restore moves (moduleKey name) m d brings) :
    info.path = m.shard := by
  by_contra hne
  have hshard : info.path ∈ shardsOf base_t := mem_shardsOf.mpr ⟨name, info, hinfo, rfl⟩
  obtain ⟨st, hst⟩ := Option.isSome_iff_exists.mp
    ((base_in_shard hbase hone hshard name).mpr ⟨info, hinfo, rfl⟩)
  have hsurvives : ShardHolds json disk moves info.path name st := by
    refine .inr ⟨fun m' hm' heq hmod => hne ?_, hst⟩
    obtain ⟨d', brings', -, hmove'⟩ := hmoves.isMove m' hm'
    rw [← heq]
    exact hmove'.shard_unique h.isMove (hmod.trans h.mod_eq.symm)
  have hthere : Holds json out info.path.name name st :=
    (hout.holds_iff _ _ _).mpr ⟨info.path, hshard, rfl, hsurvives⟩
  -- so the donor has it too, and it also arrives in the shard the module begins in
  have hdonor : brings name = true ∧ d.tensors.stored json disk name = some st := by
    rcases h.replaced with ⟨dir, hassign, hd, rfl⟩ | ⟨dir, hrestore, hd, rfl⟩
    · exact ⟨rfl, (hpromise.taken _ dir d hassign hd name rfl st).mp ⟨_, hthere⟩⟩
    · exact (hpromise.restored _ dir d hrestore hd name rfl st).mp ⟨_, hthere⟩
  obtain ⟨first, finfo, hfirst, -, hbegins⟩ := h.isMove.begins
  have hmshard : m.shard ∈ shardsOf base_t := mem_shardsOf.mpr ⟨first, finfo, hfirst, hbegins⟩
  have harrives : Holds json out m.shard.name name st :=
    (hout.holds_iff _ _ _).mpr ⟨m.shard, hmshard, rfl,
      .inl ((arrives_iff hmoves hdisjoint h).mpr ⟨rfl, hdonor⟩)⟩
  have hname := hpromise.once name _ _ _ _ hthere harrives
  exact hne (List.inj_on_of_nodup_map (shardsOf_nodup hbase hone) hshard hmshard hname)

end Whole

/-- Composition moves modules whole exactly when every replaced module's base tensors lie in one
shard: for every base whose names are each in one shard, every donors, and every assignment and
restoration of disjoint sets of modules that `write` completes. -/
theorem write_moves_whole (hbase : readHeaders json disk base = .ok base_t)
    (hone : OneShardEach json disk base)
    (hdisjoint : ∀ mod, assign.get? mod = none ∨ restore.get? mod = none)
    (hwrite : write json disk base output base_t donors assign restore = .ok out) :
    MovesWhole json disk base base_t donors assign restore out ↔
      ReplacedInOneShard base_t assign restore := by
  obtain ⟨moves, dir, weight_map, hmovesOf, hloop, hdir, hindex⟩ := write_spec hwrite
  have hmoves := movesOf_spec hmovesOf
  have hout := written hbase hone hdisjoint hmoves hloop hdir
  constructor
  · intro hpromise n n' info info' hinfo hinfo' hmod hreplaced
    obtain ⟨m, d, brings, h⟩ := hmoves.of_replaced hreplaced
    rw [path_eq_of_movesWhole hbase hone hdisjoint hmoves hout hpromise hinfo h,
      path_eq_of_movesWhole hbase hone hdisjoint hmoves hout hpromise hinfo' (hmod ▸ h)]
  · intro hwhole
    have honce : ∀ name n n' st st', Holds json out n name st → Holds json out n' name st' →
        n = n' := fun _ _ _ _ _ => holds_once hbase hone hdisjoint hmoves hout hwhole
    refine ⟨?_, ?_, ?_, honce, ?_⟩
    · rintro mod dir d hassign hd name rfl st
      obtain ⟨m, d', brings, h⟩ := hmoves.of_replaced (.inl (by rw [hassign]; rfl))
      obtain ⟨rfl, rfl⟩ := h.replaced.unique hdisjoint (.inl ⟨dir, hassign, hd, rfl⟩)
      simp only [holds_replaced hbase hone hdisjoint hmoves hout hwhole h, exists_and_right,
        exists_eq', true_and]
    · rintro mod dir d hrestore hd name rfl st
      obtain ⟨m, d', brings, h⟩ := hmoves.of_replaced (.inr (by rw [hrestore]; rfl))
      obtain ⟨rfl, rfl⟩ := h.replaced.unique hdisjoint (.inr ⟨dir, hrestore, hd, rfl⟩)
      simp only [holds_replaced hbase hone hdisjoint hmoves hout hwhole h, exists_and_right,
        exists_eq', true_and]
    · intro name hassign hrestore st
      simp only [holds_kept hbase hone hmoves hout hassign hrestore]
      constructor
      · rintro ⟨_, _, _, _, hstored⟩
        exact hstored
      · intro hstored
        obtain ⟨info, hinfo, -⟩ := Option.bind_eq_some_iff.mp hstored
        exact ⟨_, info, hinfo, rfl, hstored⟩
    · -- the index lists what the shards hold, each name once
      intro hhas
      obtain ⟨file, index, hfile, hload, hmap⟩ := hindex hhas
      refine ⟨file, index, hfile, hload, fun name n => ?_⟩
      rw [hmap]
      constructor
      · exact hout.listed name n
      · rintro ⟨st, hin⟩
        obtain ⟨n', hget⟩ := Option.isSome_iff_exists.mp (hout.lists n name st hin)
        obtain ⟨st', hin'⟩ := hout.listed name n' hget
        rw [hget, honce name n n' st st' hin hin']

/-! ### A layer spread over two shards -/

def matrixRec (start : Nat) : HeaderRec := ⟨"I16", [1, 1, 16], (start, start + 32)⟩
def vectorRec (start : Nat) : HeaderRec := ⟨"F16", [16], (start, start + 32)⟩

/-- The base's first shard: a layer's trellis, and a norm. -/
def baseHeader₁ : Header :=
  ⟨⟨[("a.trellis", matrixRec 0), ("norm.weight", vectorRec 32)], by decide⟩, []⟩

/-- Its second shard: the layer's scales. -/
def baseHeader₂ : Header := ⟨⟨[("a.suh", vectorRec 0), ("a.svh", vectorRec 32)], by decide⟩, []⟩

/-- The arm's only shard. -/
def armHeader : Header :=
  ⟨⟨[("a.suh", vectorRec 0), ("a.svh", vectorRec 32), ("a.trellis", matrixRec 64),
    ("norm.weight", vectorRec 96)], by decide⟩, []⟩

/-- The second shard when the layer is taken from the arm. -/
def layerHeader : Header :=
  ⟨⟨[("a.suh", vectorRec 0), ("a.svh", vectorRec 32), ("a.trellis", matrixRec 64)], by decide⟩,
    [("format", "pt")]⟩

/-- The first shard when the norm is. -/
def normHeader : Header :=
  ⟨⟨[("a.trellis", matrixRec 0), ("norm.weight", vectorRec 32)], by decide⟩, [("format", "pt")]⟩

/-- An index of these tensors, the trellis in this shard. -/
def layerIndex (total_size : Nat) (trellis : String) : Index where
  metadata := ⟨[("total_size", .int total_size)], by simp⟩
  weight_map := ⟨[("a.trellis", trellis), ("norm.weight", "model-1.safetensors"),
    ("a.suh", "model-2.safetensors"), ("a.svh", "model-2.safetensors")], by
      show ["a.trellis", "norm.weight", "a.suh", "a.svh"].Nodup
      decide⟩

/-- `json` on the documents that occur. -/
def layerJson : Json :=
  Json.ofDocuments [baseHeader₁, baseHeader₂, armHeader, layerHeader, normHeader]
    [layerIndex 128 "model-1.safetensors", layerIndex 536 "model-2.safetensors",
      layerIndex 432 "model-1.safetensors"]
    (by decide +kernel) (by decide +kernel)

/-- Each tensor's bytes are one byte, 32 times. -/
def filled (bs : List UInt8) : Bytes := bs.flatMap (List.replicate 32)

/-- The base and the arm. -/
def layerDisk : Disk := fun dir =>
  if dir = "base" then some ⟨[("model-1.safetensors", shardFile baseHeader₁ (filled [1, 2])),
    ("model-2.safetensors", shardFile baseHeader₂ (filled [3, 4])),
    (INDEX_NAME, utf8 (indexText (layerIndex 128 "model-1.safetensors")))], by decide⟩
  else if dir = "arm" then
    some ⟨[("model.safetensors", shardFile armHeader (filled [13, 14, 11, 12]))], by decide⟩
  else none

def baseTensors : Tensors :=
  ⟨[("a.trellis", ⟨⟨"base", "model-1.safetensors"⟩, [1, 1, 16], "I16"⟩),
    ("norm.weight", ⟨⟨"base", "model-1.safetensors"⟩, [16], "F16"⟩),
    ("a.suh", ⟨⟨"base", "model-2.safetensors"⟩, [16], "F16"⟩),
    ("a.svh", ⟨⟨"base", "model-2.safetensors"⟩, [16], "F16"⟩)], by decide⟩

def armTensors : Tensors :=
  ⟨[("a.suh", ⟨⟨"arm", "model.safetensors"⟩, [16], "F16"⟩),
    ("a.svh", ⟨⟨"arm", "model.safetensors"⟩, [16], "F16"⟩),
    ("a.trellis", ⟨⟨"arm", "model.safetensors"⟩, [1, 1, 16], "I16"⟩),
    ("norm.weight", ⟨⟨"arm", "model.safetensors"⟩, [16], "F16"⟩)], by decide⟩

def layerArms : PyDict String Donor := ⟨[("arm", ⟨"arm", armTensors⟩)], by decide⟩

/-- One module taken from the arm. -/
def fromArm (mod : String) : PyDict String String := ⟨[(mod, "arm")], by simp⟩

/-- The output when the layer is taken: the base's trellis stays in the first shard. -/
def layerOut : Dir :=
  ⟨[("model-1.safetensors", shardFile baseHeader₁ (filled [1, 2])),
    ("model-2.safetensors", shardFile layerHeader (filled [13, 14, 11])),
    (INDEX_NAME, utf8 (indexText (layerIndex 536 "model-2.safetensors")))], by decide⟩

/-- The output when the norm is. -/
def normOut : Dir :=
  ⟨[("model-1.safetensors", shardFile normHeader (filled [1, 12])),
    ("model-2.safetensors", shardFile baseHeader₂ (filled [3, 4])),
    (INDEX_NAME, utf8 (indexText (layerIndex 432 "model-1.safetensors")))], by decide⟩

theorem read_baseTensors : readHeaders layerJson layerDisk "base" = .ok baseTensors := by
  decide +kernel

theorem base_oneShardEach : OneShardEach layerJson layerDisk "base" := by
  have hnames : shardNames layerDisk "base" = ["model-1.safetensors", "model-2.safetensors"] := by
    decide +kernel
  have hparse₁ : parseHeader layerJson (layerDisk.file ⟨"base", "model-1.safetensors"⟩) =
      some (136, baseHeader₁) := by decide +kernel
  have hparse₂ : parseHeader layerJson (layerDisk.file ⟨"base", "model-2.safetensors"⟩) =
      some (120, baseHeader₂) := by decide +kernel
  have hdisjoint : ∀ name ∈ baseHeader₁.tensors.keys, name ∉ baseHeader₂.tensors.keys := by decide
  rw [OneShardEach, hnames]
  intro p hp q hq name hin hin'
  simp only [List.mem_cons, List.not_mem_nil, or_false] at hp hq
  rcases hp with rfl | rfl <;> rcases hq with rfl | rfl
  · rfl
  · rw [isSome_tensorIn_iff hparse₁] at hin
    rw [isSome_tensorIn_iff hparse₂] at hin'
    exact absurd hin' (hdisjoint name hin)
  · rw [isSome_tensorIn_iff hparse₂] at hin
    rw [isSome_tensorIn_iff hparse₁] at hin'
    exact absurd hin (hdisjoint name hin')
  · rfl

/-- Taking the layer leaves the base's trellis in the output beside the arm's. -/
theorem layer_not_whole :
    readHeaders layerJson layerDisk "base" = .ok baseTensors ∧
    readHeaders layerJson layerDisk "arm" = .ok armTensors ∧
    OneShardEach layerJson layerDisk "base" ∧
    write layerJson layerDisk "base" "out" baseTensors layerArms (fromArm "a") .empty =
      .ok layerOut ∧
    ¬MovesWhole layerJson layerDisk "base" baseTensors layerArms (fromArm "a") .empty layerOut := by
  refine ⟨read_baseTensors, by decide +kernel, base_oneShardEach, by decide +kernel,
    fun hpromise => ?_⟩
  have hbase : Holds layerJson layerOut "model-1.safetensors" "a.trellis"
      ⟨"I16", [1, 1, 16], filled [1]⟩ := ⟨by decide, _, rfl, by decide +kernel⟩
  have harm : Holds layerJson layerOut "model-2.safetensors" "a.trellis"
      ⟨"I16", [1, 1, 16], filled [11]⟩ := ⟨by decide, _, rfl, by decide +kernel⟩
  exact absurd (hpromise.once _ _ _ _ _ hbase harm) (by decide)

/-- The norm lies in one shard. -/
theorem norm_whole :
    MovesWhole layerJson layerDisk "base" baseTensors layerArms (fromArm "norm") .empty normOut ↔
      ReplacedInOneShard baseTensors (fromArm "norm") .empty :=
  write_moves_whole read_baseTensors base_oneShardEach (fun _ => .inr rfl)
    (show write layerJson layerDisk "base" "out" baseTensors layerArms (fromArm "norm") .empty =
      .ok normOut by decide +kernel)

end VllmExl3.Compose
