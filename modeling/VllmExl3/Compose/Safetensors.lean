/-
# VllmExl3.Compose.Safetensors — reading and writing shards byte by byte

A safetensors file is eight bytes of header length, the header as JSON, and the tensors' bytes. The
tool reads headers (`read_headers`, `raw_header`) and writes a shard by copying byte ranges out of
others (`write_shard`). `writeShard_spec` says what a written shard holds. JSON itself is a parameter
(`Json`), of which only the round trip is used; the two kinds of document that occur are the header
and the index.
-/
import VllmExl3.Compose.Checkpoint
import VllmExl3.Lib.Bytes
import VllmExl3.Lib.Except

namespace VllmExl3.Compose

open PyStr

/-! ## Documents -/

/-- A tensor's record in a header. -/
structure HeaderRec where
  dtype : String
  shape : List Nat
  data_offsets : Nat × Nat
  deriving DecidableEq, Repr

/-- A header: its tensors, and `__metadata__`, empty where there is none. -/
structure Header where
  tensors : PyDict String HeaderRec
  metadata : List (String × String)
  deriving DecidableEq

/-- A value in an index's metadata: the tool writes one integer and keeps the others as they are. -/
inductive MetaValue where
  | int (n : Nat)
  | other (text : String)
  deriving DecidableEq, Repr

/-- `model.safetensors.index.json` -/
structure Index where
  metadata : PyDict String MetaValue
  weight_map : PyDict String String
  deriving DecidableEq

/-- `json`: what is dumped loads again, also with spaces after it. -/
structure Json where
  loadsHeader : Bytes → Option Header
  dumpsHeader : Header → Bytes
  loads_dumpsHeader : ∀ header n,
    loadsHeader (dumpsHeader header ++ List.replicate n 32) = some header
  loadsIndex : Bytes → Option Index
  dumpsIndex : Index → Bytes
  loads_dumpsIndex : ∀ index, loadsIndex (dumpsIndex index) = some index

/-! ## The disk -/

/-- A directory's files. -/
abbrev Dir := PyDict String Bytes

/-- The directories that can be read. -/
abbrev Disk := String → Option Dir

/-- `open(path, "rb").read()` -/
def Disk.read (disk : Disk) (path : ShardPath) : Except Exit Bytes :=
  match (disk path.dir).bind (·.get? path.name) with
  | some file => .ok file
  | none => .error (.unreadable path.str)

/-- What a file holds, empty where it cannot be read. -/
def Disk.file (disk : Disk) (path : ShardPath) : Bytes :=
  ((disk path.dir).bind (·.get? path.name)).getD []

def INDEX_NAME : String := "model.safetensors.index.json"

/-- `glob("*.safetensors")`, which leaves out hidden files. -/
def isShard (name : String) : Bool := endswith name ".safetensors" && !startswith name "."

/-! ## Reading -/

/-- The header's length and what it parses into. -/
def parseHeader (json : Json) (file : Bytes) : Option (Nat × Header) :=
  let n := leNat (file.take 8)
  (json.loadsHeader ((file.drop 8).take n)).map fun header => (n, header)

/-- Parse a file's header, or raise. -/
def loadHeader (json : Json) (path : ShardPath) (file : Bytes) : Except Exit (Nat × Header) :=
  match parseHeader json file with
  | some parsed => .ok parsed
  | none => .error (.unreadable path.str)

/-- One shard of `read_headers`. -/
def readHeader (json : Json) (disk : Disk) (d : String) (out : Tensors) (name : String) :
    Except Exit Tensors := do
  let path : ShardPath := ⟨d, name⟩
  let file ← disk.read path
  let (_, header) ← loadHeader json path file
  return out.update (header.tensors.mapValues fun rec => ⟨path, rec.shape, rec.dtype⟩)

/-- `sorted(glob(os.path.join(d, "*.safetensors")))`, the names. -/
def shardNames (disk : Disk) (d : String) : List String :=
  (((disk d).elim [] PyDict.keys).filter isShard).insertionSort (· ≤ ·)

/-- `read_headers` -/
def readHeaders (json : Json) (disk : Disk) (d : String) : Except Exit Tensors := do
  let shards := shardNames disk d
  exitIf shards.isEmpty (.noSafetensors d)
  let indexed := (disk d).elim false (·.contains INDEX_NAME)
  exitIf (1 < shards.length && !indexed) (.noIndex d shards.length)
  shards.foldlM (readHeader json disk d) .empty

/-- A tensor's record with its position in the file. -/
structure Record where
  dtype : String
  shape : List Nat
  path : ShardPath
  start : Nat
  stop : Nat

/-- `raw_header` -/
def rawHeader (json : Json) (path : ShardPath) (file : Bytes) :
    Except Exit (PyDict String Record × List (String × String)) := do
  let (n, header) ← loadHeader json path file
  let base := 8 + n
  return (header.tensors.mapValues fun rec =>
    ⟨rec.dtype, rec.shape, path, base + rec.data_offsets.1, base + rec.data_offsets.2⟩,
    header.metadata)

/-! ## Writing -/

/-- `_COPY_CHUNK` -/
def COPY_CHUNK : Nat := 8388608

/-- The copy loop: `left` bytes, one buffer at a time, or `none` at the end of the file. The first
argument bounds the number of buffers, each of which holds at least a byte. -/
def copyLoop : Nat → Bytes → Nat → Option Bytes
  | _, _, 0 => some []
  | 0, _, _ + 1 => none
  | fuel + 1, rest, left + 1 =>
    let chunk := rest.take (min (left + 1) COPY_CHUNK)
    if chunk.isEmpty then none
    else (copyLoop fuel (rest.drop chunk.length) (left + 1 - chunk.length)).map (chunk ++ ·)

/-- The bytes of an entry. A negative length reads to the end of the file and then finds nothing. -/
def copyEntry (disk : Disk) (entry : String × Record) : Except Exit Bytes := do
  let (name, rec) := entry
  let file ← disk.read rec.path
  let left := rec.stop - rec.start
  if rec.stop < rec.start then .error (.shortRead rec.path.str name)
  else match copyLoop left (file.drop rec.start) left with
    | some data => .ok data
    | none => .error (.shortRead rec.path.str name)

/-- The header `write_shard` builds: every entry with the offsets its bytes will have. -/
def layout : Nat → List (String × Record) → List (String × HeaderRec)
  | _, [] => []
  | off, (name, rec) :: rest =>
    let n := rec.stop - rec.start
    (name, ⟨rec.dtype, rec.shape, (off, off + n)⟩) :: layout (off + n) rest

/-- `write_shard` -/
def writeShard (json : Json) (disk : Disk) (entries : List (String × Record))
    (metadata : List (String × String)) : Except Exit Bytes := do
  let dumped := json.dumpsHeader ⟨PyDict.ofList (layout 0 entries), metadata⟩
  -- keep the data 8-byte aligned
  let blob := dumped ++ List.replicate ((8 - dumped.length % 8) % 8) 32
  match toBytes 8 blob.length with
  | none => .error (.raised (.value "int too big to convert"))
  | some size =>
    let payload ← entries.mapM (copyEntry disk)
    return size ++ blob ++ payload.flatten

/-! ## What a shard holds -/

/-- A stored tensor: its dtype, shape and bytes. -/
structure Stored where
  dtype : String
  shape : List Nat
  data : Bytes
  deriving DecidableEq, Repr

/-- What a record says is stored, in a file. -/
def Record.stored (rec : Record) (file : Bytes) : Stored :=
  ⟨rec.dtype, rec.shape, slice rec.start rec.stop file⟩

/-- What a header's record says is stored, in the bytes after the header. -/
def HeaderRec.stored (rec : HeaderRec) (data : Bytes) : Stored :=
  ⟨rec.dtype, rec.shape, slice rec.data_offsets.1 rec.data_offsets.2 data⟩

/-- The tensor a file stores under a name. -/
def tensorIn (json : Json) (file : Bytes) (name : String) : Option Stored :=
  (parseHeader json file).bind fun (n, header) => (header.tensors.get? name).map fun rec =>
    ⟨rec.dtype, rec.shape, slice (8 + n + rec.data_offsets.1) (8 + n + rec.data_offsets.2) file⟩

variable {json : Json} {disk : Disk} {path : ShardPath} {file : Bytes}

theorem loadHeader_eq_ok {parsed : Nat × Header} :
    loadHeader json path file = .ok parsed ↔ parseHeader json file = some parsed := by
  unfold loadHeader
  cases parseHeader json file <;> simp

/-- A raw header's records say what the file stores. -/
theorem rawHeader_spec {recs : PyDict String Record} {metadata : List (String × String)}
    (h : rawHeader json path file = .ok (recs, metadata)) (name : String) :
    tensorIn json file name = (recs.get? name).map (·.stored file) ∧
      ∀ rec, recs.get? name = some rec → rec.path = path := by
  obtain ⟨⟨n, header⟩, hload, h⟩ := bind_eq_ok h
  obtain ⟨rfl, rfl⟩ := Prod.mk.inj (Except.ok.inj h)
  rw [tensorIn, loadHeader_eq_ok.mp hload, Option.bind_some, PyDict.get?_mapValues, Option.map_map]
  refine ⟨rfl, fun rec hrec => ?_⟩
  obtain ⟨r, -, rfl⟩ := Option.map_eq_some_iff.mp hrec
  rfl

/-- The copy loop returns the bytes asked for when the file has them. -/
theorem copyLoop_eq {fuel : Nat} {rest : Bytes} {left : Nat} {data : Bytes} (hfuel : left ≤ fuel)
    (h : copyLoop fuel rest left = some data) : data = rest.take left ∧ left ≤ rest.length := by
  induction fuel generalizing rest left data with
  | zero =>
    obtain rfl : left = 0 := by omega
    simpa [copyLoop, eq_comm] using h
  | succ fuel ih =>
    cases left with
    | zero => simpa [copyLoop, eq_comm] using h
    | succ left =>
      rw [copyLoop] at h
      split_ifs at h with hempty
      obtain ⟨tail, htail, rfl⟩ := Option.map_eq_some_iff.mp h
      have hchunk : 0 < (rest.take (min (left + 1) COPY_CHUNK)).length := by
        rw [List.length_pos_iff]
        simpa using hempty
      have hlen : (rest.take (min (left + 1) COPY_CHUNK)).length ≤ left + 1 := by
        rw [List.length_take]
        omega
      have hle := List.length_take_le (min (left + 1) COPY_CHUNK) rest
      set k := (rest.take (min (left + 1) COPY_CHUNK)).length with hk
      have htake : rest.take (min (left + 1) COPY_CHUNK) = rest.take k := by
        rw [hk, List.length_take, List.take_eq_take_iff]
        omega
      have hbound : k ≤ rest.length := by
        rw [hk, List.length_take]
        omega
      obtain ⟨rfl, hrest⟩ := ih (by omega) htail
      rw [List.length_drop] at hrest
      refine ⟨?_, by omega⟩
      rw [htake, ← List.take_add]
      congr 1
      omega

theorem copyEntry_eq {entry : String × Record} {data : Bytes}
    (h : copyEntry disk entry = .ok data) :
    ∃ file, disk.read entry.2.path = .ok file ∧
      data = slice entry.2.start entry.2.stop file ∧
      data.length = entry.2.stop - entry.2.start := by
  obtain ⟨name, rec⟩ := entry
  obtain ⟨file, hfile, h⟩ := bind_eq_ok h
  refine ⟨file, hfile, ?_⟩
  dsimp only at h
  split_ifs at h with hneg
  rcases hloop : copyLoop (rec.stop - rec.start) (file.drop rec.start) (rec.stop - rec.start) with
    _ | copied
  · rw [hloop] at h
    cases h
  · rw [hloop] at h
    obtain rfl := Except.ok.inj h
    obtain ⟨rfl, hlen⟩ := copyLoop_eq le_rfl hloop
    refine ⟨?_, ?_⟩
    · rw [slice, List.drop_take]
    · rw [List.length_take]
      exact min_eq_left hlen

theorem Disk.read_eq_ok (h : disk.read path = .ok file) : disk.file path = file := by
  unfold Disk.read at h
  unfold Disk.file
  cases hget : (disk path.dir).bind (·.get? path.name) with
  | none => simp [hget] at h
  | some found => simpa [hget] using h

/-- What is to be stored for an entry: the bytes its record says its source stores. -/
def Disk.stored (disk : Disk) (entry : String × Record) : String × Stored :=
  (entry.1, entry.2.stored (disk.file entry.2.path))

/-- The offsets counted while the header is built are where the bytes end up. -/
theorem map_layout {entries : List (String × Record)} {payload : List Bytes}
    (h : List.Forall₂ (fun entry data => copyEntry disk entry = .ok data) entries payload)
    (front : Bytes) :
    (layout front.length entries).map (fun p => (p.1, p.2.stored (front ++ payload.flatten))) =
      entries.map disk.stored := by
  induction h generalizing front with
  | nil => rfl
  | @cons entry data rest datas hcopy _ ih =>
    obtain ⟨name, rec⟩ := entry
    obtain ⟨file, hfile, hdata, hlen⟩ := copyEntry_eq hcopy
    have htail := ih (front ++ data)
    rw [List.length_append, List.append_assoc] at htail
    rw [layout, List.map_cons, List.map_cons, List.flatten_cons]
    refine congrArg₂ List.cons ?_ ?_
    · dsimp only at hfile hdata hlen
      rw [Disk.stored, HeaderRec.stored, Record.stored, Disk.read_eq_ok hfile, ← hdata, ← hlen]
      dsimp only
      rw [slice_append_mid]
    · dsimp only at hlen
      rw [← hlen]
      exact htail

/-- A written shard stores each of its entries with the bytes of the entry's source, and nothing
else. -/
theorem writeShard_spec {entries : List (String × Record)} {metadata : List (String × String)}
    {out : Bytes} (h : writeShard json disk entries metadata = .ok out) (name : String) :
    tensorIn json out name = (PyDict.ofList (entries.map disk.stored)).get? name := by
  unfold writeShard at h
  dsimp only at h
  set dumped := json.dumpsHeader ⟨PyDict.ofList (layout 0 entries), metadata⟩ with hdumped
  set blob := dumped ++ List.replicate ((8 - dumped.length % 8) % 8) 32 with hblob
  rcases hsize : toBytes 8 blob.length with _ | size
  · rw [hsize] at h
    cases h
  · rw [hsize] at h
    obtain ⟨payload, hpayload, h⟩ := bind_eq_ok h
    obtain rfl := Except.ok.inj h
    obtain ⟨hlen, hnat⟩ := toBytes_eq_some hsize
    -- the header reads back
    have hparse : parseHeader json (size ++ blob ++ payload.flatten) =
        some (blob.length, ⟨PyDict.ofList (layout 0 entries), metadata⟩) := by
      rw [parseHeader, List.append_assoc, ← hlen, List.take_left, List.drop_left, hnat,
        List.take_left, hblob, hdumped, json.loads_dumpsHeader]
      rfl
    have hfront : (size ++ blob).length = 8 + blob.length := by rw [List.length_append, hlen]
    have hlookup := PyDict.get?_ofList_map (fun rec : HeaderRec => rec.stored payload.flatten)
      (layout 0 entries) name
    rw [tensorIn, hparse, Option.bind_some, ← map_layout (mapM_eq_ok hpayload) []]
    refine Eq.trans ?_ hlookup.symm
    refine congrArg (Option.map · _) (funext fun rec => ?_)
    rw [← hfront, slice_append_right]
    rfl

end VllmExl3.Compose
