/-
# VllmExl3.Compose.ShardRoundTrip — a written shard reads back as what was written

`write_shard` lays the header out before it has copied a byte, pads it, and streams the payload; the
offsets it counted are right only if every entry turns out as long as its source range says. Here the
copy buffer is of any size. `write_shard` writes whenever its sources have the ranges asked for, and
`raw_header` then finds the same tensors in the same order, laid end to end up to the end of the file.
-/
import VllmExl3.Compose.JsonText

namespace VllmExl3.Compose

/-! ## Any copy buffer -/

/-- The copy loop with a buffer of `chunk` bytes. -/
def copyLoopBy (chunk : Nat) : Nat → Bytes → Nat → Option Bytes
  | _, _, 0 => some []
  | 0, _, _ + 1 => none
  | fuel + 1, rest, left + 1 =>
    let buffer := rest.take (min (left + 1) chunk)
    if buffer.isEmpty then none
    else (copyLoopBy chunk fuel (rest.drop buffer.length) (left + 1 - buffer.length)).map (buffer ++ ·)

/-- The bytes of an entry, copied with a buffer of `chunk` bytes. -/
def copyEntryBy (chunk : Nat) (disk : Disk) (entry : String × Record) : Except Exit Bytes := do
  let (name, rec) := entry
  let file ← disk.read rec.path
  let left := rec.stop - rec.start
  if rec.stop < rec.start then .error (.shortRead rec.path.str name)
  else match copyLoopBy chunk left (file.drop rec.start) left with
    | some data => .ok data
    | none => .error (.shortRead rec.path.str name)

/-- The header's bytes, padded: `blob`. -/
def headerBlob (json : Json) (entries : List (String × Record)) (metadata : List (String × String)) :
    Bytes :=
  let dumped := json.dumpsHeader ⟨PyDict.ofList (layout 0 entries), metadata⟩
  dumped ++ List.replicate ((8 - dumped.length % 8) % 8) 32

/-- `write_shard` with a buffer of `chunk` bytes -/
def writeShardBy (chunk : Nat) (json : Json) (disk : Disk) (entries : List (String × Record))
    (metadata : List (String × String)) : Except Exit Bytes := do
  let blob := headerBlob json entries metadata
  match toBytes 8 blob.length with
  | none => .error (.raised (.value "int too big to convert"))
  | some size =>
    let payload ← entries.mapM (copyEntryBy chunk disk)
    return size ++ blob ++ payload.flatten

/-- At the tool's own buffer this is `write_shard`. -/
theorem writeShardBy_COPY_CHUNK : writeShardBy COPY_CHUNK = writeShard := by
  have hloop : copyLoopBy COPY_CHUNK = copyLoop := by
    funext fuel rest left
    induction fuel generalizing rest left with
    | zero => cases left <;> rfl
    | succ fuel ih =>
      cases left with
      | zero => rfl
      | succ left =>
        rw [copyLoopBy, copyLoop]
        simp only [ih]
  have hentry : copyEntryBy COPY_CHUNK = copyEntry := by
    funext disk entry
    conv_lhs => rw [copyEntryBy, hloop]
    rfl
  funext json disk entries metadata
  conv_lhs => rw [writeShardBy, hentry]
  rfl

/-- Where the bytes are, any buffer copies them. -/
theorem copyLoopBy_eq {chunk : Nat} (hchunk : 0 < chunk) {fuel : Nat} {rest : Bytes} {left : Nat}
    (hfuel : left ≤ fuel) (hleft : left ≤ rest.length) :
    copyLoopBy chunk fuel rest left = some (rest.take left) := by
  induction fuel generalizing rest left with
  | zero =>
    obtain rfl : left = 0 := by omega
    rfl
  | succ fuel ih =>
    cases left with
    | zero => rfl
    | succ left =>
      have hlen : (rest.take (min (left + 1) chunk)).length = min (left + 1) chunk := by
        rw [List.length_take]
        omega
      have hsome : (rest.take (min (left + 1) chunk)).isEmpty = false := by
        rw [List.isEmpty_eq_false_iff, ← List.length_pos_iff, hlen]
        omega
      have hdrop : left + 1 - min (left + 1) chunk ≤
          (rest.drop (min (left + 1) chunk)).length := by
        rw [List.length_drop]
        omega
      rw [copyLoopBy]
      rw [hsome, if_neg (by simp), hlen, ih (by omega) hdrop, Option.map_some, ← List.take_add]
      congr 2
      omega

/-! ## Sources -/

/-- An entry's source has the bytes its record points at. -/
def InSource (disk : Disk) (entry : String × Record) : Prop :=
  ∃ file, disk.read entry.2.path = .ok file ∧ entry.2.start ≤ entry.2.stop ∧
    entry.2.stop ≤ file.length

variable {json : Json} {disk : Disk} {path : ShardPath} {entries : List (String × Record)}
  {metadata : List (String × String)} {chunk : Nat}

theorem copyEntryBy_eq (hchunk : 0 < chunk) {entry : String × Record} (h : InSource disk entry) :
    copyEntryBy chunk disk entry = .ok (disk.stored entry).2.data := by
  obtain ⟨file, hfile, hle, hstop⟩ := h
  obtain ⟨name, rec⟩ := entry
  have hlen : rec.stop - rec.start ≤ (file.drop rec.start).length := by
    have hin : rec.stop ≤ file.length := hstop
    rw [List.length_drop]
    omega
  have hdata : (disk.stored (name, rec)).2.data = (file.drop rec.start).take (rec.stop - rec.start) := by
    rw [Disk.stored, Record.stored, Disk.read_eq_ok hfile, slice, List.drop_take]
  rw [copyEntryBy]
  dsimp only at hfile hle ⊢
  rw [hfile]
  simp only [bind, Except.bind]
  rw [if_neg (by omega), copyLoopBy_eq hchunk le_rfl hlen, hdata]

theorem length_stored {entry : String × Record} (h : InSource disk entry) :
    (disk.stored entry).2.data.length = entry.2.stop - entry.2.start := by
  obtain ⟨file, hfile, hle, hstop⟩ := h
  rw [Disk.stored, Record.stored, Disk.read_eq_ok hfile]
  simp only [length_slice]
  omega

/-! ## The layout -/

/-- Records laid end to end from `a` to `b`. -/
def Tiles : Nat → List (String × Record) → Nat → Prop
  | a, [], b => a = b
  | a, (_, rec) :: rest, b => rec.start = a ∧ a ≤ rec.stop ∧ Tiles rec.stop rest b

theorem Tiles.le {a b : Nat} {recs : List (String × Record)} (h : Tiles a recs b) : a ≤ b := by
  induction recs generalizing a with
  | nil => exact Nat.le_of_eq h
  | cons p rest ih => exact h.2.1.trans (ih h.2.2)

/-- Every record lies between the ends. -/
theorem Tiles.mem {a b : Nat} {recs : List (String × Record)} (h : Tiles a recs b)
    {p : String × Record} (hp : p ∈ recs) : a ≤ p.2.start ∧ p.2.start ≤ p.2.stop ∧ p.2.stop ≤ b := by
  induction recs generalizing a with
  | nil => cases hp
  | cons q rest ih =>
    obtain ⟨hstart, hle, hrest⟩ := h
    rcases List.mem_cons.mp hp with rfl | hp
    · exact ⟨hstart.ge, hstart.le.trans hle, hrest.le⟩
    · obtain ⟨hlo, hmid, hhi⟩ := ih hrest hp
      exact ⟨hle.trans hlo, hmid, hhi⟩

/-- Records laid end to end do not overlap. -/
theorem Tiles.pairwise {a b : Nat} {recs : List (String × Record)} (h : Tiles a recs b) :
    recs.Pairwise fun p q => p.2.stop ≤ q.2.start := by
  induction recs generalizing a with
  | nil => exact .nil
  | cons p rest ih =>
    refine List.pairwise_cons.mpr ⟨?_, ih h.2.2⟩
    intro q hq
    exact (Tiles.mem h.2.2 hq).1

theorem map_fst_layout (off : Nat) (entries : List (String × Record)) :
    (layout off entries).map Prod.fst = entries.map Prod.fst := by
  induction entries generalizing off with
  | nil => rfl
  | cons entry rest ih =>
    rw [layout, List.map_cons, List.map_cons, ih]

/-- A header's record with its position in the file: `raw_header`'s record. -/
def HeaderRec.at (rec : HeaderRec) (path : ShardPath) (base : Nat) : Record :=
  ⟨rec.dtype, rec.shape, path, base + rec.data_offsets.1, base + rec.data_offsets.2⟩

/-- The offsets `write_shard` counts lay the records end to end. -/
theorem tiles_layout (path : ShardPath) (base off : Nat) (entries : List (String × Record)) :
    Tiles (base + off) ((layout off entries).map fun p => (p.1, p.2.at path base))
      (base + off + (entries.map fun entry => entry.2.stop - entry.2.start).sum) := by
  induction entries generalizing off with
  | nil => rfl
  | cons entry rest ih =>
    obtain ⟨name, rec⟩ := entry
    rw [layout, List.map_cons, List.map_cons, List.sum_cons]
    refine ⟨rfl, by simp [HeaderRec.at], ?_⟩
    have htail := ih (off + (rec.stop - rec.start))
    rw [← Nat.add_assoc] at htail ⊢
    simpa only [HeaderRec.at, Nat.add_assoc] using htail

/-! ## The round trip -/

/-- `raw_header` of `out`, a file at `path`, gives the entries written to it: their metadata; in the
same order the same names, dtypes, shapes and bytes; and ranges that run from the end of the header to
the end of the file, one after the other. -/
def RoundTrips (json : Json) (disk : Disk) (path : ShardPath) (entries : List (String × Record))
    (metadata : List (String × String)) (out : Bytes) : Prop :=
  ∃ recs, rawHeader json path out = .ok (recs, metadata) ∧
    recs.items.map (fun p => (p.1, p.2.stored out)) = entries.map disk.stored ∧
    Tiles (8 + leNat (out.take 8)) recs.items out.length ∧
    recs.items.Pairwise fun p q => p.2.stop ≤ q.2.start

/-- What the file is made of, when every entry was copied. -/
theorem writeShardBy_ok (hchunk : 0 < chunk) (hsrc : ∀ entry ∈ entries, InSource disk entry)
    {size : Bytes} (hsize : toBytes 8 (headerBlob json entries metadata).length = some size) :
    writeShardBy chunk json disk entries metadata = .ok (size ++ headerBlob json entries metadata ++
      (entries.map fun entry => (disk.stored entry).2.data).flatten) := by
  rw [writeShardBy, hsize]
  dsimp only
  rw [mapM_ok fun entry hentry => copyEntryBy_eq hchunk (hsrc entry hentry)]
  rfl

/-- The bytes an entry's record points at in the file are those of its source. -/
theorem map_stored_layout (path : ShardPath) (hsrc : ∀ entry ∈ entries, InSource disk entry)
    (front data : Bytes) (rest : Bytes) (hrest : rest = (entries.map fun entry =>
      (disk.stored entry).2.data).flatten) :
    ((layout data.length entries).map fun p => (p.1, p.2.at path front.length)).map
        (fun p => (p.1, p.2.stored (front ++ (data ++ rest)))) = entries.map disk.stored := by
  subst hrest
  induction entries generalizing data with
  | nil => rfl
  | cons entry rest ih =>
    have hlen := length_stored (hsrc entry List.mem_cons_self)
    have htail := ih (fun e he => hsrc e (List.mem_cons_of_mem entry he))
      (data ++ (disk.stored entry).2.data)
    rw [List.length_append, hlen, List.append_assoc] at htail
    rw [layout, List.map_cons, List.map_cons, List.map_cons, List.map_cons, List.flatten_cons]
    refine congrArg₂ List.cons ?_ htail
    have hslice := slice_append_right front (data ++ ((disk.stored entry).2.data ++
      (rest.map fun e => (disk.stored e).2.data).flatten)) data.length
        (data.length + (disk.stored entry).2.data.length)
    rw [slice_append_mid] at hslice
    rw [hlen] at hslice
    exact congrArg (fun bytes => (entry.1, Stored.mk entry.2.dtype entry.2.shape bytes)) hslice

/-- Distinct tensors whose bytes are there are written, with any copy buffer, and read back, unless
the header takes more than eight bytes to count, which raises before anything is copied. -/
theorem shard_round_trips (json : Json) (path : ShardPath) (metadata : List (String × String))
    (hchunk : 0 < chunk) (hnames : (entries.map Prod.fst).Nodup)
    (hsrc : ∀ entry ∈ entries, InSource disk entry) :
    256 ^ 8 ≤ (headerBlob json entries metadata).length ∨
      ∃ out, writeShardBy chunk json disk entries metadata = .ok out ∧
        RoundTrips json disk path entries metadata out := by
  rcases hsize : toBytes 8 (headerBlob json entries metadata).length with _ | size
  · left
    by_contra hshort
    rw [toBytes, if_pos (not_le.mp hshort)] at hsize
    cases hsize
  right
  refine ⟨_, writeShardBy_ok hchunk hsrc hsize, ?_⟩
  obtain ⟨hlen, hnat⟩ := toBytes_eq_some hsize
  set blob := headerBlob json entries metadata with hblob
  set payload := (entries.map fun entry => (disk.stored entry).2.data).flatten with hpayload
  have hkeys : ((layout 0 entries).map Prod.fst).Nodup := by rwa [map_fst_layout]
  have hparse : parseHeader json (size ++ blob ++ payload) =
      some (blob.length, ⟨PyDict.ofList (layout 0 entries), metadata⟩) := by
    rw [parseHeader, List.append_assoc, ← hlen, List.take_left, List.drop_left, hnat,
      List.take_left, hblob, headerBlob, json.loads_dumpsHeader]
    rfl
  have hfront : (size ++ blob).length = 8 + blob.length := by rw [List.length_append, hlen]
  have hbase : 8 + leNat ((size ++ blob ++ payload).take 8) = 8 + blob.length := by
    rw [List.append_assoc, ← hlen, List.take_left, hnat]
  have htotal : (size ++ blob ++ payload).length =
      8 + blob.length + (entries.map fun entry => entry.2.stop - entry.2.start).sum := by
    rw [List.length_append, hfront, hpayload, List.length_flatten, List.map_map]
    congr 2
    exact List.map_congr_left fun entry hentry => length_stored (hsrc entry hentry)
  set recs := (PyDict.ofList (layout 0 entries)).mapValues fun rec : HeaderRec =>
    rec.at path (8 + blob.length) with hrecs
  have hitems : recs.items =
      (layout 0 entries).map fun p => (p.1, p.2.at path (8 + blob.length)) := by
    show (PyDict.ofList (layout 0 entries)).items.map _ = _
    rw [PyDict.items_ofList hkeys]
  have htiles : Tiles (8 + blob.length) recs.items (size ++ blob ++ payload).length := by
    rw [hitems, htotal]
    exact tiles_layout path (8 + blob.length) 0 entries
  refine ⟨recs, ?_, ?_, ?_, htiles.pairwise⟩
  · rw [rawHeader, loadHeader_eq_ok.mpr hparse]
    rfl
  · rw [hitems, ← hfront]
    exact map_stored_layout path hsrc (size ++ blob) [] payload hpayload
  · rw [hbase]
    exact htiles

/-! ### Two tensors, one of them empty, the other way round -/

/-- Four bytes and an empty tensor after them. -/
def sourceHeader : Header :=
  ⟨⟨[("a", ⟨"I16", [2], (0, 4)⟩), ("none", ⟨"F32", [0], (4, 4)⟩)], by decide⟩, []⟩

/-- The header of the shard that has them in reverse. -/
def reversedHeader : Header :=
  ⟨⟨[("none", ⟨"F32", [0], (0, 0)⟩), ("a", ⟨"I16", [2], (0, 4)⟩)], by decide⟩, [("format", "pt")]⟩

def reversedJson : Json :=
  Json.ofDocuments [sourceHeader, reversedHeader] [] (by decide +kernel) (by decide)

def sourcePath : ShardPath := ⟨"base", "model.safetensors"⟩

def sourceDisk : Disk := fun dir =>
  if dir = "base" then some ⟨[("model.safetensors", shardFile sourceHeader [1, 2, 3, 4])], by decide⟩
  else none

/-- What `raw_header` gives for the source, in reverse. -/
def reversedEntries : List (String × Record) :=
  [("none", ⟨"F32", [0], sourcePath, 124, 124⟩), ("a", ⟨"I16", [2], sourcePath, 120, 124⟩)]

/-- Copied three bytes at a time. -/
theorem reversed_round_trips :
    (reversedEntries.map Prod.fst).Nodup ∧ (∀ entry ∈ reversedEntries, InSource sourceDisk entry) ∧
      ∃ out, writeShardBy 3 reversedJson sourceDisk reversedEntries [("format", "pt")] = .ok out ∧
        RoundTrips reversedJson sourceDisk ⟨"out", "model.safetensors"⟩ reversedEntries
          [("format", "pt")] out := by
  have hnames : (reversedEntries.map Prod.fst).Nodup := by decide
  have hsrc : ∀ entry ∈ reversedEntries, InSource sourceDisk entry := by
    intro entry hentry
    refine ⟨shardFile sourceHeader [1, 2, 3, 4], ?_⟩
    simp only [reversedEntries, List.mem_cons, List.not_mem_nil, or_false] at hentry
    rcases hentry with rfl | rfl
    · exact ⟨rfl, by decide, by decide +kernel⟩
    · exact ⟨rfl, by decide, by decide +kernel⟩
  have hround := shard_round_trips reversedJson ⟨"out", "model.safetensors"⟩
    [("format", "pt")] (show 0 < 3 by decide) hnames hsrc
  exact ⟨hnames, hsrc, hround.resolve_left (by decide +kernel)⟩

end VllmExl3.Compose
