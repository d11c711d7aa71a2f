/-
# VllmExl3.Bench.TuneBlob — the records of an autotune blob (`bench/run.py`)

`_blob_keys` reads the hashes of the records in an autotune blob: a 16-byte header that carries the record
size, then records of that size, each led by a 64-bit hash, with copies of the header skipped wherever
a record could begin. Whatever follows the layout is read exactly (`reads_layout`). The size is taken as
the file states it: with a size of zero the loop does not move on, and with one below eight the last record
may be shorter than the hash that is read from it (`returns_iff`).
-/
import VllmExl3.Lib.Bytes
import VllmExl3.Lib.WhileLoop
import Mathlib.Data.Finset.Dedup
import Mathlib.Data.Finset.Lattice.Lemmas

namespace VllmExl3.Bench

open WhileLoop

/-! ## The code -/

/-- `struct.error`, with its text. -/
structure StructError where
  text : String
  deriving DecidableEq, Repr

/-- `struct.unpack_from("<Q", b, off)[0]` -/
def unpackHash (b : Bytes) (off : Nat) : Except StructError Nat :=
  if off + 8 ≤ b.length then .ok (leNat (slice off (off + 8) b))
  else .error ⟨s!"unpack_from requires a buffer of at least {off + 8} bytes for unpacking 8 bytes at offset {off} (actual buffer size is {b.length})"⟩

/-- The first field of the header. -/
def blobMagic (b : Bytes) : Bytes := slice 0 8 b

/-- The last field of the header. -/
def recordSize (b : Bytes) : Nat := leNat (slice 12 16 b)

/-- A round of the loop: from `off` and `keys` to the next ones, or out of it. -/
def scanBody (b : Bytes) (s : Nat × Finset Nat) : (Nat × Finset Nat) ⊕ Except StructError (Finset Nat) :=
  if s.1 + recordSize b ≤ b.length then
    if slice s.1 (s.1 + 8) b = blobMagic b then .inl (s.1 + 16, s.2)
    else match unpackHash b s.1 with
      | .error e => .inr (.error e)
      | .ok key => .inl (s.1 + recordSize b, insert key s.2)
  else .inr (.ok s.2)

/-- `_blob_keys` with fuel for the loop; the file is `none` where it cannot be read. -/
def blobKeys (fuel : Nat) (file : Option Bytes) : Option (Except StructError (Finset Nat)) :=
  match file with
  | none => some (.ok ∅)
  | some b => if b.length < 16 then some (.ok ∅) else run (scanBody b) fuel (16, ∅)

/-- The call returns these keys. -/
def Reads (file : Option Bytes) (keys : Finset Nat) : Prop := ∃ fuel, blobKeys fuel file = some (.ok keys)

/-! ## Where the reading comes to -/

variable {b : Bytes} {off : Nat} {keys : Finset Nat}

/-- Where a record could begin: after the header, and from there on past a copy of the header or past a
whole record. -/
inductive Boundary (b : Bytes) : Nat → Prop where
  | first : Boundary b 16
  | header {off : Nat} : Boundary b off → off + recordSize b ≤ b.length →
      slice off (off + 8) b = blobMagic b → Boundary b (off + 16)
  | record {off : Nat} : Boundary b off → off + recordSize b ≤ b.length →
      slice off (off + 8) b ≠ blobMagic b → Boundary b (off + recordSize b)

/-- A whole record begins here. -/
structure RecordAt (b : Bytes) (off : Nat) : Prop where
  boundary : Boundary b off
  whole : off + recordSize b ≤ b.length
  no_header : slice off (off + 8) b ≠ blobMagic b

/-- Every whole record is not empty and has the bytes of a hash left. -/
def HoldHashes (b : Bytes) : Prop := ∀ off, RecordAt b off → 0 < recordSize b ∧ off + 8 ≤ b.length

/-- Records of eight bytes or more hold a hash. -/
theorem holdHashes_of_size (h : 8 ≤ recordSize b) : HoldHashes b := by
  intro off hrecord
  have hwhole := hrecord.whole
  omega

theorem unpackHash_ok (h : off + 8 ≤ b.length) : unpackHash b off = .ok (leNat (slice off (off + 8) b)) :=
  if_pos h

/-! ## Rounds -/

theorem scanBody_end (h : ¬ off + recordSize b ≤ b.length) : scanBody b (off, keys) = .inr (.ok keys) :=
  if_neg h

theorem scanBody_header (hwhole : off + recordSize b ≤ b.length)
    (hmagic : slice off (off + 8) b = blobMagic b) :
    scanBody b (off, keys) = .inl (off + 16, keys) := by
  rw [scanBody, if_pos hwhole, if_pos hmagic]

theorem scanBody_record (hwhole : off + recordSize b ≤ b.length) (hmagic : slice off (off + 8) b ≠ blobMagic b)
    (hhash : off + 8 ≤ b.length) :
    scanBody b (off, keys) = .inl (off + recordSize b, insert (leNat (slice off (off + 8) b)) keys) := by
  rw [scanBody, if_pos hwhole, if_neg hmagic, unpackHash_ok hhash]

theorem scanBody_short (keys : Finset Nat) (hwhole : off + recordSize b ≤ b.length)
    (hmagic : slice off (off + 8) b ≠ blobMagic b) (hhash : ¬ off + 8 ≤ b.length) :
    ∃ e, scanBody b (off, keys) = .inr (.error e) := by
  obtain ⟨e, hraise⟩ : ∃ e, unpackHash b off = .error e := ⟨_, if_neg hhash⟩
  exact ⟨e, by rw [scanBody, if_pos hwhole, if_neg hmagic, hraise]⟩

/-- A reading that returns returns from wherever a record could begin. -/
theorem Boundary.ends (h : Boundary b off) (hends : Ends (scanBody b) (16, ∅) (.ok keys)) :
    ∃ found, Ends (scanBody b) (off, found) (.ok keys) := by
  induction h with
  | first => exact ⟨∅, hends⟩
  | header _ hwhole hmagic ih =>
    obtain ⟨found, hfound⟩ := ih
    exact ⟨found, (ends_inl (scanBody_header hwhole hmagic)).mp hfound⟩
  | @record off _ hwhole hmagic ih =>
    obtain ⟨found, hfound⟩ := ih
    by_cases hhash : off + 8 ≤ b.length
    · exact ⟨_, (ends_inl (scanBody_record hwhole hmagic hhash)).mp hfound⟩
    · obtain ⟨e, hraise⟩ := scanBody_short found hwhole hmagic hhash
      cases (ends_inr hraise).mp hfound

/-- A reading that returns has found a hash in every whole record, and has moved on. -/
theorem holdHashes_of_ends (hends : Ends (scanBody b) (16, ∅) (.ok keys)) : HoldHashes b := by
  intro off hrecord
  obtain ⟨found, hfound⟩ := hrecord.boundary.ends hends
  have hhash : off + 8 ≤ b.length := by
    by_contra hshort
    obtain ⟨e, hraise⟩ := scanBody_short found hrecord.whole hrecord.no_header hshort
    cases (ends_inr hraise).mp hfound
  refine ⟨Nat.pos_of_ne_zero fun hzero => ?_, hhash⟩
  -- without a size the offset stays, whatever is in the set
  have hstay : ∀ s : Nat × Finset Nat, s.1 = off → ∃ s', scanBody b s = .inl s' ∧ s'.1 = off := by
    rintro ⟨_, found⟩ rfl
    exact ⟨_, scanBody_record hrecord.whole hrecord.no_header hhash, by rw [hzero]; rfl⟩
  exact not_ends hstay rfl hfound

/-- Where every whole record holds a hash, the reading returns. -/
theorem ends_of_holdHashes (h : HoldHashes b) : ∃ keys, Ends (scanBody b) (16, ∅) (.ok keys) := by
  have hround : ∀ s s' : Nat × Finset Nat, Boundary b s.1 → scanBody b s = .inl s' →
      Boundary b s'.1 ∧ b.length + 1 - s'.1 < b.length + 1 - s.1 := by
    rintro ⟨off, found⟩ s' hboundary hbody
    by_cases hwhole : off + recordSize b ≤ b.length
    · by_cases hmagic : slice off (off + 8) b = blobMagic b
      · rw [scanBody_header hwhole hmagic] at hbody
        obtain rfl := Sum.inl.inj hbody
        exact ⟨hboundary.header hwhole hmagic, by dsimp only; omega⟩
      · obtain ⟨hpos, hhash⟩ := h off ⟨hboundary, hwhole, hmagic⟩
        rw [scanBody_record hwhole hmagic hhash] at hbody
        obtain rfl := Sum.inl.inj hbody
        exact ⟨hboundary.record hwhole hmagic, by dsimp only; omega⟩
    · rw [scanBody_end hwhole] at hbody
      cases hbody
  obtain ⟨⟨off, found⟩, r, hboundary, hout, hends⟩ :=
    ends_of_measure (fun s => b.length + 1 - s.1) (fun s s' hs hbody => (hround s s' hs hbody).1)
      (fun s s' hs hbody => (hround s s' hs hbody).2) (s := (16, ∅)) Boundary.first
  by_cases hwhole : off + recordSize b ≤ b.length
  · by_cases hmagic : slice off (off + 8) b = blobMagic b
    · rw [scanBody_header hwhole hmagic] at hout
      cases hout
    · obtain ⟨-, hhash⟩ := h off ⟨hboundary, hwhole, hmagic⟩
      rw [scanBody_record hwhole hmagic hhash] at hout
      cases hout
  · rw [scanBody_end hwhole] at hout
    obtain rfl := Sum.inr.inj hout
    exact ⟨found, hends⟩

/-- **When `_blob_keys` returns.** -/
theorem returns_iff (b : Bytes) : (∃ keys, Reads (some b) keys) ↔ b.length < 16 ∨ HoldHashes b := by
  by_cases hshort : b.length < 16
  · refine ⟨fun _ => .inl hshort, fun _ => ⟨∅, 0, ?_⟩⟩
    exact if_pos hshort
  · have hscan : ∀ fuel, blobKeys fuel (some b) = run (scanBody b) fuel (16, ∅) := fun _ => if_neg hshort
    constructor
    · rintro ⟨keys, fuel, hkeys⟩
      exact .inr (holdHashes_of_ends ⟨fuel, (hscan fuel).symm.trans hkeys⟩)
    · rintro (hless | hholds)
      · exact absurd hless hshort
      · obtain ⟨keys, fuel, hends⟩ := ends_of_holdHashes hholds
        exact ⟨keys, fuel, (hscan fuel).trans hends⟩

/-- A call has one result at most. -/
theorem Reads.unique {file : Option Bytes} {keys' : Finset Nat} (h : Reads file keys)
    (h' : Reads file keys') : keys = keys' := by
  obtain ⟨fuel, hkeys⟩ := h
  obtain ⟨fuel', hkeys'⟩ := h'
  cases file with
  | none => exact Except.ok.inj (Option.some.inj (hkeys.symm.trans hkeys'))
  | some b =>
    by_cases hshort : b.length < 16
    · rw [blobKeys, if_pos hshort] at hkeys hkeys'
      exact Except.ok.inj (Option.some.inj (hkeys.symm.trans hkeys'))
    · rw [blobKeys, if_neg hshort] at hkeys hkeys'
      exact Except.ok.inj (Ends.unique ⟨fuel, hkeys⟩ ⟨fuel', hkeys'⟩)

/-! ## The layout -/

/-- What follows the header: a record, or a copy of the header. -/
inductive Item where
  | record (bytes : Bytes)
  | header
  deriving DecidableEq

/-- The hash that leads a record. -/
def Item.hash : Item → Option Nat
  | .record bytes => some (leNat (bytes.take 8))
  | .header => none

/-- A blob as it is written: the fields of its header, whole records and copies of the header in any order,
and what there is of a record that was cut off. -/
structure Layout where
  magic : Bytes
  version : Bytes
  size : Nat
  items : List Item
  cut : Bytes
  magic_length : magic.length = 8
  version_length : version.length = 4
  size_low : 8 ≤ size
  size_fits : size < 256 ^ 4
  records : ∀ bytes, .record bytes ∈ items → bytes.length = size ∧ bytes.take 8 ≠ magic
  cut_length : cut.length < size

namespace Layout

variable (L : Layout)

/-- The header. -/
def header : Bytes := L.magic ++ (L.version ++ leBytes 4 L.size)

/-- The bytes of an item. -/
def itemBytes : Item → Bytes
  | .record bytes => bytes
  | .header => L.header

/-- The items from somewhere on, and the end of the file. -/
def rest (items : List Item) : Bytes := (items.map L.itemBytes).flatten ++ L.cut

/-- The file. -/
def bytes : Bytes := L.header ++ L.rest L.items

/-- The hashes of its records. -/
def hashes (items : List Item) : Finset Nat := (items.filterMap Item.hash).toFinset

variable {L}

theorem length_header : L.header.length = 16 := by
  simp only [header, List.length_append, L.magic_length, L.version_length, length_leBytes]

theorem length_bytes : 16 ≤ L.bytes.length := by
  rw [bytes, List.length_append, length_header]
  omega

theorem blobMagic_bytes : blobMagic L.bytes = L.magic := by
  rw [blobMagic, ← L.magic_length, bytes, header, List.append_assoc]
  exact slice_append_left _

theorem recordSize_bytes : recordSize L.bytes = L.size := by
  have hfields : L.bytes = (L.magic ++ L.version) ++ (leBytes 4 L.size ++ L.rest L.items) := by
    rw [bytes, header]
    simp only [List.append_assoc]
  have hfront : (L.magic ++ L.version).length = 12 := by
    rw [List.length_append, L.magic_length, L.version_length]
  have hslice := slice_append_mid (L.magic ++ L.version) (leBytes 4 L.size) (L.rest L.items)
  rw [← hfields, hfront, length_leBytes] at hslice
  rw [recordSize, hslice, leNat_leBytes L.size_fits]

/-- The first eight bytes of an item, where it lies in the file. -/
theorem slice_item {file front more item : Bytes} (hfile : file = front ++ (item ++ more))
    (hlen : 8 ≤ item.length) : slice front.length (front.length + 8) file = item.take 8 := by
  rw [hfile]
  have hslice := slice_append_right front (item ++ more) 0 8
  rw [Nat.add_zero] at hslice
  rw [hslice, slice, List.drop_zero, List.take_append_of_le_length hlen]

/-- Where less than a record is left there are only copies of the header. -/
theorem hashes_of_short {items : List Item} (hitems : items ⊆ L.items) {front : Bytes}
    (hfile : L.bytes = front ++ L.rest items)
    (hshort : ¬ front.length + recordSize L.bytes ≤ L.bytes.length) : hashes items = ∅ := by
  have hnone : items.filterMap Item.hash = [] := by
    rw [List.filterMap_eq_nil_iff]
    intro item hitem
    cases item with
    | header => rfl
    | record bytes =>
      exfalso
      obtain ⟨hsize, -⟩ := L.records bytes (hitems hitem)
      have hin : bytes.length ≤ (items.map L.itemBytes).flatten.length :=
        (List.sublist_flatten_of_mem (List.mem_map_of_mem (f := L.itemBytes) hitem)).length_le
      have hlen := congrArg List.length hfile
      rw [List.length_append, rest, List.length_append] at hlen
      rw [recordSize_bytes] at hshort
      omega
  rw [hashes, hnone, List.toFinset_nil]

/-- From an item on, the reading adds the hashes of the records from there on. -/
theorem ends_rest (items : List Item) (hitems : items ⊆ L.items) {front : Bytes} (keys : Finset Nat)
    (hfile : L.bytes = front ++ L.rest items) :
    Ends (scanBody L.bytes) (front.length, keys) (.ok (keys ∪ hashes items)) := by
  induction items generalizing front keys with
  | nil =>
    have hend : ¬ front.length + recordSize L.bytes ≤ L.bytes.length := by
      have hcut := L.cut_length
      have hlen := congrArg List.length hfile
      rw [List.length_append, rest, List.map_nil, List.flatten_nil, List.nil_append] at hlen
      rw [recordSize_bytes]
      omega
    rw [ends_inr (scanBody_end hend), hashes_of_short hitems hfile hend, Finset.union_empty]
  | cons item items ih =>
    have hsplit : L.bytes = front ++ (L.itemBytes item ++ L.rest items) := by
      rw [hfile, rest, List.map_cons, List.flatten_cons, List.append_assoc, rest]
    have hnext : L.bytes = (front ++ L.itemBytes item) ++ L.rest items := by
      rw [hsplit, List.append_assoc]
    have hlater := fun keys => ih (List.subset_of_cons_subset hitems) keys hnext
    by_cases hwhole : front.length + recordSize L.bytes ≤ L.bytes.length
    · cases item with
      | header =>
        have hlen : (L.itemBytes .header).length = 16 := length_header
        have hmagic : slice front.length (front.length + 8) L.bytes = blobMagic L.bytes := by
          rw [slice_item hsplit (by omega), blobMagic_bytes]
          show L.header.take 8 = L.magic
          rw [header, ← L.magic_length]
          exact List.take_left
        have hstep := hlater keys
        rw [List.length_append, hlen] at hstep
        exact (ends_inl (scanBody_header hwhole hmagic)).mpr hstep
      | record bytes =>
        obtain ⟨hsize, hmagic⟩ := L.records bytes (hitems List.mem_cons_self)
        have hlow := L.size_low
        have hlen : (L.itemBytes (.record bytes)).length = L.size := hsize
        have hhead : slice front.length (front.length + 8) L.bytes = bytes.take 8 :=
          slice_item hsplit (by omega)
        have hhash : front.length + 8 ≤ L.bytes.length := by
          rw [recordSize_bytes] at hwhole
          omega
        have hround := @scanBody_record _ _ keys hwhole (by rwa [hhead, blobMagic_bytes]) hhash
        have hstep := hlater (insert (leNat (bytes.take 8)) keys)
        rw [List.length_append, hlen] at hstep
        rw [hhead, recordSize_bytes] at hround
        rw [ends_inl hround]
        convert hstep using 2
        simp only [hashes, List.filterMap_cons, Item.hash, List.toFinset_cons, Finset.union_insert,
          Finset.insert_union]
    · rw [ends_inr (scanBody_end hwhole), hashes_of_short hitems hfile hwhole, Finset.union_empty]

end Layout

/-- Whatever follows the layout is read exactly. -/
theorem reads_layout (L : Layout) : Reads (some L.bytes) (Layout.hashes L.items) := by
  obtain ⟨fuel, hends⟩ := L.ends_rest L.items (List.Subset.refl _) ∅ rfl
  rw [Layout.length_header, Finset.empty_union] at hends
  have hlong : ¬ L.bytes.length < 16 := Nat.not_lt.mpr L.length_bytes
  refine ⟨fuel, ?_⟩
  rw [blobKeys, if_neg hlong]
  exact hends

/-- What is expected of the reading of a byte string: it returns, and where the bytes follow the layout it
returns the hashes of their records. -/
structure ReadsWell (b : Bytes) : Prop where
  returns : ∃ keys, Reads (some b) keys
  exactly : ∀ L : Layout, L.bytes = b → Reads (some b) (Layout.hashes L.items)

/-- **`_blob_keys` reads well just where every whole record holds a hash.** -/
theorem readsWell_iff (b : Bytes) : ReadsWell b ↔ b.length < 16 ∨ HoldHashes b := by
  constructor
  · intro h
    exact (returns_iff b).mp h.returns
  · intro h
    refine ⟨(returns_iff b).mpr h, ?_⟩
    rintro L rfl
    exact reads_layout L

/-- A header that states the size zero, and eight bytes more. -/
def zeroSized : Bytes := List.replicate 8 69 ++ List.replicate 8 0 ++ List.replicate 8 1

/-- The reading of it does not end. -/
theorem zeroSized_never_ends : (∀ fuel, blobKeys fuel (some zeroSized) = none) ∧ ¬ ReadsWell zeroSized := by
  have hround : ∀ s : Nat × Finset Nat, s.1 = 16 → ∃ s', scanBody zeroSized s = .inl s' ∧ s'.1 = 16 := by
    rintro ⟨_, keys⟩ rfl
    have hstay : 16 + recordSize zeroSized = 16 := by decide
    exact ⟨_, scanBody_record (by decide) (by decide) (by decide), hstay⟩
  have hnever : ∀ fuel, blobKeys fuel (some zeroSized) = none := by
    intro fuel
    rw [blobKeys, if_neg (by decide)]
    cases hrun : run (scanBody zeroSized) fuel (16, ∅) with
    | none => rfl
    | some r => exact absurd ⟨fuel, hrun⟩ (not_ends hround rfl)
  refine ⟨hnever, fun h => ?_⟩
  obtain ⟨keys, fuel, hreads⟩ := h.returns
  rw [hnever] at hreads
  cases hreads

end VllmExl3.Bench
