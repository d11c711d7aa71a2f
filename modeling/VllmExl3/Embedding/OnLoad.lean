/-
# VllmExl3.Embedding.OnLoad — a dense embedding encoded while it loads (`quantization/embedding.py`)

Three ways to the same rows: read them out of a cache entry, encode the whole vocabulary and cut, or
cut and encode. They agree wherever the rank owns a row. A rank whose span lies past the stored rows
is served by the cache and by a pre-quantized checkpoint, and refused by the uncached path: it hands
`torch.cat` no part at all.
-/
import VllmExl3.Embedding.Blockq
import VllmExl3.Lib.Chunks

namespace VllmExl3.Embedding

open Format (BLOCKQ_BLOCK BlockqShapes blockqShapes checkBlockqHidden_ok)
open TensorParallel (EXL3Parameter roleOf)

variable {D F ρ : Type}

/-! ## The layer -/

/-- The parameters `create_weights` registers: the stored tensors, and where the dense one lands. -/
structure Layer (D F : Type) where
  bq_q : EXL3Parameter (VocabTensor (List UInt8))
  bq_s : EXL3Parameter (VocabTensor (List UInt8 × List UInt8))
  bq_r : EXL3Parameter (VocabTensor (F × F × F × F))
  bq_src : EXL3Parameter (Dense D)

/-- The parameter `create_weights` registers under a name. -/
def vocabParameter (T : Type) (name : String) (tp_rank tp_size : Nat)
    (rows_per_rank : Option Nat) : EXL3Parameter T where
  role := roleOf name
  tp_rank := tp_rank
  tp_size := tp_size
  column_shard_size := none
  row_shard_size := rows_per_rank
  output_partition_sizes := []
  shards := PyDict.empty

/-- `create_weights` -/
def createWeights (D F : Type) (tp_rank tp_size : Nat) (rows_per_rank : Option Nat) :
    Layer D F where
  bq_q := vocabParameter _ "bq_q" tp_rank tp_size rows_per_rank
  bq_s := vocabParameter _ "bq_s" tp_rank tp_size rows_per_rank
  bq_r := vocabParameter _ "bq_r" tp_rank tp_size rows_per_rank
  bq_src := vocabParameter _ "bq_q" tp_rank tp_size rows_per_rank

/-- `_blockq_weight_loader` -/
def blockqWeightLoader (param : EXL3Parameter (VocabTensor ρ)) (loaded_weight : VocabTensor ρ) :
    EXL3Parameter (VocabTensor ρ) :=
  param.store (param.takeRow loaded_weight param.row_shard_size param.tp_rank) 0

/-- `getattr(layer, name).store(tensor)`, for the three of them -/
def Layer.storeShards (layer : Layer D F) (shards : Encoded F) : Layer D F :=
  { layer with
    bq_q := layer.bq_q.store shards.bq_q 0
    bq_s := layer.bq_s.store shards.bq_s 0
    bq_r := layer.bq_r.store shards.bq_r 0 }

/-- What a checkpoint that stores the three tensors would leave on the layer. -/
def Layer.loadStored (layer : Layer D F) (whole : Encoded F) : Layer D F :=
  { layer with
    bq_q := blockqWeightLoader layer.bq_q whole.bq_q
    bq_s := blockqWeightLoader layer.bq_s whole.bq_s
    bq_r := blockqWeightLoader layer.bq_r whole.bq_r }

/-! ## The encode, in chunks of rows -/

/-- `_encode_on_load`, with the integer `BLOCKQ_ENCODE_CHUNK` holds -/
def encodeOnLoad (o : Fp32 F) (float32 : D → F) (BLOCKQ_ENCODE_CHUNK : Int) (dense : Dense D) :
    Except PyError (Encoded F) := do
  let chunk := (max 1 BLOCKQ_ENCODE_CHUNK).toNat
  let parts ← (rangeStep dense.rows.length chunk).mapM fun start =>
    encode o ((dense.slice start (start + chunk)).toDtype float32) BLOCKQ_BLOCK
  let bq_q ← VocabTensor.cat (parts.map (·.bq_q))
  let bq_s ← VocabTensor.cat (parts.map (·.bq_s))
  let bq_r ← VocabTensor.cat (parts.map (·.bq_r))
  return ⟨bq_q, bq_s, bq_r⟩

/-- `_row_span` -/
def rowSpan {T : Type} (param : EXL3Parameter T) (rows : Nat) : Nat × Nat :=
  match param.row_shard_size with
  | none => (0, rows)
  | some size =>
    if param.tp_size = 1 then (0, rows)
    else
      let first := param.tp_rank * size
      (min first rows, min (first + size) rows)

/-! ## The cache, as a loader sees it -/

/-- `safe_open`: a slice of a stored tensor's rows is Python's. Whether a slice without rows is
served or refused is left open. -/
structure SafeSlice where
  get : {ρ : Type} → VocabTensor ρ → Nat → Nat → Option (VocabTensor ρ)
  get_rows : ∀ {ρ : Type} (t : VocabTensor ρ) {first last : Nat}, first < last →
    last ≤ t.rows.length → get t first last = some (t.slice first last)

/-- The reading of one tensor of an entry in `blockq_cache.read`. -/
def SafeSlice.getChecked (f : SafeSlice) (t : VocabTensor ρ) (shape : List Nat)
    (row_start row_stop : Nat) : Option (VocabTensor ρ) :=
  if t.shape ≠ shape then none else f.get t row_start row_stop

/-- `blockq_cache.read`: the entry's rows, or `none` for any kind of miss. -/
def read (f : SafeSlice) (file : Option (Encoded F)) (rows hidden row_start row_stop : Nat) :
    Option (Encoded F) := do
  let file ← file
  let want ← (blockqShapes rows hidden BLOCKQ_BLOCK).toOption
  let bq_q ← f.getChecked file.bq_q want.bq_q row_start row_stop
  let bq_s ← f.getChecked file.bq_s want.bq_s row_start row_stop
  let bq_r ← f.getChecked file.bq_r want.bq_r row_start row_stop
  return ⟨bq_q, bq_s, bq_r⟩

/-- `load` of `_make_on_load_loader`. `entry` is `none` where the encode is not to be cached, and
otherwise the file under the entry's path, if there is one. Also returns what it hands to
`blockq_cache.write`, which never raises. -/
def load (o : Fp32 F) (float32 : D → F) (f : SafeSlice) (BLOCKQ_ENCODE_CHUNK : Int)
    (layer : Layer D F) (loaded_weight : Dense D) (entry : Option (Option (Encoded F))) :
    Except PyError (Layer D F × Option (Encoded F)) := do
  let rows := loaded_weight.rows.length
  let (start, stop) := rowSpan layer.bq_src rows
  match entry with
  | none =>
    let encoded ← encodeOnLoad o float32 BLOCKQ_ENCODE_CHUNK (loaded_weight.slice start stop)
    return (layer.storeShards encoded, none)
  | some file =>
    match read f file rows loaded_weight.hidden start stop with
    | some shards => return (layer.storeShards shards, none)
    | none =>
      let encoded ← encodeOnLoad o float32 BLOCKQ_ENCODE_CHUNK loaded_weight
      return (layer.storeShards (encoded.slice start stop), some encoded)

/-- The layer a load leaves, if it does not raise. -/
def loaded (r : Except PyError (Layer D F × Option (Encoded F))) : Option (Layer D F) :=
  r.toOption.map Prod.fst

/-! ## Chunks of rows -/

section Chunked

variable {o : Fp32 F} {float32 : D → F} {dense : Dense D}

/-- The encoding of a matrix, every row on its own. -/
def encoded (o : Fp32 F) (float32 : D → F) (dense : Dense D) : Encoded F :=
  encodeRows o dense.hidden BLOCKQ_BLOCK (dense.toDtype float32).rows

theorem encoded_slice (first last : Nat) :
    encoded o float32 (dense.slice first last) = (encoded o float32 dense).slice first last := by
  show encodeRows o dense.hidden BLOCKQ_BLOCK ((slice first last dense.rows).map _) = _
  rw [← slice_map, encodeRows_slice]
  rfl

/-- The parts' rows, laid end to end, are the rows of the whole. -/
theorem flatMap_parts {α : Type} {rows : List α} {chunk : Nat} (hchunk : 0 < chunk) (row : α → ρ) :
    ((rangeStep rows.length chunk).map fun start =>
      (slice start (start + chunk) rows).map row).flatten = rows.map row := by
  have hparts : (rangeStep rows.length chunk).flatMap (fun start =>
      slice start (start + chunk) rows) = rows := flatMap_chunks hchunk
  calc ((rangeStep rows.length chunk).map fun start =>
        (slice start (start + chunk) rows).map row).flatten
      = ((rangeStep rows.length chunk).flatMap fun start =>
          slice start (start + chunk) rows).map row := by
        rw [List.map_flatMap, List.flatMap_def]
    _ = rows.map row := by rw [hparts]

/-- The tensors of the chunks, concatenated. -/
theorem cat_parts {α : Type} {rows : List α} {chunk : Nat} (hchunk : 0 < chunk) (hrows : rows ≠ [])
    (tail : List Nat) (row : α → ρ) :
    VocabTensor.cat ((rangeStep rows.length chunk).map fun start =>
      ⟨tail, (slice start (start + chunk) rows).map row⟩) = .ok ⟨tail, rows.map row⟩ := by
  have hstarts : rangeStep rows.length chunk ≠ [] := by
    rwa [ne_eq, rangeStep_eq_nil hchunk, List.length_eq_zero_iff]
  have htail : ∀ t ∈ (rangeStep rows.length chunk).map (fun start =>
      (⟨tail, (slice start (start + chunk) rows).map row⟩ : VocabTensor ρ)), t.tail = tail := by
    intro t ht
    obtain ⟨start, _, rfl⟩ := List.mem_map.mp ht
    rfl
  rw [VocabTensor.cat_ok (by rwa [ne_eq, List.map_eq_nil_iff]) htail, List.flatMap_map,
    List.flatMap_def, flatMap_parts hchunk]

/-- Chunking by rows is exact, for every chunk size. -/
theorem encodeOnLoad_ok (hhidden : dense.hidden % BLOCKQ_BLOCK = 0) (hpos : dense.hidden ≠ 0)
    (hrows : dense.rows ≠ []) (chunk : Int) :
    encodeOnLoad o float32 chunk dense = .ok (encoded o float32 dense) := by
  have hchunk : 0 < (max 1 chunk).toNat := by omega
  have hparts : (rangeStep dense.rows.length (max 1 chunk).toNat).mapM (fun start =>
      encode o ((dense.slice start (start + (max 1 chunk).toNat)).toDtype float32) BLOCKQ_BLOCK) =
        .ok ((rangeStep dense.rows.length (max 1 chunk).toNat).map fun start =>
          encoded o float32 (dense.slice start (start + (max 1 chunk).toNat))) :=
    mapM_ok fun start _ => encode_ok o hhidden hpos
  rw [encodeOnLoad, hparts]
  simp only [List.map_map, Function.comp_def, encoded, encodeRows, Dense.toDtype, Dense.slice,
    bind, Except.bind, cat_parts hchunk hrows]
  rfl

/-- No chunk at all leaves `torch.cat` nothing to concatenate. -/
theorem encodeOnLoad_no_rows (hrows : dense.rows = []) (chunk : Int) :
    encodeOnLoad o float32 chunk dense =
      .error (.runtime "torch.cat(): expected a non-empty list of Tensors") := by
  have hstarts : rangeStep dense.rows.length (max 1 chunk).toNat = [] := by
    rw [rangeStep_eq_nil (by omega), hrows, List.length_nil]
  rw [encodeOnLoad, hstarts]
  rfl

theorem encodeOnLoad_no_columns (hhidden : dense.hidden = 0) (hrows : dense.rows ≠ [])
    (chunk : Int) : encodeOnLoad o float32 chunk dense = .error .index := by
  have hstarts : rangeStep dense.rows.length (max 1 chunk).toNat ≠ [] := by
    rwa [ne_eq, rangeStep_eq_nil (by omega), List.length_eq_zero_iff]
  rw [encodeOnLoad, mapM_error hstarts fun start _ => encode_no_columns o hhidden]
  rfl

end Chunked

/-! ## This rank's rows -/

section Rank

variable {T : Type} {tp_rank tp_size : Nat} {rows_per_rank : Option Nat}

/-- The rows of the span are the rows `_take_row` takes. -/
theorem takeRow_eq_slice {param : EXL3Parameter (VocabTensor ρ)} (hrole : param.role = .vocab)
    (t : VocabTensor ρ) : param.takeRow t param.row_shard_size param.tp_rank =
      t.slice (rowSpan param t.rows.length).1 (rowSpan param t.rows.length).2 := by
  have hwhole : t = t.slice 0 t.rows.length :=
    (VocabTensor.slice_zero_length (Nat.le_refl _)).symm
  cases hsize : param.row_shard_size with
  | none =>
    rw [EXL3Parameter.takeRow, rowSpan, hsize]
    exact hwhole
  | some size =>
    by_cases hone : param.tp_size = 1
    · rw [EXL3Parameter.takeRow, rowSpan, hsize]
      simp only [if_pos hone]
      exact hwhole
    · rw [EXL3Parameter.takeRow, rowSpan, hsize]
      simp only [if_neg hone, hrole]
      exact VocabTensor.slice_min _ _ t

/-- Whether this rank owns a stored row. -/
theorem rowSpan_nonempty_iff (param : EXL3Parameter T) (rows : Nat) :
    (rowSpan param rows).1 < (rowSpan param rows).2 ↔
      0 < rows ∧ (param.tp_size = 1 ∨ param.row_shard_size = none ∨
        ∃ size, param.row_shard_size = some size ∧ 0 < size ∧ param.tp_rank * size < rows) := by
  cases hsize : param.row_shard_size with
  | none => simp [rowSpan, hsize]
  | some size =>
    by_cases hone : param.tp_size = 1
    · simp [rowSpan, hsize, hone]
    · simp only [rowSpan, hsize, hone, if_false, false_or, reduceCtorEq, Option.some.injEq,
        exists_eq_left']
      omega

theorem rowSpan_le (param : EXL3Parameter T) (rows : Nat) : (rowSpan param rows).2 ≤ rows := by
  unfold rowSpan
  split
  · exact Nat.le_refl rows
  · split
    · exact Nat.le_refl rows
    · exact Nat.min_le_right _ _

end Rank

/-! ## The three paths -/

section Paths

variable {o : Fp32 F} {float32 : D → F} {dense : Dense D}
variable {tp_rank tp_size : Nat} {rows_per_rank : Option Nat}

theorem encoded_shapes (o : Fp32 F) (float32 : D → F) (dense : Dense D) :
    (encoded o float32 dense).bq_q.shape = [dense.rows.length, dense.hidden / 2] ∧
      (encoded o float32 dense).bq_s.shape = [dense.rows.length, 2, dense.hidden / BLOCKQ_BLOCK] ∧
      (encoded o float32 dense).bq_r.shape = [dense.rows.length, 4] := by
  simp [encoded, encodeRows, VocabTensor.shape, Dense.toDtype]

theorem blockqWeightLoader_eq {param : EXL3Parameter (VocabTensor ρ)} (hrole : param.role = .vocab)
    {t : VocabTensor ρ} {rows : Nat} (hrows : t.rows.length = rows) :
    blockqWeightLoader param t =
      param.store (t.slice (rowSpan param rows).1 (rowSpan param rows).2) 0 := by
  subst hrows
  rw [blockqWeightLoader, takeRow_eq_slice hrole]

/-- Storing the rows of this rank's span is loading them as a checkpoint's would be. -/
theorem storeShards_slice {layer : Layer D F}
    (hlayer : layer = createWeights D F tp_rank tp_size rows_per_rank) :
    layer.storeShards ((encoded o float32 dense).slice (rowSpan layer.bq_src dense.rows.length).1
      (rowSpan layer.bq_src dense.rows.length).2) =
        layer.loadStored (encoded o float32 dense) := by
  have hrole : roleOf "bq_q" = .vocab ∧ roleOf "bq_s" = .vocab ∧ roleOf "bq_r" = .vocab := by
    decide
  have hrows : (encoded o float32 dense).bq_q.rows.length = dense.rows.length ∧
      (encoded o float32 dense).bq_s.rows.length = dense.rows.length ∧
      (encoded o float32 dense).bq_r.rows.length = dense.rows.length := by
    simp [encoded, encodeRows, Dense.toDtype]
  subst hlayer
  rw [Layer.loadStored, blockqWeightLoader_eq hrole.1 hrows.1,
    blockqWeightLoader_eq hrole.2.1 hrows.2.1, blockqWeightLoader_eq hrole.2.2 hrows.2.2]
  rfl

/-- An entry that holds the encoding is read as the rows asked for. -/
theorem read_encoded (f : SafeSlice) (hhidden : dense.hidden % BLOCKQ_BLOCK = 0) {a b : Nat}
    (hspan : a < b) (hb : b ≤ dense.rows.length) :
    read f (some (encoded o float32 dense)) dense.rows.length dense.hidden a b =
      some ((encoded o float32 dense).slice a b) := by
  have hshapes : blockqShapes dense.rows.length dense.hidden BLOCKQ_BLOCK =
      .ok ⟨[dense.rows.length, dense.hidden / 2],
        [dense.rows.length, 2, dense.hidden / BLOCKQ_BLOCK], [dense.rows.length, 4]⟩ := by
    rw [blockqShapes, checkBlockqHidden_ok hhidden]
    rfl
  have hchecked : ∀ {ρ : Type} {t : VocabTensor ρ} {tail : List Nat},
      t.shape = dense.rows.length :: tail →
        f.getChecked t (dense.rows.length :: tail) a b = some (t.slice a b) := by
    intro ρ t tail hshape
    have hlen : t.rows.length = dense.rows.length := (List.cons.inj hshape).1
    rw [SafeSlice.getChecked, if_neg (not_not.mpr hshape), f.get_rows t hspan (hlen ▸ hb)]
  obtain ⟨hq, hs, hr⟩ := encoded_shapes o float32 dense
  rw [read, hshapes]
  show (f.getChecked _ [_, _] a b).bind _ = _
  rw [hchecked hq]
  show (f.getChecked _ [_, _, _] a b).bind _ = _
  rw [hchecked hs]
  show (f.getChecked _ [_, _] a b).bind _ = _
  rw [hchecked hr]
  rfl

/-- The dense rows of this rank's span. -/
def localRows (layer : Layer D F) (dense : Dense D) : Dense D :=
  dense.slice (rowSpan layer.bq_src dense.rows.length).1 (rowSpan layer.bq_src dense.rows.length).2

theorem localRows_eq_nil_iff {layer : Layer D F} : (localRows layer dense).rows = [] ↔
    ¬(rowSpan layer.bq_src dense.rows.length).1 < (rowSpan layer.bq_src dense.rows.length).2 := by
  have hle := rowSpan_le layer.bq_src dense.rows.length
  show slice _ _ dense.rows = [] ↔ _
  rw [← List.length_eq_zero_iff, length_slice]
  omega

/-- Where the rank owns a row, every path loads what a checkpoint's tensors would. -/
theorem load_owned {f : SafeSlice} {chunk : Int} {layer : Layer D F}
    (hlayer : layer = createWeights D F tp_rank tp_size rows_per_rank)
    (hhidden : dense.hidden % BLOCKQ_BLOCK = 0) (hpos : dense.hidden ≠ 0)
    (hspan : (rowSpan layer.bq_src dense.rows.length).1 <
      (rowSpan layer.bq_src dense.rows.length).2)
    {entry : Option (Option (Encoded F))}
    (hentry : entry = none ∨ entry = some none ∨ entry = some (some (encoded o float32 dense))) :
    loaded (load o float32 f chunk layer dense entry) =
      some (layer.loadStored (encoded o float32 dense)) := by
  have hle := rowSpan_le layer.bq_src dense.rows.length
  have hrows : dense.rows ≠ [] := by
    rw [ne_eq, ← List.length_eq_zero_iff]
    omega
  rcases hentry with rfl | rfl | rfl
  · have hlocal : (localRows layer dense).rows ≠ [] := fun hnil =>
      localRows_eq_nil_iff.mp hnil hspan
    have hcolumns : (localRows layer dense).hidden % BLOCKQ_BLOCK = 0 := hhidden
    have hencode : encodeOnLoad o float32 chunk (localRows layer dense) =
        .ok (encoded o float32 (localRows layer dense)) :=
      encodeOnLoad_ok hcolumns hpos hlocal chunk
    rw [load]
    dsimp only
    rw [← localRows, hencode, localRows, encoded_slice]
    exact congrArg some (storeShards_slice hlayer)
  · rw [load]
    dsimp only
    rw [show read f none _ _ _ _ = none from rfl, encodeOnLoad_ok hhidden hpos hrows]
    exact congrArg some (storeShards_slice hlayer)
  · rw [load]
    dsimp only
    rw [read_encoded f hhidden hspan hle]
    exact congrArg some (storeShards_slice hlayer)

/-- A rank whose span holds no row: the uncached path raises, a miss stores empty tensors. -/
theorem load_past_the_end (o : Fp32 F) (float32 : D → F) (f : SafeSlice) (chunk : Int)
    {layer : Layer D F}
    (hlayer : layer = createWeights D F tp_rank tp_size rows_per_rank)
    (hhidden : dense.hidden % BLOCKQ_BLOCK = 0) (hpos : dense.hidden ≠ 0) (hrows : dense.rows ≠ [])
    (hspan : ¬(rowSpan layer.bq_src dense.rows.length).1 <
      (rowSpan layer.bq_src dense.rows.length).2) :
    load o float32 f chunk layer dense none =
        .error (.runtime "torch.cat(): expected a non-empty list of Tensors") ∧
      loaded (load o float32 f chunk layer dense (some none)) =
        some (layer.loadStored (encoded o float32 dense)) := by
  constructor
  · rw [load]
    dsimp only
    rw [← localRows, encodeOnLoad_no_rows (localRows_eq_nil_iff.mpr hspan)]
    rfl
  · rw [load]
    dsimp only
    rw [show read f none _ _ _ _ = none from rfl, encodeOnLoad_ok hhidden hpos hrows]
    exact congrArg some (storeShards_slice hlayer)

/-- A matrix without rows or without columns is refused whichever way it comes. -/
theorem load_degenerate {f : SafeSlice} {chunk : Int} {layer : Layer D F}
    (h : dense.rows = [] ∨ dense.hidden = 0) {entry : Option (Option (Encoded F))}
    (hentry : entry = none ∨ entry = some none) :
    loaded (load o float32 f chunk layer dense entry) = none := by
  have hraises : ∀ m : Dense D, m.rows = [] ∨ m.hidden = 0 →
      ∃ err, encodeOnLoad o float32 chunk m = .error err := by
    intro m hm
    by_cases hrows : m.rows = []
    · exact ⟨_, encodeOnLoad_no_rows hrows chunk⟩
    · exact ⟨_, encodeOnLoad_no_columns (hm.resolve_left hrows) hrows chunk⟩
  rcases hentry with rfl | rfl
  · have hlocal : (localRows layer dense).rows = [] ∨ (localRows layer dense).hidden = 0 := by
      refine h.imp (fun hnil => ?_) id
      show slice _ _ dense.rows = []
      rw [hnil, slice, List.take_nil, List.drop_nil]
    obtain ⟨err, herr⟩ := hraises _ hlocal
    rw [load]
    dsimp only
    rw [← localRows, herr]
    rfl
  · obtain ⟨err, herr⟩ := hraises dense h
    rw [load]
    dsimp only
    rw [show read f none _ _ _ _ = none from rfl, herr]
    rfl

/-- What a load leaves does not depend on the cache: it raises without one exactly when it raises
on a miss, and once the vocabulary has an encoding, all three paths load this rank's rows of it. -/
structure PathIndependent (o : Fp32 F) (float32 : D → F) (f : SafeSlice)
    (BLOCKQ_ENCODE_CHUNK : Int) (layer : Layer D F) (dense : Dense D) : Prop where
  uncached_eq_miss : loaded (load o float32 f BLOCKQ_ENCODE_CHUNK layer dense none) =
    loaded (load o float32 f BLOCKQ_ENCODE_CHUNK layer dense (some none))
  loads_stored : ∀ (chunk : Int) (whole : Encoded F), encodeOnLoad o float32 chunk dense = .ok whole →
    ∀ entry, entry = none ∨ entry = some none ∨ entry = some (some whole) →
      loaded (load o float32 f BLOCKQ_ENCODE_CHUNK layer dense entry) =
        some (layer.loadStored whole)

/-- On-load encoding is path independent exactly for the ranks that own a stored row. -/
theorem load_path_independent_iff (o : Fp32 F) (float32 : D → F) (f : SafeSlice)
    (BLOCKQ_ENCODE_CHUNK : Int) (tp_rank tp_size : Nat) (rows_per_rank : Option Nat)
    (dense : Dense D) (hhidden : dense.hidden % BLOCKQ_BLOCK = 0) :
    PathIndependent o float32 f BLOCKQ_ENCODE_CHUNK
        (createWeights D F tp_rank tp_size rows_per_rank) dense ↔
      dense.rows.length = 0 ∨ dense.hidden = 0 ∨ tp_size = 1 ∨ rows_per_rank = none ∨
        ∃ size, rows_per_rank = some size ∧ 0 < size ∧ tp_rank * size < dense.rows.length := by
  have hspan := rowSpan_nonempty_iff (createWeights D F tp_rank tp_size rows_per_rank).bq_src
    dense.rows.length
  by_cases hdegenerate : dense.rows = [] ∨ dense.hidden = 0
  · refine iff_of_true ⟨?_, ?_⟩ ?_
    · rw [load_degenerate hdegenerate (.inl rfl), load_degenerate hdegenerate (.inr rfl)]
    · intro chunk whole hwhole
      by_cases hrows : dense.rows = []
      · rw [encodeOnLoad_no_rows hrows] at hwhole
        cases hwhole
      · rw [encodeOnLoad_no_columns (hdegenerate.resolve_left hrows) hrows] at hwhole
        cases hwhole
    · rw [List.length_eq_zero_iff, ← or_assoc]
      exact .inl hdegenerate
  · obtain ⟨hrows, hpos⟩ := not_or.mp hdegenerate
    have hlength : dense.rows.length ≠ 0 := fun hnil => hrows (List.length_eq_zero_iff.mp hnil)
    by_cases howned : (rowSpan (createWeights D F tp_rank tp_size rows_per_rank).bq_src
        dense.rows.length).1 < (rowSpan (createWeights D F tp_rank tp_size rows_per_rank).bq_src
        dense.rows.length).2
    · refine iff_of_true ⟨?_, ?_⟩ (.inr (.inr (hspan.mp howned).2))
      · rw [load_owned rfl hhidden hpos howned (.inl rfl),
          load_owned rfl hhidden hpos howned (.inr (.inl rfl))]
      · intro chunk whole hwhole entry hentry
        rw [encodeOnLoad_ok hhidden hpos hrows] at hwhole
        obtain rfl := Except.ok.inj hwhole
        exact load_owned rfl hhidden hpos howned hentry
    · refine iff_of_false (fun hindep => ?_) (fun hcond => howned (hspan.mpr ⟨by omega, ?_⟩))
      · have heq := hindep.uncached_eq_miss
        have hpast := load_past_the_end o float32 f BLOCKQ_ENCODE_CHUNK rfl hhidden hpos hrows howned
        rw [hpast.1, hpast.2] at heq
        cases heq
      · exact (hcond.resolve_left hlength).resolve_left hpos

/-- A reader that serves every slice. -/
def SafeSlice.python : SafeSlice where
  get t first last := some (t.slice first last)
  get_rows _ _ _ _ _ := rfl

/-- `rows` equal rows, of two blocks with different scales and minima. -/
def twoBlocks (rows : Nat) : Dense ℚ where
  hidden := 64
  rows := List.replicate rows (List.replicate 16 0 ++ List.replicate 16 15 ++
    List.replicate 16 255 ++ List.replicate 16 4095)
  hidden_eq := by
    intro row hrow
    rw [List.eq_of_mem_replicate hrow]
    rfl

/-- The last rank that owns a row owns two of its eight. -/
theorem twoBlocks_path_independent : PathIndependent exactFp32 id SafeSlice.python 16384
    (createWeights ℚ ℚ 6 8 (some 8)) (twoBlocks 50) := by
  refine (load_path_independent_iff exactFp32 id SafeSlice.python 16384 6 8 (some 8)
    (twoBlocks 50) (by decide)).mpr ?_
  exact .inr (.inr (.inr (.inr ⟨8, rfl, by decide, by decide⟩)))

/-- Fifty rows over eight ranks of eight: the last rank's span is `[56, 64)`. -/
theorem twoBlocks_past_the_end : ¬PathIndependent exactFp32 id SafeSlice.python 16384
    (createWeights ℚ ℚ 7 8 (some 8)) (twoBlocks 50) := by
  intro hindep
  have heq := hindep.uncached_eq_miss
  have hpast := load_past_the_end exactFp32 id SafeSlice.python 16384 (Eq.refl
    (createWeights ℚ ℚ 7 8 (some 8))) (show (twoBlocks 50).hidden % BLOCKQ_BLOCK = 0 by decide)
    (by decide) (by decide) (by decide)
  rw [hpast.1, hpast.2] at heq
  cases heq

end Paths

end VllmExl3.Embedding
