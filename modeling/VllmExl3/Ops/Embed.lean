/-
# VllmExl3.Ops.Embed — gathering rows out of a quantized embedding (`ops.py`)

`_embed_rows` decodes only the 128-row blocks a batch touches: one block a token in the path a CUDA
graph can capture, one block a distinct block in the other. Both run over chunks and write rows of
one uninitialised buffer. The writes are kept as a list here, so that "each row is written exactly
once" is a statement about the code.
-/
import VllmExl3.Ops.Matrix
import VllmExl3.Lib.Chunks
import Mathlib.Data.List.Sort

namespace VllmExl3.Ops

open Format (TILE HAD_BLOCK)
open TensorParallel

variable {W R : Type}

/-! ## Definitions -/

/-- `trellis[:, index, :]` -/
def gatherCols (t : Trellis W) (index : List Nat) : Except PyError (Trellis W) :=
  if h : ∀ j ∈ index, j < t.cols then .ok
    { rows := t.rows
      cols := index.length
      words := t.words
      tiles := t.tiles.map fun row => index.map (row.getD · [])
      rows_eq := by rw [List.length_map, t.rows_eq]
      cols_eq := by
        intro row hrow
        obtain ⟨row', _, rfl⟩ := List.mem_map.mp hrow
        exact List.length_map _
      words_eq := by
        intro row hrow tile htile
        obtain ⟨row', hrow', rfl⟩ := List.mem_map.mp hrow
        obtain ⟨j, hj, rfl⟩ := List.mem_map.mp htile
        have hlt : j < row'.length := by
          rw [t.cols_eq row' hrow']
          exact h j hj
        rw [List.getD_eq_getElem _ _ hlt]
        exact t.words_eq row' hrow' _ (List.getElem_mem hlt) }
  else .error .index

/-- `v[index]` -/
def gather (v : List R) (index : List Nat) [Zero R] : Except PyError (List R) :=
  if ∀ j ∈ index, j < v.length then .ok (index.map (v.getD · 0)) else .error .index

section Decode

variable [CommRing R] (ext : Exllamav3 W R) (L : Linear W R)

/-- One pass over `chunk`: its blocks decoded side by side. `svh` is gathered before the transforms
here and after them in the source; a block the trellis has is one `svh` has, so neither order raises
where the other does not. -/
def decodeBlocks (chunk : List Nat) : Except PyError (List (List R)) := do
  let tiles_per_block := HAD_BLOCK / TILE
  let tile_index := chunk.flatMap fun block =>
    tabulate tiles_per_block fun i => block * tiles_per_block + i
  let t ← gatherCols L.trellis tile_index
  let columns := chunk.flatMap fun block => tabulate HAD_BLOCK fun i => block * HAD_BLOCK + i
  let svh ← gather L.svh columns
  undoRegularization ext (reconstruct ext t L.mcg.isSome L.mul1.isSome) (TILE * t.cols) L.suh svh

/-- Column `j` of a matrix, as the row `w[:, j].t()`. -/
def column (w : List (List R)) (j : Nat) : List R := w.map (·.getD j 0)

/-- One pass of `_embed_rows_static`: what it writes to `out[start:stop]`. -/
def staticPass (token_ids : List Nat) (start stop : Nat) : Except PyError (List (Nat × List R)) := do
  let ids := slice start stop token_ids
  let block := ids.map (· / HAD_BLOCK)
  let offset := ids.map (· % HAD_BLOCK)
  let w ← decodeBlocks ext L block
  return tabulate (stop - start) fun slot =>
    (start + slot, column w (slot * HAD_BLOCK + offset.getD slot 0))

/-- What `_embed_rows_static` writes, in order. -/
def staticWrites (embed_block_chunk : Nat) (token_ids : List Nat) :
    Except PyError (List (Nat × List R)) := do
  let n := token_ids.length
  let passes ← (rangeStep n embed_block_chunk).mapM fun start =>
    staticPass ext L token_ids start (min (start + embed_block_chunk) n)
  return passes.flatten

/-- `_embed_rows_static`; `out` is the buffer `torch.empty` returned. -/
def embedRowsStatic (embed_block_chunk : Nat) (token_ids : List Nat) (out : List (List R)) :
    Except PyError (List (List R)) := do
  let writes ← staticWrites ext L embed_block_chunk token_ids
  return applyWrites writes out

/-- The values `torch.unique` returns: sorted, each once. -/
def unique (xs : List Nat) : List Nat := xs.dedup.insertionSort (· ≤ ·)

/-- One pass of the deduplicating loop: what it writes to `out[rows]`. -/
def uniquePass (token_ids blocks : List Nat) (start stop : Nat) :
    Except PyError (List (Nat × List R)) := do
  let inverse := token_ids.map fun id => blocks.idxOf (id / HAD_BLOCK)
  let offset := token_ids.map (· % HAD_BLOCK)
  let chunk := slice start stop blocks
  let w ← decodeBlocks ext L chunk
  let rows := (List.range token_ids.length).filter fun r =>
    start ≤ inverse.getD r 0 ∧ inverse.getD r 0 < start + chunk.length
  return rows.map fun r =>
    (r, column w ((inverse.getD r 0 - start) * HAD_BLOCK + offset.getD r 0))

/-- What the deduplicating branch of `_embed_rows` writes, in order. -/
def uniqueWrites (embed_block_chunk : Nat) (token_ids : List Nat) :
    Except PyError (List (Nat × List R)) := do
  let blocks := unique (token_ids.map (· / HAD_BLOCK))
  let passes ← (rangeStep blocks.length embed_block_chunk).mapM fun start =>
    uniquePass ext L token_ids blocks start (start + embed_block_chunk)
  return passes.flatten

/-- The deduplicating branch of `_embed_rows`. -/
def embedRowsUnique (embed_block_chunk : Nat) (token_ids : List Nat) (out : List (List R)) :
    Except PyError (List (List R)) := do
  let writes ← uniqueWrites ext L embed_block_chunk token_ids
  return applyWrites writes out

/-- `_embed_rows` -/
def embedRows (embed_block_chunk embed_static_max : Nat) (token_ids : List Nat)
    (out : List (List R)) : Except PyError (List (List R)) :=
  if token_ids.length = 0 then .ok []
  else if token_ids.length ≤ embed_static_max then embedRowsStatic ext L embed_block_chunk token_ids out
  else embedRowsUnique ext L embed_block_chunk token_ids out

/-- `dense_weight(...)[token_ids]` -/
def denseRows (token_ids : List Nat) : Except PyError (List (List R)) := do
  let w ← denseOf ext L
  token_ids.mapM fun id => if id < w.length then .ok (w.getD id []) else .error .index

end Decode

/-! ## One pass -/

theorem gatherCols_ok {t : Trellis W} {index : List Nat} (h : ∀ j ∈ index, j < t.cols) :
    ∃ u, gatherCols t index = .ok u ∧ u.rows = t.rows ∧ u.cols = index.length ∧
      ∀ a b, b < index.length → u.tile a b = t.tile a (index.getD b 0) := by
  rw [gatherCols, dif_pos h]
  refine ⟨_, rfl, rfl, rfl, fun a b hb => ?_⟩
  simp only [Trellis.tile, List.getD_eq_getElem?_getD, List.getElem?_map]
  cases t.tiles[a]? with
  | none => simp [hb]
  | some row => simp [hb]

section Index

variable {L : Linear W R} {chunk : List Nat}

/-- The blocks of a chunk the trellis has, index by index. -/
theorem tile_index_lt (hn : HAD_BLOCK ∣ TILE * L.trellis.cols)
    (hchunk : ∀ b ∈ chunk, HAD_BLOCK * b < TILE * L.trellis.cols) :
    ∀ j ∈ chunk.flatMap (fun block => tabulate (HAD_BLOCK / TILE) fun i =>
      block * (HAD_BLOCK / TILE) + i), j < L.trellis.cols := by
  intro j hj
  obtain ⟨b, hb, hj⟩ := List.mem_flatMap.mp hj
  obtain ⟨i, hi, rfl⟩ := List.mem_map.mp hj
  have hlt := hchunk b hb
  have hi := List.mem_range.mp hi
  simp only [HAD_BLOCK, TILE] at hn hlt hi ⊢
  omega

theorem column_lt (hn : HAD_BLOCK ∣ TILE * L.trellis.cols)
    (hchunk : ∀ b ∈ chunk, HAD_BLOCK * b < TILE * L.trellis.cols) :
    ∀ j ∈ chunk.flatMap (fun block => tabulate HAD_BLOCK fun i => block * HAD_BLOCK + i),
      j < L.svh.length := by
  intro j hj
  obtain ⟨b, hb, hj⟩ := List.mem_flatMap.mp hj
  obtain ⟨i, hi, rfl⟩ := List.mem_map.mp hj
  have hlt := hchunk b hb
  have hi := List.mem_range.mp hi
  rw [L.svh_eq]
  simp only [HAD_BLOCK, TILE] at hn hlt hi ⊢
  omega

end Index

section Pass

variable [CommRing R] {ext : Exllamav3 W R} {L : Linear W R} {chunk : List Nat}

variable (ext) in
/-- The gathered trellis and output scale a pass decodes. -/
theorem decodeBlocks_eq (hn : HAD_BLOCK ∣ TILE * L.trellis.cols)
    (hchunk : ∀ b ∈ chunk, HAD_BLOCK * b < TILE * L.trellis.cols) :
    ∃ t : Trellis W, t.rows = L.trellis.rows ∧ TILE * t.cols = HAD_BLOCK * chunk.length ∧
      (∀ a b, b < t.cols → t.tile a b =
        L.trellis.tile a (chunk.getD (b / (HAD_BLOCK / TILE)) 0 * (HAD_BLOCK / TILE) +
          b % (HAD_BLOCK / TILE))) ∧
      decodeBlocks ext L chunk =
        undoRegularization ext (reconstruct ext t L.mcg.isSome L.mul1.isSome) (TILE * t.cols) L.suh
          (tabulate (HAD_BLOCK * chunk.length) fun j =>
            L.svh.getD (chunk.getD (j / HAD_BLOCK) 0 * HAD_BLOCK + j % HAD_BLOCK) 0) := by
  obtain ⟨t, ht, hrows, hcols, htile⟩ := gatherCols_ok (tile_index_lt hn hchunk)
  rw [length_flatMap_tabulate] at hcols
  refine ⟨t, hrows, ?_, fun a b hb => ?_, ?_⟩
  · rw [hcols, ← Nat.mul_assoc]
    rfl
  · rw [hcols] at hb
    rw [htile a b (by rwa [length_flatMap_tabulate]), getD_flatMap_tabulate 0 0 hb]
  · rw [decodeBlocks]
    dsimp only
    rw [ht]
    show gather _ _ >>= _ = _
    rw [gather, if_pos (column_lt hn hchunk)]
    show undoRegularization _ _ _ _ _ = _
    refine congrArg (undoRegularization ext _ _ _) ?_
    rw [flatMap_tabulate 0 0, tabulate, List.map_map]
    rfl

/-- A pass decodes, side by side, the effective rows of its blocks. -/
theorem decodeBlocks_ok (hk : HAD_BLOCK ∣ TILE * L.trellis.rows)
    (hn : HAD_BLOCK ∣ TILE * L.trellis.cols)
    (hchunk : ∀ b ∈ chunk, HAD_BLOCK * b < TILE * L.trellis.cols) :
    decodeBlocks ext L chunk = .ok (tabulate (TILE * L.trellis.rows) fun i =>
      tabulate (HAD_BLOCK * chunk.length) fun j =>
        effective ext L i (HAD_BLOCK * chunk.getD (j / HAD_BLOCK) 0 + j % HAD_BLOCK)) := by
  obtain ⟨t, hrows, hcols, htile, hdecode⟩ := decodeBlocks_eq ext hn hchunk
  have hsvh : (tabulate (HAD_BLOCK * chunk.length) fun j =>
      L.svh.getD (chunk.getD (j / HAD_BLOCK) 0 * HAD_BLOCK + j % HAD_BLOCK) 0).length =
        HAD_BLOCK * chunk.length := length_tabulate _ _
  have hundo := undoRegularization_ok ext (weight ext t L.mcg.isSome L.mul1.isSome) hk
    (Nat.dvd_mul_right HAD_BLOCK chunk.length) L.suh_eq hsvh
  rw [hdecode, reconstruct, hcols, hrows]
  refine hundo.trans (congrArg Except.ok (tabulate_congr fun i hi => tabulate_congr fun j hj => ?_))
  refine unregularized_gather (by decide) (fun a q hq => ?_) ?_
  · -- the tile that holds column `q` of the block
    have htilelt : (HAD_BLOCK * (j / HAD_BLOCK) + q) / TILE < t.cols := by
      simp only [HAD_BLOCK, TILE] at hj hq hcols ⊢
      omega
    have hblock : (HAD_BLOCK * (j / HAD_BLOCK) + q) / TILE / (HAD_BLOCK / TILE) = j / HAD_BLOCK := by
      simp only [HAD_BLOCK, TILE] at hq ⊢
      omega
    have hcol : chunk.getD (j / HAD_BLOCK) 0 * (HAD_BLOCK / TILE) +
        (HAD_BLOCK * (j / HAD_BLOCK) + q) / TILE % (HAD_BLOCK / TILE) =
          (HAD_BLOCK * chunk.getD (j / HAD_BLOCK) 0 + q) / TILE := by
      simp only [HAD_BLOCK, TILE] at hq ⊢
      omega
    have hmod : (HAD_BLOCK * (j / HAD_BLOCK) + q) % TILE =
        (HAD_BLOCK * chunk.getD (j / HAD_BLOCK) 0 + q) % TILE := by
      simp only [HAD_BLOCK, TILE]
      omega
    rw [weight, weight, htile _ _ htilelt, hblock, hcol, hmod]
  · rw [getD_tabulate hj, Nat.mul_comm]

theorem decodeBlocks_error (hk : ¬HAD_BLOCK ∣ TILE * L.trellis.rows)
    (hn : HAD_BLOCK ∣ TILE * L.trellis.cols)
    (hchunk : ∀ b ∈ chunk, HAD_BLOCK * b < TILE * L.trellis.cols) :
    decodeBlocks ext L chunk = .error (hadError (TILE * L.trellis.rows)) := by
  obtain ⟨t, hrows, hcols, _, hdecode⟩ := decodeBlocks_eq ext hn hchunk
  have hlen : (reconstruct ext t L.mcg.isSome L.mul1.isSome).length = TILE * L.trellis.rows := by
    rw [← hrows]
    exact length_tabulate _ _
  rw [hdecode, undoRegularization_error (by rwa [hlen]), hlen]

/-- Row `id` of the dense weight. -/
def embeddingRow (ext : Exllamav3 W R) (L : Linear W R) (id : Nat) : List R :=
  tabulate (TILE * L.trellis.rows) fun i => effective ext L i id

/-- The column of a decoded chunk at a slot and an offset inside its block. -/
theorem column_decoded {slot offset : Nat} (hslot : slot < chunk.length) (hoffset : offset < HAD_BLOCK) :
    column (tabulate (TILE * L.trellis.rows) fun i => tabulate (HAD_BLOCK * chunk.length) fun j =>
        effective ext L i (HAD_BLOCK * chunk.getD (j / HAD_BLOCK) 0 + j % HAD_BLOCK))
      (slot * HAD_BLOCK + offset) = embeddingRow ext L (HAD_BLOCK * chunk.getD slot 0 + offset) := by
  have hj : slot * HAD_BLOCK + offset < HAD_BLOCK * chunk.length := by
    simp only [HAD_BLOCK] at hoffset ⊢
    omega
  have hdiv : (slot * HAD_BLOCK + offset) / HAD_BLOCK = slot := by
    simp only [HAD_BLOCK] at hoffset ⊢
    omega
  have hmod : (slot * HAD_BLOCK + offset) % HAD_BLOCK = offset := by
    simp only [HAD_BLOCK] at hoffset ⊢
    omega
  rw [column, tabulate, List.map_map, embeddingRow]
  refine tabulate_congr fun i _ => ?_
  rw [Function.comp_apply, getD_tabulate hj, hdiv, hmod]

/-- A token id that the trellis has lies in a block that the trellis has. -/
theorem block_mul_lt {n id : Nat} (h : id < n) : HAD_BLOCK * (id / HAD_BLOCK) < n :=
  Nat.lt_of_le_of_lt (Nat.mul_div_le id HAD_BLOCK) h

variable {token_ids : List Nat}

variable (ext) in
theorem staticPass_ok (hk : HAD_BLOCK ∣ TILE * L.trellis.rows)
    (hn : HAD_BLOCK ∣ TILE * L.trellis.cols) (hids : ∀ id ∈ token_ids, id < TILE * L.trellis.cols)
    (start : Nat) {stop : Nat} (hstop : stop ≤ token_ids.length) :
    staticPass ext L token_ids start stop = .ok (tabulate (stop - start) fun slot =>
      (start + slot, embeddingRow ext L (token_ids.getD (start + slot) 0))) := by
  have hchunk : ∀ b ∈ (slice start stop token_ids).map (· / HAD_BLOCK),
      HAD_BLOCK * b < TILE * L.trellis.cols := by
    intro b hb
    obtain ⟨id, hid, rfl⟩ := List.mem_map.mp hb
    exact block_mul_lt (hids id (List.mem_of_mem_take (List.mem_of_mem_drop hid)))
  rw [staticPass, decodeBlocks_ok hk hn hchunk]
  show Except.ok _ = _
  refine congrArg Except.ok (tabulate_congr fun slot hslot => ?_)
  have hlen : slot < (slice start stop token_ids).length := by
    rw [length_slice]
    omega
  have hid : (slice start stop token_ids).getD slot 0 = token_ids.getD (start + slot) 0 :=
    getD_slice hslot
  have hblock : ((slice start stop token_ids).map (· / HAD_BLOCK)).getD slot 0 =
      token_ids.getD (start + slot) 0 / HAD_BLOCK := by
    rw [← hid, List.getD_eq_getElem _ _ (by rwa [List.length_map]), List.getElem_map,
      List.getD_eq_getElem _ _ hlen]
  have hoffset : ((slice start stop token_ids).map (· % HAD_BLOCK)).getD slot 0 =
      token_ids.getD (start + slot) 0 % HAD_BLOCK := by
    rw [← hid, List.getD_eq_getElem _ _ (by rwa [List.length_map]), List.getElem_map,
      List.getD_eq_getElem _ _ hlen]
  rw [hoffset, column_decoded (by rwa [List.length_map]) (Nat.mod_lt _ (by decide)), hblock,
    Nat.div_add_mod]

/-- The rows a pass of the deduplicating loop writes. -/
def passRows (token_ids blocks : List Nat) (start stop : Nat) : List Nat :=
  (List.range token_ids.length).filter fun r =>
    start ≤ blocks.idxOf (token_ids.getD r 0 / HAD_BLOCK) ∧
      blocks.idxOf (token_ids.getD r 0 / HAD_BLOCK) < start + (slice start stop blocks).length

variable (ext) in
theorem uniquePass_ok (hk : HAD_BLOCK ∣ TILE * L.trellis.rows)
    (hn : HAD_BLOCK ∣ TILE * L.trellis.cols) {blocks : List Nat}
    (hblocks : ∀ b ∈ blocks, HAD_BLOCK * b < TILE * L.trellis.cols)
    (hmem : ∀ id ∈ token_ids, id / HAD_BLOCK ∈ blocks) (start stop : Nat) :
    uniquePass ext L token_ids blocks start stop =
      .ok ((passRows token_ids blocks start stop).map fun r =>
        (r, embeddingRow ext L (token_ids.getD r 0))) := by
  have hget : ∀ r < token_ids.length, ∀ f : Nat → Nat,
      (token_ids.map f).getD r 0 = f (token_ids.getD r 0) := fun r hr f => by
    rw [List.getD_eq_getElem _ _ (by rwa [List.length_map]), List.getElem_map,
      List.getD_eq_getElem _ _ hr]
  have hchunk : ∀ b ∈ slice start stop blocks, HAD_BLOCK * b < TILE * L.trellis.cols :=
    fun b hb => hblocks b (List.mem_of_mem_take (List.mem_of_mem_drop hb))
  rw [uniquePass, decodeBlocks_ok hk hn hchunk]
  show Except.ok _ = _
  refine congrArg Except.ok ?_
  rw [passRows]
  have hrows := List.filter_congr (l := List.range token_ids.length)
    (p := fun r => decide (start ≤ (token_ids.map fun id => blocks.idxOf (id / HAD_BLOCK)).getD r 0 ∧
      (token_ids.map fun id => blocks.idxOf (id / HAD_BLOCK)).getD r 0 <
        start + (slice start stop blocks).length))
    (q := fun r => decide (start ≤ blocks.idxOf (token_ids.getD r 0 / HAD_BLOCK) ∧
      blocks.idxOf (token_ids.getD r 0 / HAD_BLOCK) < start + (slice start stop blocks).length))
    fun r hr => by rw [hget r (List.mem_range.mp hr)]
  rw [hrows]
  refine List.map_congr_left fun r hr => ?_
  obtain ⟨hrange, hin⟩ := List.mem_filter.mp hr
  obtain ⟨hlo, hhi⟩ := of_decide_eq_true hin
  have hrlt := List.mem_range.mp hrange
  have hidmem : token_ids.getD r 0 ∈ token_ids := by
    rw [List.getD_eq_getElem _ _ hrlt]
    exact List.getElem_mem hrlt
  have hlen := length_slice start stop blocks
  have hidx := List.idxOf_lt_length_iff.mpr (hmem _ hidmem)
  -- the block at the token's slot is the token's block
  have hslot : (slice start stop blocks).getD
      (blocks.idxOf (token_ids.getD r 0 / HAD_BLOCK) - start) 0 = token_ids.getD r 0 / HAD_BLOCK := by
    rw [getD_slice (by omega), Nat.add_sub_cancel' hlo, List.getD_eq_getElem _ _ hidx,
      List.getElem_idxOf]
  rw [hget r hrlt, hget r hrlt, column_decoded (by omega) (Nat.mod_lt _ (by decide)), hslot,
    Nat.div_add_mod]

/-! ## All passes -/

variable {embed_block_chunk : Nat}

variable (ext) in
/-- The static path writes the rows in order, each once. -/
theorem staticWrites_ok (hk : HAD_BLOCK ∣ TILE * L.trellis.rows)
    (hn : HAD_BLOCK ∣ TILE * L.trellis.cols) (hids : ∀ id ∈ token_ids, id < TILE * L.trellis.cols)
    (hpos : 0 < embed_block_chunk) : staticWrites ext L embed_block_chunk token_ids =
      .ok (tabulate token_ids.length fun r => (r, embeddingRow ext L (token_ids.getD r 0))) := by
  have hpasses := mapM_ok fun start (_ : start ∈ rangeStep token_ids.length embed_block_chunk) =>
    staticPass_ok ext hk hn hids start
      (Nat.min_le_right (start + embed_block_chunk) token_ids.length)
  have hchunks := @flatMap_chunks _
    (tabulate token_ids.length fun r => (r, embeddingRow ext L (token_ids.getD r 0)))
    embed_block_chunk hpos
  rw [length_tabulate, List.flatMap_def] at hchunks
  simp only [slice_tabulate_min] at hchunks
  rw [staticWrites, hpasses]
  exact congrArg Except.ok hchunks

theorem mem_unique {xs : List Nat} {x : Nat} : x ∈ unique xs ↔ x ∈ xs := by
  rw [unique, (List.perm_insertionSort (· ≤ ·) xs.dedup).mem_iff, List.mem_dedup]

/-- Every row is written by exactly one pass: the one whose chunk holds its block. -/
theorem passRows_perm {blocks : List Nat} (hmem : ∀ id ∈ token_ids, id / HAD_BLOCK ∈ blocks)
    (hpos : 0 < embed_block_chunk) :
    ((rangeStep blocks.length embed_block_chunk).flatMap fun start =>
      passRows token_ids blocks start (start + embed_block_chunk)).Perm
        (List.range token_ids.length) := by
  have hpass : ∀ {start r : Nat},
      r ∈ passRows token_ids blocks start (start + embed_block_chunk) ↔
        r < token_ids.length ∧ start ≤ blocks.idxOf (token_ids.getD r 0 / HAD_BLOCK) ∧
          blocks.idxOf (token_ids.getD r 0 / HAD_BLOCK) <
            start + (min (start + embed_block_chunk) blocks.length - start) := by
    intro start r
    rw [passRows, List.mem_filter, List.mem_range, decide_eq_true_eq, length_slice]
  refine (List.perm_ext_iff_of_nodup ?_ List.nodup_range).mpr fun r => ?_
  · refine List.nodup_flatMap.mpr ⟨fun start _ => List.nodup_range.filter _, ?_⟩
    refine (nodup_rangeStep hpos).pairwise_of_forall_ne fun s hs s' hs' hne r hr hr' => hne ?_
    obtain ⟨⟨a, rfl⟩, _⟩ := (mem_rangeStep hpos).mp hs
    obtain ⟨⟨b, rfl⟩, _⟩ := (mem_rangeStep hpos).mp hs'
    obtain ⟨_, hlo, hhi⟩ := hpass.mp hr
    obtain ⟨_, hlo', hhi'⟩ := hpass.mp hr'
    -- the slot lies in one stretch of chunk width only
    have hab : a < b + 1 := Nat.lt_of_mul_lt_mul_left (a := embed_block_chunk) (by
      rw [Nat.mul_succ]
      omega)
    have hba : b < a + 1 := Nat.lt_of_mul_lt_mul_left (a := embed_block_chunk) (by
      rw [Nat.mul_succ]
      omega)
    rw [show a = b by omega]
  · rw [List.mem_flatMap, List.mem_range]
    constructor
    · rintro ⟨start, _, hr⟩
      exact (hpass.mp hr).1
    · intro hr
      have hid : token_ids.getD r 0 ∈ token_ids := by
        rw [List.getD_eq_getElem _ _ hr]
        exact List.getElem_mem hr
      have hidx := List.idxOf_lt_length_iff.mpr (hmem _ hid)
      have hdiv := Nat.div_add_mod (blocks.idxOf (token_ids.getD r 0 / HAD_BLOCK)) embed_block_chunk
      have hmod := Nat.mod_lt (blocks.idxOf (token_ids.getD r 0 / HAD_BLOCK)) hpos
      refine ⟨embed_block_chunk * (blocks.idxOf (token_ids.getD r 0 / HAD_BLOCK) / embed_block_chunk),
        (mem_rangeStep hpos).mpr ⟨Nat.dvd_mul_right _ _, by omega⟩, hpass.mpr ⟨hr, by omega, by omega⟩⟩

variable (ext) in
/-- The deduplicating path writes every row once, with its own row of the dense weight. -/
theorem uniqueWrites_ok (hk : HAD_BLOCK ∣ TILE * L.trellis.rows)
    (hn : HAD_BLOCK ∣ TILE * L.trellis.cols) (hids : ∀ id ∈ token_ids, id < TILE * L.trellis.cols)
    (hpos : 0 < embed_block_chunk) :
    ∃ writes, uniqueWrites ext L embed_block_chunk token_ids = .ok writes ∧
      (writes.map Prod.fst).Perm (List.range token_ids.length) ∧
      ∀ w ∈ writes, w.2 = embeddingRow ext L (token_ids.getD w.1 0) := by
  have hmem : ∀ id ∈ token_ids, id / HAD_BLOCK ∈ unique (token_ids.map (· / HAD_BLOCK)) :=
    fun id hid => mem_unique.mpr (List.mem_map_of_mem hid)
  have hblocks : ∀ b ∈ unique (token_ids.map (· / HAD_BLOCK)),
      HAD_BLOCK * b < TILE * L.trellis.cols := by
    intro b hb
    obtain ⟨id, hid, rfl⟩ := List.mem_map.mp (mem_unique.mp hb)
    exact block_mul_lt (hids id hid)
  have hpasses := mapM_ok fun start
      (_ : start ∈ rangeStep (unique (token_ids.map (· / HAD_BLOCK))).length embed_block_chunk) =>
    uniquePass_ok ext hk hn hblocks hmem start (start + embed_block_chunk)
  refine ⟨_, by rw [uniqueWrites, hpasses]; rfl, ?_, ?_⟩
  · rw [← List.flatMap_def, List.map_flatMap]
    simp only [List.map_map, Function.comp_def, List.map_id']
    exact passRows_perm hmem hpos
  · intro w hw
    obtain ⟨pass, hpass, hw⟩ := List.mem_flatten.mp hw
    obtain ⟨start, _, rfl⟩ := List.mem_map.mp hpass
    obtain ⟨r, _, rfl⟩ := List.mem_map.mp hw
    rfl

variable (ext) in
/-- A trellis whose input rows are not whole blocks fails the first pass of either path. -/
theorem writes_error (hk : ¬HAD_BLOCK ∣ TILE * L.trellis.rows)
    (hn : HAD_BLOCK ∣ TILE * L.trellis.cols) (hids : ∀ id ∈ token_ids, id < TILE * L.trellis.cols)
    (hne : token_ids ≠ []) (hpos : 0 < embed_block_chunk) :
    staticWrites ext L embed_block_chunk token_ids = .error (hadError (TILE * L.trellis.rows)) ∧
      uniqueWrites ext L embed_block_chunk token_ids = .error (hadError (TILE * L.trellis.rows)) := by
  have hmem : ∀ id ∈ token_ids, id / HAD_BLOCK ∈ unique (token_ids.map (· / HAD_BLOCK)) :=
    fun id hid => mem_unique.mpr (List.mem_map_of_mem hid)
  have hblocks : unique (token_ids.map (· / HAD_BLOCK)) ≠ [] := by
    obtain ⟨id, hid⟩ := List.exists_mem_of_ne_nil _ hne
    exact List.ne_nil_of_mem (hmem id hid)
  constructor
  · rw [staticWrites, @mapM_error _ _ _ _ _ (hadError (TILE * L.trellis.rows))]
    · rfl
    · rwa [Ne, rangeStep_eq_nil hpos, List.length_eq_zero_iff]
    · intro start _
      rw [staticPass, decodeBlocks_error hk hn]
      · rfl
      · intro b hb
        obtain ⟨id, hid, rfl⟩ := List.mem_map.mp hb
        exact block_mul_lt (hids id (List.mem_of_mem_take (List.mem_of_mem_drop hid)))
  · rw [uniqueWrites, @mapM_error _ _ _ _ _ (hadError (TILE * L.trellis.rows))]
    · rfl
    · rwa [Ne, rangeStep_eq_nil hpos, List.length_eq_zero_iff]
    · intro start _
      rw [uniquePass, decodeBlocks_error hk hn]
      · rfl
      · intro b hb
        have hb := mem_unique.mp (List.mem_of_mem_take (List.mem_of_mem_drop hb))
        obtain ⟨id, hid, rfl⟩ := List.mem_map.mp hb
        exact block_mul_lt (hids id hid)

theorem denseRows_ok (hk : HAD_BLOCK ∣ TILE * L.trellis.rows)
    (hn : HAD_BLOCK ∣ TILE * L.trellis.cols) (hids : ∀ id ∈ token_ids, id < TILE * L.trellis.cols) :
    denseRows ext L token_ids = .ok (token_ids.map (embeddingRow ext L)) := by
  rw [denseRows, denseOf_ok hk hn]
  refine mapM_ok fun id hid => ?_
  rw [length_tabulate, if_pos (hids id hid), getD_tabulate (hids id hid)]
  rfl

theorem denseRows_error (hk : ¬HAD_BLOCK ∣ TILE * L.trellis.rows) :
    denseRows ext L token_ids = .error (hadError (TILE * L.trellis.rows)) := by
  rw [denseRows, denseOf_error hk]
  rfl

/-- Writing every row once with its own row of the dense weight gathers the rows. -/
theorem applyWrites_rows {writes : List (Nat × List R)} {out : List (List R)}
    (hperm : (writes.map Prod.fst).Perm (List.range token_ids.length))
    (hval : ∀ w ∈ writes, w.2 = embeddingRow ext L (token_ids.getD w.1 0))
    (hout : out.length = token_ids.length) :
    applyWrites writes out = token_ids.map (embeddingRow ext L) := by
  rw [applyWrites_eq_tabulate hperm (f := fun r => embeddingRow ext L (token_ids.getD r 0)) hval hout]
  have hids : tabulate token_ids.length (token_ids.getD · 0) = token_ids := tabulate_getD 0 rfl
  conv_rhs => rw [← hids, tabulate, List.map_map]
  rfl

/-- Both gathers and their dispatch return the rows of the dense weight, and each gather writes
every row exactly once. A trellis whose input rows are not whole blocks is refused by all of them;
only an empty batch never asks, so there the rows have to be whole blocks. -/
theorem embed_rows_exact (ext : Exllamav3 W R) (L : Linear W R) (token_ids : List Nat)
    (embed_block_chunk embed_static_max : Nat) (out : List (List R))
    (hn : HAD_BLOCK ∣ TILE * L.trellis.cols) (hids : ∀ id ∈ token_ids, id < TILE * L.trellis.cols)
    (hpos : 0 < embed_block_chunk) (hout : out.length = token_ids.length)
    (hempty : token_ids = [] → HAD_BLOCK ∣ TILE * L.trellis.rows) :
    embedRowsStatic ext L embed_block_chunk token_ids out = denseRows ext L token_ids ∧
      embedRowsUnique ext L embed_block_chunk token_ids out = denseRows ext L token_ids ∧
      embedRows ext L embed_block_chunk embed_static_max token_ids out = denseRows ext L token_ids ∧
      ∀ writes, (staticWrites ext L embed_block_chunk token_ids = .ok writes ∨
          uniqueWrites ext L embed_block_chunk token_ids = .ok writes) →
        (writes.map Prod.fst).Perm (List.range token_ids.length) := by
  rcases Decidable.em (HAD_BLOCK ∣ TILE * L.trellis.rows) with hk | hk
  · have hstatic := staticWrites_ok ext hk hn hids hpos
    obtain ⟨writes, hunique, hperm, hval⟩ := uniqueWrites_ok ext hk hn hids hpos
    have hfst : ((tabulate token_ids.length fun r =>
        (r, embeddingRow ext L (token_ids.getD r 0))).map Prod.fst) = List.range token_ids.length := by
      rw [tabulate, List.map_map]
      exact List.map_id _
    have hstaticRows : embedRowsStatic ext L embed_block_chunk token_ids out =
        denseRows ext L token_ids := by
      rw [embedRowsStatic, hstatic, denseRows_ok hk hn hids]
      refine congrArg Except.ok (applyWrites_rows (.of_eq hfst) (fun w hw => ?_) hout)
      obtain ⟨r, _, rfl⟩ := List.mem_map.mp hw
      rfl
    have huniqueRows : embedRowsUnique ext L embed_block_chunk token_ids out =
        denseRows ext L token_ids := by
      rw [embedRowsUnique, hunique, denseRows_ok hk hn hids]
      exact congrArg Except.ok (applyWrites_rows hperm hval hout)
    refine ⟨hstaticRows, huniqueRows, ?_, ?_⟩
    · rw [embedRows]
      split_ifs with hzero hmax
      · obtain rfl := List.length_eq_zero_iff.mp hzero
        rw [denseRows_ok hk hn hids]
        rfl
      · exact hstaticRows
      · exact huniqueRows
    · rintro log (hlog | hlog)
      · obtain rfl := Except.ok.inj (hstatic.symm.trans hlog)
        exact .of_eq hfst
      · obtain rfl := Except.ok.inj (hunique.symm.trans hlog)
        exact hperm
  · have hne : token_ids ≠ [] := fun hnil => hk (hempty hnil)
    obtain ⟨hstatic, hunique⟩ := writes_error ext hk hn hids hne hpos
    have hstaticRows : embedRowsStatic ext L embed_block_chunk token_ids out =
        denseRows ext L token_ids := by
      rw [embedRowsStatic, hstatic, denseRows_error hk]
      rfl
    have huniqueRows : embedRowsUnique ext L embed_block_chunk token_ids out =
        denseRows ext L token_ids := by
      rw [embedRowsUnique, hunique, denseRows_error hk]
      rfl
    refine ⟨hstaticRows, huniqueRows, ?_, ?_⟩
    · rw [embedRows]
      split_ifs with hzero hmax
      · exact absurd (List.length_eq_zero_iff.mp hzero) hne
      · exact hstaticRows
      · exact huniqueRows
    · rintro log (hlog | hlog)
      · rw [hstatic] at hlog
        cases hlog
      · rw [hunique] at hlog
        cases hlog

/-! ### Four tokens, two of them in one block, in chunks of two -/

theorem zeroLinear_embed_exact :
    embedRowsStatic zeroStateExt zeroLinear 2 [200, 3, 201, 255] (List.replicate 4 []) =
        denseRows zeroStateExt zeroLinear [200, 3, 201, 255] ∧
      embedRowsUnique zeroStateExt zeroLinear 2 [200, 3, 201, 255] (List.replicate 4 []) =
        denseRows zeroStateExt zeroLinear [200, 3, 201, 255] :=
  ⟨(embed_rows_exact zeroStateExt zeroLinear [200, 3, 201, 255] 2 512 (List.replicate 4 [])
      (by decide) (by decide) (by decide) rfl (by decide)).1,
    (embed_rows_exact zeroStateExt zeroLinear [200, 3, 201, 255] 2 512 (List.replicate 4 [])
      (by decide) (by decide) (by decide) rfl (by decide)).2.1⟩

end Pass

end VllmExl3.Ops
