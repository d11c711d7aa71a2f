/-
# VllmExl3.TensorParallel.Fused — a fused tensor loads as its logical shards do

Several output shards stored as one quantized matrix are cut twice, between the shards and between
the ranks. Both cuts are column cuts, so a rank's slice of a logical shard is a slice of the fused
tensor; over all ranks these slices are the pieces of one partition of its columns.
-/
import VllmExl3.TensorParallel.Parameter
import VllmExl3.TensorParallel.Dense
import VllmExl3.Lib.Spans

namespace VllmExl3.TensorParallel

open Format (TILE HAD_BLOCK fusedShardBounds fusedShardLoop)

variable {W R : Type}

/-! ## The two cuts -/

/-- Only a trellis plays the trellis's role. -/
def Plays (role : Role) (t : Tensor W R) : Prop := role = .trellis → ∃ w, t = .trellis w

/-- The columns `[first, last)` a column cut takes of a tensor that plays its role. -/
def Tensor.columns (role : Role) (first last : Nat) (t : Tensor W R) : Tensor W R :=
  match role, t with
  | .trellis, .trellis w => .trellis (w.sliceCols (first / TILE) (last / TILE))
  | .vocab, t => t.slice0 first last
  | .svh, t => t.slice0 first last
  | _, t => t

theorem shardColumn_eq {role : Role} {t : Tensor W R} (h : Plays role t) (first last : Nat) :
    shardColumn role t first last = .ok (t.columns role first last) := by
  cases role with
  | trellis =>
    obtain ⟨w, rfl⟩ := h rfl
    rfl
  | suh => cases t <;> rfl
  | svh => cases t <;> rfl
  | scalar => cases t <;> rfl
  | vocab => cases t <;> rfl

theorem cut_shardColumn_eq {role : Role} {t : Tensor W R} (h : Plays role t) (first last : Nat) :
    Cut.shardColumn role t first last = .ok (t.columns role first last) :=
  shardColumn_eq h first last

theorem Plays.columns {role : Role} {t : Tensor W R} (h : Plays role t) (first last : Nat) :
    Plays role (t.columns role first last) := by
  rintro rfl
  obtain ⟨w, rfl⟩ := h rfl
  exact ⟨_, rfl⟩

theorem slice0_slice0 (t : Tensor W R) (a b c d : Nat) :
    (t.slice0 a b).slice0 c d = t.slice0 (a + c) (min b (a + d)) := by
  cases t with
  | trellis w =>
    refine congrArg Tensor.trellis (Trellis.eq_of_tiles ?_ rfl rfl (slice_slice a b c d _))
    show min d (min b w.rows - a) - c = min (min b (a + d)) w.rows - (a + c)
    omega
  | scale v => exact congrArg Tensor.scale (slice_slice a b c d v)
  | selector v => exact congrArg Tensor.selector (slice_slice a b c d v)

/-- A column cut of a tile-aligned column cut is one column cut. -/
theorem columns_columns {role : Role} {t : Tensor W R} {offset width a s : Nat}
    (hoffset : TILE ∣ offset) (h : a + s ≤ width) :
    (t.columns role offset (offset + width)).columns role a (a + s) =
      t.columns role (offset + a) (offset + a + s) := by
  have hlast : min (offset + width) (offset + (a + s)) = offset + a + s := by omega
  obtain ⟨o, rfl⟩ := hoffset
  have hdiv : ∀ c, (TILE * o + c) / TILE = o + c / TILE := Nat.mul_add_div (by decide) o
  have htile : min (o + width / TILE) (o + (a + s) / TILE) = o + (a + s) / TILE :=
    Nat.min_eq_right (Nat.add_le_add_left (Nat.div_le_div_right h) o)
  cases role with
  | trellis =>
    cases t with
    | trellis w =>
      show Tensor.trellis ((w.sliceCols (TILE * o / TILE) ((TILE * o + width) / TILE)).sliceCols
        (a / TILE) ((a + s) / TILE)) = .trellis (w.sliceCols ((TILE * o + a) / TILE)
          ((TILE * o + a + s) / TILE))
      rw [Trellis.sliceCols_sliceCols, Nat.mul_div_cancel_left o (by decide), Nat.add_assoc (TILE * o),
        hdiv, hdiv, hdiv, htile]
    | scale v => rfl
    | selector v => rfl
  | suh => cases t <;> rfl
  | scalar => cases t <;> rfl
  | svh =>
    show (t.slice0 (TILE * o) (TILE * o + width)).slice0 a (a + s) = t.slice0 _ _
    rw [slice0_slice0, hlast]
  | vocab =>
    show (t.slice0 (TILE * o) (TILE * o + width)).slice0 a (a + s) = t.slice0 _ _
    rw [slice0_slice0, hlast]

/-! ## The spans of a run -/

/-- The columns output shard `index` occupies in the stored tensor, over all ranks. -/
def storedWidth (sizes : List Nat) (tp_size index : Nat) : Nat := sizes.getD index 0 * tp_size

/-- What `fused_shard_bounds` returns for the shards stored from `offset` on. -/
def fusedSpans (sizes : List Nat) (tp_rank tp_size : Nat) :
    List Nat → Nat → List (Nat × Nat × Nat)
  | [], _ => []
  | index :: rest, offset =>
    let first := offset + tp_rank * sizes.getD index 0
    (index, first, first + sizes.getD index 0) ::
      fusedSpans sizes tp_rank tp_size rest (offset + storedWidth sizes tp_size index)

section Spans

variable {sizes indices : List Nat} {tp_rank tp_size : Nat}

theorem dvd_getD (hsizes : ∀ size ∈ sizes, HAD_BLOCK ∣ size) (index : Nat) :
    HAD_BLOCK ∣ sizes.getD index 0 := by
  rw [List.getD_eq_getElem?_getD]
  cases hget : sizes[index]? with
  | none => exact Nat.dvd_zero _
  | some size => exact hsizes size (List.mem_of_getElem? hget)

theorem fusedShardLoop_eq (hsizes : ∀ size ∈ sizes, HAD_BLOCK ∣ size)
    (hlt : ∀ index ∈ indices, index < sizes.length) (bounds : List (Nat × Nat × Nat))
    (offset : Nat) : fusedShardLoop sizes tp_rank tp_size indices bounds offset =
      .ok (bounds ++ fusedSpans sizes tp_rank tp_size indices offset) := by
  induction indices generalizing bounds offset with
  | nil => simp [fusedShardLoop, fusedSpans]
  | cons index rest ih =>
    have hindex : index < sizes.length := hlt index List.mem_cons_self
    have hget : sizes[index]? = some (sizes.getD index 0) := by
      simp [List.getD_eq_getElem?_getD, hindex]
    rw [fusedShardLoop, hget]
    dsimp only
    rw [if_neg (not_not.mpr (Nat.mod_eq_zero_of_dvd (dvd_getD hsizes index))),
      ih fun i hi => hlt i (List.mem_cons_of_mem index hi)]
    simp [fusedSpans, storedWidth]

theorem fusedShardBounds_eq (hne : sizes ≠ []) (hsizes : ∀ size ∈ sizes, HAD_BLOCK ∣ size)
    (hlt : ∀ index ∈ indices, index < sizes.length) :
    fusedShardBounds sizes indices tp_rank tp_size =
      .ok (fusedSpans sizes tp_rank tp_size indices 0) := by
  rw [fusedShardBounds, if_neg hne, fusedShardLoop_eq hsizes hlt]
  rfl

theorem map_fst_fusedSpans (offset : Nat) :
    (fusedSpans sizes tp_rank tp_size indices offset).map Prod.fst = indices := by
  induction indices generalizing offset with
  | nil => rfl
  | cons index rest ih => exact congrArg (index :: ·) (ih _)

/-- The span of the `k`-th shard: this rank's part of what the shard occupies. -/
theorem mem_fusedSpans {offset : Nat} {b : Nat × Nat × Nat}
    (hb : b ∈ fusedSpans sizes tp_rank tp_size indices offset) :
    ∃ k < indices.length, b.1 = indices.getD k 0 ∧
      b.2.1 = offset + spanStart (indices.map (storedWidth sizes tp_size)) k +
        tp_rank * sizes.getD b.1 0 ∧ b.2.2 = b.2.1 + sizes.getD b.1 0 := by
  induction indices generalizing offset with
  | nil => cases hb
  | cons index rest ih =>
    rcases List.mem_cons.mp hb with rfl | htail
    · exact ⟨0, Nat.succ_pos _, rfl, rfl, rfl⟩
    · obtain ⟨k, hk, hfst, hfirst, hlast⟩ := ih htail
      refine ⟨k + 1, Nat.succ_lt_succ hk, hfst, ?_, hlast⟩
      rw [hfirst, List.map_cons, spanStart_cons_succ]
      omega

theorem exists_mem_fusedSpans (offset : Nat) {k : Nat} (hk : k < indices.length) :
    ∃ b ∈ fusedSpans sizes tp_rank tp_size indices offset, b.1 = indices.getD k 0 ∧
      b.2.1 = offset + spanStart (indices.map (storedWidth sizes tp_size)) k +
        tp_rank * sizes.getD b.1 0 ∧ b.2.2 = b.2.1 + sizes.getD b.1 0 := by
  induction indices generalizing offset k with
  | nil => exact absurd hk (Nat.not_lt_zero k)
  | cons index rest ih =>
    cases k with
    | zero => exact ⟨_, List.mem_cons_self, rfl, rfl, rfl⟩
    | succ k =>
      obtain ⟨b, hb, hfst, hfirst, hlast⟩ :=
        ih (offset + storedWidth sizes tp_size index) (Nat.lt_of_succ_lt_succ hk)
      refine ⟨b, List.mem_cons_of_mem _ hb, hfst, ?_, hlast⟩
      rw [hfirst, List.map_cons, spanStart_cons_succ]
      omega

theorem getD_storedWidth {k : Nat} (hk : k < indices.length) :
    (indices.map (storedWidth sizes tp_size)).getD k 0 =
      sizes.getD (indices.getD k 0) 0 * tp_size := by
  simp [List.getD_eq_getElem?_getD, hk, storedWidth]

/-- A rank's span lies inside what its shard occupies. -/
theorem part_le {r p n : Nat} (hr : r < n) : r * p + p ≤ p * n := by
  rw [← Nat.succ_mul, Nat.mul_comm p]
  exact Nat.mul_le_mul_right p hr

theorem fusedSpans_le (hrank : tp_rank < tp_size) {b : Nat × Nat × Nat}
    (hb : b ∈ fusedSpans sizes tp_rank tp_size indices 0) :
    b.2.2 ≤ (indices.map (storedWidth sizes tp_size)).sum := by
  obtain ⟨k, hk, hfst, hfirst, hlast⟩ := mem_fusedSpans hb
  have hend := spanStart_add_le (indices.map (storedWidth sizes tp_size)) k
  have hpart : tp_rank * sizes.getD b.1 0 + sizes.getD b.1 0 ≤ sizes.getD b.1 0 * tp_size :=
    part_le hrank
  rw [getD_storedWidth hk, ← hfst] at hend
  omega

theorem fusedSpans_dvd (hsizes : ∀ size ∈ sizes, HAD_BLOCK ∣ size) {b : Nat × Nat × Nat}
    (hb : b ∈ fusedSpans sizes tp_rank tp_size indices 0) : HAD_BLOCK ∣ b.2.1 ∧ HAD_BLOCK ∣ b.2.2 := by
  obtain ⟨k, _, _, hfirst, hlast⟩ := mem_fusedSpans hb
  have hstart : HAD_BLOCK ∣ spanStart (indices.map (storedWidth sizes tp_size)) k := by
    refine spanStart_dvd (fun w hw => ?_) k
    obtain ⟨index, _, rfl⟩ := List.mem_map.mp hw
    exact Dvd.dvd.mul_right (dvd_getD hsizes index) tp_size
  have hdvd : HAD_BLOCK ∣ b.2.1 := by
    rw [hfirst, Nat.zero_add]
    exact Nat.dvd_add hstart (Dvd.dvd.mul_left (dvd_getD hsizes _) _)
  exact ⟨hdvd, hlast ▸ Nat.dvd_add hdvd (dvd_getD hsizes _)⟩

/-- Over all ranks, every column of the fused tensor lies in exactly one span. -/
theorem existsUnique_fusedSpans {c : Nat}
    (hc : c < (indices.map (storedWidth sizes tp_size)).sum) :
    ∃! q : Nat × Nat × Nat × Nat, q.1 < tp_size ∧
      q.2 ∈ fusedSpans sizes q.1 tp_size indices 0 ∧ q.2.2.1 ≤ c ∧ c < q.2.2.2 := by
  obtain ⟨k, ⟨hlo, hhi⟩, huniq⟩ := existsUnique_span hc
  have hk : k < indices.length := by
    by_contra hge
    have hnone : (indices.map (storedWidth sizes tp_size)).getD k 0 = 0 := by
      rw [List.getD_eq_getElem?_getD, List.getElem?_eq_none (by rw [List.length_map]; omega)]
      rfl
    omega
  rw [getD_storedWidth hk] at hhi
  have hoff : c - spanStart (indices.map (storedWidth sizes tp_size)) k <
      tp_size * sizes.getD (indices.getD k 0) 0 := by
    rw [Nat.mul_comm]
    omega
  obtain ⟨r, ⟨hr, hrlo, hrhi⟩, hruniq⟩ := existsUnique_part hoff
  obtain ⟨b, hb, hfst, hfirst, hlast⟩ := @exists_mem_fusedSpans sizes indices r tp_size 0 k hk
  rw [hfst] at hfirst hlast
  refine ⟨(r, b), ⟨hr, hb, ?_, ?_⟩, ?_⟩
  · show b.2.1 ≤ c
    omega
  · show c < b.2.2
    omega
  · rintro ⟨r', b'⟩ ⟨hr', hb', hlo', hhi'⟩
    obtain ⟨k', hk', hfst', hfirst', hlast'⟩ := mem_fusedSpans hb'
    dsimp only at hr' hlo' hhi' hfst' hfirst' hlast'
    have hpart : r' * sizes.getD b'.1 0 + sizes.getD b'.1 0 ≤ sizes.getD b'.1 0 * tp_size :=
      part_le hr'
    -- the shard that holds `c` is unique, and then so is the rank
    obtain rfl : k' = k := by
      refine huniq k' ⟨by omega, ?_⟩
      show c < spanStart (indices.map (storedWidth sizes tp_size)) k' +
        (indices.map (storedWidth sizes tp_size)).getD k' 0
      rw [getD_storedWidth hk', ← hfst']
      omega
    have hsame : b'.1 = b.1 := hfst'.trans hfst.symm
    rw [hfst'] at hfirst' hlast'
    obtain rfl : r' = r := hruniq r' ⟨hr', by omega, by omega⟩
    have hb'eq : b' = b := by
      refine Prod.ext hsame (Prod.ext ?_ ?_)
      · rw [hfirst', hfirst]
      · rw [hlast', hlast, hfirst', hfirst]
    rw [hb'eq]

end Spans

/-! ## The two ways to load -/

/-- The fused tensor cut into its logical shards, the first of them stored at `offset`. -/
def logicalShards (role : Role) (t : Tensor W R) (sizes : List Nat) (tp_size : Nat) :
    List Nat → Nat → Except PyError (List (Nat × Tensor W R))
  | [], _ => .ok []
  | index :: rest, offset => do
    let width := storedWidth sizes tp_size index
    let piece ← shardColumn role t offset (offset + width)
    let pieces ← logicalShards role t sizes tp_size rest (offset + width)
    return (index, piece) :: pieces

namespace EXL3Parameter

/-- The logical shards loaded one by one, each with its own shard size. -/
def loadEach : List (Nat × Tensor W R) → EXL3Parameter (Tensor W R) →
    Except PyError (EXL3Parameter (Tensor W R))
  | [], p => .ok p
  | (index, piece) :: rest, p => do
    let q ← p.loadMergedColumnWeight piece (.int index) (some (p.output_partition_sizes.getD index 0))
    loadEach rest q

/-- Cutting the fused tensor first and loading each logical shard. -/
def loadSeparately (p : EXL3Parameter (Tensor W R)) (t : Tensor W R) (indices : List Nat) :
    Except PyError (EXL3Parameter (Tensor W R)) := do
  let pieces ← logicalShards p.role t p.output_partition_sizes p.tp_size indices 0
  loadEach pieces p

/-- The parameter after storing the given spans of `t`. -/
def storeSpans (t : Tensor W R) : List (Nat × Nat × Nat) → EXL3Parameter (Tensor W R) →
    EXL3Parameter (Tensor W R)
  | [], p => p
  | (index, first, last) :: rest, p => storeSpans t rest (p.store (t.columns p.role first last) index)

variable {t : Tensor W R}

theorem storeBounds_eq (bounds : List (Nat × Nat × Nat)) (p : EXL3Parameter (Tensor W R))
    (h : Plays p.role t) : storeBounds t bounds p = .ok (storeSpans t bounds p) := by
  induction bounds generalizing p with
  | nil => rfl
  | cons b rest ih =>
    obtain ⟨index, first, last⟩ := b
    rw [storeBounds, cut_shardColumn_eq h]
    exact ih (p.store (t.columns p.role first last) index) h

/-- This rank's slice of a logical shard is its span of the fused tensor. -/
theorem takeColumn_columns (p : EXL3Parameter (Tensor W R)) (h : Plays p.role t)
    (hrank : p.tp_rank < p.tp_size) {offset : Nat} (size : Nat) (hoffset : TILE ∣ offset) :
    p.takeColumn (t.columns p.role offset (offset + size * p.tp_size)) (some size) p.tp_rank =
      .ok (t.columns p.role (offset + p.tp_rank * size) (offset + p.tp_rank * size + size)) := by
  dsimp only [takeColumn]
  split
  · next hone =>
    have hzero : p.tp_rank = 0 := by omega
    rw [hone, hzero, Nat.mul_one, Nat.zero_mul, Nat.add_zero]
  · rw [cut_shardColumn_eq (h.columns _ _), columns_columns hoffset (part_le hrank)]

/-- Cutting succeeds, and loading the pieces stores the spans, whatever is stored already. -/
theorem loadEach_logicalShards (p : EXL3Parameter (Tensor W R)) (h : Plays p.role t)
    (hrank : p.tp_rank < p.tp_size) (hsizes : ∀ size ∈ p.output_partition_sizes, HAD_BLOCK ∣ size)
    (indices : List Nat) {offset : Nat} (hoffset : HAD_BLOCK ∣ offset) :
    ∃ pieces,
      logicalShards p.role t p.output_partition_sizes p.tp_size indices offset = .ok pieces ∧
      ∀ shards, loadEach pieces { p with shards := shards } =
        .ok (storeSpans t
          (fusedSpans p.output_partition_sizes p.tp_rank p.tp_size indices offset)
          { p with shards := shards }) := by
  induction indices generalizing offset with
  | nil => exact ⟨[], rfl, fun shards => rfl⟩
  | cons index rest ih =>
    have hwidth : HAD_BLOCK ∣ offset + storedWidth p.output_partition_sizes p.tp_size index :=
      Nat.dvd_add hoffset (Dvd.dvd.mul_right (dvd_getD hsizes index) _)
    obtain ⟨pieces, hcut, hload⟩ := ih hwidth
    refine ⟨(index, t.columns p.role offset
      (offset + storedWidth p.output_partition_sizes p.tp_size index)) :: pieces, ?_, fun shards => ?_⟩
    · rw [logicalShards, shardColumn_eq h, hcut]
      rfl
    · have htake := takeColumn_columns { p with shards := shards } h hrank
        (p.output_partition_sizes.getD index 0)
        (Dvd.dvd.trans (by decide) hoffset : TILE ∣ offset)
      rw [loadEach, loadMergedColumnWeight]
      show (takeColumn _ _ (some (p.output_partition_sizes.getD index 0)) _ >>= _) >>= _ = _
      rw [storedWidth, htake]
      exact hload (shards.set index _)

/-- Loading the logical shards one by one stores the spans of the run. -/
theorem loadSeparately_eq (p : EXL3Parameter (Tensor W R)) (h : Plays p.role t)
    (hrank : p.tp_rank < p.tp_size) (hsizes : ∀ size ∈ p.output_partition_sizes, HAD_BLOCK ∣ size)
    (indices : List Nat) : p.loadSeparately t indices =
      .ok (storeSpans t (fusedSpans p.output_partition_sizes p.tp_rank p.tp_size indices 0) p) := by
  obtain ⟨pieces, hcut, hload⟩ := loadEach_logicalShards p h hrank hsizes indices (Nat.dvd_zero _)
  rw [loadSeparately, hcut]
  exact hload p.shards

/-- `_load_fused` stores the spans of the run. -/
theorem loadFusedIndices_eq (p : EXL3Parameter (Tensor W R)) (h : Plays p.role t)
    (hne : p.output_partition_sizes ≠ []) (hsizes : ∀ size ∈ p.output_partition_sizes, HAD_BLOCK ∣ size)
    {indices : List Nat} (hlt : ∀ index ∈ indices, index < p.output_partition_sizes.length) :
    p.loadFusedIndices t indices =
      .ok (storeSpans t (fusedSpans p.output_partition_sizes p.tp_rank p.tp_size indices 0) p) := by
  rw [loadFusedIndices, fusedShardBounds_eq hne hsizes hlt]
  exact storeBounds_eq _ p h

theorem get?_storeSpans_of_notMem {index : Nat} {spans : List (Nat × Nat × Nat)}
    (p : EXL3Parameter (Tensor W R)) (hout : index ∉ spans.map Prod.fst) :
    (storeSpans t spans p).shards.get? index = p.shards.get? index := by
  induction spans generalizing p with
  | nil => rfl
  | cons b rest ih =>
    obtain ⟨i, first, last⟩ := b
    rw [List.map_cons, List.mem_cons, not_or] at hout
    rw [storeSpans, ih _ hout.2]
    exact PyDict.get?_set_ne _ _ hout.1

/-- Every shard index of the run holds its span. -/
theorem get?_storeSpans {spans : List (Nat × Nat × Nat)} (p : EXL3Parameter (Tensor W R))
    (hnd : (spans.map Prod.fst).Nodup) {b : Nat × Nat × Nat} (hb : b ∈ spans) :
    (storeSpans t spans p).shards.get? b.1 = some (t.columns p.role b.2.1 b.2.2) := by
  induction spans generalizing p with
  | nil => cases hb
  | cons b' rest ih =>
    obtain ⟨i, first, last⟩ := b'
    rw [List.map_cons, List.nodup_cons] at hnd
    rcases List.mem_cons.mp hb with rfl | htail
    · rw [storeSpans, get?_storeSpans_of_notMem _ hnd.1]
      exact PyDict.get?_set_self _ _ _
    · exact ih _ hnd.2 htail

/-! ## Every run of shards, on every rank -/

/-- Storing a fused tensor leaves, on every shard index of the run `[j, j + m)`, what cutting it into
its logical shards and loading each leaves there; and over all ranks the spans it is cut at are
whole Hadamard blocks that hold every column of the fused tensor exactly once. -/
theorem fused_load_exact (p : EXL3Parameter (Tensor W R)) (t : Tensor W R) (j m : Nat)
    (hne : p.output_partition_sizes ≠ [])
    (hsizes : ∀ size ∈ p.output_partition_sizes, HAD_BLOCK ∣ size)
    (hrank : p.tp_rank < p.tp_size) (hrun : j + m ≤ p.output_partition_sizes.length)
    (hplays : Plays p.role t) :
    ∃ bounds : Nat → List (Nat × Nat × Nat),
      (∀ r, fusedShardBounds p.output_partition_sizes (List.range' j m) r p.tp_size =
        .ok (bounds r)) ∧
      (∃ q, p.loadMergedColumnWeight t (.tuple (List.range' j m)) none = .ok q ∧
        p.loadSeparately t (List.range' j m) = .ok q ∧
        (j = 0 ∧ m = p.output_partition_sizes.length →
          p.loadMergedColumnWeight t .none none = .ok q) ∧
        ∀ b ∈ bounds p.tp_rank, q.shards.get? b.1 = some (t.columns p.role b.2.1 b.2.2)) ∧
      (∀ r < p.tp_size, (bounds r).map Prod.fst = List.range' j m ∧ ∀ b ∈ bounds r,
        HAD_BLOCK ∣ b.2.1 ∧ HAD_BLOCK ∣ b.2.2 ∧
          b.2.2 ≤ ((List.range' j m).map (storedWidth p.output_partition_sizes p.tp_size)).sum) ∧
      ∀ c < ((List.range' j m).map (storedWidth p.output_partition_sizes p.tp_size)).sum,
        ∃! q : Nat × Nat × Nat × Nat, q.1 < p.tp_size ∧ q.2 ∈ bounds q.1 ∧ q.2.2.1 ≤ c ∧
          c < q.2.2.2 := by
  have hlt : ∀ index ∈ List.range' j m, index < p.output_partition_sizes.length := by
    intro index hindex
    have := (List.mem_range'_1.mp hindex).2
    omega
  refine ⟨fun r => fusedSpans p.output_partition_sizes r p.tp_size (List.range' j m) 0,
    fun r => fusedShardBounds_eq hne hsizes hlt,
    ⟨_, loadFusedIndices_eq p hplays hne hsizes hlt, loadSeparately_eq p hplays hrank hsizes _, ?_, ?_⟩,
    fun r hr => ⟨map_fst_fusedSpans 0, fun b hb => ?_⟩, fun c hc => existsUnique_fusedSpans hc⟩
  · rintro ⟨rfl, rfl⟩
    rw [loadMergedColumnWeight, List.range_eq_range']
    exact loadFusedIndices_eq p hplays hne hsizes hlt
  · intro b hb
    apply get?_storeSpans p _ hb
    rw [map_fst_fusedSpans]
    exact List.nodup_range'
  · obtain ⟨hfirst, hlast⟩ := fusedSpans_dvd hsizes hb
    exact ⟨hfirst, hlast, fusedSpans_le hr hb⟩

/-! ### Two shards of 128 and 256 columns a rank, on the second of two ranks -/

def mergedTrellis : EXL3Parameter (Tensor Nat Rat) where
  role := .trellis
  tp_rank := 1
  tp_size := 2
  column_shard_size := some 128
  row_shard_size := some 128
  output_partition_sizes := [128, 256]
  shards := PyDict.empty

theorem mergedTrellis_load_exact :
    ∃ q, mergedTrellis.loadMergedColumnWeight (.trellis (zeroTrellis 8 48 3)) (.tuple [0, 1]) none =
        .ok q ∧
      mergedTrellis.loadSeparately (.trellis (zeroTrellis 8 48 3)) [0, 1] = .ok q := by
  obtain ⟨_, _, ⟨q, hfused, hseparate, _⟩, _⟩ :=
    fused_load_exact mergedTrellis (.trellis (zeroTrellis 8 48 3)) 0 2 (by decide) (by decide)
      (by decide) (by decide) fun _ => ⟨_, rfl⟩
  exact ⟨q, hfused, hseparate⟩

end EXL3Parameter

end VllmExl3.TensorParallel
