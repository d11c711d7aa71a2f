/-
# VllmExl3.LMHead.VocabParallel — a split head is the unsplit one (`quantization/lm_head.py`)

Two paddings meet here: vLLM's vocabulary is a multiple of 64, the stored head a multiple of 128. A
single rank keeps the whole head and trims it. More than one are accepted only with whole Hadamard
blocks each, and then the two paddings agree, so that every rank's slice is exactly its part of the
vocabulary. Either way a rank serves its stretch of the unsplit logits, with zeros past the last real
row, and the concatenation is the unsplit logits with zeros past `org_vocab_size`.
-/
import VllmExl3.LMHead.Model
import VllmExl3.TensorParallel.Fused

namespace VllmExl3.LMHead

open Format (TILE HAD_BLOCK PAD_TO padDim padDim_spec bitsFromTrellisShape dimsFromTrellisShape
  checkTpSplit checkTpSplit_eq_ok)
open TensorParallel
open Ops (Activations Kernels Loaded served servedRow)

variable {W R : Type}

/-! ## The rows of a rank -/

theorem tile_mul_div (c : Nat) : TILE * c / TILE = c := Nat.mul_div_cancel_left c (by decide)

/-- The head a rank loads: the whole one, or tile columns `[a, b)` of it. -/
def Linear.sliceCols (L : Linear W R) (a b : Nat) : Linear W R where
  trellis := L.trellis.sliceCols a b
  suh := L.suh
  svh := slice (TILE * a) (TILE * b) L.svh
  mcg := L.mcg
  mul1 := L.mul1
  suh_eq := L.suh_eq
  svh_eq := by
    rw [length_slice, L.svh_eq]
    show min (TILE * b) (TILE * L.trellis.cols) - TILE * a = TILE * (min b L.trellis.cols - a)
    unfold TILE
    omega

/-- Serving a slice of whole blocks is slicing what is served. -/
theorem servedRow_sliceCols [CommRing R] (ext : Exllamav3 W R) {L : Linear W R} {a b : Nat} (hab : a ≤ b)
    (hb : b ≤ L.trellis.cols) (hin : HAD_BLOCK ∣ TILE * L.trellis.rows) (ha : HAD_BLOCK ∣ TILE * a)
    (hw : HAD_BLOCK ∣ TILE * (b - a)) (row : List R) :
    servedRow ext (Linear.sliceCols L a b) row = slice (TILE * a) (TILE * b) (servedRow ext L row) := by
  have hcols : (L.trellis.sliceCols a b).cols = b - a := by
    show min b L.trellis.cols - a = b - a
    omega
  have hwidth : TILE * b - TILE * a = TILE * (b - a) := (Nat.mul_sub _ _ _).symm
  rw [servedRow, servedRow, slice_tabulate (Nat.mul_le_mul_left _ hb), hwidth]
  show tabulate (TILE * (L.trellis.sliceCols a b).cols) _ = _
  rw [hcols]
  exact tabulate_congr fun j hj => layerAt_sliceCols hin ha hw hj

/-- A row trimmed to its first `real` columns and padded again. -/
theorem padRow_slice [Zero R] {real n : Nat} {row : List R} (h : real ≤ row.length) :
    Activations.padRow n (slice 0 real row) =
      tabulate (real + n) fun j => if j < real then row.getD j 0 else 0 := by
  refine List.ext_getElem (by simp [Activations.padRow]; omega) fun j hj hj' => ?_
  rw [getElem_tabulate]
  simp only [Activations.padRow, slice, List.drop_zero, List.getElem_append, List.length_take,
    Nat.min_eq_left h, List.getElem_take, List.getElem_replicate]
  split_ifs with hlt
  · exact (List.getD_eq_getElem _ _ _).symm
  · rfl

/-- `y` with its first `real` columns, and zeros up to `target`. -/
def fit [Zero R] (real target : Nat) (y : Activations R) : Activations R :=
  padRight (target - real) (y.trim real)

theorem fit_width [Zero R] {real target : Nat} {y : Activations R} (hreal : real ≤ y.width)
    (htarget : real ≤ target) : (fit real target y).width = target := by
  show min real y.width + (target - real) = target
  omega

theorem fit_rows [Zero R] {real target : Nat} {y : Activations R} (hreal : real ≤ y.width)
    (htarget : real ≤ target) : (fit real target y).rows =
      y.rows.map fun row => tabulate target fun j => if j < real then row.getD j 0 else 0 := by
  show (y.rows.map (slice 0 real)).map (Activations.padRow (target - real)) = _
  rw [List.map_map]
  refine List.map_congr_left fun row hrow => ?_
  rw [Function.comp_apply, padRow_slice (by rwa [y.width_eq row hrow]), Nat.add_sub_cancel' htarget]

/-- Trimming and padding to the width a tensor has changes nothing. -/
theorem fit_self [Zero R] {n : Nat} {y : Activations R} (h : y.width = n) : fit n n y = y := by
  refine Activations.eq_of_rows rfl ?_ ?_
  · rw [fit_width h.ge le_rfl, h]
  · rw [fit_rows h.ge le_rfl]
    refine (List.map_congr_left fun row hrow => ?_).trans (List.map_id _)
    have hlen : row.length = n := (y.width_eq row hrow).trans h
    rw [tabulate_congr fun j hj => if_pos hj]
    exact tabulate_getD 0 hlen

/-- The trim and the pad of `apply`, each under its own condition. -/
theorem trim_then_pad [Zero R] {real target : Nat} {y : Activations R} (hreal : real ≤ y.width)
    (htarget : real ≤ target) :
    (if y.width ≠ target ∨ real < target then
      (if real < target then padRight (target - real) (y.trim real) else y.trim real) else y) =
      fit real target y := by
  split_ifs with htrim hpad
  · rfl
  · -- every column that is left is real
    obtain rfl : real = target := by omega
    have hwidth : (y.trim real).width = real := Nat.min_eq_left hreal
    rw [← fit_self hwidth]
    refine Activations.eq_of_rows rfl ?_ ?_
    · rw [fit_width hwidth.ge le_rfl, fit_width hreal le_rfl]
    · rw [fit_rows hwidth.ge le_rfl, fit_rows hreal le_rfl]
      show (y.rows.map (slice 0 real)).map _ = _
      rw [List.map_map]
      refine List.map_congr_left fun row _ => tabulate_congr fun j hj => ?_
      rw [getD_slice (by omega), Nat.zero_add]
  · have hwidth : y.width = target := by omega
    obtain rfl : real = target := by omega
    exact (fit_self hwidth).symm

/-! ## The split -/

namespace VocabSplit

variable (v : VocabSplit)

/-- The rows of a rank that are real vocabulary. -/
def realRows (rank : Nat) : Nat :=
  min (rank * v.num_embeddings_per_partition + v.num_embeddings_per_partition) v.org_vocab_size -
    min (rank * v.num_embeddings_per_partition) v.org_vocab_size

variable {v}

theorem vocab_le : v.org_vocab_size ≤ v.tp_size * v.num_embeddings_per_partition := by
  rw [v.padded_eq]
  exact (padDim_spec (by decide)).2.1

theorem realRows_le (rank : Nat) : v.realRows rank ≤ v.num_embeddings_per_partition := by
  unfold realRows
  omega

/-- A rank's column is real exactly where its place in the vocabulary is. -/
theorem lt_realRows {rank j : Nat} (hj : j < v.num_embeddings_per_partition) :
    j < v.realRows rank ↔ rank * v.num_embeddings_per_partition + j < v.org_vocab_size := by
  unfold realRows
  omega

/-- `create_weights` lets the split through. -/
def Accepted (v : VocabSplit) : Prop := 1 < v.tp_size → HAD_BLOCK ∣ v.num_embeddings_per_partition

/-- With whole blocks on every rank the two paddings agree. -/
theorem padded_eq_stored (h : HAD_BLOCK ∣ v.tp_size * v.num_embeddings_per_partition) :
    v.tp_size * v.num_embeddings_per_partition = padDim v.org_vocab_size PAD_TO := by
  have hvllm := padDim_spec (n := v.org_vocab_size) (show 0 < VOCAB_PADDING_SIZE by decide)
  have hstored := padDim_spec (n := v.org_vocab_size) (show 0 < PAD_TO by decide)
  rw [← v.padded_eq] at hvllm
  obtain ⟨_, hvocab, hlt⟩ := hvllm
  obtain ⟨⟨b, hb⟩, hvocab', hlt'⟩ := hstored
  obtain ⟨a, ha⟩ := h
  -- both are the least multiple of 128 the vocabulary fits into
  simp only [HAD_BLOCK, PAD_TO, VOCAB_PADDING_SIZE] at ha hb hlt hlt' hvocab' ⊢
  omega

end VocabSplit

/-! ## The head of a rank -/

/-- A stored head of a model: both widths padded to whole blocks, and a bit width the format knows. -/
structure Stored (L : Linear W R) (vocab hidden : Nat) : Prop where
  in_eq : TILE * L.trellis.rows = padDim hidden PAD_TO
  out_eq : TILE * L.trellis.cols = padDim vocab PAD_TO
  bits_ok : ∃ bits, bitsFromTrellisShape [L.trellis.rows, L.trellis.cols, L.trellis.words]
    (some L.mul1.isSome) = .ok bits

theorem Stored.loaded {L : Linear W R} {vocab hidden : Nat} (h : Stored L vocab hidden) : Loaded L where
  in_aligned := h.in_eq ▸ (padDim_spec (by decide)).1
  out_aligned := h.out_eq ▸ (padDim_spec (by decide)).1
  bits_ok := h.bits_ok

/-- The head a rank loads. -/
def VocabSplit.linear (v : VocabSplit) (L : Linear W R) (rank : Nat) : Linear W R :=
  if v.tp_size = 1 then L
  else Linear.sliceCols L (rank * v.num_embeddings_per_partition / TILE)
    ((rank * v.num_embeddings_per_partition + v.num_embeddings_per_partition) / TILE)

/-- The vocabulary `process_weights_after_loading` expects a rank's head to store. -/
def VocabSplit.expected (v : VocabSplit) : Nat :=
  if v.tp_size = 1 then v.org_vocab_size else v.num_embeddings_per_partition

section Rank

variable {v : VocabSplit} {L : Linear W R} {hidden rank : Nat}

/-- A split into slices, in tiles: every rank's are whole blocks inside the stored head. -/
theorem VocabSplit.Accepted.tiles (hv : v.Accepted) (hL : Stored L v.org_vocab_size hidden)
    (hone : v.tp_size ≠ 1) (hrank : rank < v.tp_size) :
    ∃ a b, a ≤ b ∧ b ≤ L.trellis.cols ∧ rank * v.num_embeddings_per_partition = TILE * a ∧
      v.num_embeddings_per_partition = TILE * (b - a) ∧
      rank * v.num_embeddings_per_partition + v.num_embeddings_per_partition = TILE * b ∧
      HAD_BLOCK ∣ TILE * a ∧ HAD_BLOCK ∣ TILE * (b - a) := by
  -- a rank's stretch is `m` blocks of 128 columns, so `8 * m` tiles
  obtain ⟨m, hm⟩ := hv (by have := v.tp_pos; omega)
  have hfirst : rank * v.num_embeddings_per_partition = TILE * (8 * (rank * m)) := by
    rw [hm]
    show rank * (128 * m) = 16 * (8 * (rank * m))
    ring
  have hwidth : v.num_embeddings_per_partition = TILE * (8 * m) := by
    rw [hm]
    show 128 * m = 16 * (8 * m)
    ring
  have hsub : 8 * (rank * m) + 8 * m - 8 * (rank * m) = 8 * m := Nat.add_sub_cancel_left _ _
  have hbound : (rank + 1) * v.num_embeddings_per_partition ≤ TILE * L.trellis.cols := by
    rw [hL.out_eq, ← v.padded_eq_stored (hm ▸ Dvd.dvd.mul_left (Dvd.intro _ rfl) _)]
    exact Nat.mul_le_mul_right _ hrank
  rw [Nat.succ_mul, hfirst, hwidth] at hbound
  refine ⟨8 * (rank * m), 8 * (rank * m) + 8 * m, Nat.le_add_right _ _, ?_, hfirst, ?_, ?_, ?_, ?_⟩
  · refine Nat.le_of_mul_le_mul_left ?_ (show 0 < TILE by decide)
    rwa [Nat.mul_add]
  · rw [hsub, hwidth]
  · rw [hfirst, hwidth, Nat.mul_add]
  · exact ⟨rank * m, by show 16 * (8 * (rank * m)) = 128 * (rank * m); ring⟩
  · rw [hsub]
    exact ⟨m, by show 16 * (8 * m) = 128 * m; ring⟩

/-- What a rank loads is a stored head of the vocabulary it is expected to store. -/
theorem VocabSplit.Accepted.stored (hv : v.Accepted) (hL : Stored L v.org_vocab_size hidden)
    (hrank : rank < v.tp_size) : Stored (v.linear L rank) v.expected hidden := by
  unfold VocabSplit.linear VocabSplit.expected
  split_ifs with hone
  · exact hL
  · obtain ⟨a, b, hab, hb, hfirst, hwidth, hlast, _, hblocks⟩ := hv.tiles hL hone hrank
    rw [hfirst, ← hfirst, hlast, hfirst, tile_mul_div, tile_mul_div]
    have hcols : (L.trellis.sliceCols a b).cols = b - a := by
      show min b L.trellis.cols - a = b - a
      omega
    refine ⟨hL.in_eq, ?_, ?_⟩
    · obtain ⟨⟨c, hc⟩, hle, hlt⟩ :=
        padDim_spec (n := v.num_embeddings_per_partition) (show 0 < PAD_TO by decide)
      obtain ⟨m, hm⟩ := hblocks
      show TILE * (L.trellis.sliceCols a b).cols = _
      rw [hcols]
      rw [hwidth] at hc hle hlt ⊢
      simp only [HAD_BLOCK, PAD_TO] at hm hc hle hlt ⊢
      omega
    · obtain ⟨bits, hbits⟩ := hL.bits_ok
      exact ⟨bits, Format.bitsFromTrellisShape_ok_congr hbits⟩

theorem realRows_le_stored (hv : v.Accepted) (hL : Stored L v.org_vocab_size hidden)
    (hrank : rank < v.tp_size) : v.realRows rank ≤ TILE * (v.linear L rank).trellis.cols := by
  rw [(hv.stored hL hrank).out_eq]
  refine Nat.le_trans ?_ (padDim_spec (by decide)).2.1
  unfold VocabSplit.expected
  split_ifs with hone
  · unfold VocabSplit.realRows
    omega
  · exact VocabSplit.realRows_le rank

/-- A rank's real columns are its stretch of the unsplit ones. -/
theorem getD_servedRow_linear [CommRing R] (ext : Exllamav3 W R) (hv : v.Accepted)
    (hL : Stored L v.org_vocab_size hidden) (hrank : rank < v.tp_size) (row : List R) {j : Nat}
    (hj : j < v.num_embeddings_per_partition) :
    (servedRow ext (v.linear L rank) row).getD j 0 =
      (servedRow ext L row).getD (rank * v.num_embeddings_per_partition + j) 0 := by
  unfold VocabSplit.linear
  split_ifs with hone
  · obtain rfl : rank = 0 := by omega
    rw [Nat.zero_mul, Nat.zero_add]
  · obtain ⟨a, b, hab, hb, hfirst, hwidth, hlast, hstart, hblocks⟩ := hv.tiles hL hone hrank
    rw [hlast, hfirst, tile_mul_div, tile_mul_div,
      servedRow_sliceCols ext hab hb hL.loaded.in_aligned hstart hblocks]
    exact getD_slice (by rw [← Nat.mul_sub, ← hwidth]; exact hj)

end Rank

/-! ## Loading -/

/-- A parameter `create_weights` registers on a rank. -/
def VocabSplit.param (W R : Type) (v : VocabSplit) (rank : Nat) (name : String) :
    EXL3Parameter (Tensor W R) where
  role := roleOf name
  tp_rank := rank
  tp_size := v.tp_size
  column_shard_size := some v.num_embeddings_per_partition
  row_shard_size := none
  output_partition_sizes := []
  shards := PyDict.empty

/-- What a rank keeps of a stored tensor. -/
def VocabSplit.cut (v : VocabSplit) (rank : Nat) (s : String × Tensor W R) : Tensor W R :=
  if v.tp_size = 1 then s.2
  else s.2.columns (roleOf s.1) (rank * v.num_embeddings_per_partition)
    (rank * v.num_embeddings_per_partition + v.num_embeddings_per_partition)

theorem takeColumn_param (v : VocabSplit) (rank : Nat) {s : String × Tensor W R} (h : Plays (roleOf s.1) s.2) :
    (v.param W R rank s.1).takeColumn s.2 (some v.num_embeddings_per_partition) rank =
      .ok (v.cut rank s) := by
  rw [EXL3Parameter.takeColumn, VocabSplit.cut]
  show (if v.tp_size = 1 then _ else _) = _
  by_cases hone : v.tp_size = 1
  · rw [if_pos hone, if_pos hone]
  · rw [if_neg hone, if_neg hone]
    exact cut_shardColumn_eq h _ _

/-- The layer `create_weights` leaves on a rank of an accepted split. -/
def VocabSplit.created (W R : Type) (v : VocabSplit) (names : List String) (rank hidden : Nat) : Layer W R :=
  { v.layer rank with
    params := PyDict.ofList (names.map fun name => (name, v.param W R rank name))
    exl3_input_size := hidden
    exl3_real_rows := v.realRows rank
    exl3_vocab_slice := v.num_embeddings_per_partition }

theorem createWeights_eq (W R : Type) (m : Method) (v : VocabSplit) (rank hidden : Nat) :
    createWeights W R m (v.layer rank) hidden = (do
      if v.tp_size > 1 then
        checkTpSplit (v.num_embeddings_per_partition * v.tp_size) v.tp_size "lm_head vocab"
      return v.created W R m.names rank hidden) := by
  have hslice : rank * v.num_embeddings_per_partition + v.num_embeddings_per_partition -
      rank * v.num_embeddings_per_partition = v.num_embeddings_per_partition := Nat.add_sub_cancel_left _ _
  rw [createWeights]
  dsimp only [VocabSplit.layer]
  rw [hslice]
  rfl

theorem createWeights_ok (m : Method) {v : VocabSplit} (hv : v.Accepted) (rank hidden : Nat) :
    createWeights W R m (v.layer rank) hidden = .ok (v.created W R m.names rank hidden) := by
  rw [createWeights_eq]
  by_cases hone : v.tp_size > 1
  · have hcheck : checkTpSplit (v.num_embeddings_per_partition * v.tp_size) v.tp_size "lm_head vocab" =
        .ok () := by
      rw [checkTpSplit_eq_ok, Nat.mul_div_cancel _ v.tp_pos]
      exact .inr ⟨Nat.dvd_mul_left _ _, hv hone⟩
    rw [if_pos hone, hcheck]
    rfl
  · rw [if_neg hone]
    rfl

/-- The check of `create_weights` is the same on every rank. -/
theorem accepted_of_createWeights {m : Method} {v : VocabSplit} {rank hidden : Nat} {layer : Layer W R}
    (h : createWeights W R m (v.layer rank) hidden = .ok layer) : v.Accepted := by
  intro hone
  rw [createWeights_eq, if_pos hone] at h
  obtain ⟨_, hok, _⟩ := bind_eq_ok h
  rw [checkTpSplit_eq_ok, Nat.mul_div_cancel _ v.tp_pos] at hok
  rcases hok with hle | ⟨_, hblocks⟩
  · omega
  · exact hblocks

/-- Loading tensors of different names fills each one's parameter with its cut, and touches no other. -/
theorem loadWeights_ok {param : String → EXL3Parameter (Tensor W R)}
    (cut : String × Tensor W R → Tensor W R) {tensors : List (String × Tensor W R)} (layer : Layer W R)
    (hnodup : (tensors.map Prod.fst).Nodup)
    (hparams : ∀ s ∈ tensors, layer.params.get? s.1 = some (param s.1))
    (hcut : ∀ s ∈ tensors, (param s.1).takeColumn s.2 (param s.1).column_shard_size (param s.1).tp_rank =
      .ok (cut s)) :
    ∃ params, loadWeights tensors layer = .ok { layer with params := params } ∧
      (∀ s ∈ tensors, params.get? s.1 = some ((param s.1).store (cut s) 0)) ∧
      ∀ name ∉ tensors.map Prod.fst, params.get? name = layer.params.get? name := by
  induction tensors generalizing layer with
  | nil => exact ⟨layer.params, rfl, fun s hs => absurd hs List.not_mem_nil, fun _ _ => rfl⟩
  | cons s rest ih =>
    rw [List.map_cons, List.nodup_cons] at hnodup
    have hne : ∀ s' ∈ rest, s'.1 ≠ s.1 := fun s' hs' heq =>
      hnodup.1 (heq ▸ List.mem_map_of_mem hs')
    have hself := hparams s List.mem_cons_self
    have hload : lmHeadWeightLoader (param s.1) s.2 = .ok ((param s.1).store (cut s) 0) := by
      rw [lmHeadWeightLoader, hcut s List.mem_cons_self]
      rfl
    obtain ⟨params, hrest, hstored, hframe⟩ :=
      ih { layer with params := layer.params.set s.1 ((param s.1).store (cut s) 0) } hnodup.2
        (fun s' hs' => by
          rw [PyDict.get?_set_ne _ _ (hne s' hs')]
          exact hparams s' (List.mem_cons_of_mem s hs'))
        fun s' hs' => hcut s' (List.mem_cons_of_mem s hs')
    refine ⟨params, ?_, fun s' hs' => ?_, fun name hname => ?_⟩
    · rw [loadWeights, List.foldlM_cons, hself]
      dsimp only
      rw [hload]
      exact hrest
    · rcases List.mem_cons.mp hs' with rfl | hs'
      · rw [hframe _ hnodup.1]
        exact PyDict.get?_set_self _ _ _
      · exact hstored s' hs'
    · rw [List.map_cons, List.mem_cons, not_or] at hname
      rw [hframe name hname.2]
      exact PyDict.get?_set_ne _ _ hname.1

/-! ## After loading -/

/-- The config names exactly the tensors the checkpoint stores. -/
def Method.Names (m : Method) (L : Linear W R) : Prop := m.names = L.subTensors.map Prod.fst

theorem Method.Names.mcg_eq {m : Method} {L : Linear W R} (h : m.Names L) : m.mcg = L.mcg.isSome := by
  rw [Method.mcg, h, Linear.subTensors]
  cases L.mcg <;> cases L.mul1 <;> rfl

theorem Method.Names.mul1_eq {m : Method} {L : Linear W R} (h : m.Names L) : m.mul1 = L.mul1.isSome := by
  rw [Method.mul1, h, Linear.subTensors]
  cases L.mcg <;> cases L.mul1 <;> rfl

theorem nodup_subTensors (L : Linear W R) : (L.subTensors.map Prod.fst).Nodup := by
  rw [Linear.subTensors]
  cases L.mcg <;> cases L.mul1 <;> simp

theorem plays_subTensors {L : Linear W R} {s : String × Tensor W R} (hs : s ∈ L.subTensors) :
    Plays (roleOf s.1) s.2 := by
  simp only [Linear.subTensors, List.mem_append, List.mem_cons, List.not_mem_nil, or_false,
    List.mem_map] at hs
  rcases hs with ((rfl | rfl | rfl) | ⟨_, _, rfl⟩) | ⟨_, _, rfl⟩
  · exact fun _ => ⟨L.trellis, rfl⟩
  all_goals exact fun h => absurd h (by simp [roleOf, VOCAB_TENSORS])

section Process

variable {v : VocabSplit} {L : Linear W R} {hidden rank : Nat}

theorem cut_trellis : v.cut rank ("trellis", .trellis L.trellis) =
    (.trellis (v.linear L rank).trellis : Tensor W R) := by
  unfold VocabSplit.cut VocabSplit.linear
  split_ifs <;> rfl

theorem cut_suh : v.cut rank ("suh", .scale L.suh) = (.scale (v.linear L rank).suh : Tensor W R) := by
  unfold VocabSplit.cut VocabSplit.linear
  split_ifs <;> rfl

theorem cut_svh (hv : v.Accepted) (hL : Stored L v.org_vocab_size hidden) (hrank : rank < v.tp_size) :
    v.cut rank ("svh", .scale L.svh) = (.scale (v.linear L rank).svh : Tensor W R) := by
  unfold VocabSplit.cut VocabSplit.linear
  split_ifs with hone
  · rfl
  · obtain ⟨a, b, _, _, hfirst, _, hlast, _, _⟩ := hv.tiles hL hone hrank
    rw [hlast, hfirst, tile_mul_div, tile_mul_div]
    rfl

theorem shard_store {params : PyDict String (EXL3Parameter (Tensor W R))} {name : String}
    {param : EXL3Parameter (Tensor W R)} {t : Tensor W R} (h : params.get? name = some (param.store t 0)) :
    shard params name 0 = .ok t := by
  rw [shard, h]
  dsimp only [EXL3Parameter.store]
  rw [PyDict.get?_set_self]

/-- Loading a stored head fills the parameters with the head of the rank. -/
theorem loadWeights_subTensors {m : Method} (hm : m.Names L) (hv : v.Accepted)
    (hL : Stored L v.org_vocab_size hidden) (hrank : rank < v.tp_size) :
    ∃ params, loadWeights L.subTensors (v.created W R m.names rank hidden) =
        .ok { v.created W R m.names rank hidden with params := params } ∧
      shard params "trellis" 0 = .ok (.trellis (v.linear L rank).trellis) ∧
      shard params "suh" 0 = .ok (.scale (v.linear L rank).suh) ∧
      shard params "svh" 0 = .ok (.scale (v.linear L rank).svh) := by
  have hparams : ∀ s ∈ L.subTensors, (v.created W R m.names rank hidden).params.get? s.1 =
      some (v.param W R rank s.1) := by
    intro s hs
    refine (PyDict.get?_ofList_eq_some_iff fun param param' h h' => ?_).mpr (List.mem_map.mpr ⟨s.1, ?_, rfl⟩)
    · obtain ⟨_, _, hname⟩ := List.mem_map.mp h
      obtain ⟨_, _, hname'⟩ := List.mem_map.mp h'
      cases hname
      cases hname'
      rfl
    · rw [hm]
      exact List.mem_map_of_mem hs
  obtain ⟨params, hload, hstored, _⟩ := loadWeights_ok (v.cut rank)
    (v.created W R m.names rank hidden) (nodup_subTensors L) hparams fun s hs =>
      takeColumn_param v rank (plays_subTensors hs)
  have hshard : ∀ s ∈ L.subTensors, shard params s.1 0 = .ok (v.cut rank s) :=
    fun s hs => shard_store (hstored s hs)
  refine ⟨params, hload, ?_, ?_, ?_⟩
  · rw [← cut_trellis]
    exact hshard ("trellis", .trellis L.trellis) (by simp [Linear.subTensors])
  · rw [← cut_suh]
    exact hshard ("suh", .scale L.suh) (by simp [Linear.subTensors])
  · rw [← cut_svh hv hL hrank]
    exact hshard ("svh", .scale L.svh) (by simp [Linear.subTensors])

/-- The stored widths pass the checks, whatever dense or quantized weights they lead to. -/
theorem checkShapes_ok {vocab : Nat} {L : Linear W R} (hL : Stored L vocab hidden) :
    checkShapes hidden 0 (L.trellis.rows * TILE) (L.trellis.cols * TILE) vocab
      (.scale L.suh : Tensor W R) (.scale L.svh) = .ok () := by
  have hin := hL.in_eq
  have hout := hL.out_eq
  rw [Nat.mul_comm] at hin hout
  have hsuh : numel (.scale L.suh : Tensor W R) = L.trellis.rows * TILE := by
    show [L.suh.length].prod = _
    rw [List.prod_singleton, L.suh_eq, Nat.mul_comm]
  have hsvh : numel (.scale L.svh : Tensor W R) = L.trellis.cols * TILE := by
    show [L.svh.length].prod = _
    rw [List.prod_singleton, L.svh_eq, Nat.mul_comm]
  rw [checkShapes, if_neg (by rw [hin, hout]; simp), if_neg (by rw [hsuh, hsvh]; simp)]

/-- The dense weight a rank keeps: its real rows, and zero rows up to its part of the vocabulary. -/
def denseRows [CommRing R] (ext : Exllamav3 W R) (L : Linear W R) (real hidden n : Nat) : List (List R) :=
  (slice 0 real (tabulate (TILE * L.trellis.cols) fun j =>
      tabulate (TILE * L.trellis.rows) fun i => Ops.effective ext L i j)).map (slice 0 hidden) ++
    List.replicate n (List.replicate hidden 0)

/-- What a rank serves from. -/
def VocabSplit.weights [CommRing R] (v : VocabSplit) (ext : Exllamav3 W R) (m : Method) (L : Linear W R)
    (hidden rank : Nat) : Weights W R :=
  if m.dequantize then .dense hidden (denseRows ext (v.linear L rank) (v.realRows rank) hidden
    (v.num_embeddings_per_partition - v.realRows rank))
  else .quantized (v.linear L rank).trellis (v.linear L rank).suh (v.linear L rank).svh

theorem linear_selectors : (v.linear L rank).mcg = L.mcg ∧ (v.linear L rank).mul1 = L.mul1 := by
  unfold VocabSplit.linear
  split_ifs <;> exact ⟨rfl, rfl⟩

variable [CommRing R] {K : Kernels W R} {m : Method}

theorem storeWeights_ok (hm : m.Names L) (hv : v.Accepted) (hL : Stored L v.org_vocab_size hidden)
    (hrank : rank < v.tp_size) :
    storeWeights K m hidden (v.realRows rank) v.num_embeddings_per_partition
        ((v.linear L rank).trellis.rows * TILE) (.trellis (v.linear L rank).trellis)
        (.scale (v.linear L rank).suh) (.scale (v.linear L rank).svh) =
      .ok (v.weights K.toExllamav3 m L hidden rank) := by
  have hstored := hv.stored hL hrank
  have hreal := realRows_le_stored hv hL hrank
  rw [storeWeights, VocabSplit.weights]
  by_cases hdense : m.dequantize = true
  · have hin : min hidden ((v.linear L rank).trellis.rows * TILE) = hidden := by
      rw [Nat.mul_comm, hstored.in_eq]
      exact Nat.min_eq_left (padDim_spec (by decide)).2.1
    have hweight : Ops.denseOf K.toExllamav3 (v.linear L rank) = _ :=
      Ops.denseOf_ok hstored.loaded.in_aligned hstored.loaded.out_aligned
    rw [Ops.denseOf, linear_selectors.1, linear_selectors.2, ← hm.mcg_eq, ← hm.mul1_eq] at hweight
    rw [if_pos hdense, if_pos hdense, hweight]
    show Except.ok (Weights.dense _ _) = _
    rw [hin, denseRows, List.length_map, length_slice, length_tabulate, Nat.sub_zero, Nat.min_eq_left hreal]
  · rw [if_neg hdense, if_neg hdense]

/-- Every rank's slice is accepted. -/
theorem process_ok (hm : m.Names L) (hv : v.Accepted) (hL : Stored L v.org_vocab_size hidden)
    (hrank : rank < v.tp_size) {params : PyDict String (EXL3Parameter (Tensor W R))}
    (htrellis : shard params "trellis" 0 = .ok (.trellis (v.linear L rank).trellis))
    (hsuh : shard params "suh" 0 = .ok (.scale (v.linear L rank).suh))
    (hsvh : shard params "svh" 0 = .ok (.scale (v.linear L rank).svh)) :
    processWeightsAfterLoading K m { v.created W R m.names rank hidden with params := params } =
      .ok { v.layer rank with
        exl3_real_rows := v.realRows rank
        weights := v.weights K.toExllamav3 m L hidden rank } := by
  have hstored := hv.stored hL hrank
  obtain ⟨bits, hbits⟩ := hstored.bits_ok
  have hreal : ¬v.realRows rank > v.num_embeddings_per_partition := Nat.not_lt.mpr (v.realRows_le rank)
  rw [linear_selectors.2, ← hm.mul1_eq] at hbits
  -- the checks pass one after the other, in the order the source makes them
  rw [processWeightsAfterLoading]
  dsimp only
  rw [htrellis, hsuh, hsvh]
  show (bitsFromTrellisShape [_, _, _] (some m.mul1) >>= _) = _
  rw [hbits]
  show (checkShapes hidden 0 _ _ v.expected _ _ >>= _) = _
  rw [checkShapes_ok hstored]
  show (if v.realRows rank > v.num_embeddings_per_partition then _ else _) = _
  rw [if_neg hreal]
  show (storeWeights K m hidden (v.realRows rank) v.num_embeddings_per_partition
    ((v.linear L rank).trellis.rows * TILE) (.trellis _) (.scale _) (.scale _) >>= _) = _
  rw [storeWeights_ok hm hv hL hrank]
  rfl

end Process

/-! ## Serving -/

section Serve

variable [CommRing R] {K : Kernels W R} {m : Method} {v : VocabSplit} {L : Linear W R} {hidden rank : Nat}
  {x : Activations R}

/-- `_exl3_mm` on a stored linear: the layer's output, or a division by the width of an empty input. -/
theorem exl3Mm_eq (hK : K.Contract) (hL : Loaded L) (hwidth : x.width ≤ TILE * L.trellis.rows)
    (reconstruct_threshold reconstruct_tile_mb : Int) :
    Ops.exl3Mm K reconstruct_threshold reconstruct_tile_mb x L.trellis L.suh L.svh L.mcg.isSome
        L.mul1.isSome =
      if x.width = 0 then .error .zeroDivision else .ok (served K.toExllamav3 L x) := by
  split_ifs with hzero
  · rw [Ops.exl3Mm, if_pos hzero]
    rfl
  · exact Ops.exl3Mm_ok hK hL (by omega) hwidth reconstruct_threshold reconstruct_tile_mb

omit [CommRing R] in
theorem view_eq_ok {lead : List Nat} {width : Nat} {rows : List (List R)} {y : Activations R}
    (h : Activations.view lead width rows = .ok y) : y.lead = lead ∧ y.width = width ∧ y.rows = rows := by
  unfold Activations.view at h
  split_ifs at h
  cases h
  exact ⟨rfl, rfl, rfl⟩

/-- Zero rows of a weight give zero columns of the product. -/
theorem linearRow_append_zeros (weight : List (List R)) (n k : Nat) (row : List R) :
    Ops.linearRow (weight ++ List.replicate n (List.replicate k 0)) row =
      Activations.padRow n (Ops.linearRow weight row) := by
  have hzero : (List.zipWith (· * ·) row (List.replicate k (0 : R))).sum = 0 := by
    refine List.sum_eq_zero fun a ha => ?_
    obtain ⟨i, hi, rfl⟩ := List.getElem_of_mem ha
    rw [List.getElem_zipWith, List.getElem_replicate, mul_zero]
  rw [Ops.linearRow, List.map_append, List.map_replicate, hzero]
  rfl

/-- The dense product with the rows a rank keeps. -/
theorem linear_denseRows (hL : Loaded L) (hx : x.width = hidden) (hwidth : hidden ≤ TILE * L.trellis.rows)
    (real target : Nat) (bias : Option (List R)) :
    linear x hidden (denseRows K.toExllamav3 L real hidden (target - real)) bias =
      addBias (fit real target (served K.toExllamav3 L x)) bias := by
  have hdense : Ops.denseLinear K.toExllamav3 L real x = _ := Ops.denseLinear_ok hL (hx.trans_le hwidth) real
  rw [Ops.denseLinear, Ops.denseOf_ok hL.in_aligned hL.out_aligned] at hdense
  obtain ⟨_, hcols, hrows⟩ := view_eq_ok hdense
  have hview := Ops.view_eq (fit real target (served K.toExllamav3 L x))
  rw [linear, if_neg (not_not.mpr hx), denseRows]
  show (Activations.view _ _ _ >>= _) = _
  rw [← hx, List.length_append, ← hcols, List.length_replicate,
    funext (linearRow_append_zeros _ (target - real) x.width)]
  -- the zero rows of the weight are the zero columns of the pad
  have hmap : ∀ weight : List (List R), x.rows.map (fun row => Activations.padRow (target - real)
      (Ops.linearRow weight row)) = (x.rows.map (Ops.linearRow weight)).map
        (Activations.padRow (target - real)) :=
    fun weight => by
      rw [List.map_map]
      rfl
  rw [hmap, ← hrows]
  show (Activations.view (fit real target (served K.toExllamav3 L x)).lead
    (fit real target (served K.toExllamav3 L x)).width
      (fit real target (served K.toExllamav3 L x)).rows >>= _) = _
  rw [hview]
  rfl

/-- A rank serves its real columns, zero-padded to its part of the vocabulary. -/
theorem apply_eq (hK : K.Contract) (hm : m.Names L) (hv : v.Accepted) (hL : Stored L v.org_vocab_size hidden)
    (hrank : rank < v.tp_size) (hx : x.width = hidden) (reconstruct_threshold reconstruct_tile_mb : Int)
    (bias : Option (List R)) :
    apply K reconstruct_threshold reconstruct_tile_mb m
        { v.layer rank with
          exl3_real_rows := v.realRows rank
          weights := v.weights K.toExllamav3 m L hidden rank } x bias =
      if m.dequantize = false ∧ hidden = 0 then .error .zeroDivision
      else addBias (fit (v.realRows rank) v.num_embeddings_per_partition
        (served K.toExllamav3 (v.linear L rank) x)) bias := by
  have hstored := hv.stored hL hrank
  have hreal := realRows_le_stored hv hL hrank
  have hin : hidden ≤ TILE * (v.linear L rank).trellis.rows := by
    rw [hstored.in_eq]
    exact (padDim_spec (by decide)).2.1
  unfold VocabSplit.weights
  cases hdense : m.dequantize with
  | true =>
    rw [if_pos rfl, if_neg (by simp)]
    exact linear_denseRows hstored.loaded hx hin _ _ bias
  | false =>
    have hmm := exl3Mm_eq hK hstored.loaded (hx.trans_le hin) reconstruct_threshold reconstruct_tile_mb
    rw [linear_selectors.1, linear_selectors.2, ← hm.mcg_eq, ← hm.mul1_eq, hx] at hmm
    rw [if_neg (by simp), apply]
    dsimp only
    rw [hmm]
    by_cases hzero : hidden = 0
    · rw [if_pos hzero, if_pos ⟨rfl, hzero⟩]
      rfl
    · rw [if_neg hzero, if_neg (by simp [hzero])]
      exact congrArg (addBias · bias) (trim_then_pad hreal (v.realRows_le rank))

/-- A rank's logits are its real columns, zero-padded, plus its part of the bias. -/
theorem rankLogits_eq (hK : K.Contract) (hm : m.Names L) (hv : v.Accepted)
    (hL : Stored L v.org_vocab_size hidden)
    (hrank : rank < v.tp_size) (hx : x.width = hidden) (reconstruct_threshold reconstruct_tile_mb : Int)
    (bias : Option (List R)) :
    (∃ served, loadRank K m L v hidden rank = .ok served) ∧
      rankLogits K reconstruct_threshold reconstruct_tile_mb m L v hidden rank x bias =
        if m.dequantize = false ∧ hidden = 0 then .error .zeroDivision
        else addBias (fit (v.realRows rank) v.num_embeddings_per_partition
            (served K.toExllamav3 (v.linear L rank) x))
          (bias.map (slice (rank * v.num_embeddings_per_partition)
            (rank * v.num_embeddings_per_partition + v.num_embeddings_per_partition))) := by
  obtain ⟨params, hload, htrellis, hsuh, hsvh⟩ := loadWeights_subTensors hm hv hL hrank
  have hserved : loadRank K m L v hidden rank = .ok
      { v.layer rank with
        exl3_real_rows := v.realRows rank
        weights := v.weights K.toExllamav3 m L hidden rank } := by
    rw [loadRank, createWeights_ok m hv]
    show (loadWeights L.subTensors (v.created W R m.names rank hidden) >>= _) = _
    rw [hload]
    exact process_ok hm hv hL hrank htrellis hsuh hsvh
  refine ⟨⟨_, hserved⟩, ?_⟩
  rw [rankLogits, hserved, ← apply_eq hK hm hv hL hrank hx]
  rfl

theorem unsplitLogits_eq (hK : K.Contract) (hL : Loaded L) (hx : x.width = hidden)
    (hwidth : hidden ≤ TILE * L.trellis.rows) (reconstruct_threshold reconstruct_tile_mb : Int) :
    unsplitLogits K reconstruct_threshold reconstruct_tile_mb m L x =
      if m.dequantize = false ∧ hidden = 0 then .error .zeroDivision else .ok (served K.toExllamav3 L x) := by
  unfold unsplitLogits
  cases m.dequantize with
  | true =>
    rw [if_pos rfl, if_neg (by simp), Ops.denseLinear_ok hL (hx.trans_le hwidth), Ops.trim_served]
  | false =>
    rw [if_neg (by simp), exl3Mm_eq hK hL (hx.trans_le hwidth), hx]
    by_cases hzero : hidden = 0
    · rw [if_pos hzero, if_pos ⟨rfl, hzero⟩]
    · rw [if_neg hzero, if_neg (by simp [hzero])]

/-! ## All ranks -/

/-- The bias of a column; without one, zero. -/
def biasAt : Option (List R) → Nat → R
  | none, _ => 0
  | some bias, j => bias.getD j 0

theorem biasAt_slice {p r j : Nat} (bias : Option (List R)) (hj : j < p) :
    biasAt (bias.map (slice (r * p) (r * p + p))) j = biasAt bias (r * p + j) := by
  cases bias with
  | none => rfl
  | some bias => exact getD_slice (by omega)

/-- `y` plus a bias, column by column. -/
def biased (y : Activations R) (bias : Option (List R)) : Activations R where
  lead := y.lead
  width := y.width
  rows := y.rows.map fun row => tabulate y.width fun j => row.getD j 0 + biasAt bias j
  rows_eq := by rw [List.length_map, y.rows_eq]
  width_eq := by
    intro row hrow
    obtain ⟨_, _, rfl⟩ := List.mem_map.mp hrow
    exact length_tabulate _ _

theorem addBias_ok {y : Activations R} {bias : Option (List R)} (h : ∀ b ∈ bias, b.length = y.width) :
    addBias y bias = .ok (biased y bias) := by
  cases bias with
  | none =>
    refine congrArg Except.ok (Activations.eq_of_rows rfl rfl ?_)
    refine ((List.map_congr_left fun row hrow => ?_).trans (List.map_id _)).symm
    simp only [biasAt, add_zero]
    exact tabulate_getD 0 (y.width_eq row hrow)
  | some bias =>
    have hlen := h bias rfl
    rw [addBias, if_neg (not_not.mpr hlen), ← Ops.view_eq (biased y (some bias))]
    refine congrArg (Activations.view y.lead y.width) (List.map_congr_left fun row hrow => ?_)
    exact zipWith_eq_tabulate 0 0 (y.width_eq row hrow) hlen

theorem biased_fit_rows {y : Activations R} {real target : Nat} (hreal : real ≤ y.width)
    (htarget : real ≤ target) (bias : Option (List R)) : (biased (fit real target y) bias).rows =
      y.rows.map fun row => tabulate target fun j =>
        (if j < real then row.getD j 0 else 0) + biasAt bias j := by
  show (fit real target y).rows.map _ = _
  rw [fit_rows hreal htarget, fit_width hreal htarget, List.map_map]
  refine List.map_congr_left fun row _ => tabulate_congr fun j hj => ?_
  rw [getD_tabulate hj]

/-- A rank's logits, where it returns them. -/
def VocabSplit.rankOut (v : VocabSplit) (ext : Exllamav3 W R) (L : Linear W R) (x : Activations R)
    (bias : Option (List R)) (rank : Nat) : Activations R :=
  biased (fit (v.realRows rank) v.num_embeddings_per_partition (served ext (v.linear L rank) x))
    (bias.map (slice (rank * v.num_embeddings_per_partition)
      (rank * v.num_embeddings_per_partition + v.num_embeddings_per_partition)))

/-- Column `c` of the padded vocabulary, for one row of the input. -/
def VocabSplit.column (v : VocabSplit) (ext : Exllamav3 W R) (L : Linear W R) (bias : Option (List R))
    (row : List R) (c : Nat) : R :=
  (if c < v.org_vocab_size then (servedRow ext L row).getD c 0 else 0) + biasAt bias c

theorem rankOut_width (ext : Exllamav3 W R) (hv : v.Accepted) (hL : Stored L v.org_vocab_size hidden)
    (hrank : rank < v.tp_size) (bias : Option (List R)) :
    (v.rankOut ext L x bias rank).width = v.num_embeddings_per_partition :=
  fit_width (realRows_le_stored hv hL hrank) (v.realRows_le rank)

/-- A rank's row is its stretch of the padded vocabulary's columns. -/
theorem rankOut_rows (ext : Exllamav3 W R) (hv : v.Accepted) (hL : Stored L v.org_vocab_size hidden)
    (hrank : rank < v.tp_size) (bias : Option (List R)) :
    (v.rankOut ext L x bias rank).rows = x.rows.map fun row =>
      tabulate v.num_embeddings_per_partition fun j =>
        v.column ext L bias row (rank * v.num_embeddings_per_partition + j) := by
  rw [VocabSplit.rankOut, biased_fit_rows (realRows_le_stored hv hL hrank) (v.realRows_le rank)]
  show (x.rows.map (servedRow ext (v.linear L rank))).map _ = _
  rw [List.map_map]
  refine List.map_congr_left fun row _ => tabulate_congr fun j hj => ?_
  rw [biasAt_slice bias hj, getD_servedRow_linear ext hv hL hrank row hj]
  simp only [v.lt_realRows hj, VocabSplit.column]

/-- The ranks' logits side by side are the unsplit ones, zero past the vocabulary. -/
theorem catLast_rankOut (ext : Exllamav3 W R) (hv : v.Accepted) (hL : Stored L v.org_vocab_size hidden)
    (x : Activations R) (bias : Option (List R)) :
    catLast x.lead ((List.range v.tp_size).map (v.rankOut ext L x bias)) =
      .ok (biased (fit v.org_vocab_size (v.tp_size * v.num_embeddings_per_partition) (served ext L x))
        bias) := by
  have hvocab : v.org_vocab_size ≤ (served ext L x).width := by
    show _ ≤ TILE * L.trellis.cols
    rw [hL.out_eq]
    exact (padDim_spec (by decide)).2.1
  have hwidth : ((List.range v.tp_size).map (v.rankOut ext L x bias)).map Activations.width =
      List.replicate v.tp_size v.num_embeddings_per_partition := by
    rw [List.map_map]
    refine List.eq_replicate_iff.mpr ⟨by simp, fun w hw => ?_⟩
    obtain ⟨rank, hrank, rfl⟩ := List.mem_map.mp hw
    exact rankOut_width ext hv hL (List.mem_range.mp hrank) bias
  have hrows : (tabulate x.lead.prod fun i => (((List.range v.tp_size).map (v.rankOut ext L x bias)).map
      fun y => y.rows.getD i []).flatten) = (biased (fit v.org_vocab_size
        (v.tp_size * v.num_embeddings_per_partition) (served ext L x)) bias).rows := by
    have hwhole : (biased (fit v.org_vocab_size (v.tp_size * v.num_embeddings_per_partition)
        (served ext L x)) bias).rows = x.rows.map fun row =>
          tabulate (v.tp_size * v.num_embeddings_per_partition) (v.column ext L bias row) := by
      rw [biased_fit_rows hvocab v.vocab_le]
      show (x.rows.map (servedRow ext L)).map _ = _
      rw [List.map_map]
      rfl
    refine List.ext_getElem ?_ fun i hi hi' => ?_
    · rw [length_tabulate, hwhole, List.length_map, x.rows_eq]
    have hrow : i < x.rows.length := by rwa [length_tabulate, ← x.rows_eq] at hi
    -- the ranks' columns are consecutive stretches of one tabulation
    have hrank : ∀ rank ∈ List.range v.tp_size, (v.rankOut ext L x bias rank).rows.getD i [] =
        tabulate v.num_embeddings_per_partition fun j =>
          v.column ext L bias x.rows[i] (rank * v.num_embeddings_per_partition + j) := by
      intro rank hrank
      rw [rankOut_rows ext hv hL (List.mem_range.mp hrank),
        List.getD_eq_getElem _ _ (by rwa [List.length_map]), List.getElem_map]
    rw [getElem_tabulate, List.map_map]
    show ((List.range v.tp_size).map fun rank => (v.rankOut ext L x bias rank).rows.getD i []).flatten = _
    rw [List.map_congr_left hrank]
    simp only [hwhole, List.getElem_map]
    exact flatten_tabulate _ _ _
  rw [catLast, hwidth, hrows, List.sum_replicate, ← Ops.view_eq (biased _ bias)]
  exact congrArg₂ (Activations.view x.lead) (fit_width hvocab v.vocab_le).symm rfl

/-- What a rank returns, with its part of a bias over the padded vocabulary. -/
theorem rankLogits_ok (hK : K.Contract) (hm : m.Names L) (hv : v.Accepted)
    (hL : Stored L v.org_vocab_size hidden)
    (hrank : rank < v.tp_size) (hx : x.width = hidden) (reconstruct_threshold reconstruct_tile_mb : Int)
    (hserves : ¬(m.dequantize = false ∧ hidden = 0)) {bias : Option (List R)}
    (hbias : ∀ b ∈ bias, b.length = v.tp_size * v.num_embeddings_per_partition) :
    rankLogits K reconstruct_threshold reconstruct_tile_mb m L v hidden rank x bias =
      .ok (v.rankOut K.toExllamav3 L x bias rank) := by
  have hend : (rank + 1) * v.num_embeddings_per_partition ≤ v.tp_size * v.num_embeddings_per_partition :=
    Nat.mul_le_mul_right _ hrank
  rw [Nat.succ_mul] at hend
  rw [(rankLogits_eq hK hm hv hL hrank hx _ _ bias).2, if_neg hserves, VocabSplit.rankOut]
  refine addBias_ok fun b hb => ?_
  obtain ⟨whole, hwhole, rfl⟩ := Option.map_eq_some_iff.mp (Option.mem_def.mp hb)
  rw [fit_width (realRows_le_stored hv hL hrank) (v.realRows_le rank), length_slice,
    hbias whole (Option.mem_def.mpr hwhole)]
  omega

end Serve

/-! ## The split head is the unsplit one -/

/-- A vocabulary-parallel head is exact: for every vocabulary, every split of it that vLLM makes and
`create_weights` accepts, every stored head of the padded widths and every input, each rank's slice is
accepted; where the unsplit head gives logits `y`, each rank gives `num_embeddings_per_partition`
columns, and together they are the first `org_vocab_size` columns of `y` and zeros after, plus the bias
if there is one; where the unsplit head raises, so does the split one. -/
theorem vocab_parallel_head [CommRing R] (K : Kernels W R) (hK : K.Contract) (L : Linear W R)
    (v : VocabSplit) (hidden : Nat) (hL : Stored L v.org_vocab_size hidden) (m : Method) (hm : m.Names L)
    (haccept : ∀ rank < v.tp_size, ∃ layer, createWeights W R m (v.layer rank) hidden = .ok layer)
    (reconstruct_threshold reconstruct_tile_mb : Int) (x : Activations R) (hx : x.width = hidden) :
    (∀ rank < v.tp_size, ∃ served, loadRank K m L v hidden rank = .ok served) ∧
    (0 < hidden → ∃ y, unsplitLogits K reconstruct_threshold reconstruct_tile_mb m L x = .ok y) ∧
    (∀ y, unsplitLogits K reconstruct_threshold reconstruct_tile_mb m L x = .ok y →
      ∀ bias : Option (List R),
        (∀ b ∈ bias, b.length = v.tp_size * v.num_embeddings_per_partition) →
        (∀ rank < v.tp_size, ∃ out,
          rankLogits K reconstruct_threshold reconstruct_tile_mb m L v hidden rank x bias = .ok out ∧
            out.width = v.num_embeddings_per_partition) ∧
        headLogits K reconstruct_threshold reconstruct_tile_mb m L v hidden x bias =
          addBias (padRight (v.tp_size * v.num_embeddings_per_partition - v.org_vocab_size)
            (y.trim v.org_vocab_size)) bias) ∧
    ∀ err, unsplitLogits K reconstruct_threshold reconstruct_tile_mb m L x = .error err →
      ∀ bias, headLogits K reconstruct_threshold reconstruct_tile_mb m L v hidden x bias = .error err := by
  have hv : v.Accepted := by
    obtain ⟨layer, h⟩ := haccept 0 v.tp_pos
    exact accepted_of_createWeights h
  have hwidth : hidden ≤ TILE * L.trellis.rows := by
    rw [hL.in_eq]
    exact (padDim_spec (by decide)).2.1
  have hload : ∀ rank < v.tp_size, ∃ served, loadRank K m L v hidden rank = .ok served :=
    fun rank hrank => (rankLogits_eq hK hm hv hL hrank hx reconstruct_threshold reconstruct_tile_mb none).1
  have hvocab : v.org_vocab_size ≤ (served K.toExllamav3 L x).width := by
    show _ ≤ TILE * L.trellis.cols
    rw [hL.out_eq]
    exact (padDim_spec (by decide)).2.1
  rw [unsplitLogits_eq hK hL.loaded hx hwidth]
  refine ⟨hload, fun hpos => ?_, fun y hy bias hbias => ?_, fun err herr bias => ?_⟩
  · rw [if_neg (by omega)]
    exact ⟨_, rfl⟩
  · split_ifs at hy with hserves
    obtain rfl := Except.ok.inj hy
    have hrank : ∀ rank < v.tp_size, _ := fun rank hrank =>
      rankLogits_ok hK hm hv hL hrank hx reconstruct_threshold reconstruct_tile_mb hserves hbias
    refine ⟨fun rank hlt => ⟨_, hrank rank hlt, rankOut_width _ hv hL hlt bias⟩, ?_⟩
    rw [headLogits, mapM_ok fun rank hmem => hrank rank (List.mem_range.mp hmem)]
    show catLast _ _ = addBias (fit _ _ _) bias
    rw [catLast_rankOut _ hv hL x bias, addBias_ok]
    rwa [fit_width hvocab v.vocab_le]
  · -- the one error is the division by an empty input's width, and the first rank makes it too
    split_ifs at herr with hserves
    obtain rfl := Except.error.inj herr
    have hne : List.range v.tp_size ≠ [] := by
      have hpos := v.tp_pos
      rw [ne_eq, List.range_eq_nil]
      omega
    rw [headLogits, mapM_error hne fun rank hmem => by
      rw [(rankLogits_eq hK hm hv hL (List.mem_range.mp hmem) hx _ _ bias).2, if_pos hserves]]
    rfl

/-! ### A vocabulary of 200 over two ranks of 128 -/

def vocab200 : VocabSplit where
  org_vocab_size := 200
  tp_size := 2
  num_embeddings_per_partition := 128
  tp_pos := by decide
  padded_eq := by decide

/-- A head without a codebook tensor. -/
def headMethod : Method where
  names := ["trellis", "suh", "svh"]
  dequantize := false

theorem vocab200_two_ranks :
    ∃ y, unsplitLogits (Kernels.exact zeroStateExt) 144 32 headMethod zeroLinear (Ops.oneToken 200) = .ok y ∧
      headLogits (Kernels.exact zeroStateExt) 144 32 headMethod zeroLinear vocab200 200
        (Ops.oneToken 200) none =
        .ok (padRight 56 (y.trim 200)) := by
  obtain ⟨_, hserves, hexact, _⟩ :=
    vocab_parallel_head (Kernels.exact zeroStateExt)
      (Kernels.exact_contract zeroStateExt) zeroLinear vocab200 200
      ⟨by decide, by decide, .int 3, by decide⟩ headMethod rfl
      (fun rank _ => ⟨_, createWeights_ok headMethod (fun _ => ⟨1, rfl⟩) rank 200⟩) 144 32
        (Ops.oneToken 200) rfl
  obtain ⟨y, hy⟩ := hserves (by decide)
  exact ⟨y, hy, (hexact y hy none (by simp)).2⟩

end VllmExl3.LMHead
