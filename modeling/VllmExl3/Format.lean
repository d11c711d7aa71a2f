/-
# VllmExl3.Format — the arithmetic of `format.py`

Shapes, bit widths and tensor-parallel bounds, as the torch-free module computes them: what a trellis
shape says about its bit width, and which slices of a dimension a rank may take. Everything that
can raise returns an `Except` with the exception's text.
-/
import Mathlib.Data.List.Basic

namespace VllmExl3

/-- The exceptions the modelled functions raise, with their messages where the source writes one. -/
inductive PyError where
  | exl3Format (message : String)
  | assertion (message : String)
  | value (message : String)
  | key (key : String)
  | runtime (message : String)
  | index
  | zeroDivision
  deriving DecidableEq, Repr

namespace Format

/-! ## Constants -/

def TILE : Nat := 16
def HAD_BLOCK : Nat := 128
def MIN_BITS : Nat := 1
def MAX_BITS : Nat := 8

/-! ## Bit widths -/

/-- A bit width: an integer `k`, or the half-integer `ka + 0.5`. -/
inductive Bits where
  | int (k : Nat)
  | half (ka : Nat)
  deriving DecidableEq, Repr

/-- `HALF_BITS = (1.5, 2.5, 3.5)` -/
def HALF_BITS : List Bits := [.half 1, .half 2, .half 3]

/-- A bit width as Python prints it. -/
def Bits.repr : Bits → String
  | .int k => toString k
  | .half ka => toString ka ++ ".5"

/-- `last / TILE` as Python prints the float, for a `last` that `TILE` does not divide. -/
def sixteenths (last : Nat) : String :=
  toString (last / TILE) ++ "." ++ (["0", "0625", "125", "1875", "25", "3125", "375", "4375", "5",
    "5625", "625", "6875", "75", "8125", "875", "9375"].getD (last % TILE) "")

/-- The half-integer width `last / TILE`, if it is one of `HALF_BITS`. -/
def halfBits (last : Nat) : Option Bits :=
  HALF_BITS.find? fun b => match b with
    | .half ka => last = TILE * ka + TILE / 2
    | .int _ => false

/-- `bits_from_trellis_shape` -/
def bitsFromTrellisShape (shape : List Nat) (mul1 : Option Bool) : Except PyError Bits :=
  match shape with
  | [_, _, last] =>
    if last % TILE ≠ 0 then
      match halfBits last with
      | none => .error (.exl3Format
          s!"trellis last dim {last} gives bit width {sixteenths last}, which is neither an integer nor one of the half-integer widths (1.5, 2.5, 3.5); cannot recover bit width")
      | some half =>
        if mul1 = some false then .error (.exl3Format
          s!"half-integer bit width {half.repr} (trellis shape {shape}) without the mul1 codebook; exllamav3 only defines half-integer widths for mul1")
        else .ok half
    else
      let bits := last / TILE
      if MIN_BITS ≤ bits ∧ bits ≤ MAX_BITS then .ok (.int bits)
      else .error (.exl3Format s!"implausible bit width {bits} from trellis shape {shape}")
  | _ => .error (.exl3Format s!"trellis must be 3-dimensional, got shape {shape}")

/-- The number of tiles is in the messages only. -/
theorem bitsFromTrellisShape_ok_congr {rows cols rows' cols' last : Nat} {mul1 : Option Bool} {bits : Bits}
    (h : bitsFromTrellisShape [rows, cols, last] mul1 = .ok bits) :
    bitsFromTrellisShape [rows', cols', last] mul1 = .ok bits := by
  unfold bitsFromTrellisShape at h ⊢
  dsimp only at h ⊢
  by_cases hwhole : last % TILE ≠ 0
  · rw [if_pos hwhole] at h ⊢
    cases hhalf : halfBits last with
    | none =>
      rw [hhalf] at h
      cases h
    | some half =>
      rw [hhalf] at h
      dsimp only at h ⊢
      by_cases hmul1 : mul1 = some false
      · rw [if_pos hmul1] at h
        cases h
      · rwa [if_neg hmul1] at h ⊢
  · rw [if_neg hwhole] at h ⊢
    by_cases hplausible : MIN_BITS ≤ last / TILE ∧ last / TILE ≤ MAX_BITS
    · rwa [if_pos hplausible] at h ⊢
    · rw [if_neg hplausible] at h
      cases h

/-! ## Dimensions -/

def PAD_TO : Nat := 128

/-- `pad_dim` -/
def padDim (n : Nat) (pad_to : Nat) : Nat := (n + pad_to - 1) / pad_to * pad_to

/-- `dims_from_trellis_shape` -/
def dimsFromTrellisShape (shape : List Nat) : Except PyError (Nat × Nat) :=
  match shape with
  | [rows, cols, _] => .ok (rows * TILE, cols * TILE)
  | _ => .error (.exl3Format s!"trellis must be 3-dimensional, got shape {shape}")

/-- Padding adds less than one step, and nothing but whole steps remain. -/
theorem padDim_spec {n pad_to : Nat} (h : 0 < pad_to) :
    pad_to ∣ padDim n pad_to ∧ n ≤ padDim n pad_to ∧ padDim n pad_to < n + pad_to := by
  have hdiv := Nat.div_add_mod (n + pad_to - 1) pad_to
  have hmod := Nat.mod_lt (n + pad_to - 1) h
  refine ⟨Nat.dvd_mul_left _ _, ?_, ?_⟩
  · rw [padDim, Nat.mul_comm]
    omega
  · rw [padDim, Nat.mul_comm]
    omega

/-! ## The block-scaled embedding -/

def BLOCKQ_BLOCK : Nat := 32
def BLOCKQ_BITS : Nat := 4

/-- `check_blockq_hidden` -/
def checkBlockqHidden (hidden block : Nat) : Except PyError Unit :=
  if block = 0 then .error .zeroDivision
  else if hidden % block ≠ 0 then .error (.exl3Format
    s!"hidden size {hidden} is not a multiple of the block-quantized embedding's block size ({block}); rows would share a scale block")
  else if hidden % 2 ≠ 0 then .error (.exl3Format
    s!"hidden size {hidden} is odd; 4-bit values pack two per byte")
  else .ok ()

/-- The shapes of the three stored tensors of a block-scaled embedding. -/
structure BlockqShapes where
  bq_q : List Nat
  bq_s : List Nat
  bq_r : List Nat
  deriving DecidableEq, Repr

/-- `blockq_shapes` -/
def blockqShapes (vocab hidden block : Nat) : Except PyError BlockqShapes := do
  checkBlockqHidden hidden block
  return ⟨[vocab, hidden / 2], [vocab, 2, hidden / block], [vocab, 4]⟩

/-- Whole blocks are even, so the block size alone decides. -/
theorem checkBlockqHidden_ok {hidden : Nat} (h : hidden % BLOCKQ_BLOCK = 0) :
    checkBlockqHidden hidden BLOCKQ_BLOCK = .ok () := by
  have hblock : BLOCKQ_BLOCK ≠ 0 := by decide
  have heven : hidden % 2 = 0 := by
    unfold BLOCKQ_BLOCK at h
    omega
  rw [checkBlockqHidden, if_neg hblock, if_neg (not_not.mpr h), if_neg (not_not.mpr heven)]

/-! ## Tensor-parallel bounds -/

/-- `is_had_aligned` -/
def isHadAligned (n : Nat) : Bool := n % HAD_BLOCK = 0

/-- `check_tp_split` -/
def checkTpSplit (dim_size tp_size : Nat) (what : String) : Except PyError Unit :=
  if tp_size ≤ 1 then .ok ()
  else if dim_size % tp_size ≠ 0 then
    .error (.exl3Format s!"{what}: {dim_size} does not divide evenly across {tp_size} ranks")
  else
    let per_rank := dim_size / tp_size
    if isHadAligned per_rank then .ok ()
    else .error (.exl3Format
      s!"{what}: tensor-parallel shard would be {per_rank} channels wide, which is not a multiple of the EXL3 Hadamard block size ({HAD_BLOCK}). Splitting here would cut a Hadamard block in half and silently produce wrong results.")

/-- `shard_bounds` -/
def shardBounds (dim_size tp_rank tp_size : Nat) (what : String) : Except PyError (Nat × Nat) := do
  checkTpSplit dim_size tp_size what
  if tp_size = 0 then throw .zeroDivision
  let per_rank := dim_size / tp_size
  return (tp_rank * per_rank, (tp_rank + 1) * per_rank)

/-- The loop of `fused_shard_bounds`, with `bounds` and `offset` as it accumulates them. -/
def fusedShardLoop (sizes : List Nat) (tp_rank tp_size : Nat) :
    List Nat → List (Nat × Nat × Nat) → Nat → Except PyError (List (Nat × Nat × Nat))
  | [], bounds, _ => .ok bounds
  | index :: rest, bounds, offset =>
    match sizes[index]? with
    | none => .error (.exl3Format
        s!"fused tensor claims output shard {index}, but the layer has only {sizes.length}")
    | some per_rank =>
      if per_rank % HAD_BLOCK ≠ 0 then .error (.exl3Format
        s!"fused shard {index} is {per_rank} columns wide per rank, not a multiple of the EXL3 Hadamard block size ({HAD_BLOCK}). Cutting it there would split a Hadamard block and silently produce wrong results.")
      else
        let first := offset + tp_rank * per_rank
        fusedShardLoop sizes tp_rank tp_size rest (bounds ++ [(index, first, first + per_rank)])
          (offset + per_rank * tp_size)

/-- `fused_shard_bounds` -/
def fusedShardBounds (output_partition_sizes indices : List Nat) (tp_rank tp_size : Nat) :
    Except PyError (List (Nat × Nat × Nat)) :=
  if output_partition_sizes = [] then .error (.exl3Format
    "a fused checkpoint tensor arrived but this layer's output partition sizes are unknown")
  else fusedShardLoop output_partition_sizes tp_rank tp_size indices [] 0

/-- Which splits `check_tp_split` lets through. -/
theorem checkTpSplit_eq_ok {dim_size tp_size : Nat} {what : String} :
    checkTpSplit dim_size tp_size what = .ok () ↔
      tp_size ≤ 1 ∨ tp_size ∣ dim_size ∧ HAD_BLOCK ∣ dim_size / tp_size := by
  unfold checkTpSplit
  dsimp only
  split_ifs with hsmall hdiv hhad
  · simp [hsmall]
  · simp [hsmall, Nat.dvd_iff_mod_eq_zero, hdiv]
  · simp only [isHadAligned, decide_eq_true_eq] at hhad
    simp [Nat.dvd_iff_mod_eq_zero, hhad, not_not.mp hdiv]
  · simp only [isHadAligned, decide_eq_true_eq] at hhad
    simp [hsmall, Nat.dvd_iff_mod_eq_zero, hhad]

/-- The splits that give a rank its channels: one rank, or equal widths of whole blocks. -/
def Splits (dim_size tp_size : Nat) : Prop :=
  tp_size = 1 ∨ 1 < tp_size ∧ tp_size ∣ dim_size ∧ HAD_BLOCK ∣ dim_size / tp_size

instance (dim_size tp_size : Nat) : Decidable (Splits dim_size tp_size) := by
  unfold Splits
  infer_instance

theorem splits_iff_check {dim_size tp_size : Nat} (what : String) :
    Splits dim_size tp_size ↔ 0 < tp_size ∧ checkTpSplit dim_size tp_size what = .ok () := by
  rw [checkTpSplit_eq_ok, Splits]
  constructor
  · rintro (rfl | ⟨hlt, hsplit⟩)
    · exact ⟨Nat.one_pos, .inl (Nat.le_refl 1)⟩
    · exact ⟨by omega, .inr hsplit⟩
  · rintro ⟨hpos, hone | hsplit⟩
    · exact .inl (by omega)
    · rcases Nat.lt_or_ge 1 tp_size with hlt | hle
      · exact .inr ⟨hlt, hsplit⟩
      · exact .inl (by omega)

theorem Splits.eq_mul {dim_size tp_size : Nat} (h : Splits dim_size tp_size) :
    dim_size = tp_size * (dim_size / tp_size) := by
  rcases h with rfl | ⟨_, hdvd, _⟩
  · rw [Nat.div_one, Nat.one_mul]
  · exact (Nat.mul_div_cancel' hdvd).symm

/-- An accepted split gives every rank `dim_size / tp_size` channels. -/
theorem shardBounds_ok {dim_size tp_size : Nat} {what : String} (h : Splits dim_size tp_size)
    (tp_rank : Nat) : shardBounds dim_size tp_rank tp_size what =
      .ok (tp_rank * (dim_size / tp_size), (tp_rank + 1) * (dim_size / tp_size)) := by
  obtain ⟨hpos, hcheck⟩ := (splits_iff_check what).mp h
  have hne : tp_size ≠ 0 := by omega
  rw [shardBounds, hcheck]
  show (if tp_size = 0 then _ else _) = _
  rw [if_neg hne]
  rfl

/-- A refused split is refused to every rank, with one error. -/
theorem shardBounds_error {dim_size tp_size : Nat} (what : String) (h : ¬Splits dim_size tp_size) :
    ∃ err, ∀ tp_rank, shardBounds dim_size tp_rank tp_size what = .error err := by
  rcases hcheck : checkTpSplit dim_size tp_size what with err | _
  · exact ⟨err, fun tp_rank => by rw [shardBounds, hcheck]; rfl⟩
  · have hzero : tp_size = 0 := by
      by_contra hne
      exact h ((splits_iff_check what).mpr ⟨by omega, hcheck⟩)
    subst hzero
    exact ⟨.zeroDivision, fun tp_rank => by rw [shardBounds, hcheck]; rfl⟩

end Format

end VllmExl3
