/-
# VllmExl3.Embedding.VocabParallel — an embedding split over ranks (`quantization/embedding.py`)

Rank `r` of a vocabulary split owns rows `[r * p, (r + 1) * p)` of the padded vocabulary. It loads the
stored ones among them, pads them with zero rows up to `p`, and looks every id up in what it holds:
its own at their local index, the others at index zero, whose rows are then zeroed. Summed over the
ranks, each id's row comes from its one owner.
-/
import VllmExl3.Embedding.OnLoad
import VllmExl3.Embedding.Trellis

namespace VllmExl3.Embedding

open Format (BLOCKQ_BLOCK BlockqShapes blockqShapes checkBlockqHidden_ok)
open TensorParallel (EXL3Parameter roleOf)

variable {D F ρ : Type}

/-! ## vLLM's side of the lookup -/

/-- `get_masked_input_and_mask`: an id's local index on a rank, and whether the rank owns it. -/
def maskedId (vocab per_partition rank id : Nat) : Nat × Bool :=
  let start := min (rank * per_partition) vocab
  let stop := min ((rank + 1) * per_partition) vocab
  if start ≤ id ∧ id < stop then (id - start, true) else (0, false)

/-- The indices a rank looks up, each with whether it owns the id. One rank looks the ids up as they
are. -/
def rankIds (tp_size vocab per_partition rank : Nat) (ids : List Nat) : List (Nat × Bool) :=
  if tp_size = 1 then ids.map fun id => (id, true)
  else ids.map (maskedId vocab per_partition rank)

section Sum

variable [AddMonoid D]

/-- The sum over the ranks of `count` rows of width `hidden`. -/
def allReduceRows (count hidden : Nat) (outs : List (List (List D))) : List (List D) :=
  tabulate count fun t => tabulate hidden fun j => (outs.map fun rows => (rows.getD t []).getD j 0).sum

/-- `VocabParallelEmbedding.forward`, on flattened ids: every rank's lookup, the rows it does not own
zeroed, and the sum. -/
def vocabForward (tp_size vocab per_partition hidden : Nat)
    (embedding : Nat → List Nat → Except PyError (List (List D))) (ids : List Nat) :
    Except PyError (List (List D)) := do
  let outs ← (List.range tp_size).mapM fun rank => do
    let masked := rankIds tp_size vocab per_partition rank ids
    let rows ← embedding rank (masked.map Prod.fst)
    return List.zipWith (fun owned row => if owned then row else row.map fun _ => 0)
      (masked.map Prod.snd) rows
  return allReduceRows ids.length hidden outs

end Sum

/-! ## A rank's rows -/

/-- `F.pad(t, (0, ..., 0, target - rows))` -/
def VocabTensor.padRows (target : Nat) (zero : ρ) (t : VocabTensor ρ) : VocabTensor ρ where
  tail := t.tail
  rows := t.rows ++ List.replicate (target - t.rows.length) zero

/-- What a rank's parameter holds of a tensor. -/
def ownRows (tp_size per_partition rank : Nat) (t : VocabTensor ρ) : VocabTensor ρ :=
  if tp_size = 1 then t else t.slice (rank * per_partition) (rank * per_partition + per_partition)

theorem blockqWeightLoader_get (name : String) (hrole : roleOf name = .vocab)
    (tp_size per_partition rank : Nat) (t : VocabTensor ρ) :
    (blockqWeightLoader (vocabParameter _ name rank tp_size (some per_partition)) t).shards.get? 0 =
      some (ownRows tp_size per_partition rank t) := by
  have htake : (vocabParameter (VocabTensor ρ) name rank tp_size (some per_partition)).takeRow t
      (some per_partition) rank = ownRows tp_size per_partition rank t := by
    rw [EXL3Parameter.takeRow, ownRows]
    show (if tp_size = 1 then t else TensorParallel.Cut.shardRow (roleOf name) t _ _) = _
    rw [hrole]
    rfl
  show (PyDict.empty.set 0 _).get? 0 = _
  rw [PyDict.get?_set_self]
  exact congrArg some htake

section Rows

variable {tp_size p : Nat} {t : VocabTensor ρ}

theorem rows_of_shape {vocab : Nat} {tail : List Nat} (h : t.shape = vocab :: tail) : t.rows.length = vocab :=
  (List.cons.inj h).1

theorem tail_of_shape {vocab : Nat} {tail : List Nat} (h : t.shape = vocab :: tail) : t.tail = tail :=
  (List.cons.inj h).2

/-- A table of the vocabulary has no more rows than the ranks. -/
theorem rows_le_of_shape {vocab : Nat} {tail : List Nat} (h : t.shape = vocab :: tail)
    (hvocab : vocab ≤ tp_size * p) : t.rows.length ≤ tp_size * p := by
  rw [rows_of_shape h]
  exact hvocab

theorem length_ownRows_le (rank : Nat) (hrows : t.rows.length ≤ tp_size * p) :
    (ownRows tp_size p rank t).rows.length ≤ p := by
  unfold ownRows
  split_ifs with hone
  · rwa [hone, Nat.one_mul] at hrows
  · show (slice _ _ t.rows).length ≤ p
    rw [length_slice]
    omega

theorem length_padRows (rank : Nat) (zero : ρ) (hrows : t.rows.length ≤ tp_size * p) :
    ((ownRows tp_size p rank t).padRows p zero).rows.length = p := by
  have hle := length_ownRows_le rank hrows
  rw [VocabTensor.padRows, List.length_append, List.length_replicate]
  omega

/-- A padded rank's row: the stored row of its place in the vocabulary, or zero past the last one. -/
theorem getElem?_padRows (zero : ρ) {rank : Nat} (hrank : rank < tp_size)
    (hrows : t.rows.length ≤ tp_size * p) {i : Nat}
    (hi : i < p) : ((ownRows tp_size p rank t).padRows p zero).rows[i]? =
      some (t.rows.getD (rank * p + i) zero) := by
  have hlen := length_padRows rank zero hrows
  have hown : ∀ j, (ownRows tp_size p rank t).rows[j]? = if j < p then t.rows[rank * p + j]? else none := by
    intro j
    unfold ownRows
    split_ifs with hone hj hj
    · obtain rfl : rank = 0 := by omega
      rw [Nat.zero_mul, Nat.zero_add]
    · rw [hone, Nat.one_mul] at hrows
      exact List.getElem?_eq_none (by omega)
    · show (slice _ _ t.rows)[j]? = _
      rw [slice, List.getElem?_drop, List.getElem?_take_of_lt (by omega)]
    · show (slice _ _ t.rows)[j]? = _
      refine List.getElem?_eq_none ?_
      rw [length_slice]
      omega
  rw [VocabTensor.padRows, List.getD_eq_getElem?_getD, List.getElem?_append]
  split_ifs with hstored
  · rw [hown, if_pos hi]
    have hsome := List.getElem?_eq_getElem hstored
    rw [hown, if_pos hi] at hsome
    rw [hsome]
    rfl
  · have hnone : (ownRows tp_size p rank t).rows[i]? = none :=
      List.getElem?_eq_none (Nat.le_of_not_lt hstored)
    rw [hown, if_pos hi] at hnone
    have hle := length_ownRows_le rank hrows
    rw [hnone, List.getElem?_replicate, if_pos (by omega)]
    rfl

end Rows

/-! ## The sum over the ranks -/

/-- A sum with one term that is not zero. -/
theorem sum_map_range_single [AddMonoid D] {n r : Nat} {f : Nat → D} (hr : r < n)
    (hzero : ∀ s < n, s ≠ r → f s = 0) : ((List.range n).map f).sum = f r := by
  induction n with
  | zero => exact absurd hr (Nat.not_lt_zero r)
  | succ n ih =>
    rw [List.range_succ, List.map_append, List.sum_append, List.map_singleton, List.sum_singleton]
    rcases Nat.lt_succ_iff_lt_or_eq.mp hr with hlt | rfl
    · rw [ih hlt fun s hs => hzero s (by omega), hzero n (Nat.lt_succ_self n) (by omega), add_zero]
    · have hrest : ((List.range r).map f).sum = 0 := by
        refine List.sum_eq_zero fun x hx => ?_
        obtain ⟨s, hs, rfl⟩ := List.mem_map.mp hx
        have hs' := List.mem_range.mp hs
        exact hzero s (by omega) (by omega)
      rw [hrest, zero_add]

section Forward

variable {tp_size vocab p hidden : Nat} {ids : List Nat}

/-- Where there is an id to look up, every rank has rows. -/
theorem per_partition_pos {id : Nat} (hvocab : vocab ≤ tp_size * p) (hid : id < vocab) : 0 < p := by
  rcases Nat.eq_zero_or_pos p with rfl | hp
  · rw [Nat.mul_zero] at hvocab
    omega
  · exact hp

/-- What a rank looks an id up as: at its local index on its owner, at index zero on the others. -/
theorem rankIds_eq (hvocab : vocab ≤ tp_size * p) (hids : ∀ id ∈ ids, id < vocab) {rank : Nat}
    (hrank : rank < tp_size) : rankIds tp_size vocab p rank ids =
      ids.map fun id => if rank = id / p then (id - rank * p, true) else (0, false) := by
  unfold rankIds
  split_ifs with hone
  · -- one rank owns every id and masks none
    refine List.map_congr_left fun id hid => ?_
    have hlt := hids id hid
    rw [hone, Nat.one_mul] at hvocab
    obtain rfl : rank = 0 := by omega
    rw [Nat.div_eq_of_lt (by omega), if_pos rfl, Nat.zero_mul, Nat.sub_zero]
  · refine List.map_congr_left fun id hid => ?_
    have hlt := hids id hid
    have hp := per_partition_pos hvocab hlt
    have howner : rank = id / p ↔ rank * p ≤ id ∧ id < (rank + 1) * p := by
      rw [eq_comm, Nat.div_eq_iff hp, Nat.succ_mul]
      omega
    rw [maskedId]
    by_cases hmine : rank = id / p
    · have hspan := howner.mp hmine
      rw [if_pos (by omega), if_pos hmine]
      congr 1
      omega
    · have hspan := fun h => hmine (howner.mpr h)
      rw [if_neg (by omega), if_neg hmine]

theorem length_rankIds (hvocab : vocab ≤ tp_size * p) (hids : ∀ id ∈ ids, id < vocab) {rank : Nat}
    (hrank : rank < tp_size) : ((rankIds tp_size vocab p rank ids).map Prod.fst).length = ids.length := by
  rw [rankIds_eq hvocab hids hrank, List.length_map, List.length_map]

/-- No rank looks past its padded rows. -/
theorem rankIds_lt (hvocab : vocab ≤ tp_size * p) (hids : ∀ id ∈ ids, id < vocab) {rank : Nat}
    (hrank : rank < tp_size) : ∀ i ∈ (rankIds tp_size vocab p rank ids).map Prod.fst, i < p := by
  intro i hi
  rw [rankIds_eq hvocab hids hrank, List.map_map] at hi
  obtain ⟨id, hid, rfl⟩ := List.mem_map.mp hi
  have hlt := hids id hid
  have hp := per_partition_pos hvocab hlt
  rw [Function.comp_apply]
  split_ifs with hmine
  · have hmod := Nat.div_add_mod' id p
    have hlow := Nat.mod_lt id hp
    rw [hmine]
    show id - id / p * p < p
    omega
  · exact hp

variable [AddMonoid D] {embedding : Nat → List Nat → Except PyError (List (List D))}

/-- Where every rank reads its rows of one table, the ranks' sum reads the table. -/
theorem vocabForward_ok (hvocab : vocab ≤ tp_size * p) (hids : ∀ id ∈ ids, id < vocab)
    {row : Nat → List D} (hrow : ∀ n, (row n).length = hidden)
    (hemb : ∀ rank < tp_size, ∀ is : List Nat, is.length = ids.length → (∀ i ∈ is, i < p) →
      embedding rank is = .ok (is.map fun i => row (rank * p + i))) :
    vocabForward tp_size vocab p hidden embedding ids = .ok (ids.map row) := by
  -- what a rank adds: the rows of the ids it owns, zeros for the others
  have hrank : ∀ rank ∈ List.range tp_size, (do
      let masked := rankIds tp_size vocab p rank ids
      let rows ← embedding rank (masked.map Prod.fst)
      return List.zipWith (fun owned row => if owned then row else row.map fun _ => 0)
        (masked.map Prod.snd) rows : Except PyError (List (List D))) =
      .ok (ids.map fun id => if rank = id / p then row id else List.replicate hidden 0) := by
    intro rank hmem
    have hlt := List.mem_range.mp hmem
    dsimp only
    rw [hemb rank hlt _ (length_rankIds hvocab hids hlt) (rankIds_lt hvocab hids hlt)]
    refine congrArg Except.ok ?_
    rw [rankIds_eq hvocab hids hlt]
    simp only [List.map_map, zipWith_map_map]
    refine List.map_congr_left fun id _ => ?_
    simp only [Function.comp_apply]
    split_ifs with hmine hfalse htrue
    · have hsplit := Nat.div_add_mod' id p
      rw [hmine, Nat.add_sub_cancel' (by omega)]
    · exact absurd rfl hfalse
    · cases htrue
    · rw [List.map_const', hrow]
  rw [vocabForward, mapM_ok hrank]
  refine congrArg Except.ok ?_
  rw [allReduceRows]
  refine List.ext_getElem (by rw [length_tabulate, List.length_map]) fun t ht ht' => ?_
  have htids : t < ids.length := by rwa [length_tabulate] at ht
  have hid := hids _ (List.getElem_mem htids)
  have howner : ids[t] / p < tp_size := by
    rw [Nat.div_lt_iff_lt_mul (per_partition_pos hvocab hid)]
    omega
  rw [getElem_tabulate, List.getElem_map, ← tabulate_getD 0 (hrow ids[t])]
  -- an id has one owner, so one term of the sum is not zero
  refine tabulate_congr fun j _ => ?_
  rw [List.map_map, sum_map_range_single howner fun s _ hne => ?_]
  · simp [List.getD_eq_getElem?_getD, htids]
  · simp [List.getD_eq_getElem?_getD, htids, hne]

/-- Where every rank raises the same, so does the whole. -/
theorem vocabForward_error {err : PyError} (htp : 0 < tp_size) (hvocab : vocab ≤ tp_size * p)
    (hids : ∀ id ∈ ids, id < vocab)
    (hemb : ∀ rank < tp_size, ∀ is : List Nat, is.length = ids.length → (∀ i ∈ is, i < p) →
      embedding rank is = .error err) :
    vocabForward tp_size vocab p hidden embedding ids = .error err := by
  have hne : List.range tp_size ≠ [] := by
    rw [ne_eq, List.range_eq_nil]
    omega
  rw [vocabForward, mapM_error hne fun rank hmem => ?_]
  · rfl
  · have hlt := List.mem_range.mp hmem
    dsimp only
    rw [hemb rank hlt _ (length_rankIds hvocab hids hlt) (rankIds_lt hvocab hids hlt)]
    rfl

end Forward

/-! ## The block-scaled method -/

/-- A tensor a parameter has been given, or the error that names it. -/
def takeStored {T : Type} (layer kind name : String) (param : EXL3Parameter T) : Except PyError T :=
  match param.shards.get? 0 with
  | some t => .ok t
  | none => .error (.exl3Format s!"{layer}: no '{name}' tensor was loaded for the {kind} embedding")

/-- `blockq_hidden_from_shape` -/
def blockqHiddenFromShape (shape : List Nat) : Except PyError Nat :=
  match shape with
  | [_, half] => .ok (half * 2)
  | _ => .error (.exl3Format s!"bq_q must be 2-dimensional, got shape {shape}")

/-- The shape check of one stored tensor. -/
def checkBlockqShape (name : String) (shape want : List Nat) : Except PyError Unit :=
  if shape ≠ want then .error (.exl3Format
    s!"block-quantized embedding tensor '{name}' has shape {shape}, expected {want}")
  else .ok ()

/-- `EXL3BlockQEmbeddingMethod.process_weights_after_loading`; `layer` is the module's prefix. -/
def processBlockq (o : Fp32 F) (layer : String) (params : Layer D F)
    (exl3_hidden_size num_embeddings_per_partition : Nat) : Except PyError (Encoded F) := do
  let bq_q ← takeStored layer "block-quantized" "bq_q" params.bq_q
  let bq_s ← takeStored layer "block-quantized" "bq_s" params.bq_s
  let bq_r ← takeStored layer "block-quantized" "bq_r" params.bq_r
  let hidden ← blockqHiddenFromShape bq_q.shape
  if hidden ≠ exl3_hidden_size then throw (.exl3Format
    s!"block-quantized embedding stores hidden size {hidden}, but the model's is {exl3_hidden_size}")
  let rows := bq_q.rows.length
  let want ← blockqShapes rows hidden BLOCKQ_BLOCK
  checkBlockqShape "bq_q" bq_q.shape want.bq_q
  checkBlockqShape "bq_s" bq_s.shape want.bq_s
  checkBlockqShape "bq_r" bq_r.shape want.bq_r
  let target := num_embeddings_per_partition
  if rows > target then throw (.exl3Format
    s!"block-quantized embedding has {rows} rows but vLLM allocated only {target}")
  let zeros := List.replicate (hidden / BLOCKQ_BLOCK) (0 : UInt8)
  return {
    bq_q := bq_q.padRows target (List.replicate (hidden / 2) 0)
    bq_s := bq_s.padRows target (zeros, zeros)
    bq_r := bq_r.padRows target (o.ofNat 0, o.ofNat 0, o.ofNat 0, o.ofNat 0) }

/-- A stored block-scaled table of a vocabulary, with the shapes and the rows its format asks for. -/
structure BlockqTable (F : Type) (vocab hidden : Nat) where
  stored : Encoded F
  whole_blocks : hidden % BLOCKQ_BLOCK = 0
  q_shape : stored.bq_q.shape = [vocab, hidden / 2]
  s_shape : stored.bq_s.shape = [vocab, 2, hidden / BLOCKQ_BLOCK]
  r_shape : stored.bq_r.shape = [vocab, 4]
  q_rows : ∀ row ∈ stored.bq_q.rows, row.length = hidden / 2
  s_rows : ∀ row ∈ stored.bq_s.rows, row.1.length = hidden / BLOCKQ_BLOCK ∧
    row.2.length = hidden / BLOCKQ_BLOCK

/-- The lookup of one rank that loads its rows of a stored table. -/
def blockqOnRank (o : Fp32 F) (out_dtype : F → D) (layer : String) (tp_size per_partition hidden : Nat)
    (stored : Encoded F) (rank : Nat) (input : List Nat) : Except PyError (List (List D)) := do
  let params := (createWeights D F rank tp_size (some per_partition)).loadStored stored
  let e ← processBlockq o layer params hidden per_partition
  gather o out_dtype input e

section Blockq

variable {o : Fp32 F} {out_dtype : F → D} {tp_size vocab p hidden : Nat}

/-- A zero row decodes to the zero vector. -/
theorem decodeRow_zeros [AddMonoid D] (ho : o.ZeroLaws) (hout : out_dtype (o.ofNat 0) = 0) (nblk : Nat) :
    decodeRow o out_dtype BLOCKQ_BLOCK (List.replicate (BLOCKQ_BLOCK * nblk / 2) 0)
      (List.replicate nblk 0, List.replicate nblk 0) (o.ofNat 0, o.ofNat 0, o.ofNat 0, o.ofNat 0) =
        List.replicate (BLOCKQ_BLOCK * nblk) 0 := by
  have hq : 2 * (List.replicate (BLOCKQ_BLOCK * nblk / 2) (0 : UInt8)).length = nblk * BLOCKQ_BLOCK := by
    rw [List.length_replicate, BLOCKQ_BLOCK]
    omega
  have hs : (List.replicate nblk (0 : UInt8)).length = nblk ∧
      (List.replicate nblk (0 : UInt8)).length = nblk := ⟨List.length_replicate, List.length_replicate⟩
  -- scales and minimums come back as zero, so a level's value is zero whatever the level
  have hvalue : ∀ b, (affineRow o (List.replicate nblk 0) (o.ofNat 0) (o.ofNat 0)).getD b (o.ofNat 0) =
      o.ofNat 0 := by
    intro b
    have hzero : o.add (o.mul (o.ofNat (0 : UInt8).toNat) (o.ofNat 0)) (o.ofNat 0) = o.ofNat 0 := by
      rw [ho.mul_zero, ho.add_zero]
    rw [affineRow, List.map_replicate, hzero, List.getD_eq_getElem?_getD, List.getElem?_replicate]
    split_ifs <;> rfl
  refine List.eq_replicate_iff.mpr ⟨?_, fun x hx => ?_⟩
  · rw [length_decodeRow (by decide) hq hs, Nat.mul_comm]
  · rw [decodeRow_eq (o.ofNat 0) (by decide) hq hs] at hx
    obtain ⟨vals, hvals, hmem⟩ := List.mem_flatten.mp hx
    obtain ⟨b, _, rfl⟩ := List.mem_map.mp hvals
    obtain ⟨c, _, rfl⟩ := List.mem_map.mp hmem
    rw [hvalue, ho.mul_zero, ho.add_zero, hout]

/-- What a rank holds of a stored table. -/
def blockqRank (o : Fp32 F) (tp_size per_partition hidden : Nat) (stored : Encoded F) (rank : Nat) :
    Encoded F :=
  let zeros := List.replicate (hidden / BLOCKQ_BLOCK) (0 : UInt8)
  { bq_q := (ownRows tp_size per_partition rank stored.bq_q).padRows per_partition
      (List.replicate (hidden / 2) 0)
    bq_s := (ownRows tp_size per_partition rank stored.bq_s).padRows per_partition (zeros, zeros)
    bq_r := (ownRows tp_size per_partition rank stored.bq_r).padRows per_partition
      (o.ofNat 0, o.ofNat 0, o.ofNat 0, o.ofNat 0) }

theorem ownRows_shape (tp_size p rank : Nat) {t : VocabTensor ρ} {tail : List Nat}
    (h : t.shape = vocab :: tail) : (ownRows tp_size p rank t).shape =
      (if tp_size = 1 then vocab else min (rank * p + p) vocab - rank * p) :: tail := by
  unfold ownRows
  split_ifs
  · exact h
  · rw [← rows_of_shape h, ← tail_of_shape h]
    exact congrArg (· :: t.tail) (length_slice _ _ _)

theorem ownRows_tail (tp_size p rank : Nat) {t : VocabTensor ρ} {tail : List Nat}
    (h : t.shape = vocab :: tail) : (ownRows tp_size p rank t).tail = tail :=
  tail_of_shape (ownRows_shape tp_size p rank h)

theorem takeStored_loaded (layer kind : String) {name : String} (hrole : roleOf name = .vocab)
    (tp_size p rank : Nat) (t : VocabTensor ρ) :
    takeStored layer kind name (blockqWeightLoader (vocabParameter _ name rank tp_size (some p)) t) =
      .ok (ownRows tp_size p rank t) := by
  rw [takeStored, blockqWeightLoader_get name hrole]

/-- A rank accepts its rows of a stored table, and pads them. -/
theorem processBlockq_ok (layer : String) (table : BlockqTable F vocab hidden)
    (hvocab : vocab ≤ tp_size * p) (rank : Nat) :
    processBlockq o layer ((createWeights D F rank tp_size (some p)).loadStored table.stored) hidden p =
      .ok (blockqRank o tp_size p hidden table.stored rank) := by
  have hq : takeStored layer "block-quantized" "bq_q"
      ((createWeights D F rank tp_size (some p)).loadStored table.stored).bq_q = .ok _ :=
    takeStored_loaded layer _ (by decide) tp_size p rank table.stored.bq_q
  have hs : takeStored layer "block-quantized" "bq_s"
      ((createWeights D F rank tp_size (some p)).loadStored table.stored).bq_s = .ok _ :=
    takeStored_loaded layer _ (by decide) tp_size p rank table.stored.bq_s
  have hr : takeStored layer "block-quantized" "bq_r"
      ((createWeights D F rank tp_size (some p)).loadStored table.stored).bq_r = .ok _ :=
    takeStored_loaded layer _ (by decide) tp_size p rank table.stored.bq_r
  have hqshape := ownRows_shape tp_size p rank table.q_shape
  have hsshape := ownRows_shape tp_size p rank table.s_shape
  have hrshape := ownRows_shape tp_size p rank table.r_shape
  have hqlen := rows_of_shape hqshape
  have hle := length_ownRows_le rank (rows_le_of_shape table.q_shape hvocab)
  have heven : hidden / 2 * 2 = hidden := by
    have := table.whole_blocks
    unfold BLOCKQ_BLOCK at this
    omega
  have hwant : ∀ rows, blockqShapes rows hidden BLOCKQ_BLOCK =
      .ok ⟨[rows, hidden / 2], [rows, 2, hidden / BLOCKQ_BLOCK], [rows, 4]⟩ := by
    intro rows
    rw [blockqShapes, checkBlockqHidden_ok table.whole_blocks]
    rfl
  -- the shapes are those of the rank's own number of rows, so every check passes
  simp only [processBlockq, hq, hs, hr, hqshape, hsshape, hrshape, blockqHiddenFromShape, heven, hwant,
    checkBlockqShape, bind, Except.bind, ne_eq, not_true_eq_false, if_false, pure, Except.pure, hqlen]
  rw [if_neg (by omega)]
  rfl

/-- A lookup of rows a table has. -/
theorem gather_eq {e : Encoded F} {ids : List Nat} {q : Nat → List UInt8}
    {s : Nat → List UInt8 × List UInt8} {r : Nat → F × F × F × F} (hhidden : hidden % BLOCKQ_BLOCK = 0)
    (hqtail : e.bq_q.tail = [hidden / 2]) (hstail : e.bq_s.tail = [2, hidden / BLOCKQ_BLOCK])
    (hq : ∀ id ∈ ids, e.bq_q.rows[id]? = some (q id)) (hs : ∀ id ∈ ids, e.bq_s.rows[id]? = some (s id))
    (hr : ∀ id ∈ ids, e.bq_r.rows[id]? = some (r id)) :
    gather o out_dtype ids e = if hidden / BLOCKQ_BLOCK = 0 then .error .zeroDivision else
      .ok (ids.map fun id => decodeRow o out_dtype BLOCKQ_BLOCK (q id) (s id) (r id)) := by
  have hgather : gather o out_dtype ids e =
      decode o out_dtype ⟨⟨e.bq_q.tail, ids.map q⟩, ⟨e.bq_s.tail, ids.map s⟩, ⟨e.bq_r.tail, ids.map r⟩⟩ := by
    rw [gather, VocabTensor.indexSelect_ok hq]
    show e.bq_s.indexSelect ids >>= _ = _
    rw [VocabTensor.indexSelect_ok hs]
    show e.bq_r.indexSelect ids >>= _ = _
    rw [VocabTensor.indexSelect_ok hr]
    rfl
  rw [hgather, decode_eq o hhidden (by rw [hqtail]; rfl) (by rw [hstail]; rfl)]
  dsimp only
  rw [zipWith3_map_map_map]

/-- The row of a stored table at a place of the padded vocabulary, decoded. -/
def blockqRow (o : Fp32 F) (out_dtype : F → D) (table : BlockqTable F vocab hidden) (n : Nat) : List D :=
  let zeros := List.replicate (hidden / BLOCKQ_BLOCK) (0 : UInt8)
  decodeRow o out_dtype BLOCKQ_BLOCK (table.stored.bq_q.rows.getD n (List.replicate (hidden / 2) 0))
    (table.stored.bq_s.rows.getD n (zeros, zeros))
    (table.stored.bq_r.rows.getD n (o.ofNat 0, o.ofNat 0, o.ofNat 0, o.ofNat 0))

theorem length_blockqRow (table : BlockqTable F vocab hidden) (n : Nat) :
    (blockqRow o out_dtype table n).length = hidden := by
  have hq : (table.stored.bq_q.rows.getD n (List.replicate (hidden / 2) 0)).length = hidden / 2 :=
    getD_mem_or (P := fun row : List UInt8 => row.length = hidden / 2) n List.length_replicate table.q_rows
  have hs := getD_mem_or (d := (List.replicate (hidden / BLOCKQ_BLOCK) (0 : UInt8),
    List.replicate (hidden / BLOCKQ_BLOCK) (0 : UInt8))) n
      ⟨List.length_replicate, List.length_replicate⟩ table.s_rows
  have hblocks : hidden / BLOCKQ_BLOCK * BLOCKQ_BLOCK = hidden :=
    Nat.div_mul_cancel (Nat.dvd_of_mod_eq_zero table.whole_blocks)
  have heven : 2 * (hidden / 2) = hidden / BLOCKQ_BLOCK * BLOCKQ_BLOCK := by
    unfold BLOCKQ_BLOCK at hblocks ⊢
    omega
  rw [blockqRow, length_decodeRow (by decide) (by rw [hq, heven]) hs, hblocks]

/-- Past the last stored row the table is zero. -/
theorem blockqRow_past [AddMonoid D] (ho : o.ZeroLaws) (hout : out_dtype (o.ofNat 0) = 0)
    (table : BlockqTable F vocab hidden) {n : Nat} (hn : vocab ≤ n) :
    blockqRow o out_dtype table n = List.replicate hidden 0 := by
  have hlen : table.stored.bq_q.rows.length = vocab ∧ table.stored.bq_s.rows.length = vocab ∧
      table.stored.bq_r.rows.length = vocab :=
    ⟨rows_of_shape table.q_shape, rows_of_shape table.s_shape, rows_of_shape table.r_shape⟩
  obtain ⟨nblk, hnblk⟩ := Nat.dvd_of_mod_eq_zero table.whole_blocks
  rw [blockqRow, List.getD_eq_default _ _ (by omega), List.getD_eq_default _ _ (by omega),
    List.getD_eq_default _ _ (by omega), hnblk, Nat.mul_div_cancel_left _ (by decide)]
  exact decodeRow_zeros ho hout nblk

/-- What a rank looks up: the rows of its span of the padded vocabulary. -/
theorem gather_blockqRank (table : BlockqTable F vocab hidden) (hvocab : vocab ≤ tp_size * p)
    {rank : Nat} (hrank : rank < tp_size) {is : List Nat} (his : ∀ i ∈ is, i < p) :
    gather o out_dtype is (blockqRank o tp_size p hidden table.stored rank) =
      if hidden / BLOCKQ_BLOCK = 0 then .error .zeroDivision else
        .ok (is.map fun i => blockqRow o out_dtype table (rank * p + i)) := by
  apply gather_eq table.whole_blocks
  · exact ownRows_tail tp_size p rank table.q_shape
  · exact ownRows_tail tp_size p rank table.s_shape
  · exact fun i hi => getElem?_padRows _ hrank (rows_le_of_shape table.q_shape hvocab) (his i hi)
  · exact fun i hi => getElem?_padRows _ hrank (rows_le_of_shape table.s_shape hvocab) (his i hi)
  · exact fun i hi => getElem?_padRows _ hrank (rows_le_of_shape table.r_shape hvocab) (his i hi)

/-- What the whole table gives. -/
theorem gather_stored (table : BlockqTable F vocab hidden) {ids : List Nat}
    (hids : ∀ id ∈ ids, id < vocab) : gather o out_dtype ids table.stored =
      if hidden / BLOCKQ_BLOCK = 0 then .error .zeroDivision else
        .ok (ids.map (blockqRow o out_dtype table)) := by
  have hread : ∀ {T : Type} {t : VocabTensor T} {tail : List Nat} (zero : T), t.shape = vocab :: tail →
      ∀ id ∈ ids, t.rows[id]? = some (t.rows.getD id zero) := by
    intro T t tail zero hshape id hid
    have hlt : id < t.rows.length := by
      rw [rows_of_shape hshape]
      exact hids id hid
    rw [List.getElem?_eq_getElem hlt, List.getD_eq_getElem _ _ hlt]
  exact gather_eq table.whole_blocks (tail_of_shape table.q_shape) (tail_of_shape table.s_shape)
    (hread _ table.q_shape) (hread _ table.s_shape) (hread _ table.r_shape)

/-- The ranks' lookups of a block-scaled table sum to the unsplit one. -/
theorem blockq_vocabForward [AddMonoid D] (layer : String) (table : BlockqTable F vocab hidden) {ids : List Nat}
    (htp : 0 < tp_size) (hvocab : vocab ≤ tp_size * p) (hids : ∀ id ∈ ids, id < vocab) :
    vocabForward tp_size vocab p hidden (blockqOnRank o out_dtype layer tp_size p hidden table.stored)
        ids = gather o out_dtype ids table.stored := by
  have hrank : ∀ rank < tp_size, ∀ is : List Nat, is.length = ids.length → (∀ i ∈ is, i < p) →
      blockqOnRank o out_dtype layer tp_size p hidden table.stored rank is =
        if hidden / BLOCKQ_BLOCK = 0 then .error .zeroDivision else
          .ok (is.map fun i => blockqRow o out_dtype table (rank * p + i)) := by
    intro rank hlt is _ his
    rw [blockqOnRank, processBlockq_ok layer table hvocab rank]
    exact gather_blockqRank table hvocab hlt his
  rw [gather_stored table hids]
  split_ifs at hrank ⊢ with hzero
  · exact vocabForward_error htp hvocab hids hrank
  · exact vocabForward_ok hvocab hids (length_blockqRow table) hrank

end Blockq

/-! ## The trellis method -/

open Trellis (Fp16 GROUP_DIM depthFromShape codebook exactFp16)

/-- The parameters `EXL3TrellisEmbeddingMethod.create_weights` registers. -/
structure TrellisLayer (F : Type) where
  et_table : EXL3Parameter (VocabTensor (List UInt16))
  et_signs : EXL3Parameter (Dense F)

/-- `EXL3TrellisEmbeddingMethod.create_weights` -/
def createTrellisWeights (F : Type) (tp_rank tp_size : Nat) (rows_per_rank : Option Nat) :
    TrellisLayer F where
  et_table := vocabParameter _ "et_table" tp_rank tp_size rows_per_rank
  et_signs := vocabParameter _ "et_signs" tp_rank tp_size none

/-- `_replicated_weight_loader` -/
def replicatedWeightLoader {T : Type} (param : EXL3Parameter T) (loaded_weight : T) :
    EXL3Parameter T :=
  param.store loaded_weight 0

/-- What a checkpoint that stores the two tensors leaves on the layer. -/
def TrellisLayer.loadStored (layer : TrellisLayer F) (table : VocabTensor (List UInt16))
    (signs : Dense F) : TrellisLayer F where
  et_table := blockqWeightLoader layer.et_table table
  et_signs := replicatedWeightLoader layer.et_signs signs

/-- The tensors a processed layer serves from. -/
structure TrellisServed (F : Type) where
  et_table : VocabTensor (List UInt16)
  et_signs : Dense F
  et_book : List F

/-- The rings a row of a hidden size is split into. -/
def ringGroups (hidden : Nat) : Nat := (hidden + GROUP_DIM - 1) / GROUP_DIM

/-- `EXL3TrellisEmbeddingMethod.process_weights_after_loading` -/
def processTrellis (o : Fp32 F) (h : Fp16 F) (layer : String) (params : TrellisLayer F)
    (exl3_hidden_size num_embeddings_per_partition : Nat) : Except PyError (TrellisServed F) := do
  let table ← takeStored layer "trellis" "et_table" params.et_table
  let signs ← takeStored layer "trellis" "et_signs" params.et_signs
  let hidden := exl3_hidden_size
  let groups := ringGroups hidden
  let shape := [signs.rows.length, signs.hidden]
  let want := [groups, GROUP_DIM]
  if shape ≠ want then throw (.exl3Format
    s!"trellis embedding signs have shape {shape}, but a hidden size of {hidden} needs {want}")
  let row_words := table.tail.headD 0
  let _ ← depthFromShape row_words groups
  let target := num_embeddings_per_partition
  let rows := table.rows.length
  if rows > target then throw (.exl3Format
    s!"trellis embedding has {rows} rows but vLLM allocated only {target}")
  return ⟨table.padRows target (List.replicate row_words 0), signs, codebook o h⟩

/-- The lookup of one rank that loads its rows of a stored trellis table. -/
def trellisOnRank (o : Fp32 F) (h : Fp16 F) (out_dtype : F → D) (layer : String)
    (tp_size per_partition hidden : Nat) (table : VocabTensor (List UInt16)) (signs : Dense F)
    (rank : Nat) (input : List Nat) : Except PyError (List (List D)) := do
  let params := (createTrellisWeights F rank tp_size (some per_partition)).loadStored table signs
  let served ← processTrellis o h layer params hidden per_partition
  Trellis.gather o h out_dtype input served.et_table served.et_signs served.et_book hidden

/-- A stored trellis table of a vocabulary, of a shape the format recognises. -/
structure TrellisTable (F : Type) (vocab hidden : Nat) where
  table : VocabTensor (List UInt16)
  signs : Dense F
  row_words : Nat
  k : Nat
  table_shape : table.shape = [vocab, row_words]
  signs_shape : [signs.rows.length, signs.hidden] = [ringGroups hidden, GROUP_DIM]
  depth : depthFromShape row_words (ringGroups hidden) = .ok k

section Trellis

variable {o : Fp32 F} {h : Fp16 F} {out_dtype : F → D} {tp_size vocab p hidden : Nat}

/-- What a rank holds of a stored table. -/
def trellisRank (o : Fp32 F) (h : Fp16 F) (tp_size per_partition : Nat)
    (stored : TrellisTable F vocab hidden) (rank : Nat) : TrellisServed F where
  et_table := (ownRows tp_size per_partition rank stored.table).padRows per_partition
    (List.replicate stored.row_words 0)
  et_signs := stored.signs
  et_book := codebook o h

/-- The row of a stored table at a place of the padded vocabulary, decoded. -/
def trellisRow (o : Fp32 F) (h : Fp16 F) (out_dtype : F → D) (stored : TrellisTable F vocab hidden)
    (n : Nat) : List D :=
  Trellis.decodeRow o h out_dtype stored.signs (codebook o h) hidden stored.k
    (stored.row_words / stored.signs.rows.length)
    (stored.table.rows.getD n (List.replicate stored.row_words 0))

theorem processTrellis_ok (layer : String) (stored : TrellisTable F vocab hidden)
    (hvocab : vocab ≤ tp_size * p) (rank : Nat) :
    processTrellis o h layer ((createTrellisWeights F rank tp_size (some p)).loadStored stored.table
      stored.signs) hidden p = .ok (trellisRank o h tp_size p stored rank) := by
  have htable : takeStored layer "trellis" "et_table" ((createTrellisWeights F rank tp_size
      (some p)).loadStored stored.table stored.signs).et_table = .ok _ :=
    takeStored_loaded layer _ (by decide) tp_size p rank stored.table
  have hsigns : takeStored layer "trellis" "et_signs" ((createTrellisWeights F rank tp_size
      (some p)).loadStored stored.table stored.signs).et_signs = .ok stored.signs := rfl
  have hshape := ownRows_shape tp_size p rank stored.table_shape
  have htail := tail_of_shape hshape
  have hle := length_ownRows_le rank (rows_le_of_shape stored.table_shape hvocab)
  simp only [processTrellis, htable, hsigns, htail, List.headD_cons, stored.signs_shape, stored.depth, bind,
    Except.bind, ne_eq, not_true_eq_false, if_false, pure, Except.pure]
  rw [if_neg (by omega)]
  rfl

theorem groups_cover (hidden : Nat) : hidden ≤ ringGroups hidden * GROUP_DIM := by
  unfold ringGroups GROUP_DIM
  omega

theorem length_trellisRow (stored : TrellisTable F vocab hidden) (n : Nat) :
    (trellisRow o h out_dtype stored n).length = hidden := by
  obtain ⟨hgroups, hdim⟩ := List.cons.inj stored.signs_shape
  refine Trellis.length_decodeRow (List.cons.inj hdim).1 ?_ _
  rw [hgroups]
  exact groups_cover hidden

/-- Past the last stored row the table is zero. -/
theorem trellisRow_past [AddMonoid D] (ho : o.ZeroLaws) (hbits : h.ofBits 0 = o.ofNat 0)
    (hhalf : h.half (o.ofNat 0) = o.ofNat 0) (hout : out_dtype (o.ofNat 0) = 0)
    (stored : TrellisTable F vocab hidden) {n : Nat} (hn : vocab ≤ n) :
    trellisRow o h out_dtype stored n = List.replicate hidden 0 := by
  obtain ⟨hgroups, hdim⟩ := List.cons.inj stored.signs_shape
  have hlen := rows_of_shape stored.table_shape
  rw [trellisRow, List.getD_eq_default _ _ (by omega)]
  refine Trellis.decodeRow_zeros ho hbits hhalf hout (List.cons.inj hdim).1 ?_ _
  rw [hgroups]
  exact groups_cover hidden

/-- A lookup of rows a table has; the view of no rows is refused. -/
theorem trellis_gather_eq (stored : TrellisTable F vocab hidden) {table : VocabTensor (List UInt16)}
    {ids : List Nat} {row : Nat → List UInt16} (htail : table.tail = [stored.row_words])
    (hrow : ∀ id ∈ ids, table.rows[id]? = some (row id)) :
    Trellis.gather o h out_dtype ids table stored.signs (codebook o h) hidden =
      if ids = [] then .error (.runtime "cannot reshape tensor of 0 elements into shape [0, -1]") else
        .ok (ids.map fun id => Trellis.decodeRow o h out_dtype stored.signs (codebook o h) hidden stored.k
          (stored.row_words / stored.signs.rows.length) (row id)) := by
  have hgroups := (List.cons.inj stored.signs_shape).1
  have hdepth : depthFromShape stored.row_words stored.signs.rows.length = .ok stored.k := by
    rw [hgroups]
    exact stored.depth
  rw [Trellis.gather, VocabTensor.indexSelect_ok hrow]
  show Trellis.decode o h out_dtype ⟨table.tail, ids.map row⟩ _ _ _ = _
  rw [htail, Trellis.decode]
  simp only [List.headD_cons, hdepth, bind, Except.bind, List.map_eq_nil_iff, List.map_map]
  split_ifs <;> rfl

/-- The ranks' lookups of a trellis table sum to the unsplit one. -/
theorem trellis_vocabForward [AddMonoid D] (layer : String) (stored : TrellisTable F vocab hidden)
    {ids : List Nat} (htp : 0 < tp_size) (hvocab : vocab ≤ tp_size * p)
    (hids : ∀ id ∈ ids, id < vocab) :
    vocabForward tp_size vocab p hidden
        (trellisOnRank o h out_dtype layer tp_size p hidden stored.table stored.signs) ids =
      Trellis.gather o h out_dtype ids stored.table stored.signs (codebook o h) hidden := by
  have hlen := rows_of_shape stored.table_shape
  have hwhole : Trellis.gather o h out_dtype ids stored.table stored.signs (codebook o h) hidden =
      if ids = [] then .error (.runtime "cannot reshape tensor of 0 elements into shape [0, -1]") else
        .ok (ids.map (trellisRow o h out_dtype stored)) := by
    refine trellis_gather_eq stored (tail_of_shape stored.table_shape) fun id hid => ?_
    have hlt : id < stored.table.rows.length := by
      rw [hlen]
      exact hids id hid
    rw [List.getElem?_eq_getElem hlt, List.getD_eq_getElem _ _ hlt]
  have hrank : ∀ rank < tp_size, ∀ is : List Nat, is.length = ids.length → (∀ i ∈ is, i < p) →
      trellisOnRank o h out_dtype layer tp_size p hidden stored.table stored.signs rank is =
        if ids = [] then .error (.runtime "cannot reshape tensor of 0 elements into shape [0, -1]") else
          .ok (is.map fun i => trellisRow o h out_dtype stored (rank * p + i)) := by
    intro rank hlt is hcount his
    have hnil : is = [] ↔ ids = [] := by
      rw [← List.length_eq_zero_iff, hcount, List.length_eq_zero_iff]
    have htail : (trellisRank o h tp_size p stored rank).et_table.tail = [stored.row_words] :=
      ownRows_tail tp_size p rank stored.table_shape
    have hread : ∀ i ∈ is, (trellisRank o h tp_size p stored rank).et_table.rows[i]? =
        some (stored.table.rows.getD (rank * p + i) (List.replicate stored.row_words 0)) :=
      fun i hi => getElem?_padRows _ hlt (rows_le_of_shape stored.table_shape hvocab) (his i hi)
    rw [trellisOnRank, processTrellis_ok layer stored hvocab rank]
    refine (trellis_gather_eq stored htail hread).trans ?_
    simp only [hnil]
    rfl
  rw [hwhole]
  split_ifs at hrank ⊢
  · exact vocabForward_error htp hvocab hids hrank
  · exact vocabForward_ok hvocab hids (length_trellisRow stored) hrank

end Trellis

/-! ## Both formats -/

/-- Every rank's rows, where rank `r` owns `[r * p, (r + 1) * p)`, give the lookup of the whole table:
in both formats the ranks' sum is the unsplit lookup, no rank looks past the rows it holds, and the
rows it padded decode to zero. -/
theorem vocab_parallel_lookup [AddMonoid D] (o : Fp32 F) (h : Fp16 F) (out_dtype : F → D)
    (ho : o.ZeroLaws) (hbits : h.ofBits 0 = o.ofNat 0) (hhalf : h.half (o.ofNat 0) = o.ofNat 0)
    (hout : out_dtype (o.ofNat 0) = 0) (layer : String) (vocab hidden tp_size p : Nat)
    (htp : 0 < tp_size) (hvocab : vocab ≤ tp_size * p) :
    (∀ ids : List Nat, (∀ id ∈ ids, id < vocab) →
      (∀ rank < tp_size, ∀ i ∈ (rankIds tp_size vocab p rank ids).map Prod.fst, i < p) ∧
      (∀ table : BlockqTable F vocab hidden, vocabForward tp_size vocab p hidden
          (blockqOnRank o out_dtype layer tp_size p hidden table.stored) ids =
        gather o out_dtype ids table.stored) ∧
      ∀ stored : TrellisTable F vocab hidden, vocabForward tp_size vocab p hidden
          (trellisOnRank o h out_dtype layer tp_size p hidden stored.table stored.signs) ids =
        Trellis.gather o h out_dtype ids stored.table stored.signs (codebook o h) hidden) ∧
    (∀ (table : BlockqTable F vocab hidden), ∀ rank < tp_size, ∃ e,
      processBlockq o layer ((createWeights D F rank tp_size (some p)).loadStored table.stored) hidden p =
        .ok e ∧ e.bq_q.rows.length = p ∧ e.bq_s.rows.length = p ∧ e.bq_r.rows.length = p ∧
      ∀ i < p, vocab ≤ rank * p + i → ∃ q s r, e.bq_q.rows[i]? = some q ∧ e.bq_s.rows[i]? = some s ∧
        e.bq_r.rows[i]? = some r ∧
        decodeRow o out_dtype BLOCKQ_BLOCK q s r = List.replicate hidden 0) ∧
    ∀ (stored : TrellisTable F vocab hidden), ∀ rank < tp_size, ∃ served,
      processTrellis o h layer ((createTrellisWeights F rank tp_size (some p)).loadStored stored.table
        stored.signs) hidden p = .ok served ∧ served.et_table.rows.length = p ∧
      ∀ i < p, vocab ≤ rank * p + i → ∃ row, served.et_table.rows[i]? = some row ∧
        Trellis.decodeRow o h out_dtype served.et_signs served.et_book hidden stored.k
          (stored.row_words / served.et_signs.rows.length) row = List.replicate hidden 0 := by
  refine ⟨fun ids hids => ⟨fun rank hrank => rankIds_lt hvocab hids hrank,
    fun table => blockq_vocabForward layer table htp hvocab hids,
    fun stored => trellis_vocabForward layer stored htp hvocab hids⟩, fun table rank hrank => ?_,
    fun stored rank hrank => ?_⟩
  · have hq := rows_le_of_shape table.q_shape hvocab
    have hs := rows_le_of_shape table.s_shape hvocab
    have hr := rows_le_of_shape table.r_shape hvocab
    refine ⟨_, processBlockq_ok layer table hvocab rank, length_padRows rank _ hq,
      length_padRows rank _ hs, length_padRows rank _ hr, fun i hi hpast => ⟨_, _, _,
        getElem?_padRows _ hrank hq hi, getElem?_padRows _ hrank hs hi, getElem?_padRows _ hrank hr hi, ?_⟩⟩
    exact blockqRow_past ho hout table hpast
  · have hrows := rows_le_of_shape stored.table_shape hvocab
    refine ⟨_, processTrellis_ok layer stored hvocab rank, length_padRows rank _ hrows,
      fun i hi hpast => ⟨_, getElem?_padRows _ hrank hrows hi, ?_⟩⟩
    exact trellisRow_past ho hbits hhalf hout stored hpast

/-! ### A vocabulary of 100 over two ranks of 64 -/

/-- A block-scaled table whose row `i` is made of the byte `i`. -/
def blockqTable100 : BlockqTable ℚ 100 256 where
  stored :=
    ⟨⟨[128], (List.range 100).map fun i => List.replicate 128 (UInt8.ofNat i)⟩,
      ⟨[2, 8], List.replicate 100 (List.replicate 8 1, List.replicate 8 0)⟩,
      ⟨[4], List.replicate 100 (1, 1 / 2, 0, 0)⟩⟩
  whole_blocks := rfl
  q_shape := rfl
  s_shape := rfl
  r_shape := rfl
  q_rows row hrow := by
    obtain ⟨i, -, rfl⟩ := List.mem_map.mp hrow
    exact List.length_replicate
  s_rows row hrow := by
    rw [List.eq_of_mem_replicate hrow, List.length_replicate]
    exact ⟨rfl, rfl⟩

/-- A trellis table whose row `i` is one ring, of depth 3, made of the word `i`. -/
def trellisTable100 : TrellisTable ℚ 100 256 where
  table := ⟨[49], (List.range 100).map fun i => 7 :: List.replicate 48 (UInt16.ofNat i)⟩
  signs := ⟨256, [List.replicate 256 1], fun row hrow => by
    rw [List.mem_singleton.mp hrow, List.length_replicate]⟩
  row_words := 49
  k := 3
  table_shape := rfl
  signs_shape := rfl
  depth := by decide

theorem vocab100_two_ranks :
    (∀ rank < 2, ∀ i ∈ (rankIds 2 100 64 rank [0, 63, 64, 99]).map Prod.fst, i < 64) ∧
      vocabForward 2 100 64 256 (blockqOnRank exactFp32 id "embed_tokens" 2 64 256 blockqTable100.stored)
          [0, 63, 64, 99] = gather exactFp32 id [0, 63, 64, 99] blockqTable100.stored ∧
      vocabForward 2 100 64 256 (trellisOnRank exactFp32 exactFp16 id "embed_tokens" 2 64 256
          trellisTable100.table trellisTable100.signs) [0, 63, 64, 99] =
        Trellis.gather exactFp32 exactFp16 id [0, 63, 64, 99] trellisTable100.table trellisTable100.signs
          (codebook exactFp32 exactFp16) 256 := by
  have hbits : exactFp16.ofBits 0 = exactFp32.ofNat 0 := by simp [exactFp16, exactFp32]
  have h := (vocab_parallel_lookup exactFp32 exactFp16 (id : ℚ → ℚ) exactFp32_zeroLaws hbits rfl
    (by simp [exactFp32]) "embed_tokens" 100 256 2 64 (by decide) (by decide)).1 [0, 63, 64, 99] (by decide)
  exact ⟨h.1, h.2.1 blockqTable100, h.2.2 trellisTable100⟩

end VllmExl3.Embedding
