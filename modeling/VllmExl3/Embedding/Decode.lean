/-
# VllmExl3.Embedding.Decode — reading a block-scaled embedding back (`blockq.py`)

`unpack`, `decode` and `gather` on whole tensors. As for the encoder, a decoded row depends on its own
row of the three stored tensors; unpacking inverts packing on 4-bit values, so decoding an encoded row
reads back its codes against the scales and minimums the encoder quantized with.
-/
import VllmExl3.Embedding.Blockq
import VllmExl3.Lib.Chunks

namespace VllmExl3.Embedding

open Format (BLOCKQ_BLOCK BLOCKQ_BITS)

variable {α D F ρ : Type}

/-! ## Definitions -/

/-- One row of `unpack`. -/
def unpackRow (packed : List UInt8) : List UInt8 := packed.flatMap fun b => [b &&& 0x0F, b >>> 4]

/-- `codes.float() * step + lo`, on one row -/
def affineRow (o : Fp32 F) (codes : List UInt8) (step lo : F) : List F :=
  codes.map fun c => o.add (o.mul (o.ofNat c.toNat) step) lo

/-- `decode`, on one row of the three tensors -/
def decodeRow (o : Fp32 F) (out_dtype : F → D) (block : Nat) (bq_q : List UInt8)
    (bq_s : List UInt8 × List UInt8) (bq_r : F × F × F × F) : List D :=
  let q := blocks block (unpackRow bq_q)
  let scale := affineRow o bq_s.1 bq_r.2.1 bq_r.1
  let minv := affineRow o bq_s.2 bq_r.2.2.2 bq_r.2.2.1
  (List.zipWith3 (fun q scale minv => q.map fun c =>
    out_dtype (o.add (o.mul (o.ofNat c.toNat) scale) minv)) q scale minv).flatten

/-- `decode` -/
def decode (o : Fp32 F) (out_dtype : F → D) (e : Encoded F) : Except PyError (List (List D)) :=
  let half := e.bq_q.tail.headD 0
  let hidden := half * 2
  let nblk := e.bq_s.tail.getLastD 0
  if nblk = 0 then .error .zeroDivision
  else
    let block := hidden / nblk
    if nblk * block ≠ hidden then .error (.runtime "shape is invalid for input")
    else .ok (List.zipWith3 (decodeRow o out_dtype block) e.bq_q.rows e.bq_s.rows e.bq_r.rows)

/-- Row `id` of a tensor. -/
def VocabTensor.select (t : VocabTensor ρ) (id : Nat) : Except PyError ρ :=
  match t.rows[id]? with
  | some row => .ok row
  | none => .error .index

/-- `torch.index_select(t, 0, flat)` -/
def VocabTensor.indexSelect (t : VocabTensor ρ) (flat : List Nat) : Except PyError (VocabTensor ρ) := do
  let rows ← flat.mapM t.select
  return ⟨t.tail, rows⟩

/-- `gather`, of flattened ids -/
def gather (o : Fp32 F) (out_dtype : F → D) (ids : List Nat) (e : Encoded F) :
    Except PyError (List (List D)) := do
  let bq_q ← e.bq_q.indexSelect ids
  let bq_s ← e.bq_s.indexSelect ids
  let bq_r ← e.bq_r.indexSelect ids
  decode o out_dtype ⟨bq_q, bq_s, bq_r⟩

/-- Selecting rows a tensor has. -/
theorem VocabTensor.indexSelect_ok {t : VocabTensor ρ} {flat : List Nat} {row : Nat → ρ}
    (h : ∀ id ∈ flat, t.rows[id]? = some (row id)) :
    t.indexSelect flat = .ok ⟨t.tail, flat.map row⟩ := by
  have hrows : flat.mapM t.select = .ok (flat.map row) :=
    mapM_ok fun id hid => by rw [select, h id hid]
  rw [indexSelect, hrows]
  rfl

/-! ## Nibbles -/

/-- The byte of two 4-bit values. -/
theorem toNat_packed {lo hi : UInt8} (hlo : lo.toNat ≤ 15) (hhi : hi.toNat ≤ 15) :
    (lo ||| hi <<< 4).toNat = 2 ^ 4 * hi.toNat + lo.toNat := by
  have hshift : (hi <<< 4).toNat = 2 ^ 4 * hi.toNat := by
    rw [UInt8.toNat_shiftLeft, Nat.shiftLeft_eq, show (4 : UInt8).toNat % 8 = 4 from rfl]
    omega
  rw [UInt8.toNat_or, hshift, Nat.or_comm, Nat.two_pow_add_eq_or_of_lt (by omega)]

theorem low_nibble {lo hi : UInt8} (hlo : lo.toNat ≤ 15) (hhi : hi.toNat ≤ 15) :
    (lo ||| hi <<< 4) &&& 0x0F = lo := by
  refine UInt8.toNat_inj.mp ?_
  rw [UInt8.toNat_and, toNat_packed hlo hhi, show (0x0F : UInt8).toNat = 2 ^ 4 - 1 from rfl,
    Nat.and_two_pow_sub_one_eq_mod]
  omega

theorem high_nibble {lo hi : UInt8} (hlo : lo.toNat ≤ 15) (hhi : hi.toNat ≤ 15) :
    (lo ||| hi <<< 4) >>> 4 = hi := by
  refine UInt8.toNat_inj.mp ?_
  rw [UInt8.toNat_shiftRight, toNat_packed hlo hhi, show (4 : UInt8).toNat % 8 = 4 from rfl,
    Nat.shiftRight_eq_div_pow]
  omega

/-- Unpacking inverts packing on 4-bit values, of an even number. -/
theorem unpackRow_packRow : ∀ {q : List UInt8}, q.length % 2 = 0 → (∀ c ∈ q, c.toNat ≤ 15) →
    unpackRow (packRow q) = q
  | [], _, _ => rfl
  | [_], hlen, _ => by simp at hlen
  | lo :: hi :: rest, hlen, hq => by
    have hlo : lo.toNat ≤ 15 := hq lo (by simp)
    have hhi : hi.toNat ≤ 15 := hq hi (by simp)
    have hrest : unpackRow (packRow rest) = rest :=
      unpackRow_packRow (by simpa [Nat.add_assoc] using hlen) fun c hc => hq c (by simp [hc])
    rw [unpackRow] at hrest
    rw [packRow, unpackRow, List.flatMap_cons, low_nibble hlo hhi, high_nibble hlo hhi, hrest]
    rfl

theorem length_unpackRow (packed : List UInt8) : (unpackRow packed).length = 2 * packed.length := by
  simp [unpackRow, List.length_flatMap, Nat.mul_comm]

/-- Every unpacked value has 4 bits. -/
theorem unpackRow_le {packed : List UInt8} {c : UInt8} (h : c ∈ unpackRow packed) : c.toNat ≤ 15 := by
  obtain ⟨b, _, hc⟩ := List.mem_flatMap.mp h
  have hb : b.toNat < 256 := b.toNat_lt
  rcases List.mem_pair.mp hc with rfl | rfl
  · rw [UInt8.toNat_and, show (0x0F : UInt8).toNat = 2 ^ 4 - 1 from rfl, Nat.and_two_pow_sub_one_eq_mod]
    omega
  · rw [UInt8.toNat_shiftRight, show (4 : UInt8).toNat % 8 = 4 from rfl, Nat.shiftRight_eq_div_pow]
    omega

/-! ## Zero -/

/-- What the arithmetic says about zero. -/
structure Fp32.ZeroLaws (o : Fp32 F) : Prop where
  add_zero : o.add (o.ofNat 0) (o.ofNat 0) = o.ofNat 0
  sub_zero : o.sub (o.ofNat 0) (o.ofNat 0) = o.ofNat 0
  zero_mul : ∀ x, o.mul (o.ofNat 0) x = o.ofNat 0
  mul_zero : ∀ x, o.mul x (o.ofNat 0) = o.ofNat 0
  zero_div : o.div (o.ofNat 0) (o.ofNat 16) = o.ofNat 0

theorem exactFp32_zeroLaws : exactFp32.ZeroLaws where
  add_zero := add_zero _
  sub_zero := sub_zero _
  zero_mul := fun x => by simp [exactFp32]
  mul_zero := fun x => by simp [exactFp32]
  zero_div := by simp [exactFp32]

/-! ## Blocks -/

theorem blocks_flatten {block : Nat} {q : List (List α)} (hblock : 0 < block)
    (hlen : ∀ vals ∈ q, vals.length = block) : blocks block q.flatten = q := by
  have hcount : q.flatten.length / block = q.length := by
    rw [length_flatten_equal hlen, Nat.mul_div_cancel _ hblock]
  rw [blocks, hcount]
  refine List.ext_getElem (length_tabulate _ _) fun b hb hb' => ?_
  rw [← slice_flatten hlen hb']
  simp [tabulate, Nat.succ_mul]

/-- Block `b` of a row. -/
def blockAt (block : Nat) (row : List D) (b : Nat) : List D := slice (b * block) ((b + 1) * block) row

theorem getElem_blocks {block b : Nat} {row : List D} (hb : b < (blocks block row).length) :
    (blocks block row)[b] = blockAt block row b := by
  simp [blocks, tabulate, blockAt]

theorem length_blockAt {block nblk b : Nat} {row : List D} (hlen : row.length = nblk * block)
    (hb : b < nblk) : (blockAt block row b).length = block := by
  have hend : (b + 1) * block ≤ nblk * block := Nat.mul_le_mul_right block hb
  rw [blockAt, length_slice, hlen, Nat.min_eq_left hend, Nat.succ_mul]
  omega

theorem mem_blockAt {block nblk b : Nat} {row : List D} (hlen : row.length = nblk * block)
    (hb : b < nblk) {j : Nat} (hj : j < block) (d : D) :
    row.getD (b * block + j) d ∈ blockAt block row b := by
  have hwidth := length_blockAt hlen hb
  have hget : (blockAt block row b).getD j d = row.getD (b * block + j) d := by
    rw [blockAt, getD_slice (by rw [Nat.succ_mul]; omega)]
  rw [← hget, List.getD_eq_getElem _ _ (by rwa [hwidth])]
  exact List.getElem_mem _

theorem blocks_eq_tabulate {block nblk : Nat} {row : List D} (hblock : 0 < block)
    (hlen : row.length = nblk * block) : blocks block row = tabulate nblk (blockAt block row) := by
  rw [blocks, hlen, Nat.mul_div_cancel _ hblock]
  rfl

/-- A row of whole blocks decodes block by block. -/
theorem decodeRow_eq {o : Fp32 F} {out_dtype : F → D} {block nblk : Nat} {q : List UInt8}
    {s : List UInt8 × List UInt8} {r : F × F × F × F} (zero : F) (hblock : 0 < block)
    (hq : 2 * q.length = nblk * block) (hs : s.1.length = nblk ∧ s.2.length = nblk) :
    decodeRow o out_dtype block q s r =
      (tabulate nblk fun b => (blockAt block (unpackRow q) b).map fun c =>
        out_dtype (o.add (o.mul (o.ofNat c.toNat) ((affineRow o s.1 r.2.1 r.1).getD b zero))
          ((affineRow o s.2 r.2.2.2 r.2.2.1).getD b zero))).flatten := by
  have hscale : (affineRow o s.1 r.2.1 r.1).length = nblk := (List.length_map _).trans hs.1
  have hminv : (affineRow o s.2 r.2.2.2 r.2.2.1).length = nblk := (List.length_map _).trans hs.2
  rw [decodeRow, blocks_eq_tabulate hblock (by rwa [length_unpackRow])]
  conv_lhs => rw [← tabulate_getD zero hscale, ← tabulate_getD zero hminv]
  exact congrArg List.flatten (zipWith3_map_map_map _ _ _ _ (List.range nblk))

theorem length_decodeRow {o : Fp32 F} {out_dtype : F → D} {block nblk : Nat} {q : List UInt8}
    {s : List UInt8 × List UInt8} {r : F × F × F × F} (hblock : 0 < block)
    (hq : 2 * q.length = nblk * block) (hs : s.1.length = nblk ∧ s.2.length = nblk) :
    (decodeRow o out_dtype block q s r).length = nblk * block := by
  rw [decodeRow_eq (o.ofNat 0) hblock hq hs, length_flatten_equal, length_tabulate]
  intro vals hvals
  obtain ⟨b, hb, rfl⟩ := List.mem_map.mp hvals
  rw [List.length_map]
  exact length_blockAt (by rwa [length_unpackRow]) (List.mem_range.mp hb)

/-! ## Decoding what was encoded -/

variable (o : Fp32 F)

/-- The scale of a block before it is coded. -/
def blockScale (vals : List F) : F :=
  o.div (o.clampMin (o.sub (o.amax vals) (o.amin vals)) o.tiny) (o.ofNat 15)

/-- The level a value is stored as, against the decoder's minimum and scale of its block. -/
def level (lo sc x : F) : UInt8 :=
  o.toUint8 (o.clamp (o.round (o.div (o.sub x lo) (o.clampMin sc o.tiny))) (o.ofNat 0) (o.ofNat 15))

/-- The scales the decoder reconstructs for a row. -/
def scalesOf (row : List F) : List F :=
  affineRow o (encodeRow o BLOCKQ_BLOCK row).2.1.1 (encodeRow o BLOCKQ_BLOCK row).2.2.2.1
    (encodeRow o BLOCKQ_BLOCK row).2.2.1

/-- The minimums the decoder reconstructs for a row. -/
def minsOf (row : List F) : List F :=
  affineRow o (encodeRow o BLOCKQ_BLOCK row).2.1.2 (encodeRow o BLOCKQ_BLOCK row).2.2.2.2.2
    (encodeRow o BLOCKQ_BLOCK row).2.2.2.2.1

/-- The stored levels of a row, in blocks. -/
def levelsOf (row : List F) : List (List UInt8) :=
  List.zipWith3 (fun vals lo sc => vals.map (level o lo sc)) (blocks BLOCKQ_BLOCK row) (minsOf o row)
    (scalesOf o row)

theorem length_code8Row (t : List F) : (code8Row o t).1.length = t.length := List.length_map _

/-- What the encoder stores of a row. -/
theorem encodeRow_eq (row : List F) :
    (encodeRow o BLOCKQ_BLOCK row).1 = packRow (levelsOf o row).flatten ∧
    (encodeRow o BLOCKQ_BLOCK row).2.1 =
      ((code8Row o ((blocks BLOCKQ_BLOCK row).map (blockScale o))).1,
        (code8Row o ((blocks BLOCKQ_BLOCK row).map o.amin)).1) ∧
    (encodeRow o BLOCKQ_BLOCK row).2.2 =
      ((code8Row o ((blocks BLOCKQ_BLOCK row).map (blockScale o))).2.1,
        (code8Row o ((blocks BLOCKQ_BLOCK row).map (blockScale o))).2.2,
        (code8Row o ((blocks BLOCKQ_BLOCK row).map o.amin)).2) := by
  have hscale : List.zipWith (fun vals lo => o.div (o.clampMin (o.sub (o.amax vals) lo) o.tiny)
      (o.ofNat (2 ^ BLOCKQ_BITS - 1))) (blocks BLOCKQ_BLOCK row)
        ((blocks BLOCKQ_BLOCK row).map o.amin) = (blocks BLOCKQ_BLOCK row).map (blockScale o) := by
    rw [List.zipWith_map_right, List.zipWith_self]
    rfl
  refine ⟨rfl, ?_, ?_⟩
  · rw [← hscale]
    rfl
  · rw [← hscale]
    rfl

theorem scalesOf_eq (row : List F) : scalesOf o row =
    affineRow o (code8Row o ((blocks BLOCKQ_BLOCK row).map (blockScale o))).1
      (code8Row o ((blocks BLOCKQ_BLOCK row).map (blockScale o))).2.2
      (code8Row o ((blocks BLOCKQ_BLOCK row).map (blockScale o))).2.1 := by
  rw [scalesOf, (encodeRow_eq o row).2.1, (encodeRow_eq o row).2.2]

theorem minsOf_eq (row : List F) : minsOf o row =
    affineRow o (code8Row o ((blocks BLOCKQ_BLOCK row).map o.amin)).1
      (code8Row o ((blocks BLOCKQ_BLOCK row).map o.amin)).2.2
      (code8Row o ((blocks BLOCKQ_BLOCK row).map o.amin)).2.1 := by
  rw [minsOf, (encodeRow_eq o row).2.1, (encodeRow_eq o row).2.2]

section Row

variable {row : List F} {nblk : Nat}

theorem length_blocks (hlen : row.length = nblk * BLOCKQ_BLOCK) :
    (blocks BLOCKQ_BLOCK row).length = nblk := by
  rw [blocks, length_tabulate, hlen, Nat.mul_div_cancel _ (by decide)]

theorem length_scalesOf (hlen : row.length = nblk * BLOCKQ_BLOCK) :
    (scalesOf o row).length = nblk := by
  rw [scalesOf_eq, affineRow, List.length_map, length_code8Row, List.length_map, length_blocks hlen]

theorem length_minsOf (hlen : row.length = nblk * BLOCKQ_BLOCK) : (minsOf o row).length = nblk := by
  rw [minsOf_eq, affineRow, List.length_map, length_code8Row, List.length_map, length_blocks hlen]

/-- The stored levels, block by block. -/
theorem levelsOf_eq (zero : F) (hlen : row.length = nblk * BLOCKQ_BLOCK) :
    levelsOf o row = tabulate nblk fun b => (blockAt BLOCKQ_BLOCK row b).map
      (level o ((minsOf o row).getD b zero) ((scalesOf o row).getD b zero)) := by
  have hblocks := blocks_eq_tabulate (by decide : 0 < BLOCKQ_BLOCK) hlen
  have hmins := tabulate_getD zero (length_minsOf o hlen)
  have hscales := tabulate_getD zero (length_scalesOf o hlen)
  rw [levelsOf, hblocks]
  conv_lhs => rw [← hmins, ← hscales]
  exact zipWith3_map_map_map _ _ _ _ (List.range nblk)

/-- Decoding an encoded row reads its levels back against the scales and minimums. -/
theorem decodeRow_encodeRow (out_dtype : F → D) (zero : F) (hlen : row.length = nblk * BLOCKQ_BLOCK)
    (hlevel : ∀ lo sc x, (level o lo sc x).toNat ≤ 15) :
    decodeRow o out_dtype BLOCKQ_BLOCK (encodeRow o BLOCKQ_BLOCK row).1
        (encodeRow o BLOCKQ_BLOCK row).2.1 (encodeRow o BLOCKQ_BLOCK row).2.2 =
      (tabulate nblk fun b => (blockAt BLOCKQ_BLOCK row b).map fun x =>
        let lo := (minsOf o row).getD b zero
        let sc := (scalesOf o row).getD b zero
        out_dtype (o.add (o.mul (o.ofNat (level o lo sc x).toNat) sc) lo)).flatten := by
  have hwidth : ∀ vals ∈ levelsOf o row, vals.length = BLOCKQ_BLOCK := by
    intro vals hvals
    rw [levelsOf_eq o zero hlen] at hvals
    obtain ⟨b, hb, rfl⟩ := List.mem_map.mp hvals
    rw [List.length_map]
    exact length_blockAt hlen (List.mem_range.mp hb)
  have hcount : (levelsOf o row).length = nblk := by
    rw [levelsOf_eq o zero hlen, length_tabulate]
  have heven : (levelsOf o row).flatten.length % 2 = 0 := by
    rw [length_flatten_equal hwidth, BLOCKQ_BLOCK]
    omega
  have hsmall : ∀ c ∈ (levelsOf o row).flatten, c.toNat ≤ 15 := by
    intro c hc
    obtain ⟨vals, hvals, hmem⟩ := List.mem_flatten.mp hc
    rw [levelsOf_eq o zero hlen] at hvals
    obtain ⟨b, _, rfl⟩ := List.mem_map.mp hvals
    obtain ⟨x, _, rfl⟩ := List.mem_map.mp hmem
    exact hlevel _ _ _
  have hq : blocks BLOCKQ_BLOCK (unpackRow (encodeRow o BLOCKQ_BLOCK row).1) = levelsOf o row := by
    rw [(encodeRow_eq o row).1, unpackRow_packRow heven hsmall, blocks_flatten (by decide) hwidth]
  have hscales := tabulate_getD zero (length_scalesOf o hlen)
  have hmins := tabulate_getD zero (length_minsOf o hlen)
  rw [decodeRow, hq]
  show (List.zipWith3 _ (levelsOf o row) (scalesOf o row) (minsOf o row)).flatten = _
  conv_lhs => rw [← hscales, ← hmins]
  rw [levelsOf_eq o zero hlen]
  refine congrArg List.flatten ((zipWith3_map_map_map _ _ _ _ (List.range nblk)).trans ?_)
  refine List.map_congr_left fun b _ => ?_
  rw [List.map_map]
  rfl

end Row

/-- `decode` on tensors of a whole number of blocks works row by row; without a block it divides by
zero. -/
theorem decode_eq {out_dtype : F → D} {e : Encoded F} {hidden : Nat}
    (hhidden : hidden % BLOCKQ_BLOCK = 0) (hq : e.bq_q.tail.headD 0 = hidden / 2)
    (hs : e.bq_s.tail.getLastD 0 = hidden / BLOCKQ_BLOCK) :
    decode o out_dtype e = if hidden / BLOCKQ_BLOCK = 0 then .error .zeroDivision else
      .ok (List.zipWith3 (decodeRow o out_dtype BLOCKQ_BLOCK) e.bq_q.rows e.bq_s.rows e.bq_r.rows) := by
  obtain ⟨nblk, rfl⟩ := Nat.dvd_of_mod_eq_zero hhidden
  have hdiv : BLOCKQ_BLOCK * nblk / BLOCKQ_BLOCK = nblk := Nat.mul_div_cancel_left _ (by decide)
  have hhalf : BLOCKQ_BLOCK * nblk / 2 * 2 = BLOCKQ_BLOCK * nblk := by
    unfold BLOCKQ_BLOCK
    omega
  rw [decode]
  dsimp only
  rw [hs, hq, hhalf, hdiv]
  rcases Nat.eq_zero_or_pos nblk with rfl | hpos
  · rfl
  · rw [Nat.mul_div_cancel _ hpos, if_neg hpos.ne', if_neg hpos.ne',
      if_neg (not_not.mpr (Nat.mul_comm _ _))]

/-- `decode` of an encoded matrix decodes every row on its own. -/
theorem decode_encodeRows (out_dtype : F → D) {hidden : Nat} (hhidden : hidden % BLOCKQ_BLOCK = 0)
    (hpos : hidden ≠ 0) (rows : List (List F)) :
    decode o out_dtype (encodeRows o hidden BLOCKQ_BLOCK rows) = .ok (rows.map fun row =>
      decodeRow o out_dtype BLOCKQ_BLOCK (encodeRow o BLOCKQ_BLOCK row).1
        (encodeRow o BLOCKQ_BLOCK row).2.1 (encodeRow o BLOCKQ_BLOCK row).2.2) := by
  have hnblk : hidden / BLOCKQ_BLOCK ≠ 0 := by
    unfold BLOCKQ_BLOCK at hhidden ⊢
    omega
  rw [decode_eq o hhidden rfl rfl, if_neg hnblk]
  exact congrArg Except.ok (zipWith3_map_map_map _ _ _ _ rows)

end VllmExl3.Embedding
