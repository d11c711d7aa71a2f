/-
# VllmExl3.Embedding.ErrorBound — how far a decoded row is from its source (`blockq.py`)

Over exact arithmetic. Scales and minimums are themselves quantized, to 8 bits against one range per
row, and the values are quantized against what the decoder will reconstruct of them. A value is off by
half its block's scale, or, where that scale came out too small to reach it, by the errors of the two
outer quantizations.
-/
import VllmExl3.Embedding.Decode
import VllmExl3.Lib.Quantize

namespace VllmExl3.Embedding

open Format (BLOCKQ_BLOCK)
open Quantize

/-! ## The exact operations -/

/-- A rounded and clipped number is stored as itself: nothing wraps. -/
theorem toUint8_clamp_round (x : ℚ) {levels : Nat} (hlevels : levels ≤ 255) :
    ∃ z : ℤ, Nearest z x ∧ ((exactFp32.toUint8 (exactFp32.clamp (exactFp32.round x) (exactFp32.ofNat 0)
      (exactFp32.ofNat levels))).toNat : ℤ) = clip levels z := by
  have hlo := clip_nonneg levels (Double.roundEven x)
  have hhi := clip_le levels (Double.roundEven x)
  have hclamp : exactFp32.clamp (exactFp32.round x) (exactFp32.ofNat 0) (exactFp32.ofNat levels) =
      ((clip levels (Double.roundEven x) : ℤ) : ℚ) := by
    show min (max (Double.roundEven x : ℚ) ((0 : Nat) : ℚ)) ((levels : Nat) : ℚ) = _
    rw [clip, Nat.cast_zero]
    push_cast
    rfl
  refine ⟨Double.roundEven x, Double.abs_roundEven_sub_le x, ?_⟩
  rw [hclamp]
  show ((UInt8.ofNat ⌊((clip levels (Double.roundEven x) : ℤ) : ℚ)⌋.toNat).toNat : ℤ) = _
  rw [Int.floor_intCast, UInt8.toNat_ofNat', Nat.mod_eq_of_lt (by omega), Int.toNat_of_nonneg hlo]

theorem amin_le {xs : List ℚ} {x : ℚ} (h : x ∈ xs) : exactFp32.amin xs ≤ x := by
  obtain ⟨a, ha⟩ := Option.isSome_iff_exists.mp (List.isSome_min?_of_mem h)
  show xs.min?.getD 0 ≤ x
  rw [ha]
  exact (List.min?_eq_some_iff.mp ha).2 x h

theorem le_amax {xs : List ℚ} {x : ℚ} (h : x ∈ xs) : x ≤ exactFp32.amax xs := by
  obtain ⟨a, ha⟩ := Option.isSome_iff_exists.mp (List.isSome_max?_of_mem h)
  show x ≤ xs.max?.getD 0
  rw [ha]
  exact (List.max?_eq_some_iff.mp ha).2 x h

/-- A guarded range in `levels` steps reaches every value. -/
theorem le_amin_add_steps {xs : List ℚ} {x : ℚ} (h : x ∈ xs) {levels : ℚ} (hlevels : 0 < levels) :
    x ≤ exactFp32.amin xs +
      levels * (max (exactFp32.amax xs - exactFp32.amin xs) (1 / 10 ^ 12) / levels) := by
  have hrange := le_max_left (exactFp32.amax xs - exactFp32.amin xs) (1 / 10 ^ 12)
  have hmax := le_amax h
  rw [mul_div_cancel₀ _ hlevels.ne']
  linarith

/-! ## The two outer quantizations -/

theorem code8Row_step_pos (t : List ℚ) : 0 < (code8Row exactFp32 t).2.2 := by
  have hguard : (1 : ℚ) / 10 ^ 12 ≤ max (exactFp32.amax t - exactFp32.amin t) (1 / 10 ^ 12) :=
    le_max_right _ _
  have hpos : (0 : ℚ) < max (exactFp32.amax t - exactFp32.amin t) (1 / 10 ^ 12) :=
    lt_of_lt_of_le (by positivity) hguard
  show (0 : ℚ) < max (exactFp32.amax t - exactFp32.amin t) (1 / 10 ^ 12) / 255
  positivity

/-- A code is the integer nearest to its entry's place in the range: it is not clipped. -/
theorem code8Row_nearest {t : List ℚ} {b : Nat} (hb : b < t.length) :
    Nearest (((code8Row exactFp32 t).1.getD b 0).toNat : ℤ)
      ((t[b] - (code8Row exactFp32 t).2.1) / (code8Row exactFp32 t).2.2) := by
  have hmem := List.getElem_mem hb
  have hstep := code8Row_step_pos t
  have hreach : t[b] ≤ (code8Row exactFp32 t).2.1 + 255 * (code8Row exactFp32 t).2.2 :=
    le_amin_add_steps hmem (by norm_num)
  have hlo : (code8Row exactFp32 t).2.1 ≤ t[b] := amin_le hmem
  -- the entry lies in the row's own range, so the clamp does nothing
  obtain ⟨z, hz, hcode⟩ := toUint8_clamp_round
    ((t[b] - (code8Row exactFp32 t).2.1) / (code8Row exactFp32 t).2.2) (Nat.le_refl 255)
  have hclip : clip 255 z = z := hz.clip_eq (div_nonneg (by linarith) hstep.le)
    ((div_le_iff₀ hstep).mpr (by push_cast; linarith))
  have hread : (((code8Row exactFp32 t).1.getD b 0).toNat : ℤ) = z := by
    rw [List.getD_eq_getElem _ _ (by rwa [length_code8Row]), ← hclip, ← hcode]
    simp only [code8Row, List.getElem_map]
    rfl
  rwa [hread]

/-- The decoder's value of a coded entry is off by half the row's step. -/
theorem code8Row_error {t : List ℚ} {b : Nat} (hb : b < t.length) :
    |(affineRow exactFp32 (code8Row exactFp32 t).1 (code8Row exactFp32 t).2.2
      (code8Row exactFp32 t).2.1).getD b 0 - t[b]| ≤ (code8Row exactFp32 t).2.2 / 2 := by
  have hread : (affineRow exactFp32 (code8Row exactFp32 t).1 (code8Row exactFp32 t).2.2
      (code8Row exactFp32 t).2.1).getD b 0 =
        (((code8Row exactFp32 t).1.getD b 0).toNat : ℤ) * (code8Row exactFp32 t).2.2 +
          (code8Row exactFp32 t).2.1 := by
    have hb' : b < (code8Row exactFp32 t).1.length := by rwa [length_code8Row]
    rw [affineRow, List.getD_eq_getElem _ _ (by rwa [List.length_map]), List.getElem_map,
      List.getD_eq_getElem _ _ hb']
    rfl
  rw [hread]
  exact round_error (code8Row_step_pos t) (code8Row_nearest hb)

/-! ## One row -/

section Row

variable {row : List ℚ} {nblk : Nat}

/-- A stored level is 4 bits, at every minimum and scale. -/
theorem level_le (lo sc x : ℚ) : (level exactFp32 lo sc x).toNat ≤ 15 := by
  obtain ⟨z, _, hlevel⟩ := toUint8_clamp_round (exactFp32.div (exactFp32.sub x lo)
    (exactFp32.clampMin sc exactFp32.tiny)) (by decide : 15 ≤ 255)
  have hle := clip_le 15 z
  rw [← hlevel] at hle
  exact_mod_cast hle

/-- Under an unguarded scale, a level is the clipped quotient rounded to nearest. -/
theorem level_eq (lo : ℚ) {sc : ℚ} (hsc : 1 / 10 ^ 12 ≤ sc) (x : ℚ) :
    ∃ z : ℤ, Nearest z ((x - lo) / sc) ∧ ((level exactFp32 lo sc x).toNat : ℤ) = clip 15 z := by
  have hguard : exactFp32.clampMin sc exactFp32.tiny = sc := max_eq_left hsc
  have h := toUint8_clamp_round (exactFp32.div (exactFp32.sub x lo) sc) (by decide : 15 ≤ 255)
  rw [level, hguard]
  exact h

/-- The outer quantization of one value per block. -/
theorem code8Row_blocks_error (f : List ℚ → ℚ) (hlen : row.length = nblk * BLOCKQ_BLOCK) {b : Nat}
    (hb : b < nblk) :
    |(affineRow exactFp32 (code8Row exactFp32 ((blocks BLOCKQ_BLOCK row).map f)).1
      (code8Row exactFp32 ((blocks BLOCKQ_BLOCK row).map f)).2.2
      (code8Row exactFp32 ((blocks BLOCKQ_BLOCK row).map f)).2.1).getD b 0 - f (blockAt BLOCKQ_BLOCK row b)| ≤
        (code8Row exactFp32 ((blocks BLOCKQ_BLOCK row).map f)).2.2 / 2 := by
  have hblocks := length_blocks hlen
  have h := @code8Row_error ((blocks BLOCKQ_BLOCK row).map f) b (by rwa [List.length_map, hblocks])
  simpa only [List.getElem_map, getElem_blocks] using h

theorem scalesOf_error (hlen : row.length = nblk * BLOCKQ_BLOCK) {b : Nat} (hb : b < nblk) :
    |(scalesOf exactFp32 row).getD b 0 - blockScale exactFp32 (blockAt BLOCKQ_BLOCK row b)| ≤
      (encodeRow exactFp32 BLOCKQ_BLOCK row).2.2.2.1 / 2 := by
  rw [scalesOf_eq, (encodeRow_eq exactFp32 row).2.2]
  exact code8Row_blocks_error (blockScale exactFp32) hlen hb

theorem minsOf_error (hlen : row.length = nblk * BLOCKQ_BLOCK) {b : Nat} (hb : b < nblk) :
    |(minsOf exactFp32 row).getD b 0 - exactFp32.amin (blockAt BLOCKQ_BLOCK row b)| ≤
      (encodeRow exactFp32 BLOCKQ_BLOCK row).2.2.2.2.2 / 2 := by
  rw [minsOf_eq, (encodeRow_eq exactFp32 row).2.2]
  exact code8Row_blocks_error exactFp32.amin hlen hb

/-- Reading an element of a row that is computed block by block. -/
theorem getD_blockwise {F D : Type} {row : List F} {nblk i : Nat} (f : Nat → F → D) (zero : F) (d : D)
    (hlen : row.length = nblk * BLOCKQ_BLOCK) (hi : i < row.length) :
    ((tabulate nblk fun b => (blockAt BLOCKQ_BLOCK row b).map (f b)).flatten).getD i d =
      f (i / BLOCKQ_BLOCK) (row.getD i zero) := by
  have hblock : ∀ b ∈ List.range nblk, (blockAt BLOCKQ_BLOCK row b).map (f b) =
      tabulate BLOCKQ_BLOCK fun j => f b (row.getD (b * BLOCKQ_BLOCK + j) zero) := by
    intro b hb
    have hwidth := length_blockAt hlen (List.mem_range.mp hb)
    rw [← tabulate_getD zero hwidth, tabulate, List.map_map]
    refine List.map_congr_left fun j hj => ?_
    have hj' : j < (b + 1) * BLOCKQ_BLOCK - b * BLOCKQ_BLOCK := by
      rw [Nat.succ_mul, Nat.add_sub_cancel_left]
      exact List.mem_range.mp hj
    rw [Function.comp_apply, blockAt, getD_slice hj']
  have hdiv : i / BLOCKQ_BLOCK < nblk := by
    rw [Nat.div_lt_iff_lt_mul (by decide), ← hlen]
    exact hi
  have hsplit : i / BLOCKQ_BLOCK * BLOCKQ_BLOCK + i % BLOCKQ_BLOCK = i := Nat.div_add_mod' _ _
  rw [tabulate, List.map_congr_left hblock, ← List.flatMap_def,
    getD_flatMap_tabulate d 0 (by rw [List.length_range, Nat.mul_comm, ← hlen]; exact hi),
    List.getD_eq_getElem _ _ (by rwa [List.length_range]), List.getElem_range, hsplit]

/-- A decoded value is off by half the scale of its block, or by the errors of the two outer
quantizations. -/
theorem decodeRow_error (hlen : row.length = nblk * BLOCKQ_BLOCK) {i : Nat} (hi : i < row.length)
    (hscale : 1 / 10 ^ 12 ≤ (scalesOf exactFp32 row).getD (i / BLOCKQ_BLOCK) 0) :
    |(decodeRow exactFp32 id BLOCKQ_BLOCK (encodeRow exactFp32 BLOCKQ_BLOCK row).1
      (encodeRow exactFp32 BLOCKQ_BLOCK row).2.1 (encodeRow exactFp32 BLOCKQ_BLOCK row).2.2).getD i 0 -
        row.getD i 0| ≤
      max ((scalesOf exactFp32 row).getD (i / BLOCKQ_BLOCK) 0 / 2)
        ((encodeRow exactFp32 BLOCKQ_BLOCK row).2.2.2.2.2 / 2 +
          15 / 2 * (encodeRow exactFp32 BLOCKQ_BLOCK row).2.2.2.1) := by
  have hb : i / BLOCKQ_BLOCK < nblk := by
    rw [Nat.div_lt_iff_lt_mul (by decide), ← hlen]
    exact hi
  have hsplit : i / BLOCKQ_BLOCK * BLOCKQ_BLOCK + i % BLOCKQ_BLOCK = i := Nat.div_add_mod' _ _
  have hmem : row.getD i 0 ∈ blockAt BLOCKQ_BLOCK row (i / BLOCKQ_BLOCK) := by
    have h := mem_blockAt hlen hb (Nat.mod_lt i (by decide : 0 < BLOCKQ_BLOCK)) 0
    rwa [hsplit] at h
  have hpos : 0 < (scalesOf exactFp32 row).getD (i / BLOCKQ_BLOCK) 0 :=
    lt_of_lt_of_le (by positivity) hscale
  -- the level is taken under the reconstructed scale and minimum, the range under the exact ones
  obtain ⟨z, hz, hlevel⟩ := level_eq ((minsOf exactFp32 row).getD (i / BLOCKQ_BLOCK) 0) hscale
    (row.getD i 0)
  have hnested := nested_error hpos hz (amin_le hmem)
    (by exact_mod_cast le_amin_add_steps hmem (by norm_num : (0 : ℚ) < 15))
    (minsOf_error hlen hb) (scalesOf_error hlen hb)
  rw [decodeRow_encodeRow exactFp32 id 0 hlen level_le, getD_blockwise _ 0 0 hlen hi]
  have hcast : ((level exactFp32 ((minsOf exactFp32 row).getD (i / BLOCKQ_BLOCK) 0)
      ((scalesOf exactFp32 row).getD (i / BLOCKQ_BLOCK) 0) (row.getD i 0)).toNat : ℚ) = (clip 15 z : ℚ) := by
    exact_mod_cast hlevel
  show |((level exactFp32 _ _ _).toNat : ℚ) * _ + _ - _| ≤ _
  rw [hcast]
  refine hnested.trans (le_of_eq (congrArg _ ?_))
  push_cast
  ring

/-- Nothing of an encoded row is stored clipped or wrapped but the levels, and these are 4 bits. -/
structure CodesInRange (row : List ℚ) (bq_q : List UInt8) (bq_s : List UInt8 × List UInt8)
    (bq_r : ℚ × ℚ × ℚ × ℚ) : Prop where
  levels : ∀ c ∈ unpackRow bq_q, c.toNat ≤ 15
  scales : ∀ b < row.length / BLOCKQ_BLOCK, (bq_s.1.getD b 0).toNat ≤ 255 ∧
    Nearest ((bq_s.1.getD b 0).toNat : ℤ)
      ((blockScale exactFp32 (blockAt BLOCKQ_BLOCK row b) - bq_r.1) / bq_r.2.1)
  mins : ∀ b < row.length / BLOCKQ_BLOCK, (bq_s.2.getD b 0).toNat ≤ 255 ∧
    Nearest ((bq_s.2.getD b 0).toNat : ℤ)
      ((exactFp32.amin (blockAt BLOCKQ_BLOCK row b) - bq_r.2.2.1) / bq_r.2.2.2)

theorem code8Row_blocks_nearest (f : List ℚ → ℚ) (row : List ℚ) {b : Nat}
    (hb : b < row.length / BLOCKQ_BLOCK) :
    Nearest (((code8Row exactFp32 ((blocks BLOCKQ_BLOCK row).map f)).1.getD b 0).toNat : ℤ)
      ((f (blockAt BLOCKQ_BLOCK row b) - (code8Row exactFp32 ((blocks BLOCKQ_BLOCK row).map f)).2.1) /
        (code8Row exactFp32 ((blocks BLOCKQ_BLOCK row).map f)).2.2) := by
  have hcount : (blocks BLOCKQ_BLOCK row).length = row.length / BLOCKQ_BLOCK := length_tabulate _ _
  have h : Nearest _ _ := @code8Row_nearest ((blocks BLOCKQ_BLOCK row).map f) b
    (by rwa [List.length_map, hcount])
  simpa only [List.getElem_map, getElem_blocks] using h

theorem encodeRow_inRange (row : List ℚ) : CodesInRange row (encodeRow exactFp32 BLOCKQ_BLOCK row).1
    (encodeRow exactFp32 BLOCKQ_BLOCK row).2.1 (encodeRow exactFp32 BLOCKQ_BLOCK row).2.2 := by
  have hbyte : ∀ c : UInt8, c.toNat ≤ 255 := fun c => Nat.le_of_lt_succ c.toNat_lt
  refine ⟨fun c hc => unpackRow_le hc, fun b hb => ⟨hbyte _, ?_⟩, fun b hb => ⟨hbyte _, ?_⟩⟩
  · rw [(encodeRow_eq exactFp32 row).2.1, (encodeRow_eq exactFp32 row).2.2]
    exact code8Row_blocks_nearest (blockScale exactFp32) row hb
  · rw [(encodeRow_eq exactFp32 row).2.1, (encodeRow_eq exactFp32 row).2.2]
    exact code8Row_blocks_nearest exactFp32.amin row hb

end Row

/-! ## The matrix -/

/-- For a matrix of whole blocks: what `encode` stores is in range, `decode` reads every row from its
own row of the three tensors, and where every scale it reconstructs is at least `1e-12` a value is off
by no more than half its block's scale or the errors of the two outer quantizations. -/
theorem decode_error_bound (weight : Dense ℚ) (hhidden : weight.hidden % BLOCKQ_BLOCK = 0) :
    (weight.hidden ≠ 0 → ∃ e, encode exactFp32 weight BLOCKQ_BLOCK = .ok e) ∧
    ∀ e, encode exactFp32 weight BLOCKQ_BLOCK = .ok e → ∃ decoded,
      decode exactFp32 id e = .ok decoded ∧ decoded.length = weight.rows.length ∧
      ∀ t < weight.rows.length,
        let row := weight.rows.getD t []
        let bq_q := e.bq_q.rows.getD t []
        let bq_s := e.bq_s.rows.getD t ([], [])
        let bq_r := e.bq_r.rows.getD t (0, 0, 0, 0)
        let sigma := bq_r.2.1
        let mu := bq_r.2.2.2
        let s := affineRow exactFp32 bq_s.1 sigma bq_r.1
        decoded.getD t [] = decodeRow exactFp32 id BLOCKQ_BLOCK bq_q bq_s bq_r ∧
        (bq_q, bq_s, bq_r) = encodeRow exactFp32 BLOCKQ_BLOCK row ∧
        CodesInRange row bq_q bq_s bq_r ∧
        ((∀ b < weight.hidden / BLOCKQ_BLOCK, 1 / 10 ^ 12 ≤ s.getD b 0) → ∀ i < weight.hidden,
          |(decoded.getD t []).getD i 0 - row.getD i 0| ≤
            max (s.getD (i / BLOCKQ_BLOCK) 0 / 2) (mu / 2 + 15 / 2 * sigma)) := by
  refine ⟨fun hpos => ⟨_, encode_ok exactFp32 hhidden hpos⟩, fun e he => ?_⟩
  have hpos : weight.hidden ≠ 0 := fun hzero => by
    rw [encode_no_columns exactFp32 hzero] at he
    cases he
  rw [encode_ok exactFp32 hhidden hpos] at he
  obtain rfl := Except.ok.inj he
  refine ⟨_, decode_encodeRows exactFp32 id hhidden hpos weight.rows, List.length_map _, fun t ht => ?_⟩
  have hread : ∀ {β : Type} (f : List ℚ → β) (d : β),
      (weight.rows.map f).getD t d = f (weight.rows.getD t []) := by
    intro β f d
    rw [List.getD_eq_getElem _ _ (by rwa [List.length_map]), List.getElem_map,
      List.getD_eq_getElem _ _ ht]
  have hlen : (weight.rows.getD t []).length = weight.hidden := by
    rw [List.getD_eq_getElem _ _ ht]
    exact weight.hidden_eq _ (List.getElem_mem ht)
  have hblocks : (weight.rows.getD t []).length = weight.hidden / BLOCKQ_BLOCK * BLOCKQ_BLOCK := by
    rw [hlen, Nat.div_mul_cancel (Nat.dvd_of_mod_eq_zero hhidden)]
  simp only [encodeRows, hread]
  refine ⟨trivial, trivial, encodeRow_inRange _, fun hscales i hi => ?_⟩
  have hb : i / BLOCKQ_BLOCK < weight.hidden / BLOCKQ_BLOCK := by
    rw [Nat.div_lt_iff_lt_mul (by decide), ← hblocks, hlen]
    exact hi
  exact decodeRow_error hblocks (by rwa [hlen]) (hscales _ hb)

/-- One row of a single block, from 0 to 31. -/
def rampWeight : Dense ℚ where
  hidden := 32
  rows := [tabulate 32 fun i => (i : ℚ)]
  hidden_eq := by
    intro row hrow
    rw [List.mem_singleton.mp hrow, length_tabulate]

/-- What is stored of it: a scale of 31 / 15, which is quantized alone and so exactly. -/
theorem rampWeight_stored :
    affineRow exactFp32 (encodeRow exactFp32 BLOCKQ_BLOCK (rampWeight.rows.getD 0 [])).2.1.1
        (encodeRow exactFp32 BLOCKQ_BLOCK (rampWeight.rows.getD 0 [])).2.2.2.1
        (encodeRow exactFp32 BLOCKQ_BLOCK (rampWeight.rows.getD 0 [])).2.2.1 = [31 / 15] ∧
      (encodeRow exactFp32 BLOCKQ_BLOCK (rampWeight.rows.getD 0 [])).2.2 =
        (31 / 15, 1 / 255000000000000, 0, 1 / 255000000000000) := by
  decide +kernel

/-- Every value of it comes back within half its scale. -/
theorem rampWeight_error_bound :
    ∃ e decoded, encode exactFp32 rampWeight BLOCKQ_BLOCK = .ok e ∧
      decode exactFp32 id e = .ok decoded ∧ decoded.length = 1 ∧
      ∀ i < 32, |(decoded.getD 0 []).getD i 0 - i| ≤ 31 / 30 := by
  obtain ⟨hencode, hdecode⟩ := decode_error_bound rampWeight (by decide)
  obtain ⟨e, he⟩ := hencode (by decide)
  obtain ⟨decoded, hok, hlen, hrows⟩ := hdecode e he
  refine ⟨e, decoded, he, hok, hlen, fun i hi => ?_⟩
  obtain ⟨-, hcodes, -, hbound⟩ := hrows 0 (by decide)
  have hscales := congrArg (fun p => p.2.1) hcodes
  have hmeta := congrArg (fun p => p.2.2) hcodes
  dsimp only at hscales hmeta
  obtain ⟨hs, hr⟩ := rampWeight_stored
  rw [hscales, hmeta, hs, hr] at hbound
  have hblock : i / BLOCKQ_BLOCK = 0 := Nat.div_eq_of_lt hi
  have hvalue : (rampWeight.rows.getD 0 []).getD i 0 = i := getD_tabulate hi
  have hfloor : ∀ b < rampWeight.hidden / BLOCKQ_BLOCK, 1 / 10 ^ 12 ≤ ([31 / 15] : List ℚ).getD b 0 := by
    decide +kernel
  have hle := hbound hfloor i hi
  rw [hblock, hvalue] at hle
  exact hle.trans (by norm_num)

end VllmExl3.Embedding
