/-
# VllmExl3.Ops.Tiles — the column tiles of the reconstruct path (`ops.py`)

Which tiles `_reconstruct_mm` decodes, how many, and how much scratch one takes. The loop is the fold
over the starts it visits; the starts are whole blocks inside the weight and cover it, so the tiled
product is the whole one. Rounding the evened width up to a whole block is what can leave the scratch
above `RECONSTRUCT_TILE_MB`: exactly when cutting the column budget down to whole blocks takes more
tiles.
-/
import VllmExl3.Ops.Matmul

namespace VllmExl3.Ops

open Format (TILE HAD_BLOCK Bits bitsFromTrellisShape)
open TensorParallel

/-! ## Ceilings -/

theorem ceilDiv_le_iff {a b c : Nat} (hb : 0 < b) : ceilDiv a b ≤ c ↔ a ≤ c * b := by
  rw [ceilDiv, ← Nat.lt_succ_iff, Nat.div_lt_iff_lt_mul hb, Nat.succ_mul]
  omega

theorem lt_ceilDiv_iff_mul_lt {a b c : Nat} (hb : 0 < b) : c < ceilDiv a b ↔ c * b < a := by
  rw [← Nat.not_le, ceilDiv_le_iff hb, Nat.not_le]

theorem le_ceilDiv_mul (a : Nat) {b : Nat} (hb : 0 < b) : a ≤ ceilDiv a b * b :=
  (ceilDiv_le_iff hb).mp (Nat.le_refl _)

theorem ceilDiv_pos {a b : Nat} (ha : 0 < a) (hb : 0 < b) : 0 < ceilDiv a b := by
  rw [lt_ceilDiv_iff_mul_lt hb, Nat.zero_mul]
  exact ha

/-! ## The width of a tile -/

/-- The columns of `k` half-precision inputs that `RECONSTRUCT_TILE_MB` MiB hold. -/
def columnBudget (reconstruct_tile_mb : Int) (k : Nat) : Nat :=
  reconstruct_tile_mb.toNat * 1024 * 1024 / (k * 2)

/-- The tiles a budget of `budget` columns asks for. -/
def tileCount (budget n : Nat) : Nat := ceilDiv n (max budget HAD_BLOCK)

/-- The evened width of these tiles, rounded up to whole blocks. -/
def evenTile (budget n : Nat) : Nat :=
  min (max (ceilDiv (ceilDiv n (tileCount budget n)) HAD_BLOCK * HAD_BLOCK) HAD_BLOCK) n

/-- What `_reconstruct_tile_n` returns on a weight of whole blocks under a positive budget. -/
theorem reconstructTileN_eq {reconstruct_tile_mb : Int} {k n : Nat} (hmb : 0 < reconstruct_tile_mb)
    (hk : 0 < k) (hn : HAD_BLOCK ∣ n) :
    reconstructTileN reconstruct_tile_mb k n =
      .ok (if n ≤ columnBudget reconstruct_tile_mb k then n
        else evenTile (columnBudget reconstruct_tile_mb k) n) := by
  have hmod := Nat.mod_eq_zero_of_dvd hn
  rw [reconstructTileN, if_neg (by omega), if_neg (by omega)]
  show (if n ≤ columnBudget reconstruct_tile_mb k then Except.ok n else
    .ok (evenTile (columnBudget reconstruct_tile_mb k) n)) = _
  split_ifs <;> rfl

/-- Without a budget the weight is decoded whole. -/
theorem reconstructTileN_whole {reconstruct_tile_mb : Int} (hmb : reconstruct_tile_mb ≤ 0) (k n : Nat) :
    reconstructTileN reconstruct_tile_mb k n = .ok n := by
  rw [reconstructTileN, if_pos (Or.inl hmb)]

theorem tileCount_pos {budget n : Nat} (hn : 0 < n) : 0 < tileCount budget n :=
  ceilDiv_pos hn (Nat.lt_of_lt_of_le (by decide) (Nat.le_max_right _ _))

/-- As many evened tiles as the budget asks for reach the weight's last column. -/
theorem le_tileCount_mul_evenTile (budget : Nat) {n : Nat} (hn : 0 < n) :
    n ≤ tileCount budget n * evenTile budget n := by
  have hcount : 0 < tileCount budget n := tileCount_pos hn
  have heven : ceilDiv n (tileCount budget n) ≤
      ceilDiv (ceilDiv n (tileCount budget n)) HAD_BLOCK * HAD_BLOCK :=
    le_ceilDiv_mul _ (by decide)
  rw [Nat.mul_comm, evenTile, Nat.min_def]
  split_ifs
  · calc n ≤ ceilDiv n (tileCount budget n) * tileCount budget n := le_ceilDiv_mul n hcount
      _ ≤ max (ceilDiv (ceilDiv n (tileCount budget n)) HAD_BLOCK * HAD_BLOCK) HAD_BLOCK *
          tileCount budget n := Nat.mul_le_mul_right _ (heven.trans (Nat.le_max_left _ _))
  · exact Nat.le_mul_of_pos_right n hcount

/-! ## The starts of the tiles -/

/-- The starts the tile loop visits: multiples of the width, the last one pulled back to end at `n`. -/
def tileStarts (n tile_n : Nat) : List Nat :=
  tabulate (ceilDiv n tile_n) fun i => min (i * tile_n) (n - tile_n)

/-- Tiles of whole blocks, each inside the weight, that together cover it. -/
structure TilesCover (n tile_n : Nat) (starts : List Nat) : Prop where
  width_blocks : HAD_BLOCK ∣ tile_n
  start_blocks : ∀ start ∈ starts, HAD_BLOCK ∣ start
  inside : ∀ start ∈ starts, start + tile_n ≤ n
  covered : ∀ j < n, ∃ start ∈ starts, start ≤ j ∧ j < start + tile_n

theorem mem_tileStarts {n tile_n start : Nat} :
    start ∈ tileStarts n tile_n ↔
      ∃ i < ceilDiv n tile_n, start = min (i * tile_n) (n - tile_n) := by
  simp only [tileStarts, tabulate, List.mem_map, List.mem_range, eq_comm]

theorem tileStarts_cover {n tile_n : Nat} (hpos : 0 < tile_n) (hle : tile_n ≤ n)
    (htile : HAD_BLOCK ∣ tile_n) (hn : HAD_BLOCK ∣ n) : TilesCover n tile_n (tileStarts n tile_n) where
  width_blocks := htile
  start_blocks := by
    intro start hstart
    obtain ⟨i, _, rfl⟩ := mem_tileStarts.mp hstart
    rcases Nat.le_total (i * tile_n) (n - tile_n) with h | h
    · rw [Nat.min_eq_left h]
      exact Dvd.dvd.mul_left htile i
    · rw [Nat.min_eq_right h]
      exact Nat.dvd_sub hn htile
  inside := by
    intro start hstart
    obtain ⟨i, _, rfl⟩ := mem_tileStarts.mp hstart
    omega
  covered := by
    -- column `j` lies in tile `j / tile_n`, whose start is pulled back by no more than its width
    intro j hj
    have hfloor := Nat.div_mul_le_self j tile_n
    have hceil := Nat.lt_div_mul_add hpos (a := j)
    refine ⟨_, mem_tileStarts.mpr ⟨j / tile_n, ?_, rfl⟩, ?_, ?_⟩
    · rw [lt_ceilDiv_iff_mul_lt hpos]
      omega
    · omega
    · omega

/-- The evened width takes no more tiles than the budget asks for. -/
theorem length_tileStarts_le {budget n : Nat} (hn : 0 < n) (hpos : 0 < evenTile budget n) :
    (tileStarts n (evenTile budget n)).length ≤ tileCount budget n := by
  rw [tileStarts, length_tabulate, ceilDiv_le_iff hpos]
  exact le_tileCount_mul_evenTile budget hn

section Loop

variable {W R : Type} [CommRing R] (K : Kernels W R)

/-- One pass of the tile loop. -/
def decodeTile (a_had : List (List R)) (trellis : Trellis W) (bits : Bits) (mcg mul1 : Bool)
    (tile_n : Nat) (y : List (List R)) (start : Nat) : Except PyError (List (List R)) := do
  let w ← K.reconstruct_slice tile_n trellis bits mcg mul1 start
  return setCols start y (a_had.map fun row => matmul row w tile_n)

variable {a_had : List (List R)} {trellis : Trellis W} {bits : Bits} {mcg mul1 : Bool} {n tile_n : Nat}

/-- The loop at the offset left by `i` passes folds over the starts still to come. -/
theorem reconstructLoop_from {hpos : 0 < tile_n} (hle : tile_n ≤ n) :
    ∀ (m i : Nat) (y : List (List R)), ceilDiv n tile_n = i + m →
      reconstructLoop K a_had trellis bits mcg mul1 n tile_n hpos y (min (i * tile_n) n) =
        (tabulate m fun j => min ((i + j) * tile_n) (n - tile_n)).foldlM
          (decodeTile K a_had trellis bits mcg mul1 tile_n) y := by
  intro m
  induction m with
  | zero =>
    intro i y hcount
    have hdone : n ≤ i * tile_n := (ceilDiv_le_iff hpos).mp (by omega)
    rw [reconstructLoop, if_neg (by omega)]
    rfl
  | succ m ih =>
    intro i y hcount
    have hlt : i * tile_n < n := (lt_ceilDiv_iff_mul_lt hpos).mp (by omega)
    have hnext : min (min (i * tile_n) n) (n - tile_n) + tile_n = min ((i + 1) * tile_n) n := by
      rw [Nat.succ_mul]
      omega
    have hstart : min (min (i * tile_n) n) (n - tile_n) = min ((i + 0) * tile_n) (n - tile_n) := by
      rw [Nat.add_zero]
      omega
    have htail : (tabulate (m + 1) fun j => min ((i + j) * tile_n) (n - tile_n)) =
        min ((i + 0) * tile_n) (n - tile_n) ::
          tabulate m fun j => min ((i + 1 + j) * tile_n) (n - tile_n) := by
      rw [tabulate, tabulate, List.range_succ_eq_map, List.map_cons, List.map_map]
      refine congrArg _ (List.map_congr_left fun j _ => ?_)
      rw [Function.comp_apply, Nat.succ_eq_add_one, Nat.add_right_comm, Nat.add_assoc]
    rw [reconstructLoop, if_pos (by omega), htail, List.foldlM_cons]
    dsimp only
    rw [hnext, hstart, decodeTile]
    cases K.reconstruct_slice tile_n trellis bits mcg mul1 (min ((i + 0) * tile_n) (n - tile_n)) with
    | error err => rfl
    | ok w => exact ih (i + 1) _ (by omega)

/-- The tile loop makes one pass over each of `tileStarts` and stops. -/
theorem reconstructLoop_eq {hpos : 0 < tile_n} (hle : tile_n ≤ n) (y : List (List R)) :
    reconstructLoop K a_had trellis bits mcg mul1 n tile_n hpos y 0 =
      (tileStarts n tile_n).foldlM (decodeTile K a_had trellis bits mcg mul1 tile_n) y := by
  have h : reconstructLoop K a_had trellis bits mcg mul1 n tile_n hpos y (min (0 * tile_n) n) = _ :=
    reconstructLoop_from K hle (ceilDiv n tile_n) 0 y (Nat.zero_add _).symm
  rw [Nat.zero_mul, Nat.zero_min] at h
  simpa only [Nat.zero_add, tileStarts] using h

end Loop

/-! ## The tiled decode -/

section Decode

variable {W R : Type} [CommRing R]

/-- A weight with input rows is decoded whole or over tiles of whole blocks that cover it, no more of
them than the column budget asks for, and the product is the one of the whole decode. -/
theorem reconstruct_tiles_cover (K : Kernels W R) (hK : K.Contract)
    (hcount : ∀ a pre post y, K.had_r_128 a pre post = .ok y → y.length = a.length)
    (reconstruct_tile_mb : Int) :
    (∀ k n, 0 < k → HAD_BLOCK ∣ n → ∃ tile_n ≤ n,
      reconstructTileN reconstruct_tile_mb k n = .ok tile_n ∧
      (tile_n < n → ∃ hpos : 0 < tile_n, TilesCover n tile_n (tileStarts n tile_n) ∧
        (tileStarts n tile_n).length ≤ ceilDiv n (max (columnBudget reconstruct_tile_mb k) HAD_BLOCK) ∧
        ∀ a_had (trellis : Trellis W) bits mcg mul1 y,
          reconstructLoop K a_had trellis bits mcg mul1 n tile_n hpos y 0 =
            (tileStarts n tile_n).foldlM (decodeTile K a_had trellis bits mcg mul1 tile_n) y)) ∧
    ∀ (L : Linear W R) a, 0 < L.trellis.rows → HAD_BLOCK ∣ TILE * L.trellis.cols →
      reconstructMm K reconstruct_tile_mb a L.trellis L.suh L.svh L.mcg.isSome L.mul1.isSome =
        reconstructMm K 0 a L.trellis L.suh L.svh L.mcg.isSome L.mul1.isSome := by
  refine ⟨fun k n hk hn => ?_, fun L a hrows hn => ?_⟩
  · rcases Int.lt_or_le 0 reconstruct_tile_mb with hmb | hmb
    · rw [reconstructTileN_eq hmb hk hn]
      split_ifs with hbudget
      · exact ⟨n, Nat.le_refl n, rfl, fun h => absurd h (Nat.lt_irrefl n)⟩
      · refine ⟨_, Nat.min_le_right _ _, rfl, fun hlt => ?_⟩
        have hblocks : 0 < evenTile _ n ∧ HAD_BLOCK ∣ evenTile _ n :=
          whole_blocks (Nat.dvd_mul_left _ _) hlt
        exact ⟨hblocks.1, tileStarts_cover hblocks.1 hlt.le hblocks.2 hn,
          length_tileStarts_le (Nat.lt_of_le_of_lt (Nat.zero_le _) hlt) hblocks.1,
          fun _ _ _ _ _ y => reconstructLoop_eq K hlt.le y⟩
    · exact ⟨n, Nat.le_refl n, reconstructTileN_whole hmb k n, fun h => absurd h (Nat.lt_irrefl n)⟩
  · have hpos : 0 < TILE * L.trellis.rows := Nat.mul_pos (by decide) hrows
    have hlen : ∀ a_had, K.had_r_128 a (some L.suh) none = .ok a_had → a_had.length = a.length :=
      hcount a (some L.suh) none
    rw [reconstructMm_whole hK hn (Or.inl hpos) hlen,
      reconstructMm_whole hK hn (Or.inr (Int.le_refl 0)) hlen]

omit [CommRing R] in
theorem length_eq_of_mapM_ok {f : List R → Except PyError (List R)} {a y : List (List R)}
    (h : a.mapM f = .ok y) : y.length = a.length :=
  (mapM_eq_ok h).length_eq.symm

theorem zeroLinear_tiles_cover :
    (∃ tile_n ≤ 17408, reconstructTileN 32 5120 17408 = .ok tile_n) ∧
      ∀ a, reconstructMm (Kernels.exact zeroStateExt) 32 a zeroLinear.trellis zeroLinear.suh
          zeroLinear.svh false false =
        reconstructMm (Kernels.exact zeroStateExt) 0 a zeroLinear.trellis zeroLinear.suh zeroLinear.svh
          false false := by
  obtain ⟨htiles, hproduct⟩ := reconstruct_tiles_cover (Kernels.exact zeroStateExt)
    (Kernels.exact_contract zeroStateExt) (fun _ _ _ _ h => length_eq_of_mapM_ok h) 32
  obtain ⟨tile_n, hle, hok, _⟩ := htiles 5120 17408 (by decide) (by decide)
  exact ⟨⟨tile_n, hle, hok⟩, fun a => hproduct zeroLinear a (by decide) (by decide)⟩

end Decode

theorem length_ones : (List.replicate 128 (1 : Rat)).length = TILE * (zeroTrellis 0 8 3).cols :=
  List.length_replicate

/-- A linear of no input rows and 128 outputs. -/
def noRows : Linear Nat Rat where
  trellis := zeroTrellis 0 8 3
  suh := []
  svh := List.replicate 128 1
  mcg := none
  mul1 := none
  suh_eq := rfl
  svh_eq := length_ones

theorem noRows_loaded : Loaded noRows where
  in_aligned := by decide
  out_aligned := by decide
  bits_ok := ⟨.int 3, by decide⟩

/-- With no input rows a positive budget divides by zero, and the whole decode gives a product. -/
theorem noRows_tiled_differs :
    (Kernels.exact zeroStateExt).Contract ∧ HAD_BLOCK ∣ TILE * noRows.trellis.cols ∧
      reconstructMm (Kernels.exact zeroStateExt) 32 [[]] noRows.trellis noRows.suh noRows.svh false
        false = .error .zeroDivision ∧
      ∃ y, reconstructMm (Kernels.exact zeroStateExt) 0 [[]] noRows.trellis noRows.suh noRows.svh false
        false = .ok y :=
  ⟨Kernels.exact_contract zeroStateExt, by decide, rfl,
    ⟨_, reconstructMm_ok (Kernels.exact_contract zeroStateExt) noRows_loaded (Or.inr (by decide))
      (by decide)⟩⟩

/-! ## The scratch of one tile -/

/-- One tile's scratch, `2 * k * tile_n` bytes, is inside the budget, or one tile of 128 columns is
over it and is the one decoded. -/
def ScratchWithin (reconstruct_tile_mb : Int) (k n : Nat) : Prop :=
  ∃ tile_n, reconstructTileN reconstruct_tile_mb k n = .ok tile_n ∧
    (2 * k * tile_n ≤ reconstruct_tile_mb.toNat * 1024 * 1024 ∨
      reconstruct_tile_mb.toNat * 1024 * 1024 < 2 * k * HAD_BLOCK ∧ tile_n = HAD_BLOCK)

theorem scratch_le_iff {reconstruct_tile_mb : Int} {k tile_n : Nat} (hk : 0 < k) :
    2 * k * tile_n ≤ reconstruct_tile_mb.toNat * 1024 * 1024 ↔
      tile_n ≤ columnBudget reconstruct_tile_mb k := by
  rw [columnBudget, Nat.le_div_iff_mul_le (by omega), Nat.mul_comm 2 k, Nat.mul_comm tile_n]

/-- Under a budget of less than a block the tiles are single blocks. -/
theorem evenTile_narrow {budget n : Nat} (hbudget : budget < HAD_BLOCK) (hn : HAD_BLOCK ≤ n) :
    evenTile budget n = HAD_BLOCK := by
  have hcount : tileCount budget n = ceilDiv n HAD_BLOCK := by
    rw [tileCount, Nat.max_eq_right hbudget.le]
  have hpos : 0 < tileCount budget n := tileCount_pos (Nat.lt_of_lt_of_le (by decide) hn)
  have hone : ceilDiv (ceilDiv n (tileCount budget n)) HAD_BLOCK ≤ 1 := by
    rw [ceilDiv_le_iff (by decide), Nat.one_mul, ceilDiv_le_iff hpos, Nat.mul_comm, hcount]
    exact le_ceilDiv_mul n (by decide)
  have hwidth : ceilDiv (ceilDiv n (tileCount budget n)) HAD_BLOCK * HAD_BLOCK ≤ HAD_BLOCK := by
    simpa using Nat.mul_le_mul_right HAD_BLOCK hone
  rw [evenTile, Nat.max_eq_right hwidth, Nat.min_eq_left hn]

/-- The evened width is inside the budget exactly when the budget's whole blocks, taken as often, reach
the last column. -/
theorem evenTile_le_iff {budget n : Nat} (hbudget : HAD_BLOCK ≤ budget) (hlt : budget < n) :
    evenTile budget n ≤ budget ↔ n ≤ ceilDiv n budget * (budget / HAD_BLOCK * HAD_BLOCK) := by
  have hcount : tileCount budget n = ceilDiv n budget := by
    rw [tileCount, Nat.max_eq_left hbudget]
  have hpos : 0 < tileCount budget n := tileCount_pos (Nat.lt_of_le_of_lt (Nat.zero_le _) hlt)
  have hmax : evenTile budget n ≤ budget ↔
      ceilDiv (ceilDiv n (tileCount budget n)) HAD_BLOCK * HAD_BLOCK ≤ budget := by
    rw [evenTile]
    omega
  rw [hmax, ← Nat.le_div_iff_mul_le (by decide), ceilDiv_le_iff (by decide), ceilDiv_le_iff hpos, hcount,
    Nat.mul_comm (ceilDiv n budget)]

/-- The scratch of one tile stays within `RECONSTRUCT_TILE_MB` exactly when the column budget is less
than a block, or when cutting it down to whole blocks takes no more tiles to cover the weight. -/
theorem reconstruct_scratch_within_iff (reconstruct_tile_mb : Int) (k n : Nat)
    (hmb : 0 < reconstruct_tile_mb) (hk : 1 ≤ k) (hn : HAD_BLOCK ∣ n) :
    ScratchWithin reconstruct_tile_mb k n ↔
      columnBudget reconstruct_tile_mb k < HAD_BLOCK ∨
        n ≤ ceilDiv n (columnBudget reconstruct_tile_mb k) *
          (columnBudget reconstruct_tile_mb k / HAD_BLOCK * HAD_BLOCK) := by
  have hover : reconstruct_tile_mb.toNat * 1024 * 1024 < 2 * k * HAD_BLOCK ↔
      columnBudget reconstruct_tile_mb k < HAD_BLOCK := by
    rw [← Nat.not_le, scratch_le_iff hk, Nat.not_le]
  simp only [ScratchWithin, reconstructTileN_eq hmb hk hn, Except.ok.injEq, exists_eq_left',
    scratch_le_iff hk, hover]
  generalize columnBudget reconstruct_tile_mb k = budget
  split_ifs with hwhole
  · -- the weight fits whole, and so does it in the budget's whole blocks
    refine iff_of_true (Or.inl hwhole) ?_
    rcases Nat.eq_zero_or_pos n with rfl | hpos
    · exact Or.inr (Nat.zero_le _)
    · obtain ⟨m, rfl⟩ := hn
      have hblocks : m ≤ budget / HAD_BLOCK := by
        rw [Nat.le_div_iff_mul_le (by decide), Nat.mul_comm]
        exact hwhole
      have hone : 0 < ceilDiv (HAD_BLOCK * m) budget := ceilDiv_pos hpos (by omega)
      refine Or.inr ?_
      calc HAD_BLOCK * m ≤ budget / HAD_BLOCK * HAD_BLOCK := by
            rw [Nat.mul_comm]
            exact Nat.mul_le_mul_right _ hblocks
        _ ≤ ceilDiv (HAD_BLOCK * m) budget * (budget / HAD_BLOCK * HAD_BLOCK) :=
            Nat.le_mul_of_pos_left _ hone
  · have hlt := Nat.lt_of_not_le hwhole
    rcases Nat.lt_or_ge budget HAD_BLOCK with hnarrow | hblock
    · have hle : HAD_BLOCK ≤ n := Nat.le_of_dvd (by omega) hn
      exact iff_of_true (Or.inr ⟨hnarrow, evenTile_narrow hnarrow hle⟩) (Or.inl hnarrow)
    · rw [evenTile_le_iff hblock hlt, or_iff_left fun h => Nat.not_lt.mpr hblock h.1,
        or_iff_right (Nat.not_lt.mpr hblock)]

/-- 5120 inputs into 17408 outputs stay within 32 MiB. -/
theorem scratch_17408_within : ScratchWithin 32 5120 17408 :=
  (reconstruct_scratch_within_iff 32 5120 17408 (by decide) (by decide) (by decide)).mpr (by decide)

/-- 5120 inputs into 248320 outputs do not: a tile of 3328 columns takes 32.5 MiB. -/
theorem scratch_248320_over :
    reconstructTileN 32 5120 248320 = .ok 3328 ∧ ¬ScratchWithin 32 5120 248320 := by
  have htile : reconstructTileN 32 5120 248320 = .ok 3328 := by decide
  refine ⟨htile, ?_⟩
  rintro ⟨tile_n, hok, hwithin⟩
  rw [htile] at hok
  obtain rfl := Except.ok.inj hok
  exact absurd hwithin (by decide)

end VllmExl3.Ops
