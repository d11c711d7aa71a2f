/-
# VllmExl3.Yaqa.FixedPoint — the sweep solves its equation

The module docstring of `rounding.py` states what the sweep is for: `V = Q(W + L_Iᵀ D L_O + L_Iᵀ D +
D L_O)` with `D = W - V`. The feedback of a tile reads `D` only below, to the right, and below right
of it, since both factors are strictly block lower triangular; those tiles lie in earlier waves. So
the equations, in the unknowns `D`, are causal for the wave number (`Lib.Wavefront`): they have one
solution and the sweep computes it. What the source adds is in the slices: each wave reads exactly
the part of `D` that the global products reach.
-/
import VllmExl3.Lib.Wavefront
import VllmExl3.Yaqa.Rounding

namespace VllmExl3.Yaqa

variable {R C : Type} [Ring R]

/-! ## The equation -/

/-- Strictly lower triangular in blocks of 16: nothing on or above the block diagonal. -/
def StrictlyLower (m : Nat) (L : Mat R) : Prop :=
  ∀ r < m, ∀ c < m, r / 16 ≤ c / 16 → L r c = 0

/-- `L_Iᵀ D L_O + L_Iᵀ D + D L_O` -/
def feedback (k n : Nat) (L_I L_O D : Mat R) : Mat R := fun r c =>
  matmul k (transpose L_I) D r c + matmul n (matmul k (transpose L_I) D) L_O r c + matmul n D L_O r c

/-- `W + L_Iᵀ D L_O + L_Iᵀ D + D L_O` -/
def fed (k n : Nat) (W L_I L_O D : Mat R) : Mat R := fun r c => W r c + feedback k n L_I L_O D r c

/-- `V = Q(W + L_Iᵀ D L_O + L_Iᵀ D + D L_O)`, `D = W - V`, tile for tile. -/
def SolvesEquation (Q : Tile R → Tile R) (k n : Nat) (W L_I L_O V : Mat R) : Prop :=
  ∀ i < k / 16, ∀ j < n / 16,
    tile V (i * 16) (j * 16) = Q (tile (fed k n W L_I L_O fun r c => W r c - V r c) (i * 16) (j * 16))

/-! ## Slices against whole products -/

/-- A sum whose first `s` terms vanish starts at `s`. -/
theorem sum_range_from {s m : Nat} (hs : s ≤ m) {f : Nat → R} (hf : ∀ x < s, f x = 0) :
    ∑ x ∈ Finset.range m, f x = ∑ x ∈ Finset.range (m - s), f (s + x) := by
  obtain ⟨p, rfl⟩ := Nat.exists_eq_add_of_le hs
  rw [Finset.sum_range_add, Finset.sum_eq_zero fun x hx => hf x (Finset.mem_range.mp hx), zero_add,
    Nat.add_sub_cancel_left]

/-- `L[s:, s : s + 16].T @ D[s:, c:]` is `Lᵀ D` on the rows of block `s / 16`. -/
theorem matmul_slice_left {k i : Nat} {L D : Mat R} (hL : StrictlyLower k L) (hi : i * 16 + 16 ≤ k)
    (c : Nat) {a b : Nat} (ha : a < 16) :
    matmul (k - i * 16) (transpose (slice L (i * 16) (i * 16))) (slice D (i * 16) c) a b
      = matmul k (transpose L) D (i * 16 + a) (c + b) := by
  have above : ∀ x < i * 16, transpose L (i * 16 + a) x * D x (c + b) = 0 := by
    intro x hx
    rw [transpose, hL x (by omega) _ (by omega) (by omega), zero_mul]
  rw [matmul, matmul, sum_range_from (by omega) above]
  rfl

/-- `A[r:, s:] @ L[s:, s : s + 16]` is `A L` on the columns of block `s / 16`. -/
theorem matmul_slice_right {n j : Nat} {L A : Mat R} (hL : StrictlyLower n L) (hj : j * 16 + 16 ≤ n)
    (r : Nat) {a b : Nat} (hb : b < 16) :
    matmul (n - j * 16) (slice A r (j * 16)) (slice L (j * 16) (j * 16)) a b
      = matmul n A L (r + a) (j * 16 + b) := by
  have left : ∀ x < j * 16, A (r + a) x * L x (j * 16 + b) = 0 := by
    intro x hx
    rw [hL x (by omega) _ (by omega) (by omega), mul_zero]
  rw [matmul, matmul, sum_range_from (by omega) left]
  rfl

section Sizes

variable {k n : Nat} {W L_I L_O : Mat R}

/-- **The slices of a wave form the tile of the global feedback**, whatever `D` is. -/
theorem comp_eq (hI : StrictlyLower k L_I) (hO : StrictlyLower n L_O) {i j : Nat} (hi : i < k / 16)
    (hj : j < n / 16) (D : Mat R) :
    comp k n L_I (some L_O) D i j = tile (feedback k n L_I L_O D) (i * 16) (j * 16) := by
  funext a b
  have hik : i * 16 + 16 ≤ k := by omega
  have hjn : j * 16 + 16 ≤ n := by omega
  have input : ∀ y, matmul (k - i * 16) (transpose (slice L_I (i * 16) (i * 16)))
      (slice D (i * 16) (j * 16)) a y = matmul k (transpose L_I) D (i * 16 + a) (j * 16 + y) :=
    fun y => matmul_slice_left hI hik _ a.2
  have both : matmul (n - j * 16) (matmul (k - i * 16) (transpose (slice L_I (i * 16) (i * 16)))
      (slice D (i * 16) (j * 16))) (slice L_O (j * 16) (j * 16)) a b
        = matmul n (matmul k (transpose L_I) D) L_O (i * 16 + a) (j * 16 + b) := by
    rw [← matmul_slice_right hO hjn _ b.2]
    apply Finset.sum_congr rfl
    intro y _
    rw [input y]
    rfl
  have output := matmul_slice_right (A := D) hO hjn (i * 16) (a := a) b.2
  simp only [comp, tile, feedback, input, both, output]

/-- The feedback of a tile reads `D` only below, to the right, and below right of it. -/
theorem feedback_congr (hI : StrictlyLower k L_I) (hO : StrictlyLower n L_O) {D D' : Mat R} {r c : Nat}
    (hr : r < k) (hc : c < n)
    (h : ∀ x < k, ∀ y < n, r / 16 ≤ x / 16 → c / 16 ≤ y / 16 → (r / 16 < x / 16 ∨ c / 16 < y / 16) →
      D x y = D' x y) :
    feedback k n L_I L_O D r c = feedback k n L_I L_O D' r c := by
  have input : ∀ y < n, c / 16 ≤ y / 16 →
      matmul k (transpose L_I) D r y = matmul k (transpose L_I) D' r y := by
    intro y hy hcy
    apply Finset.sum_congr rfl
    intro x hx
    rw [Finset.mem_range] at hx
    by_cases hrx : r / 16 < x / 16
    · rw [h x hx y hy (by omega) hcy (Or.inl hrx)]
    · simp [transpose, hI x hx r hr (by omega)]
  have both : matmul n (matmul k (transpose L_I) D) L_O r c
      = matmul n (matmul k (transpose L_I) D') L_O r c := by
    apply Finset.sum_congr rfl
    intro y hy
    rw [Finset.mem_range] at hy
    by_cases hcy : c / 16 < y / 16
    · rw [input y hy (by omega)]
    · simp [hO y hy c hc (by omega)]
  have output : matmul n D L_O r c = matmul n D' L_O r c := by
    apply Finset.sum_congr rfl
    intro y hy
    rw [Finset.mem_range] at hy
    by_cases hcy : c / 16 < y / 16
    · rw [h r hr y hy (by omega) (by omega) (Or.inr hcy)]
    · simp [hO y hy c hc (by omega)]
  rw [feedback, feedback, input c hc (by omega), both, output]

end Sizes

/-! ## Matrices as assignments of tiles -/

/-- The tiles of a matrix. -/
def tiles (M : Mat R) : Nat × Nat → Tile R := fun p => tile M (p.1 * 16) (p.2 * 16)

/-- The matrix with the given tiles. -/
def untile (f : Nat × Nat → Tile R) : Mat R := fun r c =>
  f (r / 16, c / 16) ⟨r % 16, by omega⟩ ⟨c % 16, by omega⟩

omit [Ring R] in
@[simp] theorem untile_tiles (M : Mat R) : untile (tiles M) = M := by
  funext r c
  have hr : r / 16 * 16 + r % 16 = r := by omega
  have hc : c / 16 * 16 + c % 16 = c := by omega
  simp [untile, tiles, tile, hr, hc]

omit [Ring R] in
/-- Writing one tile replaces that tile and no other. -/
theorem tiles_setTile (M : Mat R) (i j : Nat) (T : Tile R) (p : Nat × Nat) :
    tiles (setTile M (i * 16) (j * 16) T) p = if p = (i, j) then T else tiles M p := by
  obtain ⟨i', j'⟩ := p
  funext a b
  by_cases hp : (i', j') = (i, j)
  · obtain ⟨rfl, rfl⟩ := Prod.mk.inj hp
    have inside : (i' * 16 ≤ i' * 16 + (a : Nat) ∧ i' * 16 + (a : Nat) < i' * 16 + 16) ∧
        j' * 16 ≤ j' * 16 + (b : Nat) ∧ j' * 16 + (b : Nat) < j' * 16 + 16 := by omega
    simp [tiles, tile, setTile, inside]
  · have outside : ¬ ((i * 16 ≤ i' * 16 + (a : Nat) ∧ i' * 16 + (a : Nat) < i * 16 + 16) ∧
        j * 16 ≤ j' * 16 + (b : Nat) ∧ j' * 16 + (b : Nat) < j * 16 + 16) := by
      simp only [Prod.mk.injEq] at hp
      omega
    simp [tiles, tile, setTile, hp, outside]

section Equations

variable (k n : Nat) (W L_I L_O : Mat R)

/-- A tile of the weight. -/
def Inside (p : Nat × Nat) : Prop := p.1 < k / 16 ∧ p.2 < n / 16

/-- The wave of a tile: `d = (tiles_k - 1 - i) + (tiles_n - 1 - j)`. -/
def waveOf (p : Nat × Nat) : Nat := (k / 16 - 1 - p.1) + (n / 16 - 1 - p.2)

/-- What the quantizer is handed for a tile, given the errors. -/
def input (p : Nat × Nat) (f : Nat × Nat → Tile R) : Tile R := tiles (fed k n W L_I L_O (untile f)) p

/-- The error of a tile, given the errors: `W - Q(W + …)`. -/
def errorOf (Q : Tile R → Tile R) (p : Nat × Nat) (f : Nat × Nat → Tile R) : Tile R :=
  fun a b => tiles W p a b - Q (input k n W L_I L_O p f) a b

variable {k n W L_I L_O}

/-- **The dependency of the waves**: a tile's input reads errors of earlier waves only. -/
theorem input_causal (hk : 16 ∣ k) (hn : 16 ∣ n) (hI : StrictlyLower k L_I)
    (hO : StrictlyLower n L_O) : Causal (Inside k n) (waveOf k n) (input k n W L_I L_O) := by
  rintro ⟨i, j⟩ ⟨hi, hj⟩ f g h
  simp only at hi hj
  funext a b
  simp only [input, tiles, tile, fed]
  congr 1
  apply feedback_congr hI hO (by omega) (by omega)
  -- a later row or column block is in an earlier wave, the waves going up from the last corner
  intro x hx y hy hrx hcy hlater
  have hearlier := h (x / 16, y / 16) ⟨by simp only; omega, by simp only; omega⟩ (by
    simp only [waveOf]
    omega)
  simp [untile, hearlier]

theorem errorOf_causal (hk : 16 ∣ k) (hn : 16 ∣ n) (hI : StrictlyLower k L_I)
    (hO : StrictlyLower n L_O) (Q : Tile R → Tile R) :
      Causal (Inside k n) (waveOf k n) (errorOf k n W L_I L_O Q) := by
  intro p hp f g h
  funext a b
  rw [errorOf, errorOf, input_causal hk hn hI hO p hp f g h]

/-- The equation for the rounded weight is the equation for its errors. -/
theorem solvesEquation_iff {Q : Tile R → Tile R} {V : Mat R} :
    SolvesEquation Q k n W L_I L_O V ↔
      Solves (Inside k n) (errorOf k n W L_I L_O Q) (tiles fun r c => W r c - V r c) := by
  constructor
  · rintro h ⟨i, j⟩ ⟨hi, hj⟩
    funext a b
    have hV := congrFun (congrFun (h i hi j hj) a) b
    simp only [errorOf, input, untile_tiles]
    simp only [tiles, tile] at hV ⊢
    rw [hV]
  · intro h i hi j hj
    funext a b
    have hD := congrFun (congrFun (h (i, j) ⟨hi, hj⟩) a) b
    simp only [errorOf, input, untile_tiles] at hD
    simp only [tiles, tile] at hD
    exact sub_right_injective hD

/-- **Uniqueness**: two weights that solve the equation agree inside the shape. -/
theorem SolvesEquation.unique (hk : 16 ∣ k) (hn : 16 ∣ n) (hI : StrictlyLower k L_I)
    (hO : StrictlyLower n L_O) {Q : Tile R → Tile R} {V V' : Mat R} (hV : SolvesEquation Q k n W L_I L_O V)
    (hV' : SolvesEquation Q k n W L_I L_O V') {r c : Nat} (hr : r < k) (hc : c < n) :
    V r c = V' r c := by
  have hp : Inside k n (r / 16, c / 16) := ⟨by simp only; omega, by simp only; omega⟩
  have htile := (errorOf_causal hk hn hI hO Q).unique (solvesEquation_iff.mp hV) (solvesEquation_iff.mp hV') hp
  have hentry : W r c - V r c = W r c - V' r c := by
    have hsame := congrFun (congrFun htile ⟨r % 16, by omega⟩) ⟨c % 16, by omega⟩
    have hr' : r / 16 * 16 + r % 16 = r := by omega
    have hc' : c / 16 * 16 + c % 16 = c := by omega
    simpa [tiles, tile, hr', hc'] using hsame
  exact sub_right_injective hentry

end Equations

/-! ## The waves cover the tiles -/

/-- The tiles of the weight, row by row. -/
def allTiles (k n : Nat) : List (Nat × Nat) := List.range (k / 16) ×ˢ List.range (n / 16)

theorem mem_coords {k n d : Nat} {p : Nat × Nat} :
    p ∈ coords (k / 16) (n / 16) d ↔ Inside k n p ∧ waveOf k n p = d := by
  obtain ⟨i, j⟩ := p
  simp only [coords, List.mem_filterMap, List.mem_reverse, List.mem_range, Inside, waveOf]
  constructor
  · rintro ⟨i', hi', hsome⟩
    split at hsome
    · simp only [Option.some.injEq, Prod.mk.injEq] at hsome
      omega
    · cases hsome
  · rintro ⟨⟨hi, hj⟩, hd⟩
    refine ⟨i, hi, ?_⟩
    rw [if_pos (by omega)]
    simp only [Option.some.injEq, Prod.mk.injEq, true_and]
    omega

theorem nodup_coords (tilesK tilesN d : Nat) : (coords tilesK tilesN d).Nodup := by
  apply List.Nodup.filterMap _ (List.nodup_reverse.mpr List.nodup_range)
  intro i i' p hp hp'
  simp only [Option.mem_def, Option.ite_none_right_eq_some, Option.some.injEq] at hp hp'
  exact congrArg Prod.fst (hp.2.trans hp'.2.symm)

/-- **Every tile is in exactly one wave.** -/
theorem coords_cover (k n : Nat) :
    ((List.range (numWaves k n)).flatMap (coords (k / 16) (n / 16))).Perm (allTiles k n) := by
  have hnodup : ((List.range (numWaves k n)).flatMap (coords (k / 16) (n / 16))).Nodup := by
    rw [List.nodup_flatMap]
    refine ⟨fun d _ => nodup_coords _ _ d, ?_⟩
    apply List.Pairwise.imp _ List.nodup_range
    intro d d' hne p hp hp'
    exact hne ((mem_coords.mp hp).2.symm.trans (mem_coords.mp hp').2)
  have hall : (allTiles k n).Nodup := List.nodup_range.product List.nodup_range
  rw [List.perm_ext_iff_of_nodup hnodup hall]
  rintro ⟨i, j⟩
  simp only [List.mem_flatMap, List.mem_range, mem_coords, numWaves, allTiles, List.mem_product,
    Inside, waveOf]
  constructor
  · rintro ⟨d, -, hp, -⟩
    exact hp
  · intro hp
    exact ⟨_, by omega, hp, rfl⟩

/-! ## What a wave writes -/

section Waves

variable {k n : Nat} {W L_I L_O : Mat R} {ext : TileQuantizer R C} {Q : Tile R → Tile R}
  {code : Tile R → C}

/-- The writes of a batch leave the other tiles as they were. -/
theorem foldl_put_other (l : List ((Nat × Nat) × Tile R × C)) (st : Sweep R C) {p : Nat × Nat}
    (hp : p ∉ l.map Prod.fst) :
    tiles (l.foldl (put W) st).weightQ p = tiles st.weightQ p ∧
    tiles (l.foldl (put W) st).delta p = tiles st.delta p ∧
    (l.foldl (put W) st).encoded p.1 p.2 = st.encoded p.1 p.2 := by
  induction l generalizing st with
  | nil => exact ⟨rfl, rfl, rfl⟩
  | cons q l ih =>
    obtain ⟨⟨i, j⟩, T, c⟩ := q
    simp only [List.map_cons, List.mem_cons, not_or] at hp
    obtain ⟨hne, hrest⟩ := hp
    obtain ⟨hw, hd, he⟩ := ih (put W st ((i, j), T, c)) hrest
    refine ⟨?_, ?_, ?_⟩
    · rw [List.foldl_cons, hw, put, tiles_setTile, if_neg hne]
    · rw [List.foldl_cons, hd, put, tiles_setTile, if_neg hne]
    · rw [List.foldl_cons, he, put]
      simp only [Function.update_apply]
      split
      · next hi =>
        have hj : p.2 ≠ j := fun hj => hne (Prod.ext hi hj)
        simp [hi, hj]
      · rfl

/-- The writes of a batch: the rounded tile, its error and its code. -/
theorem foldl_put_self {l : List ((Nat × Nat) × Tile R × C)} (st : Sweep R C)
    (hl : (l.map Prod.fst).Nodup) {p : Nat × Nat} {T : Tile R} {c : C} (hmem : (p, T, c) ∈ l) :
    tiles (l.foldl (put W) st).weightQ p = T ∧
    (tiles (l.foldl (put W) st).delta p = fun a b => tiles W p a b - T a b) ∧
    (l.foldl (put W) st).encoded p.1 p.2 = c := by
  induction l generalizing st with
  | nil => cases hmem
  | cons q l ih =>
    rw [List.map_cons, List.nodup_cons] at hl
    rcases List.mem_cons.mp hmem with rfl | hmem
    · obtain ⟨hw, hd, he⟩ := foldl_put_other (W := W) l (put W st (p, T, c)) hl.1
      refine ⟨?_, ?_, ?_⟩
      · rw [List.foldl_cons, hw, put, tiles_setTile, if_pos rfl]
      · rw [List.foldl_cons, hd, put, tiles_setTile, if_pos rfl]
        rfl
      · rw [List.foldl_cons, he, put]
        simp
    · exact ih (put W st q) hl.2 hmem

theorem foldl_put_handed (l : List ((Nat × Nat) × Tile R × C)) (st : Sweep R C) :
    (l.foldl (put W) st).handed = st.handed := by
  induction l generalizing st with
  | nil => rfl
  | cons q l ih => rw [List.foldl_cons, ih, put]

/-- The tile a wave hands to the quantizer. -/
def batchTile (k n : Nat) (W L_I : Mat R) (L_O : Option (Mat R)) (delta : Mat R) (p : Nat × Nat) :
    Tile R := fun a b => tile W (p.1 * 16) (p.2 * 16) a b + comp k n L_I L_O delta p.1 p.2 a b

/-- A wave, with the permutations undone and the quantizer read tile by tile. -/
theorem wave_eq (hext : ext.Rounds Q code) (L_O : Option (Mat R)) (st : Sweep R C) (d : Nat) :
    wave ext k n W L_I L_O st d =
      ((coords (k / 16) (n / 16) d).map fun p =>
          (p, Q (batchTile k n W L_I L_O st.delta p), code (batchTile k n W L_I L_O st.delta p))).foldl
        (put W)
        { st with handed := st.handed ++
            (coords (k / 16) (n / 16) d).map fun p => (p, batchTile k n W L_I L_O st.delta p) } := by
  -- `torch.stack` of no tiles raises: an empty wave is passed over
  by_cases hnil : coords (k / 16) (n / 16) d = []
  · simp [wave, hnil]
  · simp only [wave, if_neg hnil, hext.tilewise, List.map_map, Function.comp_def, hext.inverts,
      unflat_flat]
    rw [← List.map_prod_left_eq_zip, ← List.map_prod_left_eq_zip]
    rfl

/-- A tile of the wave gets the rounding of its batch tile, its error and its code. -/
theorem wave_self (hext : ext.Rounds Q code) (W L_I : Mat R) (L_O : Option (Mat R)) (st : Sweep R C)
    {d : Nat} {p : Nat × Nat} (hp : p ∈ coords (k / 16) (n / 16) d) :
    tiles (wave ext k n W L_I L_O st d).weightQ p = Q (batchTile k n W L_I L_O st.delta p) ∧
    (tiles (wave ext k n W L_I L_O st d).delta p
      = fun a b => tiles W p a b - Q (batchTile k n W L_I L_O st.delta p) a b) ∧
    (wave ext k n W L_I L_O st d).encoded p.1 p.2 = code (batchTile k n W L_I L_O st.delta p) := by
  rw [wave_eq hext]
  apply foldl_put_self
  · simpa [Function.comp_def] using nodup_coords (k / 16) (n / 16) d
  · exact List.mem_map.mpr ⟨p, hp, rfl⟩

/-- A tile of another wave stays as it was. -/
theorem wave_other (hext : ext.Rounds Q code) (W L_I : Mat R) (L_O : Option (Mat R)) (st : Sweep R C)
    {d : Nat} {p : Nat × Nat} (hp : p ∉ coords (k / 16) (n / 16) d) :
    tiles (wave ext k n W L_I L_O st d).weightQ p = tiles st.weightQ p ∧
    tiles (wave ext k n W L_I L_O st d).delta p = tiles st.delta p ∧
    (wave ext k n W L_I L_O st d).encoded p.1 p.2 = st.encoded p.1 p.2 := by
  rw [wave_eq hext]
  apply foldl_put_other
  simpa [Function.comp_def] using hp

theorem wave_handed (hext : ext.Rounds Q code) (L_O : Option (Mat R)) (st : Sweep R C) (d : Nat) :
    (wave ext k n W L_I L_O st d).handed = st.handed ++
      (coords (k / 16) (n / 16) d).map fun p => (p, batchTile k n W L_I L_O st.delta p) := by
  rw [wave_eq hext, foldl_put_handed]

end Waves

/-! ## The whole sweep -/

section Run

variable [Zero C] {k n : Nat} {W L_I L_O : Mat R} {ext : TileQuantizer R C} {Q : Tile R → Tile R}
  {code : Tile R → C}

/-- The errors before wave `d`. -/
def errors (ext : TileQuantizer R C) (k n : Nat) (W L_I L_O : Mat R) (d : Nat) : Nat × Nat → Tile R :=
  tiles (waves ext k n W L_I (some L_O) d).delta

theorem waves_succ (L_O : Option (Mat R)) (d : Nat) :
    waves ext k n W L_I L_O (d + 1) = wave ext k n W L_I L_O (waves ext k n W L_I L_O d) d := by
  simp [waves, List.range_succ]

/-- A wave hands the quantizer the inputs of the equation at the errors before it. -/
theorem batchTile_eq (hI : StrictlyLower k L_I) (hO : StrictlyLower n L_O) {p : Nat × Nat}
    (hp : Inside k n p) (d : Nat) :
    batchTile k n W L_I (some L_O) (waves ext k n W L_I (some L_O) d).delta p
      = input k n W L_I L_O p (errors ext k n W L_I L_O d) := by
  funext a b
  simp only [batchTile, comp_eq hI hO hp.1 hp.2, errors, input, untile_tiles]
  rfl

variable (hI : StrictlyLower k L_I) (hO : StrictlyLower n L_O) (hext : ext.Rounds Q code)
include hI hO hext

/-- The errors go through the waves of the equation. -/
theorem errors_wave (d : Nat) :
    Wave (Inside k n) (waveOf k n) (errorOf k n W L_I L_O Q) d (errors ext k n W L_I L_O d)
      (errors ext k n W L_I L_O (d + 1)) where
  updated p hp hd := by
    rw [errors, waves_succ, (wave_self hext _ _ _ _ (mem_coords.mpr ⟨hp, hd⟩)).2.1, batchTile_eq hI hO hp]
    rfl
  kept p _ hd := by
    have hnot : p ∉ coords (k / 16) (n / 16) d := fun h => hd (mem_coords.mp h).2
    rw [errors, waves_succ, (wave_other hext _ _ _ _ hnot).2.1]
    rfl

/-- A tile whose wave has passed holds what its own wave wrote. -/
theorem waves_written {p : Nat × Nat} (hp : Inside k n p) {d : Nat} (hd : waveOf k n p < d) :
    tiles (waves ext k n W L_I (some L_O) d).weightQ p
      = Q (input k n W L_I L_O p (errors ext k n W L_I L_O (waveOf k n p))) ∧
    (waves ext k n W L_I (some L_O) d).encoded p.1 p.2
      = code (input k n W L_I L_O p (errors ext k n W L_I L_O (waveOf k n p))) := by
  induction d with
  | zero => omega
  | succ d ih =>
    -- its own wave writes the tile, and the ones after it leave it
    by_cases heq : waveOf k n p = d
    · obtain ⟨hw, -, hcode⟩ := wave_self hext W L_I (some L_O)
        (waves ext k n W L_I (some L_O) d) (mem_coords.mpr ⟨hp, heq⟩)
      rw [batchTile_eq hI hO hp] at hw hcode
      rw [waves_succ, heq]
      exact ⟨hw, hcode⟩
    · have hnot : p ∉ coords (k / 16) (n / 16) d := fun h => heq (mem_coords.mp h).2
      obtain ⟨hw, -, hcode⟩ := wave_other hext W L_I (some L_O)
        (waves ext k n W L_I (some L_O) d) hnot
      obtain ⟨hw', hcode'⟩ := ih (by omega)
      rw [waves_succ]
      exact ⟨hw.trans hw', hcode.trans hcode'⟩

/-- The batches so far: the tiles of the waves passed, each with the input of its own wave. -/
theorem waves_handed (d : Nat) :
    (waves ext k n W L_I (some L_O) d).handed =
      ((List.range d).flatMap (coords (k / 16) (n / 16))).map fun p =>
        (p, input k n W L_I L_O p (errors ext k n W L_I L_O (waveOf k n p))) := by
  induction d with
  | zero => rfl
  | succ d ih =>
    rw [waves_succ, wave_handed hext, ih, List.range_succ, List.flatMap_append, List.map_append]
    congr 1
    rw [List.flatMap_singleton]
    apply List.map_congr_left
    intro p hp
    obtain ⟨hinside, hd⟩ := mem_coords.mp hp
    rw [batchTile_eq hI hO hinside, hd]

omit hI hO hext in
theorem waveOf_lt {p : Nat × Nat} (hp : Inside k n p) : waveOf k n p < numWaves k n := by
  obtain ⟨hi, hj⟩ := hp
  simp only [waveOf, numWaves]
  omega

/-- At the end each tile's input is the one its own wave saw. -/
theorem input_settled (hk : 16 ∣ k) (hn : 16 ∣ n) {p : Nat × Nat} (hp : Inside k n p) :
    input k n W L_I L_O p (errors ext k n W L_I L_O (waveOf k n p))
      = input k n W L_I L_O p (errors ext k n W L_I L_O (numWaves k n)) :=
  sweep_reads (fun d _ => errors_wave hI hO hext d) (input_causal hk hn hI hO) hp rfl (waveOf_lt hp).le

/-- The errors at the end are those of the rounded weight. -/
theorem errors_eq (hk : 16 ∣ k) (hn : 16 ∣ n) {p : Nat × Nat} (hp : Inside k n p) :
    errors ext k n W L_I L_O (numWaves k n) p
      = tiles (fun r c => W r c - (waves ext k n W L_I (some L_O) (numWaves k n)).weightQ r c) p := by
  have hsolves : Solves (Inside k n) (errorOf k n W L_I L_O Q) (errors ext k n W L_I L_O (numWaves k n)) :=
    sweep_solves (fun d _ => errors_wave hI hO hext d) (errorOf_causal hk hn hI hO Q)
      fun x hx => waveOf_lt hx
  -- the tile was rounded at the errors of its own wave, and its input has not moved since
  have hweight := (waves_written (W := W) hI hO hext hp (waveOf_lt hp)).1
  rw [input_settled hI hO hext hk hn hp] at hweight
  rw [hsolves p hp]
  funext a b
  have hentry := congrFun (congrFun hweight a) b
  simp only [errorOf, ← hentry]
  rfl

/-- What the quantizer was handed for a tile is the input of the equation at the rounded weight. -/
theorem input_final (hk : 16 ∣ k) (hn : 16 ∣ n) {p : Nat × Nat} (hp : Inside k n p) :
    input k n W L_I L_O p (errors ext k n W L_I L_O (waveOf k n p))
      = tiles (fed k n W L_I L_O fun r c =>
          W r c - (waves ext k n W L_I (some L_O) (numWaves k n)).weightQ r c) p := by
  rw [input_settled hI hO hext hk hn hp,
    input_causal hk hn hI hO p hp _ _ fun y hy _ => errors_eq hI hO hext hk hn hy]
  simp only [input, untile_tiles]

end Run

/-! ## One-sided rounding -/

section OneSided

variable {k n : Nat} {L_I : Mat R}

/-- Without an output factor the slices give what the zero factor gives. -/
theorem comp_none (delta : Mat R) (i j : Nat) :
    comp k n L_I none delta i j = comp k n L_I (some fun _ _ => 0) delta i j := by
  funext a b
  simp [comp, tile, matmul, slice]

theorem waves_none [Zero C] (ext : TileQuantizer R C) (W : Mat R) (d : Nat) :
    waves ext k n W L_I none d = waves ext k n W L_I (some fun _ _ => 0) d := by
  have hwave : wave ext k n W L_I none = wave ext k n W L_I (some fun _ _ => 0) := by
    funext st d
    simp only [wave, comp_none]
  rw [waves, waves, hwave]

theorem fed_zero (W D : Mat R) : fed k n W L_I (fun _ _ => 0) D
    = fun r c => W r c + matmul k (transpose L_I) D r c := by
  funext r c
  simp [fed, feedback, matmul]

end OneSided

/-! ## The result -/

/-- **The sweep solves its equation.** Every tile is handed to the quantizer once, with the input the
equation has at the rounded weight; the rounded weight is the one solution; each code is the code of
that input; and without an output factor the sweep is the one with `L_O = 0`, which solves the
one-sided equation. -/
theorem yaqa_round_solves [Zero C] {ext : TileQuantizer R C} {Q : Tile R → Tile R} {code : Tile R → C}
    (hext : ext.Rounds Q code) {k n : Nat} (hk : 16 ∣ k) (hn : 128 ∣ n) (W : Mat R) {L_I L_O : Mat R}
    (hI : StrictlyLower k L_I) (hO : StrictlyLower n L_O) :
    (∃ V encoded, yaqaRound ext k n W L_I (some L_O) = some (V, encoded) ∧
      ((waves ext k n W L_I (some L_O) (numWaves k n)).handed.map Prod.fst).Perm (allTiles k n) ∧
      (∀ p ∈ (waves ext k n W L_I (some L_O) (numWaves k n)).handed,
        p.2 = tile (fed k n W L_I L_O fun r c => W r c - V r c) (p.1.1 * 16) (p.1.2 * 16)) ∧
      SolvesEquation Q k n W L_I L_O V ∧
      (∀ V', SolvesEquation Q k n W L_I L_O V' → ∀ r < k, ∀ c < n, V' r c = V r c) ∧
      ∀ i < k / 16, ∀ j < n / 16,
        encoded i j = code (tile (fed k n W L_I L_O fun r c => W r c - V r c) (i * 16) (j * 16))) ∧
    yaqaRound ext k n W L_I none = yaqaRound ext k n W L_I (some fun _ _ => 0) ∧
    ∃ V encoded, yaqaRound ext k n W L_I none = some (V, encoded) ∧
      ∀ i < k / 16, ∀ j < n / 16, tile V (i * 16) (j * 16)
        = Q (tile (fun r c => W r c + matmul k (transpose L_I) (fun r c => W r c - V r c) r c)
            (i * 16) (j * 16)) := by
  have hn16 : 16 ∣ n := Nat.dvd_trans (by decide) hn
  have hshape : k % 16 = 0 ∧ n % 128 = 0 := ⟨Nat.mod_eq_zero_of_dvd hk, Nat.mod_eq_zero_of_dvd hn⟩
  have hsame : yaqaRound ext k n W L_I none = yaqaRound ext k n W L_I (some fun _ _ => 0) := by
    simp only [yaqaRound, waves_none]
  -- the equation for any strictly lower output factor
  have solves : ∀ {L_O : Mat R}, StrictlyLower n L_O → SolvesEquation Q k n W L_I L_O
      (waves ext k n W L_I (some L_O) (numWaves k n)).weightQ := by
    intro L_O hO i hi j hj
    have hp : Inside k n (i, j) := ⟨hi, hj⟩
    have hweight := (waves_written (W := W) hI hO hext hp (waveOf_lt hp)).1
    rwa [input_final hI hO hext hk hn16 hp] at hweight
  refine ⟨⟨_, _, if_pos hshape, ?_, ?_, solves hO, ?_, ?_⟩, hsame, ?_⟩
  · rw [waves_handed hI hO hext, List.map_map]
    simpa [Function.comp_def] using coords_cover k n
  · intro p hp
    rw [waves_handed hI hO hext] at hp
    obtain ⟨q, hq, rfl⟩ := List.mem_map.mp hp
    obtain ⟨d, -, hd⟩ := List.mem_flatMap.mp hq
    exact input_final hI hO hext hk hn16 (mem_coords.mp hd).1
  · intro V' hV' r hr c hc
    exact hV'.unique hk hn16 hI hO (solves hO) hr hc
  · intro i hi j hj
    have hp : Inside k n (i, j) := ⟨hi, hj⟩
    have hcode := (waves_written (W := W) hI hO hext hp (waveOf_lt hp)).2
    rwa [input_final hI hO hext hk hn16 hp] at hcode
  · have hzero : StrictlyLower n fun _ _ => (0 : R) := fun _ _ _ _ _ => rfl
    refine ⟨_, _, hsame.trans (if_pos hshape), ?_⟩
    simpa only [SolvesEquation, fed_zero] using solves hzero

/-! ## A run -/

/-- Rounding down to multiples of 4, on tiles in the order of the tensor-core fragments: eight values
a thread, two rows by two column halves. -/
def fourQuantizer : TileQuantizer Int (Fin 256 → Int) where
  tensorCorePerm x :=
    ⟨(2 * (x / 8 % 4) + x % 2 + 8 * (x / 2 % 2)) * 16 + (x / 32 + 8 * (x / 4 % 2)), by omega⟩
  tensorCorePermI y :=
    ⟨8 * (4 * (y % 8) + y / 16 % 8 / 2) + (y / 16 % 2 + 2 * (y / 128) + 4 * (y % 16 / 8)), by omega⟩
  quantizeTiles tiles := tiles.map fun v => (fun x => 4 * (v x / 4), fun x => v x / 4)

theorem fourQuantizer_rounds : fourQuantizer.Rounds (fun T a b => 4 * (T a b / 4))
    (fun T x => flat T (fourQuantizer.tensorCorePerm x) / 4) where
  inverts := by decide +kernel
  tilewise tiles := by
    have back : ∀ x, fourQuantizer.tensorCorePermI (fourQuantizer.tensorCorePerm x) = x := by
      decide +kernel
    have reshape : ∀ v : Fin 256 → Int, flat (unflat v) = v := by
      intro v
      funext x
      have hx : 16 * ((x : Nat) / 16) + x % 16 = x := by omega
      simp [flat, unflat, hx]
    apply List.map_congr_left
    intro v _
    have hflat : ∀ x, flat (unflat fun y => v (fourQuantizer.tensorCorePermI y))
        (fourQuantizer.tensorCorePerm x) = v x := by
      intro x
      rw [reshape, back]
    apply Prod.ext
    · funext x
      show 4 * (v x / 4) = 4 * (flat (unflat fun y => v (fourQuantizer.tensorCorePermI y))
        (fourQuantizer.tensorCorePerm x) / 4)
      rw [hflat]
    · funext x
      simp only [hflat]

/-- Feedback one from every later block. -/
def below : Mat Int := fun r c => if c / 16 < r / 16 then 1 else 0

theorem below_strictlyLower (m : Nat) : StrictlyLower m below := by
  intro r _ c _ h
  exact if_neg (by omega)

/-- Two block rows and eight block columns. -/
theorem below_solved : ∃ V encoded,
    yaqaRound fourQuantizer 32 128 (fun r c => (r * c : Int)) below (some below) = some (V, encoded) ∧
    SolvesEquation (fun T a b => 4 * (T a b / 4)) 32 128 (fun r c => (r * c : Int)) below below V := by
  obtain ⟨⟨V, encoded, hrun, -, -, hsolves, -⟩, -⟩ :=
    yaqa_round_solves fourQuantizer_rounds (by decide : 16 ∣ 32) (by decide : 128 ∣ 128)
      (fun r c => (r * c : Int)) (below_strictlyLower 32) (below_strictlyLower 128)
  exact ⟨V, encoded, hrun, hsolves⟩

end VllmExl3.Yaqa
