/-
# VllmExl3.FusedMoe.Divisor — the divisor folded into the up projections comes back out

exllamav3 divides a routed expert's up projection by a power of two when it quantizes, and the plugin
multiplies a layer's output by the power it measures on the scales (`_interm_divisor`). The layer is linear
in those scales (`mixture_scaleUp`), and folding a power of two scales every measured ratio, so the median,
by it. Where the original experts' median ratio is near enough to one, what is measured is the power that
was folded, and the served output is the original experts' (`moe_layer_compensates`).
-/
import VllmExl3.FusedMoe.Exact
import VllmExl3.Format.IntermDivisor

namespace VllmExl3.FusedMoe

open Format (TILE HAD_BLOCK Bits Splits)
open TensorParallel

variable {W R : Type}

/-! ## Scaling an up projection -/

section Scale

variable [CommRing R] {ext : Exllamav3 W R} {act : R → R} {c : R}

/-- Every entry times `c`. -/
def scale (c : R) (xs : List R) : List R := xs.map (· * c)

@[simp] theorem length_scale (c : R) (xs : List R) : (scale c xs).length = xs.length := List.length_map _

@[simp] theorem getD_scale (c : R) (xs : List R) (i : Nat) : (scale c xs).getD i 0 = xs.getD i 0 * c := by
  rw [scale, List.getD_eq_getElem?_getD, List.getD_eq_getElem?_getD, List.getElem?_map]
  cases xs[i]? <;> simp

theorem scale_tabulate (c : R) (n : Nat) (f : Nat → R) :
    scale c (tabulate n f) = tabulate n fun j => f j * c := map_tabulate _ _ _

theorem scale_scale (c d : R) (xs : List R) : scale d (scale c xs) = scale (c * d) xs := by
  simp only [scale, List.map_map]
  refine List.map_congr_left fun x _ => ?_
  rw [Function.comp_apply, mul_assoc]

theorem scale_one (xs : List R) : scale 1 xs = xs := by
  simp [scale]

theorem zipWith_scale_left (c : R) (xs ys : List R) :
    List.zipWith (· * ·) (scale c xs) ys = scale c (List.zipWith (· * ·) xs ys) := by
  rw [scale, scale, List.zipWith_map_left, List.map_zipWith]
  simp only [mul_right_comm]

theorem zipWith_scale_right (c : R) (xs ys : List R) :
    List.zipWith (· * ·) xs (scale c ys) = scale c (List.zipWith (· * ·) xs ys) := by
  rw [scale, scale, List.zipWith_map_right, List.map_zipWith]
  simp only [mul_assoc]

/-- `had_right` is linear. -/
theorem hadRight_scale (rsqrt : Nat → R) (block : Nat) (xs : List R) :
    hadRight rsqrt block (scale c xs) = (hadRight rsqrt block xs).map (scale c) := by
  unfold hadRight
  rw [length_scale]
  split_ifs
  · rfl
  · cases hadamard rsqrt block with
    | error err => rfl
    | ok had =>
      refine congrArg Except.ok ?_
      rw [scale_tabulate]
      refine tabulate_congr fun j _ => ?_
      simp only [getD_scale, blockMul, Finset.sum_mul, mul_right_comm]

theorem matmul_scale (xs : List R) (w : List (List R)) (n : Nat) :
    matmul (scale c xs) w n = scale c (matmul xs w n) := by
  rw [matmul, matmul, length_scale, scale_tabulate]
  refine tabulate_congr fun j _ => ?_
  simp only [getD_scale, vecMul, Finset.sum_mul, mul_right_comm]

/-- The layer is linear in the product of its input and its input scales. -/
theorem layer_scale {x x' suh suh' svh : List R} (t : Trellis W) (mcg mul1 : Bool)
    (h : List.zipWith (· * ·) x' suh' = scale c (List.zipWith (· * ·) x suh)) :
    layer ext x' t suh' svh mcg mul1 = (layer ext x t suh svh mcg mul1).map (scale c) := by
  rw [layer, layer, h, hadRight_scale]
  cases hadRight ext.rsqrt HAD_BLOCK (List.zipWith (· * ·) x suh) with
  | error err => rfl
  | ok a =>
    simp only [Except.map, ok_bind, matmul_scale, hadRight_scale]
    cases hadRight ext.rsqrt HAD_BLOCK (matmul a (reconstruct ext t mcg mul1) (TILE * t.cols)) with
    | error err => rfl
    | ok y => exact congrArg Except.ok (zipWith_scale_left c y svh)

/-- A linear with its input scales multiplied by `c`. -/
def scaleLinear (c : R) (L : Linear W R) : Linear W R :=
  { L with suh := scale c L.suh, suh_eq := by rw [length_scale, L.suh_eq] }

/-- An expert with its up projection's input scales multiplied by `c`. -/
def scaleExpert (c : R) (E : Expert W R) : Expert W R :=
  { E with up := scaleLinear c E.up, up_rows := E.up_rows, up_cols := E.up_cols }

theorem forward_scaleLinear (L : Linear W R) (x : List R) :
    (scaleLinear c L).forward ext x = (L.forward ext x).map (scale c) :=
  layer_scale L.trellis _ _ (zipWith_scale_right c x L.suh)

theorem forward_scale (L : Linear W R) (x : List R) :
    L.forward ext (scale c x) = (L.forward ext x).map (scale c) :=
  layer_scale L.trellis _ _ (zipWith_scale_left c x L.suh)

theorem gated_scale (g u : List R) : gated act g (scale c u) = scale c (gated act g u) := by
  rw [gated, gated, scale, scale, List.zipWith_map_right, List.map_zipWith]
  simp only [mul_assoc]

/-- An expert is linear in the scales of its up projection. -/
theorem forward_scaleExpert (E : Expert W R) (x : List R) :
    (scaleExpert c E).forward ext act x = (E.forward ext act x).map (scale c) := by
  show (E.gate.forward ext x >>= fun g => (scaleLinear c E.up).forward ext x >>= fun u =>
    E.down.forward ext (gated act g u)) = _
  rw [Expert.forward, forward_scaleLinear]
  cases E.gate.forward ext x with
  | error err => rfl
  | ok g =>
    cases E.up.forward ext x with
    | error err => rfl
    | ok u =>
      simp only [Except.map, ok_bind, gated_scale]
      exact forward_scale E.down (gated act g u)

theorem linearOf_scaleExpert_shapes (E : Expert W R) (shard_id : ShardId) :
    (linearOf (scaleExpert c E) shard_id).trellis = (linearOf E shard_id).trellis ∧
      (linearOf (scaleExpert c E) shard_id).subTensors.map Prod.fst =
        (linearOf E shard_id).subTensors.map Prod.fst := by
  cases shard_id
  · exact ⟨rfl, rfl⟩
  · refine ⟨rfl, ?_⟩
    simp [linearOf, scaleExpert, scaleLinear, Linear.subTensors]
  · exact ⟨rfl, rfl⟩

/-- A checkpoint with every up projection's input scales multiplied by `c`. -/
def Checkpoint.scaleUp (c : R) (C : Checkpoint W R) : Checkpoint W R where
  names := C.names
  experts := C.experts.map (scaleExpert c)
  hidden := C.hidden
  interm := C.interm
  stores := by
    intro E hE shard_id
    obtain ⟨E', hE', rfl⟩ := List.mem_map.mp hE
    rw [(linearOf_scaleExpert_shapes E' shard_id).2]
    exact C.stores E' hE' shard_id
  hidden_eq := by
    intro E hE
    obtain ⟨E', hE', rfl⟩ := List.mem_map.mp hE
    exact C.hidden_eq E' hE'
  interm_eq := by
    intro E hE
    obtain ⟨E', hE', rfl⟩ := List.mem_map.mp hE
    exact C.interm_eq E' hE'
  hidden_dvd := C.hidden_dvd
  interm_dvd := C.interm_dvd

theorem expertForward_scaleUp (C : Checkpoint W R) (row : List R) (e : Nat) :
    expertForward ext act (C.scaleUp c).experts row e =
      (expertForward ext act C.experts row e).map (scale c) := by
  show expertForward ext act (C.experts.map (scaleExpert c)) row e = _
  rw [expertForward, expertForward, List.getElem?_map]
  cases C.experts[e]? with
  | none => rfl
  | some E => exact forward_scaleExpert E row

/-- So is a token's output, -/
theorem tokenMixture_scaleUp (C : Checkpoint W R) (row : List R) (ids : List Nat) (weights : List R) :
    tokenMixture ext act (C.scaleUp c) row ids weights =
      (tokenMixture ext act C row ids weights).map (scale c) := by
  have hcalls : ids.mapM (expertForward ext act (C.scaleUp c).experts row) =
      (ids.mapM (expertForward ext act C.experts row)).map (List.map (scale c)) := by
    rw [← mapM_map_ok, mapM_congr fun e _ => expertForward_scaleUp C row e]
  rw [tokenMixture, tokenMixture, hcalls]
  cases ids.mapM (expertForward ext act C.experts row) with
  | error err => rfl
  | ok ys =>
    refine congrArg Except.ok ?_
    show tabulate C.hidden _ = scale c (tabulate C.hidden _)
    rw [scale_tabulate]
    refine tabulate_congr fun col _ => ?_
    have hzip : List.zipWith (fun w y => w * List.getD y col 0) weights (ys.map (scale c)) =
        (List.zipWith (fun w y => w * y.getD col 0) weights ys).map (· * c) := by
      rw [List.zipWith_map_right, List.map_zipWith]
      simp only [getD_scale, mul_assoc]
    rw [hzip, List.sum_map_mul_right, List.map_id']

/-- and a batch's. -/
theorem mixture_scaleUp (C : Checkpoint W R) (rows : List (List R)) (routing : Routing R) :
    mixture ext act (C.scaleUp c) rows routing =
      (mixture ext act C rows routing).map (List.map (scale c)) := by
  rw [mixture, mixture, ← mapM_map_ok]
  exact mapM_congr fun token _ => tokenMixture_scaleUp C token.1 token.2.1 token.2.2

end Scale

/-! ## The measured ratio -/

section Measured

open Format

variable {C : Checkpoint W ℝ}

/-- The entries of a scale vector. -/
def entries : Tensor W R → List R
  | .scale v => v
  | _ => []

/-- `_interm_divisor` on the tables' tensors; `raised` is what its errors are raised as, and
`torch.stack` refuses an empty list. -/
noncomputable def measuredDivisor (S : Shown ℝ) (raised : DivisorError → PyError)
    (gate_suh up_suh : List (Tensor W ℝ)) : Except PyError ℝ :=
  match intermDivisor exact S (gate_suh.map entries) (up_suh.map entries) with
  | some (.ok d) => .ok d
  | some (.error err) => .error (raised err)
  | none => .error (.runtime "stack expects a non-empty TensorList")

/-- The ratio that is measured on one expert. -/
noncomputable def expertRatio (E : Expert W ℝ) : Ratio ℝ :=
  quotient (meanAbs E.gate.suh) (meanAbs E.up.suh)

/-- A ratio times a number. -/
def times (k : ℝ) : Ratio ℝ → Ratio ℝ
  | .finite x => .finite (x * k)
  | ratio => ratio

theorem meanAbs_scale {c : ℝ} (hc : 0 < c) (v : List ℝ) : meanAbs (scale c v) = times c (meanAbs v) := by
  unfold meanAbs
  rw [length_scale]
  split_ifs
  · rfl
  · have habs : (scale c v).map (fun x => |x|) = (v.map fun x => |x|).map (· * c) := by
      rw [scale, List.map_map, List.map_map]
      refine List.map_congr_left fun x _ => ?_
      rw [Function.comp_apply, Function.comp_apply, abs_mul, abs_of_pos hc]
    rw [habs, List.sum_map_mul_right, List.map_id', times, div_mul_eq_mul_div]

theorem quotient_times {c : ℝ} (hc : 0 < c) (a b : Ratio ℝ) :
    quotient a (times c b) = times c⁻¹ (quotient a b) := by
  cases a with
  | infinite positive => cases b <;> rfl
  | nan => cases b <;> rfl
  | finite x =>
    cases b with
    | infinite positive => rfl
    | nan => rfl
    | finite y =>
      simp only [times, quotient]
      by_cases hy : y = 0
      · rw [if_pos (by rw [hy, zero_mul]), if_pos hy]
        split_ifs <;> rfl
      · rw [if_neg (mul_ne_zero hy hc.ne'), if_neg hy]
        exact congrArg Ratio.finite (by rw [← div_div, div_eq_mul_inv (x / y)])

/-- Folding divides every measured ratio's denominator. -/
theorem expertRatio_scaleExpert {c : ℝ} (hc : 0 < c) (E : Expert W ℝ) :
    expertRatio (scaleExpert c E) = times c⁻¹ (expertRatio E) := by
  show quotient (meanAbs E.gate.suh) (meanAbs (scale c E.up.suh)) = _
  rw [meanAbs_scale hc, quotient_times hc, expertRatio]

theorem le_times {k : ℝ} (hk : 0 < k) (a b : Ratio ℝ) :
    Ratio.le (times k a) (times k b) ↔ Ratio.le a b := by
  cases a <;> cases b <;> simp [times, Ratio.le, hk]

/-- The median is of the order, which a positive factor keeps. -/
theorem median_times {k : ℝ} (hk : 0 < k) (ratios : List (Ratio ℝ)) :
    median (ratios.map (times k)) = (median ratios).map (times k) := by
  have hnan : .nan ∈ ratios.map (times k) ↔ .nan ∈ ratios := by
    rw [List.mem_map]
    constructor
    · rintro ⟨ratio, hmem, hratio⟩
      cases ratio with
      | nan => exact hmem
      | finite x => cases hratio
      | infinite positive => cases hratio
    · exact fun hmem => ⟨_, hmem, rfl⟩
  have hcond : .nan ∈ ratios.map (times k) ∧ ratios.map (times k) ≠ [] ↔ .nan ∈ ratios ∧ ratios ≠ [] :=
    and_congr hnan List.map_eq_nil_iff.not
  rw [median, median]
  by_cases hbad : .nan ∈ ratios ∧ ratios ≠ []
  · rw [if_pos (hcond.mpr hbad), if_pos hbad]
    rfl
  · rw [if_neg (hcond.not.mpr hbad), if_neg hbad, List.length_map, ← List.getElem?_map,
      List.map_insertionSort _ _ _ ratios fun a _ b _ => (le_times hk a b).symm]

/-- The median of the ratios of a checkpoint's experts. -/
noncomputable def Checkpoint.ratio (C : Checkpoint W ℝ) : Option (Ratio ℝ) :=
  median (C.experts.map expertRatio)

/-- The factor that folding the divisor `2 ^ m` multiplies the scales by. -/
noncomputable def folding (m : ℕ) : ℝ := ((2 : ℕ) ^ m : ℝ)⁻¹

theorem folding_pos (m : ℕ) : 0 < folding m := by
  rw [folding]
  positivity

/-- The exponent of the original ratio is near enough to zero for `2 ^ m` to be recovered: within the
tolerance, or, where nothing was folded, within a half. -/
def Recoverable (r : ℝ) (m : ℕ) : Prop :=
  m = 0 ∧ |exact.log2 r| ≤ ((2 : ℕ) : ℝ)⁻¹ ∨
    0 < m ∧ m < 1024 ∧ |exact.log2 r| ≤ exact.DIVISOR_LOG2_TOLERANCE

/-- What is measured on a folded checkpoint is the power that was folded. -/
theorem measured_scaleUp (S : Shown ℝ) (raised : DivisorError → PyError) {r : ℝ} {m : ℕ} (hr : 0 < r)
    (hmedian : C.ratio = some (.finite r)) (hrecoverable : Recoverable r m) :
    measuredDivisor S raised (C.scaleUp (folding m)).gateSuh (C.scaleUp (folding m)).upSuh =
      .ok (2 ^ m) := by
  have hpow : (0 : ℝ) < 2 ^ m := by positivity
  have hfolded : median (List.zipWith exact.ratio
      ((C.scaleUp (folding m)).gateSuh.map entries) ((C.scaleUp (folding m)).upSuh.map entries)) =
      some (.finite (r * 2 ^ m)) := by
    have hratios : List.zipWith exact.ratio
        ((C.scaleUp (folding m)).gateSuh.map entries) ((C.scaleUp (folding m)).upSuh.map entries) =
        (C.experts.map expertRatio).map (times (folding m)⁻¹) := by
      rw [Checkpoint.gateSuh, Checkpoint.upSuh, List.map_map, List.map_map, List.zipWith_map,
        List.zipWith_self]
      show (C.experts.map (scaleExpert (folding m))).map expertRatio = _
      rw [List.map_map, List.map_map]
      exact List.map_congr_left fun E _ => expertRatio_scaleExpert (folding_pos m) E
    rw [Checkpoint.ratio] at hmedian
    rw [hratios, median_times (inv_pos.mpr (folding_pos m)), hmedian, folding, inv_inv, Nat.cast_ofNat]
    rfl
  have hlog : exact.sub (exact.log2 (r * 2 ^ m)) m = exact.log2 r := by
    show exact.log2 (r * 2 ^ m) - m = exact.log2 r
    rw [exact_log2, exact_log2, Real.logb_mul hr.ne' hpow.ne', logb_two_pow, add_sub_cancel_right]
  have hinfer : inferIntermDivisor exact S (.finite (r * 2 ^ m)) = .ok (2 ^ m) := by
    rcases hrecoverable with ⟨rfl, hzero⟩ | ⟨hm, hfits, hnear⟩
    · rw [pow_zero, mul_one]
      exact infer_near_zero hr (hzero.trans (by norm_num))
    · rw [infer_near exact_laws (mul_pos hr hpow) hm (by rwa [hlog]), floatOfPow_eq (by omega)]
  rw [measuredDivisor, intermDivisor, hfolded, Option.map_some, hinfer]

end Measured

/-! ## The layer -/

section Compensated

open Format

/-- **What the converter divides out, the layer multiplies back in.** For every checkpoint whose experts'
median ratio is near enough to one for the divisor, every number of ranks and every order of arrivals:
the checkpoint with `2 ^ m` folded into its up projections is loaded on every rank, and for every batch
the ranks' outputs add up to the mixture of the original experts. -/
theorem moe_layer_compensates (S : Shown ℝ) (raised : DivisorError → PyError) (K : Kernels W ℝ)
    (hK : K.Contract) (C : Checkpoint W ℝ) (r : ℝ) (hr : 0 < r) (hmedian : C.ratio = some (.finite r))
    (m : ℕ) (hrecoverable : Recoverable r m) (tp_size : ℕ) (htp : 0 < tp_size)
    (hsplit : Splits C.interm tp_size) (gate_bits down_bits : Bits)
    (hbits : ∀ E ∈ C.experts, HasBits E.gate (decide ("mul1" ∈ C.names)) gate_bits ∧
      HasBits E.up (decide ("mul1" ∈ C.names)) gate_bits ∧
      HasBits E.down (decide ("mul1" ∈ C.names)) down_bits)
    (arrivals : ℕ → List (Arrival W ℝ))
    (harrivals : ∀ rank < tp_size, Delivers (C.scaleUp (folding m)) (arrivals rank))
    (served : Served) (hserved : served.apply_router_weight_on_input = false) (act : ℝ → ℝ)
    (hact : gatedActivation K served.activation = .ok act) (x : Ops.Activations ℝ)
    (hx : x.width = C.hidden) (routing : Routing ℝ) (hbatch : Batch C x.rows routing) :
    ∃ layers rows, (List.range tp_size).mapM (fun rank => loadLayer (measuredDivisor S raised) C.names
        C.experts.length (rankConfig tp_size rank) (arrivals rank)) = .ok layers ∧
      mixture K.toExllamav3 act C x.rows routing = .ok rows ∧
      parallel K served layers (decide ("mcg" ∈ C.names)) (decide ("mul1" ∈ C.names)) x routing =
        .ok rows := by
  have hmeasured := measured_scaleUp S raised hr hmedian hrecoverable
  have hlength : (C.scaleUp (folding m)).experts.length = C.experts.length := List.length_map _
  have hne : (C.scaleUp (folding m)).experts ≠ [] := by
    intro hnil
    have hexperts : C.experts = [] := List.map_eq_nil_iff.mp hnil
    rw [Checkpoint.ratio, hexperts] at hmedian
    simp [median] at hmedian
  have hservable : (C.scaleUp (folding m)).Servable (measuredDivisor S raised)
      (decide ("mul1" ∈ C.names)) tp_size := by
    refine ⟨hne, hsplit, ⟨gate_bits, down_bits, fun E hE => ?_⟩, _, hmeasured⟩
    obtain ⟨E', hE', rfl⟩ := List.mem_map.mp hE
    exact hbits E' hE'
  obtain ⟨layers, hload⟩ := exists_mapM_ok fun rank hrank =>
    loadLayer_ok (harrivals rank (List.mem_range.mp hrank))
      (show (rankConfig tp_size rank).tp_rank < tp_size from List.mem_range.mp hrank) (lt_irrefl 1) hservable
  obtain ⟨d, hdiv, hlayers⟩ := layers_ready htp harrivals hload
  obtain rfl := Except.ok.inj (hmeasured.symm.trans hdiv)
  obtain ⟨folded, hfolded, hparallel⟩ := parallel_eq hK htp hlayers hserved hact hx
    ⟨hbatch.width, hbatch.ids, hbatch.weights, hbatch.top_k, by rw [hlength]; exact hbatch.valid⟩
  rw [mixture_scaleUp] at hfolded
  cases hrows : mixture K.toExllamav3 act C x.rows routing with
  | error err =>
    rw [hrows] at hfolded
    cases hfolded
  | ok rows =>
    rw [hrows] at hfolded
    obtain rfl := Except.ok.inj hfolded
    rw [hlength] at hload
    refine ⟨layers, rows, hload, rfl, hparallel.trans (congrArg Except.ok ?_)⟩
    -- the folded factor and the measured one cancel
    have hcancel : folding m * 2 ^ m = 1 := by
      rw [folding, Nat.cast_ofNat]
      exact inv_mul_cancel₀ (by positivity)
    rw [List.map_map]
    refine (List.map_congr_left fun row _ => ?_).trans (List.map_id _)
    show scale (2 ^ m) (scale (folding m) row) = row
    rw [scale_scale, hcancel, scale_one]

/-! ### An expert of ones, stored with a divisor of 128, on two ranks -/

/-- An expert of hidden width 128 and intermediate width 256 whose scales are all one. -/
noncomputable def onesExpert : Expert Nat ℝ where
  gate := ⟨zeroTrellis 8 16 3, List.replicate 128 1, List.replicate 256 1, none, none,
    List.length_replicate, List.length_replicate⟩
  up := ⟨zeroTrellis 8 16 3, List.replicate 128 1, List.replicate 256 1, none, none,
    List.length_replicate, List.length_replicate⟩
  down := ⟨zeroTrellis 16 8 3, List.replicate 256 1, List.replicate 128 1, none, none,
    List.length_replicate, List.length_replicate⟩
  up_rows := rfl
  up_cols := rfl
  down_rows := rfl

/-- A checkpoint of it alone. -/
noncomputable def onesCheckpoint : Checkpoint Nat ℝ where
  names := ["trellis", "suh", "svh"]
  experts := [onesExpert]
  hidden := 128
  interm := 256
  stores := by
    intro E hE shard_id
    obtain rfl := List.mem_singleton.mp hE
    cases shard_id <;> rfl
  hidden_eq := by
    intro E hE
    obtain rfl := List.mem_singleton.mp hE
    exact ⟨rfl, rfl⟩
  interm_eq := by
    intro E hE
    obtain rfl := List.mem_singleton.mp hE
    rfl
  hidden_dvd := ⟨1, rfl⟩
  interm_dvd := ⟨2, rfl⟩

theorem onesCheckpoint_ratio : onesCheckpoint.ratio = some (.finite 1) := by
  have hmean : meanAbs (List.replicate 128 1) = .finite 1 := by
    rw [meanAbs, List.length_replicate, if_neg (by norm_num), List.map_replicate, List.sum_replicate,
      abs_one, nsmul_one, div_self (by norm_num)]
  have hratio : expertRatio onesExpert = .finite 1 := by
    show quotient (meanAbs (List.replicate 128 1)) (meanAbs (List.replicate 128 1)) = _
    rw [hmean, quotient, if_neg one_ne_zero, div_one]
  simp [Checkpoint.ratio, onesCheckpoint, hratio, median]

/-- One token of ones, and where it goes. -/
noncomputable def onesToken : Ops.Activations ℝ where
  lead := [1]
  width := 128
  rows := [List.replicate 128 1]
  rows_eq := rfl
  width_eq := by
    intro row hrow
    rw [List.mem_singleton.mp hrow, List.length_replicate]

noncomputable def onesRoute : Routing ℝ where
  top_k := 1
  topk_ids := [[0]]
  topk_weights := [[1]]
  ids_eq := by decide
  weights_eq := by
    intro row hrow
    rw [List.mem_singleton.mp hrow, List.length_singleton]

/-- A decoder of one value, and the normaliser of order one. -/
noncomputable def onesExt : Exllamav3 Nat ℝ := ⟨fun _ _ _ _ _ => 1, fun _ => 1⟩

theorem onesCheckpoint_compensates :
    ∃ layers rows, (List.range 2).mapM (fun rank => loadLayer
        (measuredDivisor ⟨fun _ => "", fun _ => ""⟩ fun _ => .index) onesCheckpoint.names
        onesCheckpoint.experts.length (rankConfig 2 rank) (onesCheckpoint.scaleUp (folding 7)).arrivals) =
          .ok layers ∧
      mixture onesExt id onesCheckpoint onesToken.rows onesRoute = .ok rows ∧
      parallel (Kernels.exact onesExt) ⟨false, "silu", none⟩ layers false false onesToken onesRoute =
        .ok rows :=
  moe_layer_compensates ⟨fun _ => "", fun _ => ""⟩ (fun _ => .index) (Kernels.exact onesExt)
    (Kernels.exact_contract onesExt) onesCheckpoint 1 one_pos onesCheckpoint_ratio 7
    (.inr ⟨by norm_num, by norm_num, by rw [exact_log2, Real.logb_one, abs_zero]; norm_num [exact]⟩) 2
    (by norm_num) (by decide) (.int 3) (.int 3)
    (fun E hE => by
      obtain rfl := List.mem_singleton.mp hE
      exact ⟨rfl, rfl, rfl⟩)
    (fun _ => (onesCheckpoint.scaleUp (folding 7)).arrivals) (fun _ _ => delivers_arrivals _)
    ⟨false, "silu", none⟩ rfl id rfl onesToken rfl onesRoute
    ⟨onesToken.width_eq, rfl, rfl, Nat.one_pos, by decide⟩

end Compensated

end VllmExl3.FusedMoe
