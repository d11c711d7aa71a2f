/-
# VllmExl3.Format.IntermDivisor — the divisor folded into a routed expert (`format.py`)

`infer_interm_divisor` takes the measured ratio of two scales and returns the power of two that it stands
for: the exponent is rounded, and a ratio whose exponent is not within the tolerance of the rounded one is
refused. An exponent that rounds to zero is not compared with the tolerance, so ratios between it and a
half are taken for 1. `_interm_divisor` measures the ratio as a median over the experts.

The code is over whatever it computes with (`Floats`). With doubles, `math.log2` is a parameter, differences
are rounded and so is the literal 0.15 (`doubles`): the divisor is recovered exactly where the exponent
that is computed is outside the bands (`recovers_iff`). Without rounding (`exact`), the layers of routed
experts use it.
-/
import VllmExl3.Lib.Double
import Mathlib.Analysis.SpecialFunctions.Log.Base
import Mathlib.Analysis.SpecialFunctions.Pow.Real
import Mathlib.Data.List.Sort

namespace VllmExl3.Format

open Double (roundEven roundEven_eq roundEven_eq_zero_iff)

/-! ## The code -/

/-- A float: a finite number, an infinity, or NaN. -/
inductive Ratio (F : Type) where
  | finite (x : F)
  | infinite (positive : Bool)
  | nan
  deriving DecidableEq

/-- What the code computes with. -/
structure Floats (F : Type) where
  /-- `math.log2(x)`, for a positive `x` -/
  log2 : F → F
  /-- `x - y` -/
  sub : F → F → F
  /-- `_DIVISOR_LOG2_TOLERANCE` -/
  DIVISOR_LOG2_TOLERANCE : F
  /-- `g.float().abs().mean() / u.float().abs().mean()` -/
  ratio : List F → List F → Ratio F

/-- How a ratio is printed: `{ratio!r}` and `{ratio:.4g}`. -/
structure Shown (F : Type) where
  repr : Ratio F → String
  fmt : Ratio F → String

/-- What `infer_interm_divisor` raises: `EXL3FormatError`, or the `OverflowError` of `float`. -/
inductive DivisorError where
  | exl3Format (message : String)
  | overflow (message : String)
  deriving DecidableEq

section Code

variable {F : Type}

/-- The text for a ratio that is no scale factor. -/
def Shown.degenerate (S : Shown F) (ratio : Ratio F) : String :=
  s!"routed-expert gate/up scale ratio is {S.repr ratio}, which cannot be a scale factor; the up projection's suh is probably not loaded"

/-- The text for a ratio that is not snapped. -/
def Shown.unsnapped (S : Shown F) (ratio : Ratio F) : String :=
  "routed-expert up projection is scaled by " ++ S.fmt ratio ++ " relative to the gate projection, which is neither ~1 nor close to a power of two. exllamav3 folds a power-of-two \x60interm_div\x60 into these weights and compensates in the routing weights; this plugin recovers it by measurement, and cannot here. Refusing to guess, because the wrong constant is a silent factor-of-N error in every routed expert."

/-- The order of the numbers, infinities included. -/
def Ratio.le [LE F] : Ratio F → Ratio F → Prop
  | .finite x, .finite y => x ≤ y
  | .infinite positive, .finite _ => positive = false
  | .finite _, .infinite positive => positive = true
  | .infinite p, .infinite q => p = true → q = true
  | _, _ => False

instance [LE F] [DecidableLE F] : (a b : Ratio F) → Decidable (a.le b)
  | .finite x, .finite y => inferInstanceAs (Decidable (x ≤ y))
  | .infinite positive, .finite _ => inferInstanceAs (Decidable (positive = false))
  | .finite _, .infinite positive => inferInstanceAs (Decidable (positive = true))
  | .infinite p, .infinite q => inferInstanceAs (Decidable (p = true → q = true))
  | .nan, _ => .isFalse id
  | .finite _, .nan => .isFalse id
  | .infinite _, .nan => .isFalse id

/-- `ratios.median()`: the lower one of two in the middle, NaN where one is among them; nothing of nothing. -/
def median [LinearOrder F] (ratios : List (Ratio F)) : Option (Ratio F) :=
  if .nan ∈ ratios ∧ ratios ≠ [] then some .nan
  else (ratios.insertionSort Ratio.le)[(ratios.length - 1) / 2]?

variable [Field F]

/-- `float(2**n)`, for a positive `n`. -/
def floatOfPow (n : ℤ) : Except DivisorError F :=
  if 1024 ≤ n then .error (.overflow "int too large to convert to float") else .ok (2 ^ n.toNat : ℕ)

theorem floatOfPow_eq {m : ℕ} (hfits : ¬ (1024 : ℤ) ≤ m) : floatOfPow m = .ok (2 ^ m : F) := by
  rw [floatOfPow, if_neg hfits, Int.toNat_natCast]
  push_cast
  rfl

variable [LinearOrder F] [FloorRing F]

/-- `infer_interm_divisor` -/
def inferIntermDivisor (A : Floats F) (S : Shown F) (ratio : Ratio F) : Except DivisorError F :=
  match ratio with
  | .finite r =>
    if r ≤ 0 then .error (.exl3Format (S.degenerate ratio))
    else
      let exponent := A.log2 r
      let nearest := roundEven exponent
      if nearest = 0 then .ok 1
      else if nearest < 0 ∨ A.DIVISOR_LOG2_TOLERANCE < |A.sub exponent nearest| then
        .error (.exl3Format (S.unsnapped ratio))
      else floatOfPow nearest
  | _ => .error (.exl3Format (S.degenerate ratio))

/-- `_interm_divisor`; `none` where there is no expert to stack. -/
def intermDivisor (A : Floats F) (S : Shown F) (gate_suh up_suh : List (List F)) :
    Option (Except DivisorError F) :=
  (median (List.zipWith A.ratio gate_suh up_suh)).map (inferIntermDivisor A S)

end Code

/-! ## What it computes with -/

/-- `math.log2` of the positive doubles: a double, and exact at the powers of two. -/
structure Log2 where
  log2 : ℚ → ℚ
  double : ∀ x, 0 < x → Double.round (log2 x) = log2 x
  two_pow : ∀ m : ℕ, m < 1024 → log2 (2 ^ m) = m

/-- Doubles: a difference is rounded, and so is the literal. What torch measures is left open. -/
def doubles (L : Log2) (ratio : List ℚ → List ℚ → Ratio ℚ) : Floats ℚ where
  log2 := L.log2
  sub x y := Double.round (x - y)
  DIVISOR_LOG2_TOLERANCE := Double.round 0.15
  ratio := ratio

/-- `t.float().abs().mean()`, where no operation rounds. -/
noncomputable def meanAbs (t : List ℝ) : Ratio ℝ :=
  if t.length = 0 then .nan else .finite ((t.map fun x => |x|).sum / t.length)

open Classical in
/-- `a / b`, for means of absolute values. -/
noncomputable def quotient : Ratio ℝ → Ratio ℝ → Ratio ℝ
  | .finite a, .finite b =>
    if b = 0 then if a = 0 then .nan else .infinite true
    else .finite (a / b)
  | _, _ => .nan

/-- The real numbers: nothing is rounded. -/
noncomputable def exact : Floats ℝ where
  log2 := Real.logb (2 : ℕ)
  sub x y := x - y
  DIVISOR_LOG2_TOLERANCE := 0.15
  ratio g u := quotient (meanAbs g) (meanAbs u)

/-! ## The bands -/

section Bands

variable {F : Type} [Field F] [LinearOrder F] [IsStrictOrderedRing F] [FloorRing F] {A : Floats F}
  {S : Shown F} {r d : F}

/-- What the divisor needs of the operations: `log2` is exact at the powers of two, nothing is lost in
subtracting zero, and what is within the tolerance of an integer is less than a half from it. -/
structure Floats.Laws (A : Floats F) : Prop where
  two_pow : ∀ m : ℕ, m < 1024 → A.log2 (2 ^ m) = m
  log2_sub_zero : ∀ x, 0 < x → A.sub (A.log2 x) 0 = A.log2 x
  near : ∀ x (m : ℕ), |A.sub x m| ≤ A.DIVISOR_LOG2_TOLERANCE → |x - m| < 1 / 2

/-- What is expected of a ratio: what is returned for it is a power of two within the tolerance, and it is
returned wherever there is one. -/
structure Recovers (A : Floats F) (S : Shown F) (r : F) : Prop where
  returned : ∀ d, inferIntermDivisor A S (.finite r) = .ok d →
    ∃ m : ℕ, d = 2 ^ m ∧ 1 ≤ d ∧ |A.sub (A.log2 r) (A.log2 d)| ≤ A.DIVISOR_LOG2_TOLERANCE
  within : ∀ m : ℕ, |A.sub (A.log2 r) m| ≤ A.DIVISOR_LOG2_TOLERANCE →
    inferIntermDivisor A S (.finite r) = .ok (2 ^ m)

/-- The exponent is not between the tolerance and a half, on either side of zero, and it is not near one
that is too large for a float. -/
structure OutsideBands (A : Floats F) (r : F) : Prop where
  clear : |A.log2 r| ≤ A.DIVISOR_LOG2_TOLERANCE ∨ 1 / 2 < |A.log2 r|
  fits : ∀ m : ℕ, 1024 ≤ m → A.DIVISOR_LOG2_TOLERANCE < |A.sub (A.log2 r) m|

/-- Where the exponent rounds to zero, the ratio is taken for 1. -/
theorem infer_near_zero (hr : 0 < r) (hband : |A.log2 r| ≤ 1 / 2) :
    inferIntermDivisor A S (.finite r) = .ok 1 := by
  have hzero := roundEven_eq_zero_iff.mpr hband
  simp only [inferIntermDivisor]
  rw [if_neg hr.not_ge, if_pos hzero]

/-- Where it rounds to another integer, the ratio is compared with the tolerance. -/
theorem infer_far (hr : 0 < r) (hband : 1 / 2 < |A.log2 r|) : inferIntermDivisor A S (.finite r) =
    if roundEven (A.log2 r) < 0 ∨
        A.DIVISOR_LOG2_TOLERANCE < |A.sub (A.log2 r) (roundEven (A.log2 r))| then
      .error (.exl3Format (S.unsnapped (.finite r)))
    else floatOfPow (roundEven (A.log2 r)) := by
  have hzero : roundEven (A.log2 r) ≠ 0 := fun h => hband.not_ge (roundEven_eq_zero_iff.mp h)
  simp only [inferIntermDivisor]
  rw [if_neg hr.not_ge, if_neg hzero]

/-- An exponent near a positive integer rounds to it, and is a half away from zero. -/
theorem near_positive {x : F} {m : ℕ} (hm : 0 < m) (h : |x - m| < 1 / 2) :
    roundEven x = m ∧ 1 / 2 < |x| := by
  have hone : (1 : F) ≤ m := by exact_mod_cast hm
  have hlow := (abs_lt.mp h).1
  constructor
  · apply roundEven_eq
    push_cast
    exact h
  · exact lt_of_lt_of_le (by linarith) (le_abs_self x)

/-- Near a positive power of two the power is returned, unless it is too large. -/
theorem infer_near (hA : A.Laws) {m : ℕ} (hr : 0 < r) (hm : 0 < m)
    (h : |A.sub (A.log2 r) m| ≤ A.DIVISOR_LOG2_TOLERANCE) :
    inferIntermDivisor A S (.finite r) = floatOfPow m := by
  obtain ⟨hround, hband⟩ := near_positive hm (hA.near _ m h)
  rw [infer_far hr hband, hround]
  refine if_neg ?_
  rintro (hneg | hfar)
  · exact absurd hneg (by omega)
  · push_cast at hfar
    exact hfar.not_ge h

/-- What is returned for an exponent that does not round to zero. -/
theorem infer_far_ok (hr : 0 < r) (hband : 1 / 2 < |A.log2 r|)
    (h : inferIntermDivisor A S (.finite r) = .ok d) :
    ∃ m : ℕ, m < 1024 ∧ d = 2 ^ m ∧ |A.sub (A.log2 r) m| ≤ A.DIVISOR_LOG2_TOLERANCE := by
  rw [infer_far hr hband] at h
  split_ifs at h with hrefused
  rw [not_or, not_lt, not_lt] at hrefused
  obtain ⟨hnonneg, hnear⟩ := hrefused
  obtain ⟨m, hm⟩ := Int.eq_ofNat_of_zero_le hnonneg
  rw [hm] at h hnear
  by_cases hfits : (1024 : ℤ) ≤ m
  · rw [floatOfPow, if_pos hfits] at h
    cases h
  · rw [floatOfPow_eq hfits] at h
    push_cast at hnear
    exact ⟨m, by omega, (Except.ok.inj h).symm, hnear⟩

/-- Outside the bands, what is returned is a power of two within the tolerance. -/
theorem Floats.Laws.returned_near (hA : A.Laws) (hr : 0 < r) (hbands : OutsideBands A r)
    (h : inferIntermDivisor A S (.finite r) = .ok d) :
    ∃ m : ℕ, m < 1024 ∧ d = 2 ^ m ∧ |A.sub (A.log2 r) m| ≤ A.DIVISOR_LOG2_TOLERANCE := by
  rcases le_or_gt |A.log2 r| (1 / 2) with hzero | hfar
  · rw [infer_near_zero hr hzero] at h
    refine ⟨0, by norm_num, (Except.ok.inj h).symm.trans (pow_zero 2).symm, ?_⟩
    rw [Nat.cast_zero, hA.log2_sub_zero r hr]
    exact hbands.clear.resolve_right hzero.not_gt
  · exact infer_far_ok hr hfar h

/-- When the divisor is recovered, whatever the code computes with. -/
theorem Floats.Laws.recovers (hA : A.Laws) (hr : 0 < r) : Recovers A S r ↔ OutsideBands A r := by
  constructor
  · intro h
    constructor
    · by_contra hbands
      rw [not_or, not_le, not_lt] at hbands
      obtain ⟨m, hpow, -, hnear⟩ := h.returned 1 (infer_near_zero hr hbands.2)
      rw [← pow_zero 2, hA.two_pow 0 (by norm_num), Nat.cast_zero, hA.log2_sub_zero r hr] at hnear
      exact hbands.1.not_ge hnear
    · intro m hm
      by_contra hnear
      rw [not_lt] at hnear
      have hreturned := h.within m hnear
      have hlarge : (1024 : ℤ) ≤ m := by exact_mod_cast hm
      rw [infer_near hA hr (by omega) hnear, floatOfPow, if_pos hlarge] at hreturned
      cases hreturned
  · intro hbands
    constructor
    · intro d hd
      obtain ⟨m, hsmall, rfl, hnear⟩ := hA.returned_near hr hbands hd
      refine ⟨m, rfl, one_le_pow₀ (by norm_num), ?_⟩
      rwa [hA.two_pow m hsmall]
    · intro m hnear
      rcases Nat.eq_zero_or_pos m with rfl | hpos
      · have hhalf := hA.near _ 0 hnear
        rw [Nat.cast_zero, sub_zero] at hhalf
        rw [pow_zero]
        exact infer_near_zero hr hhalf.le
      · have hfits : ¬ (1024 : ℤ) ≤ m := fun hle =>
          (hbands.fits m (by exact_mod_cast hle)).not_ge hnear
        rw [infer_near hA hr hpos hnear, floatOfPow_eq hfits]

/-- No ratio whose exponent is a half below the largest is near one that is too large. -/
theorem Floats.Laws.fits_of_le (hA : A.Laws) (h : A.log2 r ≤ 1023) (m : ℕ) (hm : 1024 ≤ m) :
    A.DIVISOR_LOG2_TOLERANCE < |A.sub (A.log2 r) m| := by
  by_contra hnear
  have hhalf := (abs_lt.mp (hA.near _ m (not_lt.mp hnear))).1
  have hlarge : (1024 : F) ≤ m := by exact_mod_cast hm
  linarith

/-- What is returned over the experts is returned for their median ratio, and is a power of two. -/
theorem intermDivisor_ok {gate_suh up_suh : List (List F)}
    (h : intermDivisor A S gate_suh up_suh = some (.ok d)) : ∃ r, 0 < r ∧
      median (List.zipWith A.ratio gate_suh up_suh) = some (.finite r) ∧
      inferIntermDivisor A S (.finite r) = .ok d ∧ ∃ m : ℕ, d = 2 ^ m := by
  obtain ⟨ratio, hmedian, hinfer⟩ := Option.map_eq_some_iff.mp h
  cases ratio with
  | infinite positive => cases hinfer
  | nan => cases hinfer
  | finite r =>
    have hr : 0 < r := by
      by_contra hneg
      simp only [inferIntermDivisor] at hinfer
      rw [if_pos (not_lt.mp hneg)] at hinfer
      cases hinfer
    refine ⟨r, hr, hmedian, hinfer, ?_⟩
    rcases le_or_gt |A.log2 r| (1 / 2) with hzero | hfar
    · rw [infer_near_zero hr hzero] at hinfer
      exact ⟨0, (Except.ok.inj hinfer).symm.trans (pow_zero 2).symm⟩
    · obtain ⟨m, -, hpow, -⟩ := infer_far_ok hr hfar hinfer
      exact ⟨m, hpow⟩

end Bands

/-! ## The reals -/

theorem logb_two_pow (m : ℕ) : Real.logb 2 (2 ^ m) = m := by
  rw [Real.logb_pow, Real.logb_self_eq_one (by norm_num), mul_one]

theorem exact_log2 (x : ℝ) : exact.log2 x = Real.logb 2 x := by
  rw [exact, Nat.cast_ofNat]

theorem exact_laws : exact.Laws where
  two_pow m _ := (exact_log2 _).trans (logb_two_pow m)
  log2_sub_zero x _ := sub_zero _
  near x m h := lt_of_le_of_lt h (by norm_num [exact])

/-! ## The doubles -/

section Doubles

variable {L : Log2} {ratio : List ℚ → List ℚ → Ratio ℚ} {S : Shown ℚ} {r d : ℚ}

/-- The double of the literal is just below it. -/
theorem tolerance_eq :
    (doubles L ratio).DIVISOR_LOG2_TOLERANCE = 5404319552844595 / 2 ^ 55 := by
  have hround : Double.round 0.15 = 5404319552844595 / 2 ^ 55 := by decide +kernel
  exact hround

/-- A difference of a half or more is not rounded to one within the tolerance. -/
theorem half_of_within {x : ℚ} (h : |Double.round x| ≤ (doubles L ratio).DIVISOR_LOG2_TOLERANCE) :
    |x| < 1 / 2 := by
  by_contra hfar
  rw [not_lt] at hfar
  have hnormal : Double.minNormal ≤ |x| := Double.minNormal_le.trans (le_trans (by norm_num) hfar)
  have hkept : 1 / 2 * Double.kept ≤ |Double.round x| :=
    (mul_le_mul_of_nonneg_right hfar Double.kept_pos.le).trans (Double.kept_mul_le_abs_round hnormal)
  rw [tolerance_eq] at h
  have hsmall : (5404319552844595 / 2 ^ 55 : ℚ) < 1 / 2 * Double.kept := by norm_num [Double.kept]
  exact (h.trans_lt hsmall).not_ge hkept

/-- Within the tolerance once rounded, and within it before, but for the last bits. -/
theorem near_of_within {x : ℚ} (h : |Double.round x| ≤ (doubles L ratio).DIVISOR_LOG2_TOLERANCE) :
    |x| ≤ 3 / 20 + 1 / 2 ^ 53 := by
  have hround := Double.abs_round_sub_le_of_lt_one ((half_of_within h).trans (by norm_num))
  rw [tolerance_eq] at h
  calc |x|
      = |Double.round x - (Double.round x - x)| := by rw [sub_sub_cancel]
    _ ≤ |Double.round x| + |Double.round x - x| := abs_sub _ _
    _ ≤ 5404319552844595 / 2 ^ 55 + 1 / 2 ^ 54 := add_le_add h hround
    _ ≤ 3 / 20 + 1 / 2 ^ 53 := by norm_num

theorem within_of_near {x : ℚ} (h : |x| ≤ 3 / 20 - 1 / 2 ^ 53) :
    |Double.round x| ≤ (doubles L ratio).DIVISOR_LOG2_TOLERANCE := by
  have hround := Double.abs_round_sub_le_of_lt_one (h.trans_lt (by norm_num))
  rw [tolerance_eq]
  calc |Double.round x|
      = |x + (Double.round x - x)| := by rw [add_sub_cancel]
    _ ≤ |x| + |Double.round x - x| := abs_add_le _ _
    _ ≤ 3 / 20 - 1 / 2 ^ 53 + 1 / 2 ^ 54 := add_le_add h hround
    _ ≤ 5404319552844595 / 2 ^ 55 := by norm_num

theorem doubles_laws : (doubles L ratio).Laws where
  two_pow := L.two_pow
  log2_sub_zero x hx := by
    show Double.round (L.log2 x - 0) = L.log2 x
    rw [sub_zero, L.double x hx]
  near x m h := half_of_within h

/-- **When the divisor is recovered**, for every positive ratio and every `math.log2`. -/
theorem recovers_iff (hr : 0 < r) :
    Recovers (doubles L ratio) S r ↔ OutsideBands (doubles L ratio) r :=
  doubles_laws.recovers hr

/-- Against the logarithm itself: what is returned is within the tolerance of it, and what is within the
tolerance of it is returned, but for what `math.log2` is off by and `2 ^ -53`. -/
theorem recovers_logb {ε : ℝ} (hr : 0 < r) (hlog2 : |(L.log2 r : ℝ) - Real.logb 2 r| ≤ ε)
    (h : OutsideBands (doubles L ratio) r) :
    (∀ d, inferIntermDivisor (doubles L ratio) S (.finite r) = .ok d →
      ∃ m : ℕ, d = 2 ^ m ∧ |Real.logb 2 r - m| ≤ 3 / 20 + 1 / 2 ^ 53 + ε) ∧
    ∀ m : ℕ, |Real.logb 2 r - m| ≤ 3 / 20 - 1 / 2 ^ 53 - ε →
      inferIntermDivisor (doubles L ratio) S (.finite r) = .ok (2 ^ m) := by
  constructor
  · intro d hd
    obtain ⟨m, -, hpow, hnear⟩ := doubles_laws.returned_near hr h hd
    have hrat : |L.log2 r - m| ≤ 3 / 20 + 1 / 2 ^ 53 := near_of_within hnear
    have hcast : |(L.log2 r : ℝ) - m| ≤ 3 / 20 + 1 / 2 ^ 53 := by
      have hreal := (Rat.cast_le (K := ℝ)).mpr hrat
      push_cast at hreal
      exact hreal
    refine ⟨m, hpow, ?_⟩
    calc |Real.logb 2 r - m|
        = |((L.log2 r : ℝ) - m) - (L.log2 r - Real.logb 2 r)| := by rw [sub_sub_sub_cancel_left]
      _ ≤ |(L.log2 r : ℝ) - m| + |L.log2 r - Real.logb 2 r| := abs_sub _ _
      _ ≤ 3 / 20 + 1 / 2 ^ 53 + ε := add_le_add hcast hlog2
  · intro m hm
    have hcast : |(L.log2 r : ℝ) - m| ≤ 3 / 20 - 1 / 2 ^ 53 := by
      calc |(L.log2 r : ℝ) - m|
          = |(L.log2 r - Real.logb 2 r) + (Real.logb 2 r - m)| := by rw [sub_add_sub_cancel]
        _ ≤ |L.log2 r - Real.logb 2 r| + |Real.logb 2 r - m| := abs_add_le _ _
        _ ≤ 3 / 20 - 1 / 2 ^ 53 := by linarith
    have hrat : |L.log2 r - m| ≤ 3 / 20 - 1 / 2 ^ 53 := by
      refine (Rat.cast_le (K := ℝ)).mp ?_
      push_cast
      exact hcast
    exact ((doubles_laws.recovers hr).mpr h).within m (within_of_near hrat)

/-! ### A ratio of a checkpoint with a divisor of 128, and one between the tolerance and a half -/

/-- A `math.log2` that is `e` at `x`, and the integer below at the other doubles. -/
def Log2.withValue (x e : ℚ) (hx : x.den ≠ 1) (he : Double.round e = e) : Log2 where
  log2 y := if y = x then e else (max (-1074) (min 1023 (Int.log 2 y)) : ℤ)
  double y _ := by
    split_ifs
    · exact he
    · exact Double.round_intCast (abs_lt.mpr ⟨by omega, by omega⟩)
  two_pow m hm := by
    have hpow : (2 : ℚ) ^ m = ((2 ^ m : ℕ) : ℚ) := by push_cast; rfl
    have hne : (2 : ℚ) ^ m ≠ x := by
      rintro rfl
      exact hx (by rw [hpow, Rat.den_natCast])
    rw [if_neg hne, hpow, Int.log_natCast, Nat.log_pow (by norm_num)]
    push_cast
    have hlow : (0 : ℚ) ≤ m := m.cast_nonneg
    have hhigh : (m : ℚ) ≤ 1023 := by exact_mod_cast Nat.le_of_lt_succ hm
    rw [min_eq_right hhigh, max_eq_right (by linarith)]

/-- The double 127.584, and its exponent. -/
def lagunaLog2 : Log2 :=
  .withValue (2244481464290771 / 2 ^ 44) (7876011677582823 / 2 ^ 50) (by decide +kernel)
    (by decide +kernel)

theorem lagunaLog2_apply : lagunaLog2.log2 (2244481464290771 / 2 ^ 44) = 7876011677582823 / 2 ^ 50 :=
  if_pos rfl

theorem laguna_recovered : inferIntermDivisor (doubles lagunaLog2 fun _ _ => .nan)
    ⟨fun _ => "127.584", fun _ => "127.6"⟩ (.finite (2244481464290771 / 2 ^ 44)) = .ok 128 := by
  have hlog2 : (doubles lagunaLog2 fun _ _ => .nan).log2 (2244481464290771 / 2 ^ 44) =
      7876011677582823 / 2 ^ 50 := lagunaLog2_apply
  have hbands : OutsideBands (doubles lagunaLog2 fun _ _ => .nan) (2244481464290771 / 2 ^ 44) :=
    ⟨.inr (by rw [hlog2]; norm_num), doubles_laws.fits_of_le (by rw [hlog2]; norm_num)⟩
  have hreturned : inferIntermDivisor (doubles lagunaLog2 fun _ _ => .nan)
      ⟨fun _ => "127.584", fun _ => "127.6"⟩ (.finite (2244481464290771 / 2 ^ 44)) = .ok (2 ^ 7) :=
    ((recovers_iff (by norm_num)).mpr hbands).within 7 (by rw [hlog2]; decide +kernel)
  rw [hreturned]
  norm_num

/-- 1.25, and its exponent. -/
def quarterLog2 : Log2 :=
  .withValue (5 / 4) (5799340992699275 / 2 ^ 54) (by decide +kernel) (by decide +kernel)

/-- A ratio of 1.25 is taken for 1, though it is further from it than the tolerance. -/
theorem quarter_guessed : inferIntermDivisor (doubles quarterLog2 fun _ _ => .nan)
      ⟨fun _ => "1.25", fun _ => "1.25"⟩ (.finite (5 / 4)) = .ok 1 ∧
    ¬ Recovers (doubles quarterLog2 fun _ _ => .nan) ⟨fun _ => "1.25", fun _ => "1.25"⟩ (5 / 4) := by
  have hlog2 : (doubles quarterLog2 fun _ _ => .nan).log2 (5 / 4) = 5799340992699275 / 2 ^ 54 :=
    if_pos rfl
  refine ⟨infer_near_zero (by norm_num) (by rw [hlog2]; norm_num), fun h => ?_⟩
  rcases ((doubles_laws.recovers (by norm_num)).mp h).clear with hnear | hfar
  · rw [hlog2, tolerance_eq] at hnear
    norm_num at hnear
  · rw [hlog2] at hfar
    norm_num at hfar

end Doubles

end VllmExl3.Format
