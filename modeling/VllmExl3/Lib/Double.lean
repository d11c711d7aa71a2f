/-
# VllmExl3.Lib.Double — IEEE doubles as the rationals they stand for

A finite double is a rational number, and an operation on doubles is the exact operation followed by
one rounding to nearest, ties to even, at 53 significant bits (fewer below the normal range). This
module has that rounding, its error, and the operations a program uses to take a share of a count: the
conversion of an integer, the true division of two integers, and the product. Rounding to an integer is
for every ordered field, so that a program can be read over the reals as well. Nothing here names the
repository.
-/
import Mathlib.Algebra.Order.Floor.Ring
import Mathlib.Algebra.Order.Round
import Mathlib.Data.Int.Log
import Mathlib.Data.Rat.Floor
import Mathlib.Tactic.FieldSimp
import Mathlib.Tactic.Linarith
import Mathlib.Tactic.Positivity

namespace VllmExl3.Double

/-! ## Rounding to an integer -/

section Integer

variable {K : Type} [Field K] [LinearOrder K] [FloorRing K]

/-- `round(x)`: the nearest integer, the even one of two equally near. -/
def roundEven (x : K) : ℤ :=
  if Int.fract x < 1 - Int.fract x then ⌊x⌋
  else if 1 - Int.fract x < Int.fract x then ⌊x⌋ + 1
  else if ⌊x⌋ % 2 = 0 then ⌊x⌋
  else ⌊x⌋ + 1

variable [IsStrictOrderedRing K]

theorem abs_roundEven_sub_le (x : K) : |(roundEven x : K) - x| ≤ 1 / 2 := by
  have hfract := Int.floor_add_fract x
  have hnonneg := Int.fract_nonneg x
  have hlt := Int.fract_lt_one x
  rw [abs_le]
  unfold roundEven
  split_ifs <;> push_cast <;> constructor <;> linarith

/-- The integer within less than a half. -/
theorem roundEven_eq {x : K} {m : ℤ} (h : |x - m| < 1 / 2) : roundEven x = m := by
  have hround := abs_roundEven_sub_le x
  have htriangle : |(roundEven x : K) - m| < 1 := by
    calc |(roundEven x : K) - m|
        = |((roundEven x : K) - x) + (x - m)| := by rw [sub_add_sub_cancel]
      _ ≤ |(roundEven x : K) - x| + |x - m| := abs_add_le _ _
      _ < 1 := by linarith
  have hint : |roundEven x - m| < 1 := by exact_mod_cast htriangle
  rw [Int.abs_lt_one_iff, sub_eq_zero] at hint
  exact hint

@[simp] theorem roundEven_intCast (m : ℤ) : roundEven (m : K) = m := by
  apply roundEven_eq
  rw [sub_self, abs_zero]
  norm_num

/-- Both halves around zero round to it. -/
theorem roundEven_eq_zero_iff {x : K} : roundEven x = 0 ↔ |x| ≤ 1 / 2 := by
  constructor
  · intro h
    have hround := abs_roundEven_sub_le x
    rwa [h, Int.cast_zero, zero_sub, abs_neg] at hround
  · intro h
    rcases lt_or_eq_of_le h with hlt | heq
    · apply roundEven_eq
      rwa [Int.cast_zero, sub_zero]
    · rcases (abs_eq (by norm_num)).mp heq with rfl | rfl
      · have hfloor : ⌊(1 / 2 : K)⌋ = 0 := by
          rw [Int.floor_eq_iff]
          norm_num
        have hfract : Int.fract (1 / 2 : K) = 1 / 2 := by
          rw [Int.fract, hfloor, Int.cast_zero, sub_zero]
        rw [roundEven, hfract, hfloor]
        norm_num
      · have hfloor : ⌊(-(1 / 2) : K)⌋ = -1 := by
          rw [Int.floor_eq_iff]
          norm_num
        have hfract : Int.fract (-(1 / 2) : K) = 1 / 2 := by
          rw [Int.fract, hfloor]
          norm_num
        rw [roundEven, hfract, hfloor]
        norm_num

end Integer

/-! ## Rounding to a double -/

/-- The exponent of the last bit a double near `x` keeps. -/
def lastBit (x : ℚ) : ℤ := max (Int.log 2 |x| - 52) (-1074)

/-- The double nearest `x`, where its exponent is in range. -/
def round (x : ℚ) : ℚ := roundEven (x / 2 ^ lastBit x) * 2 ^ lastBit x

/-- The least normal number. -/
def minNormal : ℚ := 2 ^ (-1022 : ℤ)

/-- What no double reaches. -/
def overflow : ℚ := 2 ^ (1024 : ℤ)

/-- `float(n)`; `none` is an `OverflowError`. -/
def ofInt (n : ℤ) : Option ℚ := if |round n| < overflow then some (round n) else none

/-- `a / b` on integers, correctly rounded; `none` is a `ZeroDivisionError` or an `OverflowError`. -/
def intDiv (a b : ℤ) : Option ℚ :=
  if b = 0 then none
  else if |round (a / b)| < overflow then some (round (a / b)) else none

/-- `x * y`, where the product is in range -/
def mul (x y : ℚ) : ℚ := round (x * y)

theorem minNormal_pos : 0 < minNormal := zpow_pos (by norm_num) _

theorem minNormal_le : minNormal ≤ 1 / 2 ^ 66 :=
  calc minNormal
      ≤ (2 : ℚ) ^ (-66 : ℤ) := zpow_le_zpow_right₀ (by norm_num) (by norm_num)
    _ = 1 / 2 ^ 66 := by rw [zpow_neg, one_div]; rfl

theorem lt_overflow : (2 : ℚ) ^ 65 < overflow :=
  zpow_lt_zpow_right₀ (m := 65) (by norm_num) (by norm_num)

/-! ## The error of one rounding -/

/-- Half a last bit. -/
theorem abs_round_sub_le (x : ℚ) : |round x - x| ≤ 2 ^ lastBit x / 2 := by
  have hpos : (0 : ℚ) < 2 ^ lastBit x := zpow_pos (by norm_num) _
  have hscale : x = x / 2 ^ lastBit x * 2 ^ lastBit x := (div_mul_cancel₀ x hpos.ne').symm
  calc |round x - x|
      = |(roundEven (x / 2 ^ lastBit x) : ℚ) - x / 2 ^ lastBit x| * 2 ^ lastBit x := by
        rw [← abs_of_pos hpos, ← abs_mul, sub_mul, abs_of_pos hpos, ← hscale]
        rfl
    _ ≤ 1 / 2 * 2 ^ lastBit x :=
        mul_le_mul_of_nonneg_right (abs_roundEven_sub_le _) hpos.le
    _ = 2 ^ lastBit x / 2 := by ring

/-- A number in the normal range is rounded by at most one part in `2 ^ 53`. -/
theorem abs_round_sub_le_of_normal {x : ℚ} (hx : minNormal ≤ |x|) :
    |round x - x| ≤ |x| / 2 ^ 53 := by
  have hpos : 0 < |x| := lt_of_lt_of_le minNormal_pos hx
  have hlog : (-1022 : ℤ) ≤ Int.log 2 |x| := by
    have hmono := Int.log_mono_right (b := 2) minNormal_pos hx
    have hleast : minNormal = ((2 : ℕ) : ℚ) ^ (-1022 : ℤ) := by rw [minNormal, Nat.cast_ofNat]
    rwa [hleast, Int.log_zpow (by decide)] at hmono
  have hbit : lastBit x = Int.log 2 |x| - 52 := by
    rw [lastBit]
    omega
  have hlast : (2 : ℚ) ^ lastBit x ≤ |x| / 2 ^ 52 := by
    have hle : ((2 : ℕ) : ℚ) ^ Int.log 2 |x| ≤ |x| := Int.zpow_log_le_self (by decide) hpos
    rw [hbit, zpow_sub₀ (by norm_num)]
    exact div_le_div_of_nonneg_right (by exact_mod_cast hle) (by positivity)
  calc |round x - x|
      ≤ 2 ^ lastBit x / 2 := abs_round_sub_le x
    _ ≤ |x| / 2 ^ 52 / 2 := div_le_div_of_nonneg_right hlast (by norm_num)
    _ = |x| / 2 ^ 53 := by ring

/-- A number below one is rounded by at most `2 ^ -54`. -/
theorem abs_round_sub_le_of_lt_one {x : ℚ} (hx : |x| < 1) : |round x - x| ≤ 1 / 2 ^ 54 := by
  rcases eq_or_ne x 0 with rfl | hne
  · simp [round, roundEven]
  · have hlog : Int.log 2 |x| < 0 := by
      refine (Int.lt_zpow_iff_log_lt (by decide) (abs_pos.mpr hne)).mp ?_
      rwa [zpow_zero]
    have hlast : lastBit x ≤ -53 := by
      rw [lastBit]
      omega
    calc |round x - x|
        ≤ 2 ^ lastBit x / 2 := abs_round_sub_le x
      _ ≤ 2 ^ (-53 : ℤ) / 2 :=
        div_le_div_of_nonneg_right (zpow_le_zpow_right₀ (by norm_num) hlast) (by norm_num)
      _ = 1 / 2 ^ 54 := by norm_num

/-- What a rounding leaves of a number at least. -/
def kept : ℚ := 1 - 1 / 2 ^ 53

theorem kept_pos : 0 < kept := by norm_num [kept]

/-- Read as two bounds. -/
theorem round_bounds {x : ℚ} (hx : minNormal ≤ x) :
    x * kept ≤ round x ∧ round x ≤ 2 * x := by
  have hpos : 0 < x := lt_of_lt_of_le minNormal_pos hx
  have hround := abs_round_sub_le_of_normal (hx.trans (le_abs_self x))
  rw [abs_of_pos hpos] at hround
  obtain ⟨hlow, hhigh⟩ := abs_le.mp hround
  have hsmall : x / 2 ^ 53 ≤ x := div_le_self hpos.le (by norm_num)
  refine ⟨?_, by linarith⟩
  rw [kept, mul_sub, mul_one, mul_one_div]
  linarith

/-- Rounding loses no more than that of a negative number either. -/
theorem kept_mul_le_abs_round {x : ℚ} (hx : minNormal ≤ |x|) : |x| * kept ≤ |round x| := by
  have hround := abs_round_sub_le_of_normal hx
  have htriangle : |x| ≤ |round x| + |round x - x| := by
    calc |x|
        = |round x - (round x - x)| := by rw [sub_sub_cancel]
      _ ≤ |round x| + |round x - x| := abs_sub _ _
  rw [kept, mul_sub, mul_one, mul_one_div]
  linarith

/-- A number that is a whole number of last bits is a double. -/
theorem round_eq_self {x : ℚ} {n : ℤ} (h : x = n * 2 ^ lastBit x) : round x = x := by
  have hpos : (0 : ℚ) < 2 ^ lastBit x := zpow_pos (by norm_num) _
  have hscaled : x / 2 ^ lastBit x = n := (div_eq_iff hpos.ne').mpr h
  rw [round, hscaled, roundEven_intCast, ← h]

/-- So is an integer of at most 53 bits. -/
theorem round_intCast {n : ℤ} (hn : |n| < 2 ^ 53) : round n = n := by
  have hlast : lastBit n ≤ 0 := by
    have hlog : Int.log 2 |(n : ℚ)| ≤ 52 := by
      rw [← Int.cast_abs, Int.abs_eq_natAbs, Int.cast_natCast, Int.log_natCast]
      have hnat : n.natAbs < 2 ^ 53 := by zify; exact hn
      have := Nat.log_lt_of_lt_pow' (b := 2) (by decide) hnat
      omega
    rw [lastBit]
    omega
  obtain ⟨k, hk⟩ := Int.eq_ofNat_of_zero_le (neg_nonneg.mpr hlast)
  refine round_eq_self (n := n * 2 ^ k) ?_
  rw [← neg_neg (lastBit n), hk]
  push_cast
  rw [zpow_neg, zpow_natCast, mul_assoc, mul_inv_cancel₀ (by positivity), mul_one]

theorem round_zero : round 0 = 0 := by
  simp [round, roundEven]

/-! ## A share of a count -/

/-- A normal number far below the overflow threshold stays below it. -/
theorem round_lt {x : ℚ} (hx : minNormal ≤ x) (hlt : x < 2 ^ 64) : |round x| < overflow := by
  have hpos : 0 < x := lt_of_lt_of_le minNormal_pos hx
  obtain ⟨hlow, hhigh⟩ := round_bounds hx
  have hnonneg : 0 ≤ round x := le_trans (mul_nonneg hpos.le kept_pos.le) hlow
  rw [abs_of_nonneg hnonneg]
  exact lt_trans (by linarith) lt_overflow

/-- `k / n * n` does not exceed `k`. -/
def backAtMost (k n : ℤ) : Bool :=
  match intDiv k n, ofInt n with
  | some share, some count => mul share count ≤ k
  | _, _ => true

/-- `math.ceil(a / b * n)`; `none` is an error raised on the way. -/
def ceilShare (a b n : ℤ) : Option ℤ := do
  let share ← intDiv a b
  let count ← ofInt n
  return ⌈mul share count⌉

/-- No share of anything is nothing. -/
theorem ceilShare_zero {b n q : ℤ} (h : ceilShare 0 b n = some q) : q = 0 := by
  simp only [ceilShare, intDiv, Option.bind_eq_bind, Option.bind_eq_some_iff, Int.cast_zero,
    zero_div, round_zero, abs_zero] at h
  split_ifs at h with hb hlt
  · simp at h
  · obtain ⟨share, hshare, count, _, hq⟩ := h
    obtain rfl := Option.some.inj hshare
    simpa [mul, round_zero] using (Option.some.inj hq).symm
  · simp at h

/-- A ratio in lowest terms or not is one double. -/
theorem intDiv_mul_left {u k n : ℤ} (hu : u ≠ 0) : intDiv (u * k) (u * n) = intDiv k n := by
  have hu' : (u : ℚ) ≠ 0 := by exact_mod_cast hu
  have hratio : ((u * k : ℤ) : ℚ) / ((u * n : ℤ) : ℚ) = k / n := by
    push_cast
    exact mul_div_mul_left _ _ hu'
  by_cases hn : n = 0
  · simp [intDiv, hn]
  · rw [intDiv, intDiv, if_neg (mul_ne_zero hu hn), if_neg hn, hratio]

/-- A share that is `k` of `n` exactly is rounded up past `k` where `k / n * n` exceeds `k`, and
only there. -/
theorem backAtMost_iff {u k n : ℤ} (hu : u ≠ 0) :
    backAtMost k n = true ↔ ∀ q, ceilShare (u * k) (u * n) n = some q → q ≤ k := by
  rw [ceilShare, intDiv_mul_left hu, backAtMost]
  cases intDiv k n with
  | none => simp
  | some share =>
    cases ofInt n with
    | none => simp
    | some count => simp [Int.ceil_le]

/-- The double of a ratio below one, of a denominator below `2 ^ 64`. -/
theorem intDiv_below_one {a b : ℤ} (ha : 0 < a) (hb : 0 < b) (hless : a < b) (hsmall : b < 2 ^ 64) :
    intDiv a b = some (round (a / b)) ∧ 1 / 2 ^ 64 * kept ≤ round (a / b) ∧
      (a : ℚ) / b * kept ≤ round (a / b) := by
  have haq : (1 : ℚ) ≤ a := by exact_mod_cast ha
  have hbq : (b : ℚ) < 2 ^ 64 := by exact_mod_cast hsmall
  have hbpos : (0 : ℚ) < b := by exact_mod_cast hb
  have hlow : (1 : ℚ) / 2 ^ 64 ≤ a / b := by
    rw [div_le_div_iff₀ (by norm_num) hbpos]
    linarith
  have hhigh : (a : ℚ) / b < 1 := by
    rw [div_lt_one hbpos]
    exact_mod_cast hless
  have hnormal : minNormal ≤ (a : ℚ) / b := minNormal_le.trans (le_trans (by norm_num) hlow)
  obtain ⟨hkept, -⟩ := round_bounds hnormal
  refine ⟨?_, (mul_le_mul_of_nonneg_right hlow kept_pos.le).trans hkept, hkept⟩
  rw [intDiv, if_neg hb.ne', if_pos (round_lt hnormal (hhigh.trans (by norm_num)))]

/-- The double of a positive integer below `2 ^ 64`. -/
theorem ofInt_positive {n : ℤ} (hn : 0 < n) (hsmall : n < 2 ^ 64) :
    ofInt n = some (round n) ∧ (n : ℚ) * kept ≤ round n := by
  have hnq : (1 : ℚ) ≤ n := by exact_mod_cast hn
  have hnormal : minNormal ≤ (n : ℚ) := minNormal_le.trans (le_trans (by norm_num) hnq)
  obtain ⟨hkept, -⟩ := round_bounds hnormal
  refine ⟨?_, hkept⟩
  rw [ofInt, if_pos (round_lt hnormal (by exact_mod_cast hsmall))]

/-- What is more than `k` of `n` is at least `1 / u` past `k`, and three roundings lose less. -/
theorem lt_kept_cube {a u k : ℤ} (hu : 0 < u) (hk : 0 ≤ k) (ha : a < 2 ^ 51) (hmore : u * k < a) :
    (k : ℚ) < a / u * kept ^ 3 := by
  have huq : (0 : ℚ) < u := by exact_mod_cast hu
  have hwhole : (k : ℚ) ≤ (a - 1) / u := by
    have hint : ((u * k : ℤ) : ℚ) ≤ ((a - 1 : ℤ) : ℚ) := by
      exact_mod_cast Int.le_sub_one_of_lt hmore
    push_cast at hint
    rw [le_div_iff₀ huq]
    linarith
  have hloss : (a - 1 : ℚ) / u < a / u * kept ^ 3 := by
    have hapos : (0 : ℚ) ≤ a := by exact_mod_cast (mul_nonneg hu.le hk).trans hmore.le
    have haq : (a : ℚ) < 2 ^ 51 := by exact_mod_cast ha
    have hcube : 1 - 1 / 2 ^ 51 ≤ kept ^ 3 := by norm_num [kept]
    have hmul : (a : ℚ) * (1 - 1 / 2 ^ 51) ≤ a * kept ^ 3 := mul_le_mul_of_nonneg_left hcube hapos
    rw [div_mul_eq_mul_div, div_lt_div_iff_of_pos_right huq]
    linarith
  exact lt_of_le_of_lt hwhole hloss

/-- Where the share is of less than `2 ^ 51`, no rounding hides a remainder: a share that is more
than `k` of `n` is rounded up past `k`. -/
theorem lt_ceilShare {a u n k : ℤ} (hn : 0 < n) (hu : 0 < u) (ha : a < 2 ^ 51)
    (hsmall : u * n < 2 ^ 64) (hk : 0 ≤ k) (hmore : u * k < a) (hless : a < u * n) :
    ∃ q, ceilShare a (u * n) n = some q ∧ k < q := by
  have hapos : 0 < a := lt_of_le_of_lt (mul_nonneg hu.le hk) hmore
  have hnq : (1 : ℚ) ≤ n := by exact_mod_cast hn
  obtain ⟨hshare, hleast, hs⟩ := intDiv_below_one hapos (mul_pos hu hn) hless hsmall
  obtain ⟨hcount, hc⟩ :=
    ofInt_positive hn (lt_of_le_of_lt (le_mul_of_one_le_left hn.le hu) hsmall)
  have hnonneg : 0 ≤ round (a / ((u * n : ℤ) : ℚ)) :=
    le_trans (mul_nonneg (by norm_num) kept_pos.le) hleast
  have hprod : a / u * kept ^ 2 ≤ round (a / ((u * n : ℤ) : ℚ)) * round n := by
    have hexact : a / ((u * n : ℤ) : ℚ) * kept * (n * kept) = a / u * kept ^ 2 := by
      have hn0 : (n : ℚ) ≠ 0 := by linarith
      push_cast
      field_simp
    rw [← hexact]
    exact mul_le_mul hs hc (mul_nonneg (by linarith) kept_pos.le) hnonneg
  have hnormal : minNormal ≤ round (a / ((u * n : ℤ) : ℚ)) * round n := by
    have hcount_least : kept ≤ round n := (le_mul_of_one_le_left kept_pos.le hnq).trans hc
    have hleast' : (1 : ℚ) / 2 ^ 66 ≤ 1 / 2 ^ 64 * kept * kept := by norm_num [kept]
    exact minNormal_le.trans (hleast'.trans (mul_le_mul hleast hcount_least kept_pos.le hnonneg))
  obtain ⟨hp, -⟩ := round_bounds hnormal
  refine ⟨⌈mul (round (a / ((u * n : ℤ) : ℚ))) (round n)⌉, ?_, ?_⟩
  · rw [ceilShare, hshare, hcount]
    rfl
  · rw [Int.lt_ceil]
    calc (k : ℚ)
        < a / u * kept ^ 3 := lt_kept_cube hu hk ha hmore
      _ = a / u * kept ^ 2 * kept := by ring
      _ ≤ round (a / ((u * n : ℤ) : ℚ)) * round n * kept :=
        mul_le_mul_of_nonneg_right hprod kept_pos.le
      _ ≤ mul (round (a / ((u * n : ℤ) : ℚ))) (round n) := hp

end VllmExl3.Double
