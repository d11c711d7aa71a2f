/-
# VllmExl3.Format.Trellis — a trellis' shape, and the width and dimensions it stands for (`format.py`)

A checkpoint stores no bit widths: `bits_from_trellis_shape` and `dims_from_trellis_shape` read them off a
trellis' shape, and `trellis_shape` is the shape they belong to. A number is taken for a width exactly
where some trellis has it (`trellis_shape_iff`).
-/
import VllmExl3.Format
import Mathlib.Data.Rat.Floor

namespace VllmExl3.Format

/-- The number a bit width is. -/
def Bits.value : Bits → ℚ
  | .int k => k
  | .half ka => ka + mkRat 1 2

/-- The words a tile of this width takes. -/
def Bits.words : Bits → Nat
  | .int k => TILE * k
  | .half ka => TILE * ka + TILE / 2

/-- `trellis_shape`; `shown` is the text Python prints for `bits`. -/
def trellisShape (in_features out_features : Nat) (bits : ℚ) (shown : String) :
    Except PyError (List Nat) :=
  if in_features % TILE ≠ 0 ∨ out_features % TILE ≠ 0 then .error (.exl3Format
    s!"EXL3 dimensions must be multiples of {TILE}, got in={in_features} out={out_features}")
  else if ¬((MIN_BITS : ℚ) ≤ bits ∧ bits ≤ (MAX_BITS : ℚ) ∧
      (bits.den = 1 ∨ bits ∈ HALF_BITS.map Bits.value)) then
    .error (.exl3Format s!"no EXL3 bit width {shown}")
  else .ok [in_features / TILE, out_features / TILE, ⌊TILE * bits⌋₊]

/-! ## Widths -/

/-- The widths there are: from 1 to 8, and the three halves. -/
def Bits.Known : Bits → Prop
  | .int k => MIN_BITS ≤ k ∧ k ≤ MAX_BITS
  | .half ka => ka = 1 ∨ ka = 2 ∨ ka = 3

theorem halfBits_eq_some_iff {last : Nat} {bits : Bits} :
    halfBits last = some bits ↔ ∃ ka, bits = .half ka ∧ (ka = 1 ∨ ka = 2 ∨ ka = 3) ∧
      last = TILE * ka + TILE / 2 := by
  constructor
  · intro h
    have hmem := List.mem_of_find?_eq_some h
    have hlast := List.find?_some h
    simp only [HALF_BITS, List.mem_cons, List.not_mem_nil, or_false] at hmem
    rcases hmem with rfl | rfl | rfl
    all_goals exact ⟨_, rfl, by decide, of_decide_eq_true hlast⟩
  · rintro ⟨ka, rfl, rfl | rfl | rfl, rfl⟩ <;> rfl

/-- A width is read off a last dimension exactly where it is a known one that takes as many words, and a
half-integer one is refused where the codebook is known not to be `mul1`. -/
theorem bitsFromTrellisShape_eq_ok_iff {rows cols last : Nat} {mul1 : Option Bool} {bits : Bits} :
    bitsFromTrellisShape [rows, cols, last] mul1 = .ok bits ↔
      bits.Known ∧ last = bits.words ∧ (mul1 = some false → ∃ k, bits = .int k) := by
  unfold bitsFromTrellisShape
  dsimp only
  by_cases hwhole : last % TILE = 0
  · rw [if_neg (not_not.mpr hwhole)]
    have hlast : TILE * (last / TILE) = last := Nat.mul_div_cancel' (Nat.dvd_of_mod_eq_zero hwhole)
    constructor
    · intro h
      split_ifs at h with hbits
      obtain rfl := Except.ok.inj h
      exact ⟨hbits, hlast.symm, fun _ => ⟨_, rfl⟩⟩
    · rintro ⟨hknown, hwords, -⟩
      cases bits with
      | int k =>
        rw [hwords, Bits.words, Nat.mul_div_cancel_left k (by decide)]
        exact if_pos hknown
      | half ka =>
        simp only [Bits.words, TILE] at hwords
        simp only [TILE] at hwhole
        omega
  · rw [if_pos hwhole]
    constructor
    · intro h
      cases hhalf : halfBits last with
      | none =>
        rw [hhalf] at h
        cases h
      | some half =>
        rw [hhalf] at h
        dsimp only at h
        split_ifs at h with hmul1
        obtain rfl := Except.ok.inj h
        obtain ⟨ka, rfl, hka, hlast⟩ := halfBits_eq_some_iff.mp hhalf
        exact ⟨hka, hlast, fun hfalse => absurd hfalse hmul1⟩
    · rintro ⟨hknown, hwords, hint⟩
      cases bits with
      | int k =>
        rw [hwords, Bits.words, Nat.mul_mod_right] at hwhole
        exact absurd rfl hwhole
      | half ka =>
        rw [halfBits_eq_some_iff.mpr ⟨ka, rfl, hknown, hwords⟩]
        dsimp only
        rw [if_neg]
        intro hfalse
        obtain ⟨k, hk⟩ := hint hfalse
        cases hk

/-- A trellis of a width has that many words a tile. -/
theorem words_of_bits {rows cols last : Nat} {mul1 : Option Bool} {bits : Bits}
    (h : bitsFromTrellisShape [rows, cols, last] mul1 = .ok bits) : last = bits.words :=
  (bitsFromTrellisShape_eq_ok_iff.mp h).2.1

/-- A number passes the check of `trellis_shape` exactly where it is a known width's. -/
theorem known_iff {q : ℚ} : ((MIN_BITS : ℚ) ≤ q ∧ q ≤ (MAX_BITS : ℚ) ∧
    (q.den = 1 ∨ q ∈ HALF_BITS.map Bits.value)) ↔ ∃ bits : Bits, bits.Known ∧ bits.value = q := by
  constructor
  · rintro ⟨hmin, hmax, hint | hhalf⟩
    · obtain ⟨z, rfl⟩ : ∃ z : ℤ, (z : ℚ) = q := ⟨q.num, (Rat.den_eq_one_iff q).mp hint⟩
      have hlow : (1 : ℤ) ≤ z := by exact_mod_cast hmin
      obtain ⟨k, rfl⟩ := Int.eq_ofNat_of_zero_le (by omega : 0 ≤ z)
      exact ⟨.int k, ⟨by exact_mod_cast hmin, by exact_mod_cast hmax⟩, rfl⟩
    · obtain ⟨bits, hbits, rfl⟩ := List.mem_map.mp hhalf
      refine ⟨bits, ?_, rfl⟩
      simp only [HALF_BITS, List.mem_cons, List.not_mem_nil, or_false] at hbits
      rcases hbits with rfl | rfl | rfl <;> simp [Bits.Known]
  · rintro ⟨bits, hknown, rfl⟩
    cases bits with
    | int k =>
      obtain ⟨hmin, hmax⟩ := hknown
      exact ⟨Nat.cast_le.mpr hmin, Nat.cast_le.mpr hmax, .inl (Rat.den_natCast k)⟩
    | half ka => rcases hknown with rfl | rfl | rfl <;> decide +kernel

theorem floor_words (bits : Bits) : ⌊(TILE : ℚ) * bits.value⌋₊ = bits.words := by
  have hvalue : (TILE : ℚ) * bits.value = (bits.words : ℕ) := by
    cases bits with
    | int k => simp [Bits.value, Bits.words]
    | half ka =>
      simp only [Bits.value, Bits.words, TILE]
      push_cast
      norm_num [Rat.mkRat_eq_div]
      ring
  rw [hvalue, Nat.floor_natCast]

/-! ## The round trip -/

/-- **A trellis' shape and what it stands for determine each other.** For every shape and every number: the
number is the shape's bit width and the dimensions are the shape's, read under any knowledge of the
codebook, exactly where `trellis_shape` makes that shape of them, except that a half-integer width is not
read where the codebook is known not to be `mul1`. -/
theorem trellis_shape_iff (shape : List Nat) (in_features out_features : Nat) (q : ℚ) (shown : String)
    (mul1 : Option Bool) :
    (∃ bits : Bits, bits.value = q ∧ bitsFromTrellisShape shape mul1 = .ok bits ∧
        dimsFromTrellisShape shape = .ok (in_features, out_features)) ↔
      trellisShape in_features out_features q shown = .ok shape ∧
        (mul1 = some false → q.den = 1) := by
  constructor
  · rintro ⟨bits, rfl, hbits, hdims⟩
    obtain ⟨rows, cols, last, rfl⟩ : ∃ rows cols last, shape = [rows, cols, last] := by
      unfold dimsFromTrellisShape at hdims
      split at hdims
      · exact ⟨_, _, _, rfl⟩
      · cases hdims
    obtain ⟨hknown, hlast, hint⟩ := bitsFromTrellisShape_eq_ok_iff.mp hbits
    obtain ⟨rfl, rfl⟩ := Prod.mk.inj (Except.ok.inj hdims)
    constructor
    · rw [trellisShape, if_neg (by simp), if_neg (not_not.mpr (known_iff.mpr ⟨bits, hknown, rfl⟩)),
        floor_words, hlast, Nat.mul_div_cancel _ (by decide), Nat.mul_div_cancel _ (by decide)]
    · intro hfalse
      obtain ⟨k, rfl⟩ := hint hfalse
      rfl
  · rintro ⟨h, hint⟩
    unfold trellisShape at h
    split_ifs at h with hdims hknown
    obtain rfl := Except.ok.inj h
    obtain ⟨hrows, hcols⟩ := not_or.mp hdims
    obtain ⟨bits, hbits, rfl⟩ := known_iff.mp hknown
    refine ⟨bits, rfl, bitsFromTrellisShape_eq_ok_iff.mpr ⟨hbits, floor_words bits, fun hfalse => ?_⟩, ?_⟩
    · cases bits with
      | int k => exact ⟨k, rfl⟩
      | half ka =>
        refine absurd (hint hfalse) ?_
        rcases hbits with rfl | rfl | rfl <;> decide +kernel
    · rw [dimsFromTrellisShape, Nat.div_mul_cancel (Nat.dvd_of_mod_eq_zero (not_not.mp hrows)),
        Nat.div_mul_cancel (Nat.dvd_of_mod_eq_zero (not_not.mp hcols))]

end VllmExl3.Format
