/-
# VllmExl3.Lib.BitStream — words read as one stream of bits, and tail-biting stacks

A list of `w`-bit words is one little-endian number; a field of it is read through a window of two
words. A stack packs a cyclic sequence of `k`-bit symbols, the newest in the low bits: cut to `L`
bits it obeys the shift-register law, and it determines the symbols. Nothing here names the
repository.
-/
import VllmExl3.Lib.Vec
import Mathlib.Algebra.BigOperators.Intervals
import Mathlib.Algebra.BigOperators.Ring.Finset
import Mathlib.Data.Nat.Bitwise
import Mathlib.Data.Nat.Digits.Defs

namespace VllmExl3.BitStream

open Finset

/-! ## Words as one number -/

/-- The bits `[start, start + k)` of a number. -/
def field (n start k : Nat) : Nat := n / 2 ^ start % 2 ^ k

theorem field_lt (n start k : Nat) : field n start k < 2 ^ k :=
  Nat.mod_lt _ (Nat.two_pow_pos k)

theorem testBit_field (n start k t : Nat) :
    (field n start k).testBit t = (decide (t < k) && n.testBit (t + start)) := by
  rw [field, Nat.testBit_mod_two_pow, Nat.testBit_div_two_pow]

/-- A number is determined by the fields that cover it. -/
theorem eq_of_fields {n n' k count : Nat} (hk : 0 < k) (hn : n < 2 ^ (count * k))
    (hn' : n' < 2 ^ (count * k)) (h : ∀ i < count, field n (i * k) k = field n' (i * k) k) : n = n' := by
  refine Nat.eq_of_testBit_eq fun b => ?_
  rcases Nat.lt_or_ge b (count * k) with hb | hb
  · have hi : b / k < count := (Nat.div_lt_iff_lt_mul hk).mpr hb
    have hmod : b % k < k := Nat.mod_lt b hk
    have hbit := congrArg (·.testBit (b % k)) (h (b / k) hi)
    simpa only [testBit_field, hmod, decide_true, Bool.true_and, Nat.mod_add_div'] using hbit
  · have hpow : 2 ^ (count * k) ≤ 2 ^ b := Nat.pow_le_pow_right (by decide) hb
    rw [Nat.testBit_lt_two_pow (by omega), Nat.testBit_lt_two_pow (by omega)]

/-- Bit `b` of the number is bit `b % w` of word `b / w`. -/
theorem testBit_ofDigits {w : Nat} (hw : 0 < w) {words : List Nat} (h : ∀ x ∈ words, x < 2 ^ w)
    (b : Nat) : (Nat.ofDigits (2 ^ w) words).testBit b = (words.getD (b / w) 0).testBit (b % w) := by
  induction words generalizing b with
  | nil => simp
  | cons x rest ih =>
    have hx : x < 2 ^ w := h x List.mem_cons_self
    have hrest : ∀ y ∈ rest, y < 2 ^ w := fun y hy => h y (List.mem_cons_of_mem x hy)
    rw [Nat.ofDigits_cons, Nat.add_comm, Nat.testBit_two_pow_mul_add _ hx]
    split_ifs with hb
    · rw [Nat.div_eq_of_lt hb, Nat.mod_eq_of_lt hb, List.getD_cons_zero]
    · have hge : w ≤ b := Nat.le_of_not_lt hb
      rw [ih hrest, Nat.div_eq_sub_div hw hge, List.getD_cons_succ, Nat.mod_eq_sub_mod hge]

/-- A field no wider than a word, read through the word it starts in and the next one. The next word is
looked up cyclically; where it wraps, no bit of it is in the field. -/
theorem window_eq_field {w q s k : Nat} {words : List Nat} (h : ∀ x ∈ words, x < 2 ^ w) (hs : s < w)
    (hk : k ≤ w) (hend : q * w + s + k ≤ words.length * w) :
    (words.getD q 0 ||| words.getD ((q + 1) % words.length) 0 <<< w) >>> s % 2 ^ k =
      field (Nat.ofDigits (2 ^ w) words) (q * w + s) k := by
  have hw : 0 < w := by omega
  have hword : ∀ i, words.getD i 0 < 2 ^ w := by
    intro i
    rcases Nat.lt_or_ge i words.length with hi | hi
    · rw [List.getD_eq_getElem _ _ hi]
      exact h _ (List.getElem_mem hi)
    · rw [List.getD_eq_default _ _ hi]
      exact Nat.two_pow_pos w
  refine Nat.eq_of_testBit_eq fun t => ?_
  rw [testBit_field, Nat.testBit_mod_two_pow, Nat.testBit_shiftRight, Nat.testBit_or,
    Nat.testBit_shiftLeft, testBit_ofDigits hw h]
  by_cases ht : t < k
  · rcases Nat.lt_or_ge (s + t) w with hin | hnext
    · -- the bit is in the word the field starts in
      have hdiv : (t + (q * w + s)) / w = q := by
        rw [show t + (q * w + s) = (s + t) + q * w by omega, Nat.add_mul_div_right _ _ hw,
          Nat.div_eq_of_lt hin, Nat.zero_add]
      have hmod : (t + (q * w + s)) % w = s + t := by
        rw [show t + (q * w + s) = (s + t) + q * w by omega, Nat.add_mul_mod_self_right,
          Nat.mod_eq_of_lt hin]
      simp [ht, hdiv, hmod, Nat.not_le.mpr hin]
    · -- the bit is in the next word, which exists
      have hq : q + 1 < words.length := by
        by_contra hle
        have := Nat.mul_le_mul_right w (Nat.le_of_not_lt hle)
        rw [Nat.succ_mul] at this
        omega
      have hdiv : (t + (q * w + s)) / w = q + 1 := by
        rw [show t + (q * w + s) = (s + t - w) + (q + 1) * w by rw [Nat.succ_mul]; omega,
          Nat.add_mul_div_right _ _ hw, Nat.div_eq_of_lt (by omega), Nat.zero_add]
      have hmod : (t + (q * w + s)) % w = s + t - w := by
        rw [show t + (q * w + s) = (s + t - w) + (q + 1) * w by rw [Nat.succ_mul]; omega,
          Nat.add_mul_mod_self_right, Nat.mod_eq_of_lt (by omega)]
      have hhigh : (words.getD q 0).testBit (s + t) = false :=
        Nat.testBit_lt_two_pow (Nat.lt_of_lt_of_le (hword q) (Nat.pow_le_pow_right (by decide) hnext))
      rw [hdiv, hmod, Nat.mod_eq_of_lt hq, hhigh]
      simp [ht, hnext]
  · simp [ht]

/-- Words are determined by the number they spell. -/
theorem eq_of_ofDigits {w : Nat} (hw : 0 < w) {words words' : List Nat}
    (hlen : words.length = words'.length) (h : ∀ x ∈ words, x < 2 ^ w) (h' : ∀ x ∈ words', x < 2 ^ w)
    (heq : Nat.ofDigits (2 ^ w) words = Nat.ofDigits (2 ^ w) words') : words = words' :=
  Nat.ofDigits_inj_of_len_eq (Nat.one_lt_two_pow (by omega)) hlen h h' heq

theorem ofDigits_lt {w : Nat} (hw : 0 < w) {words : List Nat} (h : ∀ x ∈ words, x < 2 ^ w) :
    Nat.ofDigits (2 ^ w) words < 2 ^ (words.length * w) := by
  rw [Nat.mul_comm, Nat.pow_mul]
  exact Nat.ofDigits_lt_base_pow_length (Nat.one_lt_two_pow (by omega)) h

/-! ## Stacks of cyclic symbols -/

/-- The index `j` places before `i`, around a ring of `n`. -/
def back (n i j : Nat) : Nat := (((i : Int) - j) % n).toNat

theorem back_lt {n : Nat} (hn : 0 < n) (i j : Nat) : back n i j < n := by
  have hpos : (0 : Int) < n := by omega
  have hlo := Int.emod_nonneg ((i : Int) - j) (by omega : (n : Int) ≠ 0)
  have hhi := Int.emod_lt_of_pos ((i : Int) - j) hpos
  unfold back
  omega

theorem back_zero {n i : Nat} (hi : i < n) : back n i 0 = i := by
  rw [back, Nat.cast_zero, Int.sub_zero, Int.emod_eq_of_lt (by omega) (by omega)]
  rfl

/-- One place on, one more place back. -/
theorem back_succ (n i j : Nat) : back n ((i + 1) % n) (j + 1) = back n i j := by
  rw [back, back, Nat.cast_add, Nat.cast_one, Int.natCast_emod, Int.emod_sub_emod]
  congr 2
  push_cast
  ring

/-- The last `m` symbols up to `i`, the newest in the low bits. -/
def stack (n k : Nat) (symbol : Nat → Nat) (m i : Nat) : Nat :=
  ∑ j ∈ range m, symbol (back n i j) * 2 ^ (j * k)

variable {n k L m i : Nat} {symbol : Nat → Nat}

theorem stack_succ (n k : Nat) (symbol : Nat → Nat) (m i : Nat) :
    stack n k symbol (m + 1) i = stack n k symbol m i + symbol (back n i m) * 2 ^ (m * k) :=
  sum_range_succ _ m

theorem stack_lt (h : ∀ i, symbol i < 2 ^ k) (m i : Nat) : stack n k symbol m i < 2 ^ (m * k) := by
  induction m with
  | zero => simp [stack]
  | succ m ih =>
    have hsym : symbol (back n i m) + 1 ≤ 2 ^ k := h _
    have hmul := Nat.mul_le_mul_right (2 ^ (m * k)) hsym
    rw [stack_succ, Nat.succ_mul m k, Nat.pow_add, Nat.mul_comm (2 ^ (m * k)) (2 ^ k)]
    rw [Nat.succ_mul] at hmul
    omega

/-- Symbols more than `L` bits up do not show in the low `L` bits. -/
theorem stack_mod_of_le {m' : Nat} (hm : L ≤ m * k) (hle : m ≤ m') :
    stack n k symbol m' i % 2 ^ L = stack n k symbol m i % 2 ^ L := by
  induction m', hle using Nat.le_induction with
  | base => rfl
  | succ m' hle ih =>
    have hexp : L ≤ m' * k := hm.trans (Nat.mul_le_mul_right k hle)
    obtain ⟨c, hc⟩ : 2 ^ L ∣ symbol (back n i m') * 2 ^ (m' * k) :=
      Dvd.dvd.mul_left (Nat.pow_dvd_pow 2 hexp) _
    rw [stack_succ, hc, Nat.add_mul_mod_self_left, ih]

/-- The shift-register law of a tail-biting ring: the stack at the next place is this one shifted by a
symbol, with the next symbol in the low bits. -/
theorem stack_next (hn : 0 < n) (hm : L ≤ m * k) :
    stack n k symbol m ((i + 1) % n) % 2 ^ L =
      (stack n k symbol m i * 2 ^ k + symbol ((i + 1) % n)) % 2 ^ L := by
  have hsplit : stack n k symbol (m + 1) ((i + 1) % n) =
      stack n k symbol m i * 2 ^ k + symbol ((i + 1) % n) := by
    rw [stack, sum_range_succ', back_zero (Nat.mod_lt _ hn), Nat.zero_mul, Nat.pow_zero, Nat.mul_one,
      stack, sum_mul]
    refine congrArg (· + _) (sum_congr rfl fun j _ => ?_)
    rw [back_succ, Nat.succ_mul, Nat.pow_add, Nat.mul_assoc]
  rw [← hsplit, stack_mod_of_le hm (Nat.le_succ m)]

/-- The newest symbol is the low `k` bits. -/
theorem stack_low (h : ∀ i, symbol i < 2 ^ k) (hi : i < n) (hk : k ≤ L) (hm : 0 < m) :
    stack n k symbol m i % 2 ^ L % 2 ^ k = symbol i := by
  rw [Nat.mod_mod_of_dvd _ (Nat.pow_dvd_pow 2 hk), stack_mod_of_le (by omega : k ≤ 1 * k) hm, stack_succ,
    back_zero hi]
  simp only [stack, range_zero, sum_empty, Nat.zero_add, Nat.zero_mul, Nat.pow_zero, Nat.mul_one]
  exact Nat.mod_eq_of_lt (h i)

/-- Stacking by shifts and ors. -/
theorem stack_or (h : ∀ i, symbol i < 2 ^ k) (m i : Nat) :
    stack n k symbol m i ||| symbol (back n i m) <<< (m * k) = stack n k symbol (m + 1) i := by
  rw [stack_succ, Nat.shiftLeft_eq, Nat.mul_comm (symbol _), Nat.or_comm,
    ← Nat.two_pow_add_eq_or_of_lt (stack_lt h m i), Nat.add_comm]

/-- The shift-register law on states of `L` bits, by a shift and an or. -/
theorem state_next (hn : 0 < n) (h : ∀ i, symbol i < 2 ^ k) (hm : L ≤ m * k) :
    stack n k symbol m ((i + 1) % n) % 2 ^ L =
      ((stack n k symbol m i % 2 ^ L) <<< k ||| symbol ((i + 1) % n)) % 2 ^ L := by
  rw [stack_next hn hm, Nat.shiftLeft_eq, Nat.mul_comm (_ % _), ← Nat.two_pow_add_eq_or_of_lt (h _),
    Nat.add_mod, Nat.mul_comm, ← Nat.mul_mod_mod, ← Nat.add_mod]

/-- Cut to `L` bits, the stacks of all places determine the symbols. -/
theorem symbols_of_stacks {symbol' : Nat → Nat} (h : ∀ i, symbol i < 2 ^ k)
    (h' : ∀ i, symbol' i < 2 ^ k) (hk : k ≤ L) (hm : 0 < m)
    (heq : ∀ i < n, stack n k symbol m i % 2 ^ L = stack n k symbol' m i % 2 ^ L) :
    ∀ i < n, symbol i = symbol' i := by
  intro i hi
  rw [← stack_low h hi hk hm, heq i hi, stack_low h' hi hk hm]

end VllmExl3.BitStream
