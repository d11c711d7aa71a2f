/-
# VllmExl3.Lib.Bytes — byte strings: fixed-width integers and blocks laid end to end

What a binary container needs: little-endian integers of a fixed width that read back, and a block
that is found again at the offset where it was written. Nothing here names the repository.
-/
import VllmExl3.Lib.Vec

namespace VllmExl3

/-- `bytes` -/
abbrev Bytes := List UInt8

/-! ## Little-endian integers -/

/-- `int.from_bytes(bs, "little")` -/
def leNat : Bytes → Nat
  | [] => 0
  | b :: rest => b.toNat + 256 * leNat rest

/-- The `width` low bytes of an integer, the lowest first. -/
def leBytes : Nat → Nat → Bytes
  | 0, _ => []
  | width + 1, n => UInt8.ofNat (n % 256) :: leBytes width (n / 256)

@[simp] theorem length_leBytes (width n : Nat) : (leBytes width n).length = width := by
  induction width generalizing n with
  | zero => rfl
  | succ width ih => simp [leBytes, ih]

/-- An integer that fits its width reads back. -/
theorem leNat_leBytes {width n : Nat} (h : n < 256 ^ width) : leNat (leBytes width n) = n := by
  induction width generalizing n with
  | zero => simp_all [leBytes, leNat]
  | succ width ih =>
    have hrest : n / 256 < 256 ^ width := by
      rw [Nat.div_lt_iff_lt_mul (by decide), ← Nat.pow_succ]
      exact h
    have hlow : (UInt8.ofNat (n % 256)).toNat = n % 256 := by simp
    rw [leBytes, leNat, ih hrest, hlow]
    omega

/-- `n.to_bytes(width, "little")`, which overflows when it does not fit. -/
def toBytes (width n : Nat) : Option Bytes :=
  if n < 256 ^ width then some (leBytes width n) else none

theorem toBytes_eq_some {width n : Nat} {bs : Bytes} (h : toBytes width n = some bs) :
    bs.length = width ∧ leNat bs = n := by
  unfold toBytes at h
  split_ifs at h with hfits
  obtain rfl := Option.some.inj h
  exact ⟨length_leBytes width n, leNat_leBytes hfits⟩

/-! ## Blocks -/

theorem slice_append_right {α : Type*} (front xs : List α) (a b : Nat) :
    slice (front.length + a) (front.length + b) (front ++ xs) = slice a b xs := by
  simp [slice, List.take_append, List.drop_append]

theorem slice_append_left {α : Type*} {block : List α} (rest : List α) :
    slice 0 block.length (block ++ rest) = block := by
  simp [slice]

/-- A block is found again at the offset where it was written. -/
theorem slice_append_mid {α : Type*} (front block rest : List α) :
    slice front.length (front.length + block.length) (front ++ (block ++ rest)) = block := by
  have h := slice_append_right front (block ++ rest) 0 block.length
  rw [Nat.add_zero, slice_append_left] at h
  exact h

end VllmExl3
