/-
# VllmExl3.Lib.Paged — sequences in pages

A sequence laid out in blocks of `bs` places, with a row that says which block is at which index: position
`t` is in block `row[t / bs]` at offset `t % bs`. What is read of the first `n` positions is the blocks
that they fill and the beginning of the block after these, it depends on the entries of the row up to there
and no others, and where the full blocks are rearranged the same places are read in another order. Nothing
here names the repository.
-/
import VllmExl3.Lib.Vec
import Mathlib.Data.List.GetD
import Mathlib.Data.List.Perm.Basic
import Mathlib.Data.List.Nodup

namespace VllmExl3.Paged

variable {β : Type*} {bs n : Nat} {row row' : List β}

/-- The first `r` places of a block. -/
def blockKeys (r : Nat) (b : β) : List (β × Nat) := tabulate r fun offset => (b, offset)

/-- The number of blocks that `n` positions reach into. -/
def blocksRead (bs n : Nat) : Nat := (n + bs - 1) / bs

section Places

variable [Inhabited β]

/-- Where position `t` is: its block, and the offset in it. -/
def keyAt (bs : Nat) (row : List β) (t : Nat) : β × Nat := (row.getD (t / bs) default, t % bs)

/-- Where the first `n` positions are. -/
def keys (bs : Nat) (row : List β) (n : Nat) : List (β × Nat) := tabulate n (keyAt bs row)

/-! ## Positions and blocks -/

theorem lt_blocksRead (hbs : 0 < bs) {t : Nat} (ht : t < n) : t / bs < blocksRead bs n := by
  have hle : t / bs * bs ≤ t := Nat.div_mul_le_self t bs
  rw [blocksRead, Nat.lt_div_iff_mul_lt hbs]
  omega

theorem blocksRead_add {k r : Nat} (hr : 0 < r) (hrb : r ≤ bs) : blocksRead bs (k * bs + r) = k + 1 := by
  have hsum : k * bs + r + bs - 1 = r - 1 + (k + 1) * bs := by
    rw [Nat.succ_mul]
    omega
  rw [blocksRead, hsum, Nat.add_mul_div_right _ _ (by omega), Nat.div_eq_of_lt (by omega), Nat.zero_add]

/-- Only the entries that the positions reach are read. -/
theorem keys_congr (hbs : 0 < bs) (h : ∀ i < blocksRead bs n, row.getD i default = row'.getD i default) :
    keys bs row n = keys bs row' n := by
  refine tabulate_congr fun t ht => ?_
  rw [keyAt, keyAt, h _ (lt_blocksRead hbs ht)]

/-- What is read: the blocks that are filled, and the first places of the one after. -/
theorem keys_split (row : List β) {k r : Nat} (hr : r ≤ bs) : keys bs row (k * bs + r) =
    (tabulate k fun i => blockKeys bs (row.getD i default)).flatten ++
      blockKeys r (row.getD k default) := by
  have hin : ∀ i o, o < bs → keyAt bs row (i * bs + o) = (row.getD i default, o) := by
    intro i o ho
    have hpos : 0 < bs := by omega
    rw [keyAt, Nat.add_comm, Nat.add_mul_div_right _ _ hpos, Nat.div_eq_of_lt ho, Nat.zero_add,
      Nat.add_mul_mod_self_right, Nat.mod_eq_of_lt ho]
  have hfull : ∀ i, (tabulate bs fun o => keyAt bs row (i * bs + o)) = blockKeys bs (row.getD i default) :=
    fun i => tabulate_congr fun o ho => hin i o ho
  rw [keys, tabulate_add, ← flatten_tabulate, tabulate_congr fun i _ => hfull i]
  congr 1
  refine tabulate_congr fun o ho => ?_
  exact hin k o (by omega)

/-- The full blocks as the row lists them. -/
theorem tabulate_take {k : Nat} (hk : k ≤ row.length) :
    (tabulate k fun i => row.getD i default) = row.take k := by
  have hlen : (row.take k).length = k := List.length_take_of_le hk
  rw [← tabulate_getD default hlen]
  refine tabulate_congr fun i hi => ?_
  rw [List.getD_eq_getElem?_getD, List.getD_eq_getElem?_getD, List.getElem?_take_of_lt hi]

theorem keys_take {k r : Nat} (hk : k ≤ row.length) (hr : r ≤ bs) : keys bs row (k * bs + r) =
    (row.take k).flatMap (blockKeys bs) ++ blockKeys r (row.getD k default) := by
  rw [keys_split row hr, ← tabulate_take hk, List.flatMap, map_tabulate]

/-- One position more. -/
theorem keys_succ (bs : Nat) (row : List β) (n : Nat) :
    keys bs row (n + 1) = keys bs row n ++ [keyAt bs row n] := by
  rw [keys, tabulate_add]
  rfl

/-- In a row without repetitions no two positions are in the same place. -/
theorem keyAt_inj {k t t' : Nat} (hrow : (row.take k).Nodup) (hk : k ≤ row.length) (ht : t < k * bs)
    (ht' : t' < k * bs) (hsame : keyAt bs row t = keyAt bs row t') : t = t' := by
  obtain ⟨hblock, hoffset⟩ := Prod.mk.inj hsame
  have hi : t / bs < k := Nat.div_lt_of_lt_mul (by rwa [Nat.mul_comm])
  have hi' : t' / bs < k := Nat.div_lt_of_lt_mul (by rwa [Nat.mul_comm])
  have hget : ∀ i < k, ∀ hlt : i < (row.take k).length, (row.take k)[i] = row.getD i default := by
    intro i hik hlt
    rw [List.getElem_take, List.getD_eq_getElem _ _ (by omega)]
  have hlen : (row.take k).length = k := List.length_take_of_le hk
  have hquot : t / bs = t' / bs := by
    apply (@List.Nodup.getElem_inj_iff _ _ hrow _ (by omega) _ (by omega)).mp
    rw [hget _ hi, hget _ hi']
    exact hblock
  rw [← Nat.div_add_mod t bs, ← Nat.div_add_mod t' bs, hquot, hoffset]

theorem keys_nodup {k : Nat} (hrow : (row.take k).Nodup) (hk : k ≤ row.length) (hn : n ≤ k * bs) :
    (keys bs row n).Nodup := by
  refine List.Nodup.map_on ?_ List.nodup_range
  intro t ht t' ht' hsame
  rw [List.mem_range] at ht ht'
  exact keyAt_inj hrow hk (ht.trans_le hn) (ht'.trans_le hn) hsame

end Places

/-! ## Rows that are rearranged -/

/-- The first `k` entries are in another order, and the later ones as they were. -/
structure Rearranged (k : Nat) (row row' : List β) : Prop where
  front : (row'.take k).Perm (row.take k)
  later : row'.drop k = row.drop k

namespace Rearranged

variable {k : Nat}

theorem refl (k : Nat) (row : List β) : Rearranged k row row := ⟨.refl _, rfl⟩

theorem perm (h : Rearranged k row row') : row'.Perm row := by
  rw [← List.take_append_drop k row', ← List.take_append_drop k row, h.later]
  exact h.front.append_right _

theorem length_eq (h : Rearranged k row row') : row'.length = row.length := h.perm.length_eq

theorem getElem?_eq (h : Rearranged k row row') {i : Nat} (hi : k ≤ i) : row'[i]? = row[i]? := by
  have hdrop : ∀ xs : List β, xs[i]? = (xs.drop k)[i - k]? := by
    intro xs
    rw [List.getElem?_drop, Nat.add_sub_cancel' hi]
  rw [hdrop, hdrop, h.later]

/-- Any longer stretch from the front is rearranged too. -/
theorem take_perm (h : Rearranged k row row') {m : Nat} (hm : k ≤ m) : (row'.take m).Perm (row.take m) := by
  have hsplit : ∀ xs : List β, xs.take m = xs.take k ++ (xs.drop k).take (m - k) := by
    intro xs
    conv_lhs => rw [← Nat.add_sub_cancel' hm]
    rw [List.take_add]
  rw [hsplit, hsplit, h.later]
  exact h.front.append_right _

/-- The same places are read, in another order. -/
theorem keys_perm [Inhabited β] (h : Rearranged k row row') (hk : k ≤ row.length) {r : Nat} (hr : r ≤ bs) :
    (keys bs row' (k * bs + r)).Perm (keys bs row (k * bs + r)) := by
  have hlast : row'.getD k default = row.getD k default := by
    rw [List.getD_eq_getElem?_getD, List.getD_eq_getElem?_getD, h.getElem?_eq (le_refl k)]
  rw [keys_take (by rw [h.length_eq]; exact hk) hr, keys_take hk hr, hlast]
  exact (h.front.flatMap_right _).append_right _

end Rearranged

end VllmExl3.Paged
