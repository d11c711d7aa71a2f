/-
# VllmExl3.Lib.TableCodec — a codec given by a table

A byte codec for any encodable type that agrees with a given table of values and their bytes and
writes every other value in unary. Trailing spaces are ignored on reading. It is a concrete instance
for developments whose serialization is a parameter: on the values of the table it is the real one.
Nothing here names the repository.
-/
import VllmExl3.Lib.Bytes
import VllmExl3.Lib.PyDict
import Mathlib.Logic.Encodable.Basic
import Mathlib.Logic.Equiv.List
import Mathlib.Data.List.DropRight
import Mathlib.Data.String.Basic

namespace VllmExl3

/-! ## Encodings -/

instance encodableString : Encodable String :=
  Encodable.ofLeftInjection (fun s => s.toList.map Char.toNat)
    (fun codes => some (String.ofList (codes.map Char.ofNat))) (fun s => by
      have hid : Char.ofNat ∘ Char.toNat = id := funext Char.ofNat_toNat
      rw [List.map_map, hid, List.map_id, String.ofList_toList])

instance encodableByte : Encodable UInt8 :=
  Encodable.ofLeftInjection UInt8.toNat (fun n => some (UInt8.ofNat n)) fun _ => by simp

instance {κ ν : Type*} [DecidableEq κ] [Encodable κ] [Encodable ν] : Encodable (PyDict κ ν) :=
  Encodable.ofLeftInjection PyDict.items
    (fun items => if h : (items.map Prod.fst).Nodup then some ⟨items, h⟩ else none)
    (fun d => dif_pos d.nodup)

/-! ## The codec -/

section TableCodec

variable {α : Type*} [DecidableEq α] [Encodable α] (table : List (α × Bytes))

/-- The bytes of a value: the table's, or a zero byte and the value's code in unary. -/
def tableDumps (a : α) : Bytes :=
  match table.find? fun p => p.1 = a with
  | some p => p.2
  | none => 0 :: List.replicate (Encodable.encode a) 1

/-- The value of bytes, with spaces after them. -/
def tableLoads (bs : Bytes) : Option α :=
  let stripped := bs.rdropWhile fun b => b = 32
  match table.find? fun p => p.2 = stripped with
  | some p => some p.1
  | none => match stripped with
    | 0 :: ones => Encodable.decode ones.length
    | _ => none

/-- The table's bytes tell its values apart, start with no zero byte and end in no space. -/
def TableOk : Prop :=
  ∀ p ∈ table, p.2.head? ≠ some 0 ∧ p.2.getLast? ≠ some 32 ∧ ∀ q ∈ table, p.2 = q.2 → p.1 = q.1

instance : Decidable (TableOk table) := inferInstanceAs (Decidable (∀ _ ∈ _, _))

variable {table}

theorem rdropWhile_spaces {bs : Bytes} (h : bs.getLast? ≠ some 32) (n : Nat) :
    (bs ++ List.replicate n 32).rdropWhile (fun b => b = 32) = bs := by
  induction n with
  | zero =>
    rw [List.replicate_zero, List.append_nil, List.rdropWhile_eq_self_iff]
    intro hne hlast
    rw [List.getLast?_eq_some_getLast hne] at h
    exact h (congrArg some (by simpa using hlast))
  | succ n ih =>
    rw [List.replicate_succ', ← List.append_assoc, List.rdropWhile_concat_pos _ _ _ (by simp), ih]

/-- What is dumped loads again, also with spaces after it. -/
theorem tableLoads_tableDumps (hok : TableOk table) (a : α) (n : Nat) :
    tableLoads table (tableDumps table a ++ List.replicate n 32) = some a := by
  unfold tableLoads tableDumps
  cases hfind : table.find? fun p => p.1 = a with
  | some p =>
    have hmem := List.mem_of_find?_eq_some hfind
    obtain rfl : p.1 = a := by simpa using List.find?_some hfind
    dsimp only
    rw [rdropWhile_spaces (hok p hmem).2.1]
    -- the table's first value with these bytes is the one dumped
    have hsome : (table.find? fun q => q.2 = p.2).isSome := by
      rw [List.find?_isSome]
      exact ⟨p, hmem, by simp⟩
    obtain ⟨q, hq⟩ := Option.isSome_iff_exists.mp hsome
    have hbytes : q.2 = p.2 := by simpa using List.find?_some hq
    rw [hq]
    exact congrArg some ((hok q (List.mem_of_find?_eq_some hq)).2.2 p hmem hbytes)
  | none =>
    dsimp only
    have hlast : (0 :: List.replicate (Encodable.encode a) (1 : UInt8)).getLast? ≠ some 32 := by
      intro heq
      rcases List.mem_cons.mp (List.mem_of_getLast? heq) with hzero | hone
      · exact absurd hzero (by decide)
      · exact absurd (List.eq_of_mem_replicate hone) (by decide)
    rw [rdropWhile_spaces hlast]
    have hnone : (table.find? fun q => q.2 =
        0 :: List.replicate (Encodable.encode a) (1 : UInt8)) = none := by
      rw [List.find?_eq_none]
      intro q hq heq
      rw [decide_eq_true_eq] at heq
      exact (hok q hq).1 (by rw [heq]; rfl)
    rw [hnone]
    simp

end TableCodec

end VllmExl3
