/-
# VllmExl3.CpuOffload.Blocks — pinned host blocks (`cpu_offload.py`)

The tensors an offload moves, as bytes, and the block of host rows that holds the offloaded experts of
one layer and projection: `rows` numbers them from zero, one row of equal size each. Pinned memory
that nothing has been copied into holds zeros here; no result reads it.
-/
import VllmExl3.Format
import VllmExl3.Lib.PyDict
import VllmExl3.Lib.Bytes

namespace VllmExl3.CpuOffload

/-- The projections of a routed expert. -/
inductive Label where
  | gate
  | up
  | down
  deriving DecidableEq, Repr

/-- `("gate", "up", "down")` -/
def LABELS : List Label := [.gate, .up, .down]

theorem mem_LABELS (label : Label) : label ∈ LABELS := by
  cases label <;> decide

/-- A label as the source writes it. -/
def Label.name : Label → String
  | .gate => "gate"
  | .up => "up"
  | .down => "down"

/-- A tensor: its shape, the size of an element, and its bytes. -/
structure Tensor where
  shape : List Nat
  element_size : Nat
  bytes : Bytes
  bytes_eq : bytes.length = shape.prod * element_size

/-- `t.numel() * t.element_size()` -/
def Tensor.nbytes (t : Tensor) : Nat := t.shape.prod * t.element_size

/-- `HostBlock`: pinned rows of one shape, and the row of each expert that has one. No block is made for
a projection none of whose experts is offloaded. -/
structure HostBlock where
  rows : PyDict Nat Nat
  shape : List Nat
  element_size : Nat
  host : List Bytes
  host_ne : host ≠ []
  rows_eq : rows.values = List.range host.length
  host_eq : ∀ row ∈ host, row.length = shape.prod * element_size

namespace HostBlock

/-- The bytes of one row. -/
def rowBytes (block : HostBlock) : Nat := block.shape.prod * block.element_size

/-- `block.host.numel() * block.host.element_size()` -/
def nbytes (block : HostBlock) : Nat := block.host.length * block.rowBytes

theorem row_lt {block : HostBlock} {e row : Nat} (h : block.rows.get? e = some row) :
    row < block.host.length := by
  have hmem : row ∈ block.rows.values :=
    List.mem_map_of_mem (f := Prod.snd) (PyDict.get?_eq_some_iff.mp h)
  rw [block.rows_eq] at hmem
  exact List.mem_range.mp hmem

/-- No two experts share a row. -/
theorem row_injective {block : HostBlock} {e e' row : Nat} (h : block.rows.get? e = some row)
    (h' : block.rows.get? e' = some row) : e = e' := by
  refine PyDict.key_eq_of_values_nodup ?_ h h'
  rw [block.rows_eq]
  exact List.nodup_range

/-- Rows are numbered in the order the experts were taken. -/
theorem get?_rows_iff {block : HostBlock} {e row : Nat} :
    block.rows.get? e = some row ↔ block.rows.keys[row]? = some e := by
  have hkeys : ∀ i : Nat, block.rows.keys[i]? = (block.rows.items[i]?).map Prod.fst :=
    fun i => List.getElem?_map ..
  have hvalues : ∀ i : Nat, (block.rows.items[i]?).map Prod.snd = (List.range block.host.length)[i]? := by
    intro i
    rw [← block.rows_eq, PyDict.values, List.getElem?_map]
  constructor
  · intro h
    obtain ⟨i, hi⟩ := List.mem_iff_getElem?.mp (PyDict.get?_eq_some_iff.mp h)
    have hrow := hvalues i
    rw [hi, Option.map_some] at hrow
    obtain ⟨_, rfl⟩ := List.getElem?_eq_some_iff.mp hrow.symm
    rw [List.getElem_range, hkeys, hi]
    rfl
  · intro h
    rw [hkeys, Option.map_eq_some_iff] at h
    obtain ⟨⟨e', i⟩, hitem, rfl⟩ := h
    have hrow := hvalues row
    rw [hitem, Option.map_some] at hrow
    obtain ⟨_, hi⟩ := List.getElem?_eq_some_iff.mp hrow.symm
    rw [List.getElem_range] at hi
    rw [PyDict.get?_eq_some_iff, hi]
    exact List.mem_of_getElem? hitem

theorem length_flatten (block : HostBlock) : block.host.flatten.length = block.nbytes :=
  length_flatten_equal block.host_eq

/-- `nbytes // block.host.shape[0]` is the size of a row. -/
theorem nbytes_div_length (block : HostBlock) : block.nbytes / block.host.length = block.rowBytes :=
  Nat.mul_div_cancel_left block.rowBytes (List.length_pos_iff.mpr block.host_ne)

end HostBlock

end VllmExl3.CpuOffload
