/-
# VllmExl3.TensorParallel.Tp — slicing EXL3 tensors across ranks (`tp.py`)

The sub-tensors of an EXL3 linear and how a rank cuts them. A trellis is tile-granular on its first
two dimensions; its row and column counts are part of the value, so a slice with no tiles keeps its
shape. `role_of` decides on which axis a named tensor is cut.
-/
import VllmExl3.Format
import VllmExl3.Lib.Vec

namespace VllmExl3.TensorParallel

open Format (TILE)

/-! ## Tensors -/

/-- A trellis tensor of shape `[rows, cols, words]`. -/
structure Trellis (W : Type) where
  rows : Nat
  cols : Nat
  words : Nat
  tiles : List (List (List W))
  rows_eq : tiles.length = rows
  cols_eq : ∀ row ∈ tiles, row.length = cols
  words_eq : ∀ row ∈ tiles, ∀ tile ∈ row, tile.length = words

/-- A stored sub-tensor: a trellis, a scale vector (`suh`, `svh`), or a codebook selector
(`mcg`, `mul1`). -/
inductive Tensor (W R : Type) where
  | trellis (t : Trellis W)
  | scale (v : List R)
  | selector (v : List Int)

variable {W R : Type}

namespace Trellis

/-- `t[first:last]` -/
def sliceRows (t : Trellis W) (first last : Nat) : Trellis W where
  rows := min last t.rows - first
  cols := t.cols
  words := t.words
  tiles := slice first last t.tiles
  rows_eq := by rw [length_slice, t.rows_eq]
  cols_eq := fun row hrow => t.cols_eq row (List.mem_of_mem_take (List.mem_of_mem_drop hrow))
  words_eq := fun row hrow => t.words_eq row (List.mem_of_mem_take (List.mem_of_mem_drop hrow))

/-- `t[:, first:last, :]` -/
def sliceCols (t : Trellis W) (first last : Nat) : Trellis W where
  rows := t.rows
  cols := min last t.cols - first
  words := t.words
  tiles := t.tiles.map (slice first last)
  rows_eq := by rw [List.length_map, t.rows_eq]
  cols_eq := by
    intro row hrow
    obtain ⟨row', hrow', rfl⟩ := List.mem_map.mp hrow
    rw [length_slice, t.cols_eq row' hrow']
  words_eq := by
    intro row hrow tile htile
    obtain ⟨row', hrow', rfl⟩ := List.mem_map.mp hrow
    exact t.words_eq row' hrow' tile (List.mem_of_mem_take (List.mem_of_mem_drop htile))

/-- The tile at row `a` and column `b`. -/
def tile (t : Trellis W) (a b : Nat) : List W := (t.tiles.getD a []).getD b []

theorem tile_sliceRows {t : Trellis W} {first last a b : Nat} (h : a < last - first) :
    (t.sliceRows first last).tile a b = t.tile (first + a) b := by
  rw [tile, tile, sliceRows, getD_slice h]

theorem tile_sliceCols {t : Trellis W} {first last a b : Nat} (h : b < last - first) :
    (t.sliceCols first last).tile a b = t.tile a (first + b) := by
  simp only [tile, sliceCols, List.getD_eq_getElem?_getD, List.getElem?_map]
  cases hrow : t.tiles[a]? with
  | none => simp
  | some row => simpa [List.getD_eq_getElem?_getD] using getD_slice (d := []) h

theorem eq_of_tiles {t u : Trellis W} (hrows : t.rows = u.rows) (hcols : t.cols = u.cols)
    (hwords : t.words = u.words) (htiles : t.tiles = u.tiles) : t = u := by
  cases t
  cases u
  subst hrows hcols hwords htiles
  rfl

/-- `t[:, a:b, :][:, c:d, :]` -/
theorem sliceCols_sliceCols (t : Trellis W) (a b c d : Nat) :
    (t.sliceCols a b).sliceCols c d = t.sliceCols (a + c) (min b (a + d)) := by
  refine eq_of_tiles rfl ?_ rfl ?_
  · show min d (min b t.cols - a) - c = min (min b (a + d)) t.cols - (a + c)
    omega
  · show (t.tiles.map (slice a b)).map (slice c d) = t.tiles.map (slice (a + c) (min b (a + d)))
    rw [List.map_map]
    exact List.map_congr_left fun row _ => slice_slice a b c d row

@[simp] theorem sliceRows_whole (t : Trellis W) : t.sliceRows 0 t.rows = t := by
  obtain ⟨rows, cols, words, tiles, rfl, _, _⟩ := t
  simp [sliceRows, slice_zero_length]

@[simp] theorem sliceCols_whole (t : Trellis W) : t.sliceCols 0 t.cols = t := by
  obtain ⟨rows, cols, words, tiles, rfl, hcols, _⟩ := t
  have hmap : tiles.map (slice 0 cols) = tiles := by
    refine (List.map_congr_left fun row hrow => ?_).trans (List.map_id tiles)
    exact slice_zero_length (hcols row hrow).le
  simp [sliceCols, hmap]

end Trellis

namespace Tensor

/-- `t.shape` -/
def shape : Tensor W R → List Nat
  | .trellis t => [t.rows, t.cols, t.words]
  | .scale v => [v.length]
  | .selector v => [v.length]

/-- `t[first:last]` -/
def slice0 (first last : Nat) : Tensor W R → Tensor W R
  | .trellis t => .trellis (t.sliceRows first last)
  | .scale v => .scale (slice first last v)
  | .selector v => .selector (slice first last v)

/-- `t[:, first:last, :]`, which only a three-dimensional tensor admits. -/
def slice1 (first last : Nat) : Tensor W R → Except PyError (Tensor W R)
  | .trellis t => .ok (.trellis (t.sliceCols first last))
  | .scale _ => .error .index
  | .selector _ => .error .index

end Tensor

/-! ## Roles -/

/-- `ROLE_TRELLIS`, `ROLE_SUH`, `ROLE_SVH`, `ROLE_SCALAR` and `ROLE_VOCAB`. -/
inductive Role where
  | trellis
  | suh
  | svh
  | scalar
  | vocab
  deriving DecidableEq, Repr

/-- `_VOCAB_TENSORS` -/
def VOCAB_TENSORS : List String := ["bq_q", "bq_s", "bq_r", "et_table"]

/-- `role_of` -/
def roleOf (name : String) : Role :=
  if name = "trellis" then .trellis
  else if name = "suh" then .suh
  else if name = "svh" then .svh
  else if name ∈ VOCAB_TENSORS then .vocab
  else .scalar

/-- `shard_column` -/
def shardColumn (role : Role) (t : Tensor W R) (first last : Nat) : Except PyError (Tensor W R) :=
  match role with
  | .vocab => .ok (t.slice0 first last)
  | .trellis => t.slice1 (first / TILE) (last / TILE)
  | .svh => .ok (t.slice0 first last)
  | .suh => .ok t
  | .scalar => .ok t

/-- `shard_row` -/
def shardRow (role : Role) (t : Tensor W R) (first last : Nat) : Tensor W R :=
  match role with
  | .vocab => t.slice0 first last
  | .trellis => t.slice0 (first / TILE) (last / TILE)
  | .suh => t.slice0 first last
  | .svh => t
  | .scalar => t

end VllmExl3.TensorParallel
