/-
# VllmExl3.Embedding.Blockq — the block-scaled encoding of an embedding (`blockq.py`)

`encode` on whole tensors, as the source computes it: every reduction runs inside a row. The floating
point it computes with is a parameter, so nothing below depends on how a value rounds. The encoding
of a matrix is then the matrix of the encodings of its rows.
-/
import VllmExl3.Format
import VllmExl3.Lib.Double
import VllmExl3.Lib.Vec
import VllmExl3.Lib.Except
import VllmExl3.TensorParallel.Parameter
import Mathlib.Data.List.Zip

namespace VllmExl3.Embedding

open Format (BLOCKQ_BLOCK BLOCKQ_BITS checkBlockqHidden checkBlockqHidden_ok)

/-! ## Tensors -/

/-- A dense `[vocab, hidden]` matrix. -/
structure Dense (D : Type) where
  hidden : Nat
  rows : List (List D)
  hidden_eq : ∀ row ∈ rows, row.length = hidden

/-- A tensor indexed by the vocabulary: `[vocab, *tail]`. -/
structure VocabTensor (ρ : Type) where
  tail : List Nat
  rows : List ρ
  deriving DecidableEq, Repr

variable {D F ρ : Type}

namespace Dense

/-- `t[first:last]` -/
def slice (first last : Nat) (t : Dense D) : Dense D where
  hidden := t.hidden
  rows := VllmExl3.slice first last t.rows
  hidden_eq := fun row hrow => t.hidden_eq row (List.mem_of_mem_take (List.mem_of_mem_drop hrow))

/-- An elementwise conversion, `t.to(dtype)`. -/
def toDtype (convert : D → F) (t : Dense D) : Dense F where
  hidden := t.hidden
  rows := t.rows.map (·.map convert)
  hidden_eq := by
    intro row hrow
    obtain ⟨row', hrow', rfl⟩ := List.mem_map.mp hrow
    rw [List.length_map, t.hidden_eq row' hrow']

end Dense

namespace VocabTensor

/-- `t.shape` -/
def shape (t : VocabTensor ρ) : List Nat := t.rows.length :: t.tail

/-- `t[first:last]` -/
def slice (first last : Nat) (t : VocabTensor ρ) : VocabTensor ρ where
  tail := t.tail
  rows := VllmExl3.slice first last t.rows

theorem slice_zero_length {last : Nat} {t : VocabTensor ρ} (h : t.rows.length ≤ last) :
    t.slice 0 last = t := by
  cases t
  simp only [slice, VllmExl3.slice_zero_length h]

/-- Bounds past the end are cut to it, as Python's slicing does. -/
theorem slice_min (first last : Nat) (t : VocabTensor ρ) :
    t.slice first last = t.slice (min first t.rows.length) (min last t.rows.length) :=
  congrArg (VocabTensor.mk t.tail) (VllmExl3.slice_min first last t.rows)

/-- `torch.cat(ts, dim=0)` -/
def cat (ts : List (VocabTensor ρ)) : Except PyError (VocabTensor ρ) :=
  match ts with
  | [] => .error (.runtime "torch.cat(): expected a non-empty list of Tensors")
  | t :: rest =>
    if ∀ u ∈ rest, u.tail = t.tail then .ok ⟨t.tail, (t :: rest).flatMap (·.rows)⟩
    else .error (.runtime "Sizes of tensors must match except in dimension 0.")

theorem cat_ok {ts : List (VocabTensor ρ)} {tail : List Nat} (hne : ts ≠ [])
    (htail : ∀ t ∈ ts, t.tail = tail) : cat ts = .ok ⟨tail, ts.flatMap (·.rows)⟩ := by
  cases ts with
  | nil => exact absurd rfl hne
  | cons t rest =>
    have ht := htail t List.mem_cons_self
    rw [cat, if_pos fun u hu => (htail u (List.mem_cons_of_mem t hu)).trans ht.symm, ht]

end VocabTensor

/-- Only the vocabulary role cuts a tensor indexed by the vocabulary; its rows are dim 0. -/
instance cutVocabTensor : TensorParallel.Cut (VocabTensor ρ) where
  shardColumn role t first last :=
    match role with
    | .vocab | .svh => .ok (t.slice first last)
    | .trellis => .error .index
    | .suh | .scalar => .ok t
  shardRow role t first last :=
    match role with
    | .vocab | .suh => t.slice first last
    | .trellis => t.slice (first / Format.TILE) (last / Format.TILE)
    | .svh | .scalar => t

/-! ## The encoder -/

/-- The elementwise fp32 operations the encoder is written with. `amin` and `amax` reduce one
non-empty dimension. -/
structure Fp32 (F : Type) where
  ofNat : Nat → F
  /-- `1e-12` -/
  tiny : F
  add : F → F → F
  sub : F → F → F
  mul : F → F → F
  div : F → F → F
  clampMin : F → F → F
  clamp : F → F → F → F
  round : F → F
  amin : List F → F
  amax : List F → F
  /-- `.to(torch.uint8)` -/
  toUint8 : F → UInt8

/-- The same operations without rounding error; `torch.round` breaks ties to even. -/
def exactFp32 : Fp32 ℚ where
  ofNat n := n
  tiny := 1 / 10 ^ 12
  add := (· + ·)
  sub := (· - ·)
  mul := (· * ·)
  div := (· / ·)
  clampMin x lo := max x lo
  clamp x lo hi := min (max x lo) hi
  round x := Double.roundEven x
  amin xs := xs.min?.getD 0
  amax xs := xs.max?.getD 0
  toUint8 x := UInt8.ofNat ⌊x⌋.toNat

/-- The stored tensors: `bq_q [vocab, hidden // 2]`, `bq_s [vocab, 2, nblk]` and `bq_r [vocab, 4]`. -/
structure Encoded (F : Type) where
  bq_q : VocabTensor (List UInt8)
  bq_s : VocabTensor (List UInt8 × List UInt8)
  bq_r : VocabTensor (F × F × F × F)
  deriving DecidableEq, Repr

/-- `t[first:last]`, of all three -/
def Encoded.slice (first last : Nat) (e : Encoded F) : Encoded F where
  bq_q := e.bq_q.slice first last
  bq_s := e.bq_s.slice first last
  bq_r := e.bq_r.slice first last

/-- One row of `.view(rows, -1, block)` -/
def blocks (block : Nat) (row : List D) : List (List D) :=
  tabulate (row.length / block) fun b => slice (b * block) ((b + 1) * block) row

/-- One row of `pack`: the even index in the low nibble. -/
def packRow : List UInt8 → List UInt8
  | lo :: hi :: rest => (lo ||| hi <<< 4) :: packRow rest
  | _ => []

/-- `pack`, on `[rows, hidden]` with an even `hidden` -/
def pack (q : List (List UInt8)) : List (List UInt8) := q.map packRow

variable (o : Fp32 F)

/-- `code8`: the codes, `t_lo` and `step`. `amin` refuses a dimension of size zero. -/
def code8 (nblk : Nat) (t : List (List F)) :
    Except PyError (List (List UInt8) × List F × List F) :=
  if nblk = 0 then .error .index
  else
    let t_lo := t.map o.amin
    let step := List.zipWith (fun row lo =>
      o.div (o.clampMin (o.sub (o.amax row) lo) o.tiny) (o.ofNat 255)) t t_lo
    let codes := List.zipWith3 (fun row lo step => row.map fun x =>
      o.toUint8 (o.clamp (o.round (o.div (o.sub x lo) step)) (o.ofNat 0) (o.ofNat 255))) t t_lo step
    .ok (codes, t_lo, step)

/-- `codes.float() * step.unsqueeze(-1) + lo.unsqueeze(-1)` -/
def affine (codes : List (List UInt8)) (step lo : List F) : List (List F) :=
  List.zipWith3 (fun codes step lo => codes.map fun c =>
    o.add (o.mul (o.ofNat c.toNat) step) lo) codes step lo

/-- `encode`, of a matrix already in fp32 -/
def encode (weight : Dense F) (block : Nat) : Except PyError (Encoded F) := do
  let hidden := weight.hidden
  checkBlockqHidden hidden block
  let nblk := hidden / block
  let levels := 2 ^ BLOCKQ_BITS - 1
  let v := weight.rows.map (blocks block)
  let lo := v.map (·.map o.amin)
  let sc := List.zipWith (List.zipWith fun vals lo =>
    o.div (o.clampMin (o.sub (o.amax vals) lo) o.tiny) (o.ofNat levels)) v lo
  let (sc_codes, sc_lo, sc_step) ← code8 o nblk sc
  let (lo_codes, lo_lo, lo_step) ← code8 o nblk lo
  let sc_q := affine o sc_codes sc_step sc_lo
  let lo_q := affine o lo_codes lo_step lo_lo
  let q := List.zipWith3 (List.zipWith3 fun vals lo sc => vals.map fun x =>
    o.toUint8 (o.clamp (o.round (o.div (o.sub x lo) (o.clampMin sc o.tiny))) (o.ofNat 0)
      (o.ofNat levels))) v lo_q sc_q
  return {
    bq_q := ⟨[hidden / 2], pack (q.map List.flatten)⟩
    bq_s := ⟨[2, nblk], List.zip sc_codes lo_codes⟩
    bq_r := ⟨[4], List.zip sc_lo (List.zip sc_step (List.zip lo_lo lo_step))⟩ }

/-! ## Row by row -/

/-- What `code8` computes on one row. -/
def code8Row (t : List F) : List UInt8 × F × F :=
  let lo := o.amin t
  let step := o.div (o.clampMin (o.sub (o.amax t) lo) o.tiny) (o.ofNat 255)
  (t.map fun x => o.toUint8 (o.clamp (o.round (o.div (o.sub x lo) step)) (o.ofNat 0) (o.ofNat 255)),
    lo, step)

/-- The rows of the stored tensors for one dense row. -/
def encodeRow (block : Nat) (row : List F) :
    List UInt8 × (List UInt8 × List UInt8) × F × F × F × F :=
  let levels := 2 ^ BLOCKQ_BITS - 1
  let v := blocks block row
  let lo := v.map o.amin
  let sc := List.zipWith (fun vals lo =>
    o.div (o.clampMin (o.sub (o.amax vals) lo) o.tiny) (o.ofNat levels)) v lo
  let (sc_codes, sc_lo, sc_step) := code8Row o sc
  let (lo_codes, lo_lo, lo_step) := code8Row o lo
  let sc_q := sc_codes.map fun c => o.add (o.mul (o.ofNat c.toNat) sc_step) sc_lo
  let lo_q := lo_codes.map fun c => o.add (o.mul (o.ofNat c.toNat) lo_step) lo_lo
  let q := List.zipWith3 (fun vals lo sc => vals.map fun x =>
    o.toUint8 (o.clamp (o.round (o.div (o.sub x lo) (o.clampMin sc o.tiny))) (o.ofNat 0)
      (o.ofNat levels))) v lo_q sc_q
  (packRow q.flatten, (sc_codes, lo_codes), sc_lo, sc_step, lo_lo, lo_step)

/-- The stored tensors, every row encoded on its own. -/
def encodeRows (hidden block : Nat) (rows : List (List F)) : Encoded F where
  bq_q := ⟨[hidden / 2], rows.map fun row => (encodeRow o block row).1⟩
  bq_s := ⟨[2, hidden / block], rows.map fun row => (encodeRow o block row).2.1⟩
  bq_r := ⟨[4], rows.map fun row => (encodeRow o block row).2.2⟩

section MapOfMaps

variable {α β γ δ ε : Type*}

theorem zipWith_map_map (f : β → γ → δ) (g : α → β) (h : α → γ) (xs : List α) :
    List.zipWith f (xs.map g) (xs.map h) = xs.map fun x => f (g x) (h x) := by
  rw [List.zipWith_map, List.zipWith_self]

theorem zipWith3_map_map_map (f : β → γ → δ → ε) (g : α → β) (h : α → γ) (k : α → δ)
    (xs : List α) : List.zipWith3 f (xs.map g) (xs.map h) (xs.map k) =
      xs.map fun x => f (g x) (h x) (k x) := by
  induction xs with
  | nil => rfl
  | cons x rest ih => simp only [List.map_cons, List.zipWith3, ih]

theorem zip_map_map (g : α → β) (h : α → γ) (xs : List α) :
    List.zip (xs.map g) (xs.map h) = xs.map fun x => (g x, h x) := by
  rw [List.zip, zipWith_map_map]

end MapOfMaps

/-- `code8` of the rows some function computes. -/
theorem code8_map {α : Type} {nblk : Nat} (h : nblk ≠ 0) (g : α → List F) (xs : List α) :
    code8 o nblk (xs.map g) = .ok (xs.map fun x => (code8Row o (g x)).1,
      xs.map fun x => (code8Row o (g x)).2.1, xs.map fun x => (code8Row o (g x)).2.2) := by
  rw [code8, if_neg h]
  simp only [List.map_map, Function.comp_def, zipWith_map_map, zipWith3_map_map_map]
  rfl

theorem affine_map {α : Type} (codes : α → List UInt8) (step lo : α → F) (xs : List α) :
    affine o (xs.map codes) (xs.map step) (xs.map lo) =
      xs.map fun x => (codes x).map fun c => o.add (o.mul (o.ofNat c.toNat) (step x)) (lo x) := by
  rw [affine, zipWith3_map_map_map]

/-- A row depends on nothing outside it: `encode` works row by row. -/
theorem encode_ok {weight : Dense F} (hhidden : weight.hidden % BLOCKQ_BLOCK = 0)
    (hpos : weight.hidden ≠ 0) : encode o weight BLOCKQ_BLOCK =
      .ok (encodeRows o weight.hidden BLOCKQ_BLOCK weight.rows) := by
  have hnblk : weight.hidden / BLOCKQ_BLOCK ≠ 0 := by
    unfold BLOCKQ_BLOCK at hhidden ⊢
    omega
  simp only [encode, checkBlockqHidden_ok hhidden, List.map_map, Function.comp_def,
    zipWith_map_map, code8_map o hnblk, bind, Except.bind, affine_map, zipWith3_map_map_map,
    zip_map_map, pack]
  rfl

/-- A matrix without columns has no block whose range `code8` could take. -/
theorem encode_no_columns {weight : Dense F} (h : weight.hidden = 0) :
    encode o weight BLOCKQ_BLOCK = .error .index := by
  have hhidden : weight.hidden % BLOCKQ_BLOCK = 0 := by rw [h, Nat.zero_mod]
  rw [encode, checkBlockqHidden_ok hhidden, h]
  rfl

/-- The encoding of some rows is those rows of the encoding. -/
theorem encodeRows_slice (hidden block first last : Nat) (rows : List (List F)) :
    encodeRows o hidden block (slice first last rows) =
      (encodeRows o hidden block rows).slice first last := by
  simp only [encodeRows, Encoded.slice, VocabTensor.slice, slice_map]

end VllmExl3.Embedding
