/-
# VllmExl3.Yaqa.BlendHout — the blend of two output factors (`quantization/quant.py`)

`blend_hout` takes the output factors of two directories, tensor by tensor, divides each by its trace and
adds them at their shares. The factors are packed upper triangles throughout, and the traces are read
through an index vector in closed form. Here is the code over exact rationals (an entry is `none` where it
is not finite, as after a division by a zero trace), and below it what a blend is for: a mixture of the
two matrices with trace one (`mixture`), which the code computes in packed form (`blendFactor_eq`).
-/
import VllmExl3.Format
import VllmExl3.Lib.Except
import VllmExl3.Lib.PyDict
import VllmExl3.Lib.PyStr
import VllmExl3.Lib.Triangle
import Mathlib.Data.List.Sort
import Mathlib.Data.Rat.Star
import Mathlib.LinearAlgebra.Matrix.PosDef

namespace VllmExl3.Yaqa.Hout

open Triangle

/-! ## Tensors -/

/-- An entry of a tensor: a finite number, or none. -/
abbrev Num := Option ℚ

/-- The one-dimensional tensors of a safetensors file. -/
abbrev Tensors := PyDict String (List Num)

/-- A directory: what each file holds, in the order of `os.listdir`. -/
abbrev Dir := PyDict String Tensors

/-- What ends a blend early: directories that do not match, a tensor that a file lacks, or an error of the
arithmetic. -/
inductive Stop where
  | systemExit (text : String)
  | safetensor (text : String)
  | python (e : PyError)
  deriving DecidableEq, Repr

/-- `h.get_tensor(name)` -/
def getTensor (h : Tensors) (name : String) : Except Stop (List Num) :=
  match h.get? name with
  | none => .error (.safetensor s!"File does not contain tensor {name}")
  | some t => .ok t

/-- `xs[i]` for one index: a negative one counts from the end. -/
def item (xs : List Num) (i : Int) : Except Stop Num :=
  let j := if i < 0 then i + xs.length else i
  if j < 0 then .error (.python .index)
  else match xs[j.toNat]? with
    | none => .error (.python .index)
    | some v => .ok v

/-- `xs[di]` -/
def gather (xs : List Num) (di : List Int) : Except Stop (List Num) := di.mapM (item xs)

/-- `a + b` -/
def add (a b : Num) : Num := do return (← a) + (← b)

/-- `w * v / t` -/
def share (w : ℚ) (t v : Num) : Num := do
  let t ← t
  if t = 0 then none else return w * (← v) / t

/-- `xs.sum()` -/
def total (xs : List Num) : Num := xs.foldr add (some 0)

/-- `xs + ys`: the lengths agree, or one of them is one. -/
def addTensors (xs ys : List Num) : Except Stop (List Num) :=
  if xs.length = ys.length then .ok (List.zipWith add xs ys)
  else match xs, ys with
    | [x], ys => .ok (ys.map (add x))
    | xs, [y] => .ok (xs.map fun x => add x y)
    | xs, ys => .error (.python (.runtime
      s!"The size of tensor a ({xs.length}) must match the size of tensor b ({ys.length}) at non-singleton dimension 0"))

/-! ## The code -/

/-- `i * n - i * (i - 1) // 2` for every `i` in `torch.arange(n)` -/
def diagIndex (n : Nat) : List Int := tabulate n fun i => i * n - i * (i - 1) / 2

/-- The tensors of a file: `hout`, and the number of entries of `hout_diag`. -/
def readFactor (h : Tensors) : Except Stop (List Num × Nat) := do
  let hout ← getTensor h "hout"
  let diag ← getTensor h "hout_diag"
  return (hout, diag.length)

/-- The arithmetic on the triangles of a file, `n` being the first one's number of rows. -/
def blendTensors (wa : ℚ) (ha hb : List Num) (n : Nat) : Except Stop Tensors := do
  let di := diagIndex n
  let ta ← gather ha di
  let tb ← gather hb di
  let hout ← addTensors (ha.map (share wa (total ta))) (hb.map (share (1 - wa) (total tb)))
  let diag ← gather hout di
  return .ofList [("hout", hout), ("hout_diag", diag)]

/-- The body of the loop for one file. -/
def blendFactor (wa : ℚ) (fa fb : Tensors) : Except Stop Tensors := do
  let (ha, n) ← readFactor fa
  let (hb, _) ← readFactor fb
  blendTensors wa ha hb n

/-- `sorted(f for f in os.listdir(d) if f.endswith(".safetensors"))` -/
def names (d : Dir) : List String :=
  (d.keys.filter fun f => PyStr.endswith f ".safetensors").insertionSort (· ≤ ·)

/-- One round of the loop. -/
def blendFile (wa : ℚ) (a b out : Dir) (f : String) : Except Stop Dir := do
  let t ← blendFactor wa ((a.get? f).getD .empty) ((b.get? f).getD .empty)
  return out.set f t

/-- `blend_hout`, with the names of the directories: what is in the output directory afterwards, and the
number it returns. -/
def blendHout (a b : String × Dir) (out : Dir) (wa : ℚ) : Except Stop (Dir × Nat) := do
  let names_a := names a.2
  if names_a ≠ names b.2 then
    throw (.systemExit s!"=== Hout blend: {a.1} and {b.1} cover different tensors ===")
  let out ← names_a.foldlM (blendFile wa a.2 b.2) out
  return (out, names_a.length)

/-! ## The index vector -/

variable {n : Nat}

/-- The closed form is the place of the diagonal entry in its row. -/
theorem diagIndex_eq (n : Nat) : diagIndex n = tabulate n fun i => ((place n i i : Nat) : Int) := by
  refine tabulate_congr fun i hi => ?_
  rw [place_self, rowStart_cast hi.le]

/-- A triangle as the tensor that holds it. -/
def stored (h : List ℚ) : List Num := h.map some

theorem item_stored {h : List ℚ} {j : Nat} (hj : j < h.length) :
    item (stored h) (j : Int) = .ok (some (h.getD j 0)) := by
  have hpos : ¬ (j : Int) < 0 := by omega
  have hget : (stored h)[j]? = some (some (h.getD j 0)) := by
    rw [stored, List.getElem?_map, List.getElem?_eq_getElem hj, List.getD_eq_getElem _ _ hj]
    rfl
  simp only [item, if_neg hpos, Int.toNat_natCast, hget]

/-- The index vector reads the diagonal of a triangle, in order. -/
theorem gather_diagIndex {h : List ℚ} (hlen : h.length = rowStart n n) :
    gather (stored h) (diagIndex n) = .ok (stored (tabulate n fun i => h.getD (rowStart n i) 0)) := by
  rw [gather, diagIndex_eq, tabulate, List.mapM_map]
  have hitem : ∀ i ∈ List.range n, (item (stored h) ∘ fun i => ((place n i i : Nat) : Int)) i
      = .ok (some (h.getD (rowStart n i) 0)) := by
    intro i hi
    have hin := place_lt_length (le_refl i) (List.mem_range.mp hi)
    show item (stored h) (place n i i : Nat) = _
    rw [item_stored (by omega), place_self]
  rw [mapM_ok hitem, stored, map_tabulate, tabulate]

/-! ## Finite entries -/

theorem total_stored (h : List ℚ) : total (stored h) = some h.sum := by
  induction h with
  | nil => rfl
  | cons v rest ih =>
    have hcons : total (stored (v :: rest)) = add (some v) (total (stored rest)) := rfl
    rw [hcons, ih, List.sum_cons]
    rfl

theorem map_share_stored {w t : ℚ} (ht : t ≠ 0) (h : List ℚ) :
    (stored h).map (share w (some t)) = stored (h.map fun v => w * v / t) := by
  rw [stored, stored, List.map_map, List.map_map]
  refine List.map_congr_left fun v _ => ?_
  show (if t = 0 then none else _) = _
  rw [if_neg ht]
  rfl

theorem addTensors_stored {g h : List ℚ} (hlen : g.length = h.length) :
    addTensors (stored g) (stored h) = .ok (stored (List.zipWith (· + ·) g h)) := by
  have hsame : (stored g).length = (stored h).length := by
    rw [stored, stored, List.length_map, List.length_map, hlen]
  unfold addTensors
  rw [if_pos hsame, stored, stored, stored, List.zipWith_map, List.map_zipWith]
  rfl

/-! ## Mixtures -/

section Mixture

variable {wa : ℚ} {A B : Matrix (Fin n) (Fin n) ℚ}

/-- The two matrices, each divided by its trace, at their shares. -/
def mixture (wa : ℚ) (A B : Matrix (Fin n) (Fin n) ℚ) : Matrix (Fin n) (Fin n) ℚ :=
  (wa / A.trace) • A + ((1 - wa) / B.trace) • B

theorem trace_mixture (hA : A.trace ≠ 0) (hB : B.trace ≠ 0) : (mixture wa A B).trace = 1 := by
  rw [mixture, Matrix.trace_add, Matrix.trace_smul, Matrix.trace_smul, smul_eq_mul, smul_eq_mul,
    div_mul_cancel₀ _ hA, div_mul_cancel₀ _ hB]
  exact add_sub_cancel wa 1

theorem mixture_isSymm (hA : A.IsSymm) (hB : B.IsSymm) : (mixture wa A B).IsSymm :=
  (hA.smul _).add (hB.smul _)

theorem trace_nonneg (hA : A.PosSemidef) : 0 ≤ A.trace :=
  Finset.sum_nonneg fun _ _ => hA.diag_nonneg

theorem mixture_posSemidef (hA : A.PosSemidef) (hB : B.PosSemidef) (hlow : 0 ≤ wa) (hhigh : wa ≤ 1) :
    (mixture wa A B).PosSemidef := by
  have hcal : 0 ≤ 1 - wa := by linarith
  exact (hA.smul (div_nonneg hlow (trace_nonneg hA))).add (hB.smul (div_nonneg hcal (trace_nonneg hB)))

end Mixture

/-! ## A file -/

/-- The file holds a matrix as `collect_hout` leaves it: the packed upper triangle, and a diagonal of as
many entries as it has rows. -/
structure Holds (t : Tensors) (A : Matrix (Fin n) (Fin n) ℚ) : Prop where
  hout : t.get? "hout" = some (stored (pack n (entries A)))
  hout_diag : ∃ diag : List Num, t.get? "hout_diag" = some diag ∧ diag.length = n
  symm : A.IsSymm
  trace_ne_zero : A.trace ≠ 0

theorem Holds.readFactor {t : Tensors} {A : Matrix (Fin n) (Fin n) ℚ} (h : Holds t A) :
    readFactor t = .ok (stored (pack n (entries A)), n) := by
  obtain ⟨diag, hdiag, hlen⟩ := h.hout_diag
  have hread : Hout.readFactor t = .ok (stored (pack n (entries A)), diag.length) := by
    rw [Hout.readFactor, getTensor, getTensor, h.hout, hdiag]
    rfl
  rw [hread, hlen]

/-- The index vector reads the diagonal of a packed matrix. -/
theorem gather_pack (A : Matrix (Fin n) (Fin n) ℚ) :
    gather (stored (pack n (entries A))) (diagIndex n) = .ok (stored (diagonal A)) := by
  have hdiag : (tabulate n fun i => (pack n (entries A)).getD (rowStart n i) 0) = diagonal A := by
    refine tabulate_congr fun i hi => ?_
    rw [← place_self, getD_pack (entries A) 0 (le_refl i) hi]
  rw [gather_diagIndex (length_pack n _), hdiag]

/-- The code computes the mixture, in packed form. -/
theorem blendFactor_eq {fa fb : Tensors} {A B : Matrix (Fin n) (Fin n) ℚ} (wa : ℚ) (hA : Holds fa A)
    (hB : Holds fb B) : ∃ h : List ℚ, h.length = rowStart n n ∧ unpack n h = mixture wa A B ∧
      blendFactor wa fa fb =
        .ok (.ofList [("hout", stored h), ("hout_diag", stored (diagonal (mixture wa A B)))]) := by
  have hlenA : ((pack n (entries A)).map fun v => wa * v / A.trace).length = rowStart n n := by
    rw [List.length_map, length_pack]
  have hlenB : ((pack n (entries B)).map fun v => (1 - wa) * v / B.trace).length = rowStart n n := by
    rw [List.length_map, length_pack]
  obtain ⟨h, hh⟩ : ∃ h, h = List.zipWith (· + ·) ((pack n (entries A)).map fun v => wa * v / A.trace)
      ((pack n (entries B)).map fun v => (1 - wa) * v / B.trace) := ⟨_, rfl⟩
  have hlen : h.length = rowStart n n := by
    rw [hh, List.length_zipWith, hlenA, hlenB, Nat.min_self]
  have hunpack : unpack n h = mixture wa A B := by
    ext i j
    rw [hh, unpack_zipWith hlenA hlenB, unpack_map (length_pack n _), unpack_map (length_pack n _),
      unpack_pack hA.symm, unpack_pack hB.symm, mul_div_right_comm, mul_div_right_comm]
    rfl
  refine ⟨h, hlen, hunpack, ?_⟩
  have hadd := addTensors_stored (hlenA.trans hlenB.symm)
  rw [blendFactor, hA.readFactor, hB.readFactor]
  show blendTensors wa _ _ n = _
  rw [blendTensors, gather_pack, gather_pack]
  show (addTensors _ _ >>= _) = _
  rw [total_stored, total_stored, sum_diagonal, sum_diagonal, map_share_stored hA.trace_ne_zero,
    map_share_stored hB.trace_ne_zero, hadd, ← hh]
  show (gather (stored h) (diagIndex n) >>= _) = _
  rw [gather_diagIndex hlen, ← diagonal_unpack, hunpack]
  rfl

/-! ## Directories -/

/-- The index vector addresses the `n` diagonal entries of a packed triangle, in row order. -/
structure AddressesDiagonal (n : Nat) : Prop where
  length : (diagIndex n).length = n
  bounds : ∀ j ∈ diagIndex n, 0 ≤ j ∧ j < ((n * (n + 1) / 2 : Nat) : Int)
  ordered : (diagIndex n).Pairwise (· < ·)
  reads : ∀ A : Matrix (Fin n) (Fin n) ℚ,
    gather (stored (pack n (entries A))) (diagIndex n) = .ok (stored (diagonal A))

theorem addressesDiagonal (n : Nat) : AddressesDiagonal n where
  length := length_tabulate n _
  bounds := by
    intro j hj
    rw [diagIndex_eq] at hj
    obtain ⟨i, hi, rfl⟩ := List.mem_map.mp hj
    have hin := place_lt_length (le_refl i) (List.mem_range.mp hi)
    rw [rowStart_self] at hin
    exact ⟨Int.natCast_nonneg _, by exact_mod_cast hin⟩
  ordered := by
    rw [diagIndex_eq, tabulate, List.pairwise_map]
    refine List.pairwise_lt_range.imp_of_mem fun {i j} hi hj hij => ?_
    have hrows := rowStart_strictMono hij (List.mem_range.mp hj)
    rw [place_self, place_self]
    exact_mod_cast hrows
  reads := gather_pack

/-- The file holds the blend of two matrices. -/
structure Blended (wa : ℚ) (A B : Matrix (Fin n) (Fin n) ℚ) (t : Tensors) : Prop where
  hout : ∃ h : List ℚ, t.get? "hout" = some (stored h) ∧ h.length = n * (n + 1) / 2 ∧
    unpack n h = mixture wa A B
  hout_diag : t.get? "hout_diag" = some (stored (diagonal (mixture wa A B)))
  trace : (mixture wa A B).trace = 1
  symm : (mixture wa A B).IsSymm
  posSemidef : A.PosSemidef → B.PosSemidef → 0 ≤ wa → wa ≤ 1 → (mixture wa A B).PosSemidef

theorem Holds.blended {fa fb : Tensors} {A B : Matrix (Fin n) (Fin n) ℚ} (wa : ℚ) (hA : Holds fa A)
    (hB : Holds fb B) : ∃ t, blendFactor wa fa fb = .ok t ∧ Blended wa A B t := by
  obtain ⟨h, hlen, hunpack, hblend⟩ := blendFactor_eq wa hA hB
  rw [rowStart_self] at hlen
  exact ⟨_, hblend, ⟨h, rfl, hlen, hunpack⟩, rfl, trace_mixture hA.trace_ne_zero hB.trace_ne_zero,
    mixture_isSymm hA.symm hB.symm, mixture_posSemidef⟩

theorem names_nodup (d : Dir) : (names d).Nodup := by
  refine (List.perm_insertionSort _ _).nodup_iff.mpr ?_
  exact d.nodup.filter _

/-- Every file of the directories is blended into the output directory, and no other is touched. -/
theorem blendHout_blends {a b : String × Dir} {out : Dir} {wa : ℚ} {rows : String → Nat}
    {A B : (f : String) → Matrix (Fin (rows f)) (Fin (rows f)) ℚ} (hnames : names a.2 = names b.2)
    (hA : ∀ f ∈ names a.2, ∃ t, a.2.get? f = some t ∧ Holds t (A f))
    (hB : ∀ f ∈ names a.2, ∃ t, b.2.get? f = some t ∧ Holds t (B f)) :
    (∀ n, AddressesDiagonal n) ∧ ∃ out', blendHout a b out wa = .ok (out', (names a.2).length) ∧
      (∀ f ∈ names a.2, ∃ t, out'.get? f = some t ∧ Blended wa (A f) (B f) t) ∧
      ∀ f, f ∉ names a.2 → out'.get? f = out.get? f := by
  refine ⟨addressesDiagonal, ?_⟩
  have hfile : ∀ f, ∃ t, f ∈ names a.2 →
      blendFactor wa ((a.2.get? f).getD .empty) ((b.2.get? f).getD .empty) = .ok t ∧
        Blended wa (A f) (B f) t := by
    intro f
    by_cases hf : f ∈ names a.2
    · obtain ⟨fa, hfa, hholdsA⟩ := hA f hf
      obtain ⟨fb, hfb, hholdsB⟩ := hB f hf
      obtain ⟨t, hblend, hblended⟩ := hholdsA.blended wa hholdsB
      refine ⟨t, fun _ => ⟨?_, hblended⟩⟩
      rw [hfa, hfb]
      exact hblend
    · exact ⟨.empty, fun h => absurd h hf⟩
  choose blend hblend using hfile
  have hstep : ∀ f ∈ names a.2, ∀ d : Dir, blendFile wa a.2 b.2 d f
      = .ok (((some ∘ blend) f).elim d (d.set (id f))) := by
    intro f hf d
    rw [blendFile, (hblend f hf).1]
    rfl
  obtain ⟨out', hfold, hother, hself⟩ := PyDict.foldlM_assign hstep
    (by rw [List.map_id]; exact names_nodup a.2) out
  rw [List.map_id] at hother
  refine ⟨out', ?_, fun f hf => ⟨blend f, hself f hf, (hblend f hf).2⟩, hother⟩
  rw [blendHout, if_neg (not_not.mpr hnames)]
  show ((names a.2).foldlM _ out >>= _) = _
  rw [hfold]
  rfl

/-- A directory with the factor of one matrix of three rows. -/
def oneFactor (p q r s t u : ℚ) : Dir :=
  .ofList [("q_proj.safetensors",
    .ofList [("hout", stored [p, q, r, s, t, u]), ("hout_diag", stored [p, s, u])])]

/-- The matrix itself. -/
def threeRows (p q r s t u : ℚ) : Matrix (Fin 3) (Fin 3) ℚ := !![p, q, r; q, s, t; r, t, u]

theorem names_oneFactor (p q r s t u : ℚ) : names (oneFactor p q r s t u) = ["q_proj.safetensors"] := by
  have hsuffix : PyStr.endswith "q_proj.safetensors" ".safetensors" = true := by decide
  have hkeys : (oneFactor p q r s t u).keys.filter (fun f => PyStr.endswith f ".safetensors")
      = ["q_proj.safetensors"] := List.filter_cons_of_pos hsuffix
  rw [names, hkeys]
  rfl

theorem oneFactor_holds {p q r s t u : ℚ} (htrace : p + s + u ≠ 0) : ∀ f ∈ ["q_proj.safetensors"],
    ∃ file, (oneFactor p q r s t u).get? f = some file ∧ Holds file (threeRows p q r s t u) := by
  intro f hf
  obtain rfl := List.mem_singleton.mp hf
  refine ⟨_, rfl, rfl, ⟨_, rfl, rfl⟩, ?_, ?_⟩
  · ext i j
    fin_cases i <;> fin_cases j <;> rfl
  · rw [Matrix.trace_fin_three]
    exact htrace

theorem blendHout_three :
    (∀ n, AddressesDiagonal n) ∧ ∃ out', blendHout ("ownvoice", oneFactor 1 1 0 3 (-1) 2)
      ("cal", oneFactor 2 (-1) 1 2 0 4) .empty (1 / 4) =
        .ok (out', (names (oneFactor 1 1 0 3 (-1) 2)).length) ∧
      (∀ f ∈ names (oneFactor 1 1 0 3 (-1) 2), ∃ t, out'.get? f = some t ∧
        Blended (1 / 4) (threeRows 1 1 0 3 (-1) 2) (threeRows 2 (-1) 1 2 0 4) t) ∧
      ∀ f, f ∉ names (oneFactor 1 1 0 3 (-1) 2) → out'.get? f = (PyDict.empty : Dir).get? f := by
  refine blendHout_blends ((names_oneFactor ..).trans (names_oneFactor ..).symm) ?_ ?_
  · rw [names_oneFactor]
    exact oneFactor_holds (by norm_num)
  · rw [names_oneFactor]
    exact oneFactor_holds (by norm_num)

end VllmExl3.Yaqa.Hout
