/-
# VllmExl3.Tools.Preflight — which degrees a checkpoint splits at (`tp_preflight.py`)

The tool reads stored trellis shapes only: it sorts every quantized module into a column or a row
split by its name and asks `check_tp_split` about the stored width. Loading asks the same question of
the widths vLLM builds its layers with, which the checkpoint pads. The two agree where padding added
nothing.
-/
import VllmExl3.TensorParallel.Experts
import VllmExl3.Lib.PyDict
import VllmExl3.Lib.PyStr
import Mathlib.Data.List.Sort

namespace VllmExl3.Tools

open Format (TILE HAD_BLOCK PAD_TO padDim dimsFromTrellisShape checkTpSplit)
open PyStr (endswith)
open TensorParallel (Linear ShardId Accepted Tensor)

/-! ## Names -/

/-- One pass of `re.sub(r"\.\d+\.", ".N.", name)`. Every step consumes a character, so the length of
the name is fuel enough. -/
def subDigits : Nat → List Char → List Char
  | 0, name => name
  | _, [] => []
  | fuel + 1, c :: rest =>
    let digits := rest.takeWhile Char.isDigit
    let after := rest.dropWhile Char.isDigit
    if c = '.' ∧ digits ≠ [] ∧ after.head? = some '.' then
      ['.', 'N', '.'] ++ subDigits fuel after.tail
    else c :: subDigits fuel rest

/-- The module name with its layer and expert indices collapsed. -/
def generic (name : String) : String :=
  let pass := fun name : List Char => subDigits name.length name
  String.ofList (pass (pass name.toList))

/-- How the tool believes a module is split. -/
inductive Split where
  | fused
  | col
  | row
  | unclassified
  deriving DecidableEq, Repr

/-- The string a `$` may match at the end of: itself, or itself without one trailing newline. -/
def dollar (s : String) : String := PyStr.removesuffix s "\n"

/-- `COLUMN` -/
def COLUMN (s : String) : Bool :=
  ["q_proj", "k_proj", "v_proj", "gate_proj", "up_proj", "in_proj_qkv", "in_proj_z", "in_proj_qkvz"].any
    (fun proj => endswith (dollar s) ("." ++ proj)) ||
      (dollar s = "lm_head" || endswith (dollar s) ".lm_head")

/-- `ROW` -/
def ROW (s : String) : Bool :=
  ["o_proj", "down_proj", "out_proj"].any fun proj => endswith (dollar s) ("." ++ proj)

/-- `FUSED_MULTI_SHARD` -/
def FUSED_MULTI_SHARD (s : String) : Bool := endswith (dollar s) ".in_proj_qkv"

/-- The branch `main` takes for a generic name. Irreducible, so that a statement about some name does not
evaluate the expressions on it. -/
@[irreducible] def classify (generic : String) : Split :=
  if FUSED_MULTI_SHARD generic then .fused
  else if COLUMN generic then .col
  else if ROW generic then .row
  else .unclassified

/-! ## The report -/

/-- A printed line about one group of tensors. -/
inductive Line where
  | fused (generic : String) (out_f : Nat)
  | unclassified (generic : String) (in_f out_f : Nat)
  | split (axis : Split) (generic : String) (size : Nat) (cells : List (Nat × Bool))
  deriving DecidableEq, Repr

/-- What `main` prints and counts: its lines, the refused tensors of each degree, the fused groups. -/
structure Report where
  lines : List Line
  worst : PyDict Nat Nat
  fused : List (String × Nat)

/-- A group: its generic name and dimensions, and the tensors in it. -/
abbrev Group := (String × Nat × Nat) × List String

/-- `worst[tp] = worst.get(tp, 0) + n` -/
def bump (worst : PyDict Nat Nat) (tp n : Nat) : PyDict Nat Nat :=
  worst.set tp ((worst.get? tp).getD 0 + n)

/-- The loop over the degrees, for one group of `n` tensors of width `size`. -/
def splitCells (degrees : List Nat) (generic : String) (size n : Nat) (worst : PyDict Nat Nat) :
    PyDict Nat Nat × List (Nat × Bool) :=
  degrees.foldl (fun acc tp =>
    match checkTpSplit size tp generic with
    | .ok () => (acc.1, acc.2 ++ [(tp, true)])
    | .error _ => (bump acc.1 tp n, acc.2 ++ [(tp, false)])) (worst, [])

/-- The body of the loop over the groups. -/
def reportGroup (degrees : List Nat) (r : Report) (g : Group) : Report :=
  match g with
  | ((generic, in_f, out_f), members) =>
    let split := fun axis size =>
      let (worst, cells) := splitCells degrees generic size members.length r.worst
      { r with lines := r.lines ++ [.split axis generic size cells], worst := worst }
    match classify generic with
    | .fused => { r with
        lines := r.lines ++ [.fused generic out_f], fused := r.fused ++ [(generic, members.length)] }
    | .col => split .col out_f
    | .row => split .row in_f
    | .unclassified => { r with lines := r.lines ++ [.unclassified generic in_f out_f] }

/-- The order of `sorted(groups.items())`; the keys are distinct, so they decide. -/
def groupLe (a b : Group) : Prop :=
  a.1.1 < b.1.1 ∨ a.1.1 = b.1.1 ∧ (a.1.2.1 < b.1.2.1 ∨ a.1.2.1 = b.1.2.1 ∧ a.1.2.2 ≤ b.1.2.2)

instance decidableGroupLe : DecidableRel groupLe := fun a b => by
  unfold groupLe
  infer_instance

/-- The key `main` groups a stored tensor under. -/
def groupKey (entry : String × List Nat) : Except PyError ((String × Nat × Nat) × String) := do
  let (in_f, out_f) ← dimsFromTrellisShape entry.2
  return ((generic entry.1, in_f, out_f), entry.1)

/-- The dictionary of groups, by `setdefault(key, []).append(name)`. -/
def groups (keyed : List ((String × Nat × Nat) × String)) : List Group :=
  ((PyDict.groupBy Prod.fst keyed).mapValues fun members => members.map Prod.snd).items

/-- `main`, from the trellis shapes it has read. The `SystemExit` of an empty checkpoint is an error. -/
def report (shapes : PyDict String (List Nat)) (degrees : List Nat) : Except PyError Report := do
  if shapes.items = [] then throw (.runtime "no EXL3 trellis tensors")
  let keyed ← shapes.items.mapM groupKey
  return ((groups keyed).insertionSort groupLe).foldl (reportGroup degrees) ⟨[], PyDict.empty, []⟩

/-- The verdict printed for a degree: `USABLE` where no tensor was refused. -/
def Report.usable (r : Report) (tp : Nat) : Bool := (r.worst.get? tp).getD 0 = 0

/-- No line of the report is marked unclassified. -/
def Report.classified (r : Report) : Bool :=
  r.lines.all fun line => match line with
    | .unclassified _ _ _ => false
    | _ => true

/-! ## What vLLM builds of the checkpoint -/

/-- A stored module: its input width, and the widths of the output shards it covers (one, unless the
checkpoint fuses several). -/
structure Stored where
  name : String
  in_features : Nat
  shards : List Nat
  words : Nat
  deriving DecidableEq, Repr

/-- The trellis shape of a stored module: both dimensions padded. -/
def Stored.shape (m : Stored) : List Nat :=
  [padDim m.in_features PAD_TO / TILE, padDim m.shards.sum PAD_TO / TILE, m.words]

/-- A routed expert's projection, with the tensors stored for it. -/
structure StoredExpert (W R : Type) extends Stored where
  shard_id : ShardId
  linear : Linear W R
  shape_eq : [linear.trellis.rows, linear.trellis.cols, linear.trellis.words] = toStored.shape

/-- A layer vLLM builds, with the stored modules it is loaded from. A column layer merges the output
shards of its modules, in order. -/
inductive Layer (W R : Type) where
  | column (members : List Stored)
  | row (member : Stored)
  | head (member : Stored)
  | expert (member : StoredExpert W R)

/-- The stored modules of a layer. -/
def Layer.stored {W R : Type} : Layer W R → List Stored
  | .column members => members
  | .row member => [member]
  | .head member => [member]
  | .expert member => [member.toStored]

/-- The tool sorts the layer's modules as vLLM splits them, where it sorts them at all. -/
def Layer.Sorted {W R : Type} : Layer W R → Prop
  | .column members => ∀ m ∈ members, classify (generic m.name) ≠ .row
  | .row member => classify (generic member.name) = .row ∨ classify (generic member.name) = .unclassified
  | .head member => classify (generic member.name) = .col ∨ classify (generic member.name) = .unclassified
  | .expert member =>
    classify (generic member.name) = (if member.shard_id.column then .col else .row) ∨
      classify (generic member.name) = .unclassified

/-- A quantized model: its layers, whose stored modules have distinct names and are split the way their
names say. -/
structure Model (W R : Type) where
  layers : List (Layer W R)
  nodup : ((layers.flatMap Layer.stored).map Stored.name).Nodup
  sorted : ∀ layer ∈ layers, layer.Sorted

namespace Model

variable {W R : Type}

/-- `trellis_shapes` -/
def shapes (M : Model W R) : PyDict String (List Nat) where
  items := (M.layers.flatMap Layer.stored).map fun m => (m.name, m.shape)
  nodup := by
    rw [List.map_map]
    exact M.nodup

end Model

/-! ## The load-time checks -/

/-- The loop of `_validate_tp` over a column layer's output shards, the next of them numbered `index`. -/
def validateShards (tp_size : Nat) : Nat → List Nat → Except PyError Unit
  | _, [] => .ok ()
  | index, out_size :: rest => do
    checkTpSplit (out_size * tp_size) tp_size s!"output shard {index}"
    validateShards tp_size (index + 1) rest

/-- vLLM's vocabulary padding, before it is divided among the ranks. -/
def padVocab (vocab : Nat) : Nat := padDim vocab 64

/-- The check of a layer's `create_weights`, on the per-rank sizes vLLM hands it: `_validate_tp` for the
dense linears, the vocabulary check for the head. Routed experts are checked when they load. -/
def Layer.createWeights {W R : Type} (tp_size : Nat) : Layer W R → Except PyError Unit
  | .column members => validateShards tp_size 0 (members.flatMap fun m => m.shards.map (· / tp_size))
  | .row member => checkTpSplit (member.in_features / tp_size * tp_size) tp_size "input dimension"
  | .head member => checkTpSplit (padVocab member.shards.sum / tp_size * tp_size) tp_size "lm_head vocab"
  | .expert _ => .ok ()

/-- No load-time tensor-parallel check of the layer raises, on any rank. -/
def Layer.Loads {W R : Type} (tp_size : Nat) (layer : Layer W R) : Prop :=
  layer.createWeights tp_size = .ok () ∧
    ∀ member, layer = .expert member → ∀ rank < tp_size, ∀ s ∈ member.linear.subTensors,
      Accepted tp_size rank (member.shard_id, s)

/-! ## What the verdict says -/

section Verdict

variable {degrees : List Nat} {tp : Nat}

theorem getD_bump (worst : PyDict Nat Nat) (tp' n : Nat) :
    ((bump worst tp' n).get? tp).getD 0 =
      if tp = tp' then (worst.get? tp).getD 0 + n else (worst.get? tp).getD 0 := by
  rw [bump, PyDict.get?_set]
  split_ifs with h
  · rw [h]
    rfl
  · rfl

/-- After the degrees of one group, a degree stands where it stood and the group splits at it. -/
theorem splitCells_usable (htp : tp ∈ degrees) (generic : String) (size : Nat) {n : Nat} (hn : 0 < n)
    (worst : PyDict Nat Nat) :
    ((splitCells degrees generic size n worst).1.get? tp).getD 0 = 0 ↔
      (worst.get? tp).getD 0 = 0 ∧ checkTpSplit size tp generic = .ok () := by
  have hfold : ∀ (ds : List Nat) (acc : PyDict Nat Nat × List (Nat × Bool)),
      ((ds.foldl (fun acc tp => match checkTpSplit size tp generic with
        | .ok () => (acc.1, acc.2 ++ [(tp, true)])
        | .error _ => (bump acc.1 tp n, acc.2 ++ [(tp, false)])) acc).1.get? tp).getD 0 = 0 ↔
        (acc.1.get? tp).getD 0 = 0 ∧ (tp ∈ ds → checkTpSplit size tp generic = .ok ()) := by
    intro ds
    induction ds with
    | nil => simp
    | cons d rest ih =>
      intro acc
      rw [List.foldl_cons, ih]
      rcases eq_or_ne tp d with rfl | hne
      · cases hcheck : checkTpSplit size tp generic with
        | ok _ => simp
        | error err =>
          dsimp only
          rw [getD_bump, if_pos rfl]
          constructor
          · rintro ⟨hzero, _⟩
            omega
          · rintro ⟨_, hok⟩
            exact absurd (hok List.mem_cons_self) (by simp)
      · cases hcheck : checkTpSplit size d generic with
        | ok _ => simp [hne]
        | error err =>
          dsimp only
          rw [getD_bump, if_neg hne]
          simp [hne]
  rw [splitCells, hfold]
  simp [htp]

/-- A group with its name classified is split on the width its name says. -/
def GroupSplits (tp : Nat) (g : Group) : Prop :=
  match classify g.1.1 with
  | .fused => True
  | .col => checkTpSplit g.1.2.2 tp g.1.1 = .ok ()
  | .row => checkTpSplit g.1.2.1 tp g.1.1 = .ok ()
  | .unclassified => False

theorem usable_iff {r : Report} : r.usable tp = true ↔ (r.worst.get? tp).getD 0 = 0 :=
  decide_eq_true_iff

theorem reportGroup_verdict (htp : tp ∈ degrees) (r : Report) {g : Group} (hg : g.2 ≠ []) :
    (reportGroup degrees r g).usable tp = true ∧ (reportGroup degrees r g).classified = true ↔
      (r.usable tp = true ∧ r.classified = true) ∧ GroupSplits tp g := by
  obtain ⟨⟨name, in_f, out_f⟩, members⟩ := g
  have hn : 0 < members.length := List.length_pos_iff.mpr hg
  rw [usable_iff, usable_iff, reportGroup, GroupSplits]
  rcases hclass : classify name with _ | _ | _ | _
  · simp [Report.classified]
  · have hcol := splitCells_usable htp name out_f hn r.worst
    simp only [Report.classified, List.all_append, List.all_cons, List.all_nil, Bool.and_true, hcol]
    exact and_right_comm
  · have hrow := splitCells_usable htp name in_f hn r.worst
    simp only [Report.classified, List.all_append, List.all_cons, List.all_nil, Bool.and_true, hrow]
    exact and_right_comm
  · simp [Report.classified]

theorem report_verdict (htp : tp ∈ degrees) {groups : List Group} (hg : ∀ g ∈ groups, g.2 ≠ [])
    (r : Report) :
    (groups.foldl (reportGroup degrees) r).usable tp = true ∧
        (groups.foldl (reportGroup degrees) r).classified = true ↔
      (r.usable tp = true ∧ r.classified = true) ∧ ∀ g ∈ groups, GroupSplits tp g := by
  induction groups generalizing r with
  | nil => simp
  | cons g rest ih =>
    rw [List.foldl_cons, ih fun g' hg' => hg g' (List.mem_cons_of_mem g hg'),
      reportGroup_verdict htp r (hg g List.mem_cons_self), List.forall_mem_cons, and_assoc]

variable {W R : Type} {M : Model W R}

/-- The key a stored module is grouped under. -/
def Stored.key (m : Stored) : String × Nat × Nat :=
  (generic m.name, padDim m.in_features PAD_TO, padDim m.shards.sum PAD_TO)

theorem padDim_tiles (n : Nat) : padDim n PAD_TO / TILE * TILE = padDim n PAD_TO :=
  Nat.div_mul_cancel (Dvd.dvd.trans (by decide) (Format.padDim_spec (by decide)).1)

theorem groupKey_stored (m : Stored) : groupKey (m.name, m.shape) = .ok (m.key, m.name) := by
  show Except.ok ((generic m.name, padDim m.in_features PAD_TO / TILE * TILE,
    padDim m.shards.sum PAD_TO / TILE * TILE), m.name) = _
  rw [padDim_tiles, padDim_tiles]
  rfl

/-- The tool's verdict on one stored module: its name is known, and the width it is split on divides. -/
def Stored.Splits (tp : Nat) (m : Stored) : Prop :=
  match classify (generic m.name) with
  | .fused => True
  | .col => Format.Splits (padDim m.shards.sum PAD_TO) tp
  | .row => Format.Splits (padDim m.in_features PAD_TO) tp
  | .unclassified => False

theorem groupSplits_key (htp : 0 < tp) (m : Stored) (members : List String) :
    GroupSplits tp (m.key, members) ↔ m.Splits tp := by
  have hcheck : ∀ size what, checkTpSplit size tp what = .ok () ↔ Format.Splits size tp :=
    fun size what => by rw [Format.splits_iff_check what, and_iff_right htp]
  unfold GroupSplits Stored.Splits Stored.key
  rcases hclass : classify (generic m.name) with _ | _ | _ | _
  · rfl
  · exact hcheck _ _
  · exact hcheck _ _
  · rfl

theorem mem_groups {keyed : List ((String × Nat × Nat) × String)} {k : String × Nat × Nat}
    {members : List String} : (k, members) ∈ groups keyed ↔
      (∃ name, (k, name) ∈ keyed) ∧ members = (keyed.filter fun x => x.1 = k).map Prod.snd :=
  PyDict.mem_items_groupBy_fst

/-- A degree of the report is usable with every tensor classified exactly where every stored module
splits at it. -/
theorem report_model (hne : M.layers.flatMap Layer.stored ≠ []) (htp : tp ∈ degrees) (hpos : 0 < tp) :
    ∃ r, report M.shapes degrees = .ok r ∧
      (r.usable tp = true ∧ r.classified = true ↔
        ∀ m ∈ M.layers.flatMap Layer.stored, m.Splits tp) := by
  have hkeyed : M.shapes.items.mapM groupKey =
      .ok ((M.layers.flatMap Layer.stored).map fun m => (m.key, m.name)) := by
    show ((M.layers.flatMap Layer.stored).map _).mapM groupKey = _
    rw [List.mapM_map]
    exact mapM_ok fun m _ => groupKey_stored m
  have hitems : M.shapes.items ≠ [] := by
    show (M.layers.flatMap Layer.stored).map _ ≠ []
    rwa [Ne, List.map_eq_nil_iff]
  have hreport : report M.shapes degrees =
      .ok (((groups ((M.layers.flatMap Layer.stored).map fun m => (m.key, m.name))).insertionSort
        groupLe).foldl (reportGroup degrees) ⟨[], PyDict.empty, []⟩) := by
    rw [report, if_neg hitems, hkeyed]
    rfl
  refine ⟨_, hreport, ?_⟩
  rw [report_verdict htp]
  · have hstart : (Report.usable ⟨[], PyDict.empty, []⟩ tp = true ∧
        Report.classified ⟨[], PyDict.empty, []⟩ = true) := ⟨rfl, rfl⟩
    rw [and_iff_right hstart]
    constructor
    · intro h m hm
      have hmem : (m.key, m.name) ∈ (M.layers.flatMap Layer.stored).map fun m => (m.key, m.name) :=
        List.mem_map_of_mem hm
      have hgroup := mem_groups.mpr ⟨⟨m.name, hmem⟩, rfl⟩
      have hsplits := h _ ((List.perm_insertionSort groupLe _).mem_iff.mpr hgroup)
      exact (groupSplits_key hpos m _).mp hsplits
    · rintro h ⟨k, members⟩ hg
      obtain ⟨⟨name, hname⟩, _⟩ :=
        mem_groups.mp ((List.perm_insertionSort groupLe _).mem_iff.mp hg)
      obtain ⟨m, hm, hkey⟩ := List.mem_map.mp hname
      obtain rfl : m.key = k := congrArg Prod.fst hkey
      exact (groupSplits_key hpos m _).mpr (h m hm)
  · rintro ⟨k, members⟩ hg
    obtain ⟨⟨name, hname⟩, hmembers⟩ :=
      mem_groups.mp ((List.perm_insertionSort groupLe _).mem_iff.mp hg)
    rw [hmembers]
    exact List.ne_nil_of_mem (List.mem_map_of_mem (List.mem_filter.mpr ⟨hname, by simp⟩))

end Verdict

/-! ## What loading checks -/

section Load

variable {tp : Nat}

/-- The load-time check of a per-rank width. -/
theorem check_per_rank (htp : 2 ≤ tp) (size : Nat) (what : String) :
    checkTpSplit (size * tp) tp what = .ok () ↔ HAD_BLOCK ∣ size := by
  rw [Format.checkTpSplit_eq_ok, Nat.mul_div_cancel _ (by omega : 0 < tp)]
  constructor
  · rintro (hone | ⟨_, hdvd⟩)
    · omega
    · exact hdvd
  · exact fun hdvd => .inr ⟨Nat.dvd_mul_left tp size, hdvd⟩

theorem validateShards_ok (htp : 2 ≤ tp) (index : Nat) (sizes : List Nat) :
    validateShards tp index sizes = .ok () ↔ ∀ size ∈ sizes, HAD_BLOCK ∣ size := by
  induction sizes generalizing index with
  | nil => simp [validateShards]
  | cons size rest ih =>
    rw [List.forall_mem_cons, ← ih (index + 1), ← check_per_rank htp size s!"output shard {index}",
      validateShards]
    cases hcheck : checkTpSplit (size * tp) tp s!"output shard {index}" with
    | error err => exact iff_of_false (fun h => by cases h) fun h => by cases h.1
    | ok _ => exact (and_iff_right rfl).symm

/-- A width padded by less than a block, to a width that splits, splits itself where padding added
nothing. -/
theorem dvd_per_rank_iff {d padded : Nat} (htp : 2 ≤ tp) (hsplits : Format.Splits padded tp)
    (hle : d ≤ padded) (hlt : padded < d + HAD_BLOCK) : HAD_BLOCK ∣ d / tp ↔ HAD_BLOCK ∣ d := by
  obtain ⟨m, hm⟩ : ∃ m, padded = tp * (HAD_BLOCK * m) := by
    rcases hsplits with rfl | ⟨_, hdvd, m, hm⟩
    · omega
    · exact ⟨m, by rw [← hm, Nat.mul_div_cancel' hdvd]⟩
  have hpadded : HAD_BLOCK ∣ padded := ⟨tp * m, by rw [hm, Nat.mul_left_comm]⟩
  have hdiv := Nat.div_add_mod d tp
  have hmod := Nat.mod_lt d (by omega : 0 < tp)
  constructor
  · rintro ⟨q, hq⟩
    rw [hq] at hdiv
    -- a smaller quotient is a whole block short on every rank
    have hqm : m ≤ q := by
      by_contra hlt'
      have hstep : tp * (HAD_BLOCK * (q + 1)) ≤ tp * (HAD_BLOCK * m) :=
        Nat.mul_le_mul_left _ (Nat.mul_le_mul_left _ (Nat.lt_of_not_le hlt'))
      rw [Nat.mul_succ, Nat.mul_add] at hstep
      simp only [HAD_BLOCK] at hstep hlt hm hdiv
      omega
    have hge : tp * (HAD_BLOCK * m) ≤ tp * (HAD_BLOCK * q) :=
      Nat.mul_le_mul_left _ (Nat.mul_le_mul_left _ hqm)
    have heq : d = padded := by omega
    rwa [heq]
  · intro hd
    have heq : d = padded := by
      simp only [HAD_BLOCK] at hd hpadded hlt
      omega
    rw [heq, hm, Nat.mul_div_cancel_left _ (by omega : 0 < tp)]
    exact Nat.dvd_mul_right _ _

theorem dvd_per_rank_padDim (htp : 2 ≤ tp) {d : Nat} (hsplits : Format.Splits (padDim d PAD_TO) tp) :
    HAD_BLOCK ∣ d / tp ↔ HAD_BLOCK ∣ d := by
  obtain ⟨_, hle, hlt⟩ := @Format.padDim_spec d PAD_TO (by decide)
  exact dvd_per_rank_iff htp hsplits hle hlt

/-- The 64-padded vocabulary lies less than a block below the stored one. -/
theorem dvd_per_rank_padVocab (htp : 2 ≤ tp) {vocab : Nat}
    (hsplits : Format.Splits (padDim vocab PAD_TO) tp) :
    HAD_BLOCK ∣ padVocab vocab / tp ↔ HAD_BLOCK ∣ padVocab vocab := by
  obtain ⟨⟨a, ha⟩, hle, hlt⟩ := @Format.padDim_spec vocab PAD_TO (by decide)
  obtain ⟨⟨b, hb⟩, hle', hlt'⟩ := @Format.padDim_spec vocab 64 (by decide)
  simp only [PAD_TO] at ha hle hlt hsplits
  refine dvd_per_rank_iff htp hsplits ?_ ?_
  · rw [padVocab]
    omega
  · rw [padVocab, HAD_BLOCK]
    omega

/-- The widths a layer is checked on at load are whole blocks before padding. A stored module that
covers several output shards is padded as one, so there every shard is asked about its own rank. -/
def Layer.PaddingFree {W R : Type} (tp : Nat) : Layer W R → Prop
  | .column members => ∀ m ∈ members, ∀ d ∈ m.shards,
      if m.shards = [d] ∧ classify (generic m.name) ≠ .fused then HAD_BLOCK ∣ d else HAD_BLOCK ∣ d / tp
  | .row member => HAD_BLOCK ∣ member.in_features
  | .head member => HAD_BLOCK ∣ padVocab member.shards.sum
  | .expert _ => True

section Member

variable {m : Stored}

theorem Stored.Splits.of_col (h : m.Splits tp) (hclass : classify (generic m.name) = .col) :
    Format.Splits (padDim m.shards.sum PAD_TO) tp := by
  unfold Stored.Splits at h
  rwa [hclass] at h

theorem Stored.Splits.of_row (h : m.Splits tp) (hclass : classify (generic m.name) = .row) :
    Format.Splits (padDim m.in_features PAD_TO) tp := by
  unfold Stored.Splits at h
  rwa [hclass] at h

theorem Stored.Splits.classified (h : m.Splits tp) : classify (generic m.name) ≠ .unclassified := by
  intro hclass
  unfold Stored.Splits at h
  rwa [hclass] at h

/-- What loading asks of an output shard, for a module the tool lets through. -/
theorem Stored.Splits.shard_iff (h : m.Splits tp) (htp : 2 ≤ tp)
    (hrow : classify (generic m.name) ≠ .row) (d : Nat) :
    HAD_BLOCK ∣ d / tp ↔ if m.shards = [d] ∧ classify (generic m.name) ≠ .fused then HAD_BLOCK ∣ d
      else HAD_BLOCK ∣ d / tp := by
  split_ifs with hone
  · obtain ⟨hshards, hfused⟩ := hone
    have hcol : classify (generic m.name) = .col := by
      rcases hclass : classify (generic m.name) with _ | _ | _ | _
      · exact absurd hclass hfused
      · rfl
      · exact absurd hclass hrow
      · exact absurd hclass h.classified
    have hsplits := h.of_col hcol
    rw [hshards, List.sum_singleton] at hsplits
    exact dvd_per_rank_padDim htp hsplits
  · rfl

end Member

variable {W R : Type} {layer : Layer W R}

/-- A routed expert is cut on its stored widths, which are the ones the tool asks about. -/
theorem StoredExpert.loads (member : StoredExpert W R) (h : member.Splits tp)
    (hsorted : (Layer.expert member).Sorted) :
    Format.Splits (member.linear.interm member.shard_id) tp := by
  have hshape := member.shape_eq
  rw [Stored.shape, List.cons.injEq, List.cons.injEq] at hshape
  have htiles : ∀ n, TILE * (padDim n PAD_TO / TILE) = padDim n PAD_TO := fun n => by
    rw [Nat.mul_comm, padDim_tiles]
  rw [Linear.interm, hshape.1, hshape.2.1, htiles, htiles]
  have hclass : classify (generic member.name) = (if member.shard_id.column then .col else .row) :=
    hsorted.resolve_right h.classified
  split_ifs at hclass ⊢ with hcolumn
  · exact h.of_col hclass
  · exact h.of_row hclass

/-- Where the stored modules of a layer split, it loads exactly where its own widths are whole
blocks. -/
theorem loads_iff (htp : 2 ≤ tp) (hsplits : ∀ m ∈ layer.stored, m.Splits tp) (hsorted : layer.Sorted) :
    layer.Loads tp ↔ layer.PaddingFree tp := by
  cases layer with
  | column members =>
    rw [Layer.Loads, and_iff_left fun member h => by cases h]
    show validateShards tp 0 _ = .ok () ↔ _
    rw [validateShards_ok htp]
    simp only [List.mem_flatMap, List.mem_map, Layer.PaddingFree]
    constructor
    · intro h m hm d hd
      exact ((hsplits m hm).shard_iff htp (hsorted m hm) d).mp (h (d / tp) ⟨m, hm, d, hd, rfl⟩)
    · rintro h size ⟨m, hm, d, hd, rfl⟩
      exact ((hsplits m hm).shard_iff htp (hsorted m hm) d).mpr (h m hm d hd)
  | row member =>
    have hmember := hsplits member (List.mem_singleton_self member)
    have hrow := hmember.of_row (hsorted.resolve_right hmember.classified)
    rw [Layer.Loads, and_iff_left fun member h => by cases h]
    exact (check_per_rank htp _ _).trans (dvd_per_rank_padDim htp hrow)
  | head member =>
    have hmember := hsplits member (List.mem_singleton_self member)
    have hcol := hmember.of_col (hsorted.resolve_right hmember.classified)
    rw [Layer.Loads, and_iff_left fun member h => by cases h]
    exact (check_per_rank htp _ _).trans (dvd_per_rank_padVocab htp hcol)
  | expert member =>
    refine iff_of_true ⟨rfl, fun member' heq rank _ s hs => ?_⟩ trivial
    cases heq
    exact member.linear.tpShard_ok hs
      (member.loads (hsplits member.toStored (List.mem_singleton_self _)) hsorted)

end Load

/-! ## When the verdict is right -/

/-- The tool's word at `tp`: if it reports the degree usable with no tensor unclassified, no load-time
check raises there. -/
def Sound {W R : Type} (M : Model W R) (degrees : List Nat) (tp : Nat) : Prop :=
  ∀ r, report M.shapes degrees = .ok r → r.usable tp = true → r.classified = true →
    ∀ layer ∈ M.layers, layer.Loads tp

/-- The tool's word holds exactly where it refuses a stored width or does not know a module, or else
every width checked at load is whole blocks without the checkpoint's padding. -/
theorem preflight_sound_iff {W R : Type} (M : Model W R) (degrees : List Nat) (tp : Nat) (htp : 2 ≤ tp)
    (hmem : tp ∈ degrees) :
    Sound M degrees tp ↔
      (∃ m ∈ M.layers.flatMap Layer.stored, ¬m.Splits tp) ∨ ∀ layer ∈ M.layers, layer.PaddingFree tp := by
  have hlayer : (∀ m ∈ M.layers.flatMap Layer.stored, m.Splits tp) → ∀ layer ∈ M.layers,
      (layer.Loads tp ↔ layer.PaddingFree tp) := fun hall layer hlayer =>
    loads_iff htp (fun m hm => hall m (List.mem_flatMap.mpr ⟨layer, hlayer, hm⟩)) (M.sorted layer hlayer)
  rcases eq_or_ne (M.layers.flatMap Layer.stored) [] with hnil | hne
  · -- nothing quantized: the tool exits, and no layer has anything to check
    have hall : ∀ m ∈ M.layers.flatMap Layer.stored, m.Splits tp := by
      rw [hnil]
      exact fun m hm => absurd hm List.not_mem_nil
    have hfree : ∀ layer ∈ M.layers, layer.PaddingFree tp := by
      intro layer hlayer
      have hstored := List.flatMap_eq_nil_iff.mp hnil layer hlayer
      cases layer with
      | column members =>
        obtain rfl : members = [] := hstored
        exact fun m hm => absurd hm List.not_mem_nil
      | row member => cases hstored
      | head member => cases hstored
      | expert member => cases hstored
    refine iff_of_true (fun r hr _ _ => ?_) (.inr hfree)
    exact fun layer hmem => (hlayer hall layer hmem).mpr (hfree layer hmem)
  · obtain ⟨r, hr, hverdict⟩ := report_model hne hmem (by omega : 0 < tp)
    constructor
    · intro hsound
      by_cases hall : ∀ m ∈ M.layers.flatMap Layer.stored, m.Splits tp
      · obtain ⟨husable, hclassified⟩ := hverdict.mpr hall
        have hloads := hsound r hr husable hclassified
        exact .inr fun layer hmem => (hlayer hall layer hmem).mp (hloads layer hmem)
      · push Not at hall
        exact .inl hall
    · intro hcond r' hr' husable hclassified
      obtain rfl := Except.ok.inj (hr.symm.trans hr')
      have hall := hverdict.mp ⟨husable, hclassified⟩
      rcases hcond with ⟨m, hm, hrefused⟩ | hfree
      · exact absurd (hall m hm) hrefused
      · exact fun layer hmem => (hlayer hall layer hmem).mpr (hfree layer hmem)

/-! ### A gate and up projection of width 704, stored 768 wide, on two ranks -/

def gate704 : Stored := ⟨"model.layers.0.mlp.gate_proj", 2816, [704], 48⟩
def up704 : Stored := ⟨"model.layers.0.mlp.up_proj", 2816, [704], 48⟩

theorem classify_gate704 : classify (generic gate704.name) = .col := by decide +kernel

theorem classify_up704 : classify (generic up704.name) = .col := by decide +kernel

def model704 : Model Nat Rat where
  layers := [.column [gate704, up704]]
  nodup := by decide
  sorted := by
    intro layer hlayer
    rw [List.mem_singleton.mp hlayer]
    rintro m hm
    rcases List.mem_pair.mp hm with rfl | rfl
    · rw [classify_gate704]
      decide
    · rw [classify_up704]
      decide

theorem model704_splits : ∀ m ∈ model704.layers.flatMap Layer.stored, m.Splits 2 := by
  intro m hm
  rcases List.mem_pair.mp hm with rfl | rfl
  · unfold Stored.Splits
    rw [classify_gate704]
    decide
  · unfold Stored.Splits
    rw [classify_up704]
    decide

theorem model704_sound_iff : Sound model704 [2, 4, 8] 2 ↔
    (∃ m ∈ model704.layers.flatMap Layer.stored, ¬m.Splits 2) ∨
      ∀ layer ∈ model704.layers, layer.PaddingFree 2 :=
  preflight_sound_iff model704 [2, 4, 8] 2 (by decide) (by decide)

/-- Reported usable at two ranks, 384 columns each, and refused at load, where a rank has 352. -/
theorem model704_not_sound : ¬Sound model704 [2, 4, 8] 2 := by
  intro hsound
  obtain ⟨r, hr, hverdict⟩ := @report_model [2, 4, 8] 2 _ _ model704 (by decide) (by decide)
    (by decide)
  obtain ⟨husable, hclassified⟩ := hverdict.mpr model704_splits
  have hmem : Layer.column [gate704, up704] ∈ model704.layers := List.mem_singleton_self _
  have hloads := hsound r hr husable hclassified _ hmem
  have hfree := (loads_iff (by decide) (fun m hm => model704_splits m
    (List.mem_flatMap.mpr ⟨_, hmem, hm⟩)) (model704.sorted _ hmem)).mp hloads
  have hgate := hfree gate704 (List.mem_cons_self) 704 (List.mem_singleton_self _)
  rw [classify_gate704] at hgate
  exact absurd hgate (by decide)

end VllmExl3.Tools
