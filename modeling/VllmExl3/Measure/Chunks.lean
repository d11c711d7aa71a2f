/-
# VllmExl3.Measure.Chunks — the measured rows of each category (`quantization/quant.py`)

`do_measure` measures each content category's rows in runs of at most twenty, one file each, named
after the rows in it. What is there decides what is still to measure, so that a later run with another
count only adds to it. A run can end anywhere: a child fails, or the process is killed between two of
its steps. Here are the files, the plan, a run with everything that can happen to it, and what
`category_klds` reads back.
-/
import VllmExl3.Lib.Except
import VllmExl3.Lib.PyDict
import VllmExl3.Lib.PyStr
import VllmExl3.Lib.Tiling
import VllmExl3.Format
import Mathlib.Data.List.Sort

namespace VllmExl3.Measure

open PyStr

variable {ρ κ : Type}

/-! ## Files -/

/-- A tensor of a measurement: the KL of each row (`kld_rows`), level by level. -/
structure Result (κ : Type) where
  key : String
  levels : List (List κ)

/-- What `sc_measure.py` writes. -/
structure Measurement (κ : Type) where
  results : List (Result κ)

/-- What a file holds: the rows a child is given, a measurement, or something that is neither. -/
inductive File (ρ κ : Type) where
  | rows (input_ids : List ρ)
  | json (d : Measurement κ)
  | torn

/-- `category_dir`, by file name. -/
abbrev Dir (ρ κ : Type) := PyDict String (File ρ κ)

/-- `cat.replace(":", "__")` -/
def stem (cat : String) : String := replace cat ":" "__"

/-- The category of a conversation of the trace: documents have theirs by kind. -/
def categoryOf (sl kind : String) : String :=
  if sl = "ctx_user" ∨ sl = "ctx_tool" then sl ++ ":" ++ kind else sl

/-- A slice's name: no colon and no two underscores in a row. -/
def PlainSlice (sl : String) : Prop := ':' ∉ sl.toList ∧ occursIn "__" sl = false

theorem stem_categoryOf {sl kind : String} (hsl : PlainSlice sl) (hkind : ':' ∉ kind.toList) :
    stem (categoryOf sl kind) =
      if sl = "ctx_user" ∨ sl = "ctx_tool" then sl ++ "__" ++ kind else sl := by
  have hkeep : ∀ xs : List Char, ':' ∉ xs →
      (xs.flatMap fun x => if x = ':' then "__".toList else [x]) = xs := by
    intro xs hxs
    induction xs with
    | nil => rfl
    | cons x rest ih =>
      rw [List.mem_cons, not_or] at hxs
      rw [List.flatMap_cons, if_neg (Ne.symm hxs.1), ih hxs.2, List.singleton_append]
  apply String.toList_injective
  rw [stem]
  show (replace _ (String.singleton ':') "__").toList = _
  rw [toList_replace_char, categoryOf]
  split_ifs with hdoc
  · simp only [String.toList_append, List.flatMap_append, hkeep _ hsl.1, hkeep _ hkind]
    rfl
  · exact hkeep _ hsl.1

/-- The files of two categories of a trace are told apart by their stems. -/
theorem stem_categoryOf_injective {sl kind sl' kind' : String} (hsl : PlainSlice sl)
    (hsl' : PlainSlice sl') (hkind : ':' ∉ kind.toList) (hkind' : ':' ∉ kind'.toList)
    (h : stem (categoryOf sl kind) = stem (categoryOf sl' kind')) :
    categoryOf sl kind = categoryOf sl' kind' := by
  rw [stem_categoryOf hsl hkind, stem_categoryOf hsl' hkind'] at h
  have hplain : ∀ s t k : String, PlainSlice t → s ++ "__" ++ k ≠ t := by
    rintro s t k ⟨-, hnone⟩ rfl
    have hoccurs : occursIn "__" (s ++ "__" ++ k) = true := by
      rw [occursIn, decide_eq_true_eq, String.toList_append, String.toList_append]
      exact ⟨s.toList, k.toList, rfl⟩
    rw [hoccurs] at hnone
    cases hnone
  rw [categoryOf, categoryOf]
  split_ifs at h ⊢ with hdoc hdoc' hdoc'
  · -- both slices have eight characters
    have hlen : sl.toList.length = sl'.toList.length := by
      rcases hdoc with rfl | rfl <;> rcases hdoc' with rfl | rfl <;> decide
    have hlist := congrArg String.toList h
    simp only [String.toList_append] at hlist
    obtain ⟨hleft, hright⟩ := List.append_inj hlist (by simp [hlen])
    rw [String.toList_injective (List.append_cancel_right hleft), String.toList_injective hright]
  · exact absurd h (hplain sl sl' kind hsl')
  · exact absurd h.symm (hplain sl' sl kind' hsl)
  · exact h

/-- A conversation of the calibration trace, its slice and kind named as above. -/
structure Conversation where
  slice : String
  kind : String
  tokens : List Nat
  slice_plain : PlainSlice slice
  kind_plain : ':' ∉ kind.toList

/-- `measure_categories`: the conversations' tokens, packed into rows category by category, and the raw
and the random rows of the calibration file; `rest` is its rows past the Hessian's with their labels. -/
def measureCategories (pack_rows : List Nat → List ρ) (rows : List Conversation)
    (rest : List (String × ρ)) : PyDict String (List ρ) :=
  let streams := PyDict.groupBy (fun r => categoryOf r.slice r.kind) rows
  let out := streams.mapValues fun rs => pack_rows (rs.flatMap (·.tokens))
  (rest.filter fun p => p.1 = "raw" ∨ p.1 = "random").foldl
    (fun out p => out.set p.1 ((out.get? p.1).getD [] ++ [p.2])) out

/-- Every category is one of a plain slice. -/
theorem mem_keys_measureCategories {pack_rows : List Nat → List ρ} {rows : List Conversation}
    {rest : List (String × ρ)} {cat : String}
    (h : cat ∈ (measureCategories pack_rows rows rest).keys) :
    ∃ sl kind, PlainSlice sl ∧ ':' ∉ kind.toList ∧ categoryOf sl kind = cat := by
  have hrest : ∀ (labelled : List (String × ρ)) (out : PyDict String (List ρ)),
      cat ∈ (labelled.foldl (fun out p => out.set p.1 ((out.get? p.1).getD [] ++ [p.2])) out).keys →
      cat ∈ out.keys ∨ ∃ p ∈ labelled, p.1 = cat := by
    intro labelled
    induction labelled with
    | nil => exact fun _ hmem => .inl hmem
    | cons p labelled ih =>
      intro out hmem
      rw [List.foldl_cons] at hmem
      rcases ih _ hmem with hset | ⟨q, hq, hcat⟩
      · rcases PyDict.mem_keys_set.mp hset with rfl | hold
        · exact .inr ⟨p, List.mem_cons_self, rfl⟩
        · exact .inl hold
      · exact .inr ⟨q, List.mem_cons_of_mem p hq, hcat⟩
  rcases hrest _ _ h with htrace | ⟨p, hp, rfl⟩
  · rw [PyDict.keys_mapValues] at htrace
    rcases (PyDict.mem_keys_appendAll _).mp htrace with hnone | ⟨r, -, hcat⟩
    · exact absurd hnone List.not_mem_nil
    · exact ⟨r.slice, r.kind, r.slice_plain, r.kind_plain, hcat⟩
  · rcases of_decide_eq_true (List.mem_filter.mp hp).2 with hraw | hrandom
    · exact ⟨"raw", "", ⟨by decide, by decide⟩, by decide, hraw.symm⟩
    · exact ⟨"random", "", ⟨by decide, by decide⟩, by decide, hrandom.symm⟩

/-- The categories of a calibration trace with their rows. Their files are told apart by their stems. -/
structure Categories (ρ : Type) where
  rows : PyDict String (List ρ)
  stems : ∀ c ∈ rows.keys, ∀ c' ∈ rows.keys, stem c = stem c' → c = c'

/-- The categories that `measure_categories` finds. -/
def Categories.ofTrace (pack_rows : List Nat → List ρ) (rows : List Conversation)
    (rest : List (String × ρ)) : Categories ρ where
  rows := measureCategories pack_rows rows rest
  stems := by
    intro c hc c' hc' h
    obtain ⟨sl, kind, hsl, hkind, rfl⟩ := mem_keys_measureCategories hc
    obtain ⟨sl', kind', hsl', hkind', rfl⟩ := mem_keys_measureCategories hc'
    exact stem_categoryOf_injective hsl hsl' hkind hkind' h

/-- The rows the trace holds of a category. -/
def Categories.available (cats : Categories ρ) (cat : String) : List ρ := (cats.rows.get? cat).getD []

/-- `f"{cat.replace(':', '__')}.{a}-{b}"` -/
def chunkName (cat : String) (a b : Nat) : String :=
  stem cat ++ "." ++ toString a ++ "-" ++ toString b

/-- The measurement of rows `a` to `b`. -/
def outName (cat : String) (a b : Nat) : String := chunkName cat a b ++ ".json"

/-- Where a child writes it. -/
def partName (cat : String) (a b : Nat) : String := outName cat a b ++ ".part"

/-- The rows the child reads. -/
def rowsName (cat : String) (a b : Nat) : String := chunkName cat a b ++ ".safetensors"

/-! ## Chunks -/

/-- A measured range of rows and its file. -/
structure Chunk where
  start : Nat
  stop : Nat
  file : String
  deriving DecidableEq, Repr

/-- The order of the triples, component by component. -/
def Chunk.le (x y : Chunk) : Prop :=
  x.start < y.start ∨ x.start = y.start ∧
    (x.stop < y.stop ∨ x.stop = y.stop ∧ x.file ≤ y.file)

instance decidableChunkLe : DecidableRel Chunk.le := fun _ _ => inferInstanceAs (Decidable (_ ∨ _))

/-- The rows of a chunk. -/
def Chunk.range (x : Chunk) : Nat × Nat := (x.start, x.stop)

/-- `int` of a group `(\d+)`. -/
def digits (cs : List Char) : Option Nat :=
  if cs ≠ [] ∧ cs.all Char.isDigit = true then some (Nat.ofDigitChars 10 cs 0) else none

/-- The groups of `re.fullmatch(re.escape(stem) + r"\.(\d+)-(\d+)\.json", f)`. -/
def matchRange (stem f : String) : Option (Nat × Nat) :=
  if startswith f (stem ++ ".") && endswith f ".json" then
    let middle := dropEnd (dropStart f (stem ++ ".").toList.length) ".json".toList.length
    match middle.toList.splitOn '-' with
    | [a, b] => match digits a, digits b with
      | some a, some b => some (a, b)
      | _, _ => none
    | _ => none
  else none

/-- The chunk a file is, if it is one of the category's. -/
def chunkOf (cat f : String) : Option Chunk := (matchRange (stem cat) f).map fun r => ⟨r.1, r.2, f⟩

/-- `category_chunks` -/
def categoryChunks (dir : Dir ρ κ) (cat : String) : List Chunk :=
  (dir.keys.filterMap (chunkOf cat)).insertionSort Chunk.le

/-! ## The plan -/

/-- `MEASURE_CHUNK` -/
def MEASURE_CHUNK : Nat := 20

/-- A run of `sc_measure.py`: rows `a` to `b` of a category. -/
structure Planned where
  cat : String
  a : Nat
  b : Nat
  deriving DecidableEq, Repr

/-- How many rows a category is measured to: those wanted, as far as there are any. -/
def goal (cats : Categories ρ) (want : PyDict String Int) (cat : String) : Int :=
  min ((want.get? cat).getD 0) (cats.available cat).length

/-- What is planned of a category: from where its chunks end. A negative count plans nothing. -/
def planCategory (cats : Categories ρ) (want : PyDict String Int) (dir : Dir ρ κ) (cat : String) :
    List Planned :=
  let done := categoryChunks dir cat
  let start := (done.getLast?.map (·.stop)).getD 0
  (steps start (goal cats want cat).toNat MEASURE_CHUNK).map fun r => ⟨cat, r.1, r.2⟩

/-- The plan of a run. -/
def plan (cats : Categories ρ) (want : PyDict String Int) (dir : Dir ρ κ) : List Planned :=
  (cats.rows.keys.insertionSort (· ≤ ·)).flatMap (planCategory cats want dir)

/-! ## A run -/

/-- What becomes of one planned run: the process is killed while it writes the rows, before it removes
them again, or before it renames the child's output; or the child ends. A child may or may not have
left a file. -/
inductive Attempt (ρ κ : Type) where
  | killedSaving
  | killedMeasuring (part : Option (File ρ κ))
  | killedRemoved (part : Option (File ρ κ))
  | ended (rc : Nat) (part : Option (File ρ κ))

/-- What the child left is in its place. -/
def leave (dir : Dir ρ κ) (name : String) : Option (File ρ κ) → Dir ρ κ
  | none => dir
  | some file => dir.set name file

/-- The loop over the plan: the files, and what is returned, if the process gets that far. Where the
attempts run out it is killed before the next step. -/
def runPlan (cats : Categories ρ) (hess : List ρ) :
    List Planned → List (Attempt ρ κ) → Dir ρ κ → Dir ρ κ × Option Bool
  | [], _, dir => (dir, some true)
  | _ :: _, [], dir => (dir, none)
  | ⟨cat, a, b⟩ :: rest, attempt :: attempts, dir =>
    let input_ids := ((cats.available cat).drop a).take (b - a) ++ hess
    let saved := dir.set (rowsName cat a b) (.rows input_ids)
    match attempt with
    | .killedSaving => (dir.set (rowsName cat a b) .torn, none)
    | .killedMeasuring part => (leave saved (partName cat a b) part, none)
    | .killedRemoved part => ((leave saved (partName cat a b) part).pop (rowsName cat a b), none)
    | .ended rc part =>
      let dir := (leave saved (partName cat a b) part).pop (rowsName cat a b)
      match dir.get? (partName cat a b) with
      | none => (dir, some false)
      | some measured =>
        if rc ≠ 0 then (dir, some false)
        else
          -- `os.replace`
          let dir := (dir.pop (partName cat a b)).set (outName cat a b) measured
          runPlan cats hess rest attempts dir

/-- One run: the rows wanted, whether it gets to the plan (`some false` where it returns before, `none`
where it is killed before), and what becomes of what it planned. -/
structure Run (ρ κ : Type) where
  want : PyDict String Int
  setup : Option Bool
  attempts : List (Attempt ρ κ)

/-- `do_measure` -/
def doMeasure (cats : Categories ρ) (hess : List ρ) (dir : Dir ρ κ) (run : Run ρ κ) :
    Dir ρ κ × Option Bool :=
  match run.setup with
  | some true => runPlan cats hess (plan cats run.want dir) run.attempts dir
  | returned => (dir, returned)

/-- The files after a sequence of runs. -/
def afterRuns (cats : Categories ρ) (hess : List ρ) (runs : List (Run ρ κ)) : Dir ρ κ :=
  runs.foldl (fun dir run => (doMeasure cats hess dir run).1) .empty

/-! ## What is read back -/

/-- One tensor's levels, each extended by a chunk's rows. -/
def extendLevels : List (List κ) → List (List κ) → Except PyError (List (List κ))
  | lv, [] => .ok lv
  | [], _ :: _ => .error .index
  | l :: lv, kld_rows :: levels => do
    let rest ← extendLevels lv levels
    return (l ++ kld_rows) :: rest

/-- One tensor of a chunk. -/
def addResult (per : PyDict String (List (List κ))) (r : Result κ) :
    Except PyError (PyDict String (List (List κ))) := do
  let lv ← extendLevels ((per.get? r.key).getD (r.levels.map fun _ => [])) r.levels
  return per.set r.key lv

/-- One chunk: the template is the first, and every tensor's rows are added. -/
def addChunk (dir : Dir ρ κ) (acc : Option (Measurement κ) × PyDict String (List (List κ)))
    (chunk : Chunk) : Except PyError (Option (Measurement κ) × PyDict String (List (List κ))) :=
  match dir.get? chunk.file with
  | some (.json d) => do
    let per ← d.results.foldlM addResult acc.2
    return (acc.1.or (some d), per)
  | _ => .error (.value chunk.file)

/-- `{k: [l[:n] for l in lv] for k, lv in per.items()}`, where an `n` is given. -/
def firstRows (n : Option Nat) (per : PyDict String (List (List κ))) : PyDict String (List (List κ)) :=
  match n with
  | none => per
  | some n => per.mapValues fun lv => lv.map fun l => l.take n

/-- `category_klds` -/
def categoryKlds (dir : Dir ρ κ) (cat : String) (n : Option Nat) :
    Except PyError (Option (Measurement κ) × PyDict String (List (List κ))) := do
  let (tmpl, per) ← (categoryChunks dir cat).foldlM (addChunk dir) (none, .empty)
  return (tmpl, firstRows n per)

end VllmExl3.Measure
