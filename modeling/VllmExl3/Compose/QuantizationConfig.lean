/-
# VllmExl3.Compose.QuantizationConfig — the metadata beside the composed shards

`write_quantization_config` carries the base's `quantization_config.json` over: the entry of a module
taken from a donor is copied from the donor's file, a restored module's is written afresh, and
`head_bits`, `vision_bits` and the `composition` block are brought up to date, in that order. The
block is built last and from nothing, so what was noted in it before is gone
(`writeQuantizationConfig_spec`): a base whose vision modules are restored in part is described
without saying so, and `vision_bits` can outlive the modules it is about
(`write_quantization_config_describes_iff`).
-/
import VllmExl3.Compose.MovesWhole
import Mathlib.Data.Rat.Defs

namespace VllmExl3.Compose

open PyStr Names Format

/-! ## The file -/

/-- A value of a JSON document. -/
inductive Value where
  | null
  | bool (b : Bool)
  | number (v : ℚ)
  | str (s : String)
  | list (xs : List Value)
  | dict (items : List (String × Value))

/-- A bit width as the file writes it. -/
def Bits.value : Bits → Value
  | .int k => .number k
  | .half ka => .number (ka + 1 / 2)

/-- `quantization_config.json`: the fields the tool reads or changes, and the others. A
`tensor_storage` that is `null` counts as not there, which is how it is read. -/
structure QuantizationConfig where
  tensor_storage : Option (PyDict String Value)
  vision_bits : Option Value
  head_bits : Option Value
  codebook : Option Value
  composition : Option (PyDict String Value)
  others : PyDict String Value

/-- `{}` -/
def QuantizationConfig.empty : QuantizationConfig := ⟨none, none, none, none, none, .empty⟩

/-- `not qc` -/
def QuantizationConfig.isEmpty (qc : QuantizationConfig) : Bool :=
  qc.tensor_storage.isNone && qc.vision_bits.isNone && qc.head_bits.isNone && qc.codebook.isNone &&
    qc.composition.isNone && qc.others.items.isEmpty

/-- What `tensor_storage` says of a module. -/
def QuantizationConfig.entry (qc : QuantizationConfig) (mod : String) : Option Value :=
  qc.tensor_storage.bind (·.get? mod)

/-- `load_qc`, for a `json.load` of such files. -/
def loadQc (loads : Bytes → Option QuantizationConfig) (disk : Disk) (d : String) :
    Except Exit QuantizationConfig :=
  match (disk d).bind (·.get? "quantization_config.json") with
  | none => .ok .empty
  | some file => match loads file with
    | some qc => .ok qc
    | none => .error (.unreadable (ShardPath.str ⟨d, "quantization_config.json"⟩))

/-! ## Modules taken -/

/-- `sorted(moves.items())` -/
def sortedItems (moves : PyDict String String) : List (String × String) :=
  moves.items.insertionSort fun p q => p.1 ≤ q.1

/-- One taken module: the map, where there is one, and the number of unlisted modules so far. -/
def assignStep (load_qc : String → Except Exit QuantizationConfig)
    (acc : Option (PyDict String Value) × Nat) (move : String × String) :
    Except Exit (Option (PyDict String Value) × Nat) := do
  let (ts, moved_unlisted) := acc
  let (mod, donor_dir) := move
  let donor_qc ← load_qc donor_dir
  let dts := donor_qc.tensor_storage.getD .empty
  match ts with
  | none => return acc
  | some ts => match dts.get? mod with
    | some entry => return (some (ts.set mod entry), moved_unlisted)
    | none =>
      if ts.contains mod then return (some (ts.pop mod), moved_unlisted + 1)
      else return (some ts, moved_unlisted + 1)

/-! ## Modules restored -/

/-- `_DTYPE_BYTES` -/
def DTYPE_BYTES : PyDict String Nat :=
  .ofList [("BF16", 2), ("F16", 2), ("F32", 4), ("F64", 8), ("I8", 1), ("U8", 1), ("I16", 2),
    ("I32", 4), ("I64", 8), ("BOOL", 1), ("F8_E4M3", 1), ("F8_E5M2", 1)]

/-- The dtype as torch names it. -/
def torchDtype (dtype : String) : String :=
  "torch." ++ replace (replace (replace (lower dtype) "bf16" "bfloat16") "f16" "float16") "f32"
    "float32"

example : torchDtype "BF16" = "torch.bfloat16" := by decide +kernel
example : torchDtype "F16" = "torch.float16" := by decide +kernel

/-- How a checkpoint describes a dense tensor of its own. -/
def storedTensor (info : TensorInfo) : Value :=
  .dict [("shape", .list (info.shape.map fun n => .number n)),
    ("n_bytes", .number (info.shape.prod * (DTYPE_BYTES.get? info.dtype).getD 2)),
    ("dtype", .str (torchDtype info.dtype))]

/-- The entry of a module stored as these tensors. -/
def denseEntry (stored_tensors : PyDict String Value) : Value :=
  .dict [("stored_tensors", .dict stored_tensors.items)]

/-- The dense tensors of a restored module. -/
def storedTensors (d : Donor) (names : List String) : Except Exit (PyDict String Value) :=
  (names.filter isDense).foldlM (fun entry name => do
    let info ← item d.tensors name
    return entry.set name (storedTensor info)) .empty

/-- The loop over `restore`. -/
def restoreEntries (donors : PyDict String Donor) :
    List (String × String) → Option (PyDict String Value) → Except Exit (Option (PyDict String Value))
  | [], ts => .ok ts
  | (mod, donor_dir) :: rest, ts => do
    let d ← item donors donor_dir
    match ts with
    | none => return none
    | some ts =>
      let names ← item d.tensors.modules mod
      let entry ← storedTensors d names
      let ts := ts.pop mod
      restoreEntries donors rest
        (some (if entry.items.isEmpty then ts else ts.set mod (denseEntry entry)))

/-! ## The other fields -/

/-- `_CATEGORY["vision"]` -/
def isVision (env : Env) (mod : String) : Bool := ((CATEGORY env "vision").map (· mod)).getD false

/-- `_CATEGORY["head"]`, which the function spells out. -/
def isHead (mod : String) : Bool := mod = "lm_head" || endswith mod ".lm_head"

/-- `quant_after` -/
def quantAfter (base_t : Tensors) (restore : PyDict String String) : List String :=
  quantizedModuleKeys (base_t.keys.filter fun n => !restore.contains (moduleKey n))

/-- `vision_bits` goes with the last quantized vision module; before that it is noted as partial. -/
def visionBits (env : Env) (restore : PyDict String String) (base_quant_after : List String)
    (qc : QuantizationConfig) : QuantizationConfig :=
  if !restore.items.isEmpty && qc.vision_bits.isSome then
    let left := base_quant_after.filter (isVision env)
    let composition := qc.composition.getD .empty
    if left.isEmpty then { qc with vision_bits := none }
    else { qc with composition := composition.set "vision_bits_partial" (.number left.length) }
  else qc

/-- One tensor of the head's. -/
def headTensor (d : Donor) (qc : QuantizationConfig) (name : String) :
    Except Exit QuantizationConfig := do
  let info ← item d.tensors name
  match bitsFromTrellisShape info.shape none with
  | .ok bits => return { qc with head_bits := some (Bits.value bits) }
  | .error err => .error (.raised err)

/-- `head_bits` is that of the first taken head, in the order the rules took them. -/
def headBits (donors : PyDict String Donor) (assign : PyDict String String)
    (qc : QuantizationConfig) : Except Exit QuantizationConfig :=
  match assign.keys.find? isHead with
  | none => .ok qc
  | some head => do
    let dir ← item assign head
    let d ← item donors dir
    let names ← item d.tensors.modules head
    (names.filter fun name => endswith name ".trellis").foldlM (headTensor d) qc

/-- What the command line says: the base, also as `os.path.abspath` gives it, and the rules. -/
structure Args where
  base : String
  abspath : String
  rules : List (String × String)

/-- The `composition` block. -/
def compositionBlock (args : Args) (assign restore : PyDict String String)
    (versions : PyDict String Value) (codebook : Bool) (moved_unlisted : Nat) :
    PyDict String Value :=
  let block := PyDict.ofList [
    ("tool", .str "vllm-exl3-plugin tools/compose_checkpoint.py"),
    ("base", .str args.abspath),
    ("rules", .list (args.rules.map fun r => .str ("--" ++ r.1 ++ " " ++ r.2))),
    ("modules_replaced", .number assign.items.length),
    ("modules_restored_to_dense", .number restore.items.length),
    ("source_versions", .dict versions.items),
    ("stale", .list (.str "bits" :: if codebook then [.str "codebook"] else [])),
    ("note", .str ("bits is inherited from the base and no longer describes this file; " ++
      "per-module tensor_storage entries follow their modules."))]
  if moved_unlisted = 0 then block
  else block.set "modules_not_in_tensor_storage" (.number moved_unlisted)

/-- `write_quantization_config`: what is written, or nothing where the base has no such file. -/
def writeQuantizationConfig (env : Env) (load_qc : String → Except Exit QuantizationConfig)
    (args : Args) (donors : PyDict String Donor) (assign restore : PyDict String String)
    (versions : PyDict String Value) (base_quant_after : List String) :
    Except Exit (Option QuantizationConfig) := do
  let qc ← load_qc args.base
  if qc.isEmpty then return none
  let (ts, moved_unlisted) ← (sortedItems assign).foldlM (assignStep load_qc) (qc.tensor_storage, 0)
  let ts ← restoreEntries donors (sortedItems restore) ts
  let qc := visionBits env restore base_quant_after { qc with tensor_storage := ts }
  let qc ← headBits donors assign qc
  let composition :=
    compositionBlock args assign restore versions qc.codebook.isSome moved_unlisted
  return some { qc with composition }

/-! ## What the output holds -/

/-- The tensor the output stores under a name: a taken module's is the donor's, a restored one's the
donor's where it is dense, any other the base's. -/
def composed (base_t : Tensors) (donors : PyDict String Donor) (assign restore : PyDict String String)
    (name : String) : Option TensorInfo :=
  match assign.get? (moduleKey name), restore.get? (moduleKey name) with
  | some dir, _ => (donors.get? dir).bind (·.tensors.get? name)
  | none, some dir => if isDense name then (donors.get? dir).bind (·.tensors.get? name) else none
  | none, none => base_t.get? name

/-- The output's tensors. -/
def outputNames (base_t : Tensors) (donors : PyDict String Donor)
    (assign restore : PyDict String String) : List String :=
  (base_t.keys ++ donors.values.flatMap (·.tensors.keys)).dedup.filter fun name =>
    (composed base_t donors assign restore name).isSome

/-- The output's quantized modules. -/
def outputQuantized (base_t : Tensors) (donors : PyDict String Donor)
    (assign restore : PyDict String String) : List String :=
  quantizedModuleKeys (outputNames base_t donors assign restore)

/-- Each module's entry is that of what the output stores of it: a taken module's is its donor's or
none, a restored one's lists the dense tensors that came or is none, any other is the base's. -/
structure EntriesFollow (load_qc : String → Except Exit QuantizationConfig)
    (donors : PyDict String Donor) (assign restore : PyDict String String)
    (qc qc' : QuantizationConfig) : Prop where
  taken : ∀ mod dir, assign.get? mod = some dir → qc'.entry mod = none ∨
    ∃ donor_qc, load_qc dir = .ok donor_qc ∧ qc'.entry mod = donor_qc.entry mod
  restored : ∀ mod dir d, restore.get? mod = some dir → donors.get? dir = some d →
    qc'.entry mod = none ∨ ∃ stored_tensors, qc'.entry mod = some (denseEntry stored_tensors) ∧
      ∀ name v, stored_tensors.get? name = some v ↔ isDense name = true ∧ moduleKey name = mod ∧
        ∃ info, d.tensors.get? name = some info ∧ v = storedTensor info
  kept : ∀ mod, assign.get? mod = none → restore.get? mod = none → qc'.entry mod = qc.entry mod

/-- The metadata describes the output: each module's entry, the width of a taken head, and which vision
modules are quantized. -/
structure Describes (env : Env) (load_qc : String → Except Exit QuantizationConfig)
    (base_t : Tensors) (donors : PyDict String Donor) (assign restore : PyDict String String)
    (qc qc' : QuantizationConfig) : Prop
    extends EntriesFollow load_qc donors assign restore qc qc' where
  head_bits : ∀ head ∈ assign.keys, isHead head = true → ∀ info bits,
    composed base_t donors assign restore (head ++ ".trellis") = some info →
    bitsFromTrellisShape info.shape none = .ok bits → qc'.head_bits = some (Bits.value bits)
  vision_bits : qc'.vision_bits.isSome →
    ∃ mod ∈ outputQuantized base_t donors assign restore, isVision env mod = true
  vision_partial : (∃ mod ∈ restore.keys, isVision env mod = true) →
    (∃ mod ∈ outputQuantized base_t donors assign restore, isVision env mod = true) →
    (qc'.composition.getD .empty).get? "vision_bits_partial" = some (.number
      ((outputQuantized base_t donors assign restore).filter (isVision env)).length)

/-! ## When it does -/

/-- The width of the trellis a donor has for a taken head. -/
def takenWidth (donors : PyDict String Donor) (assign : PyDict String String) (head : String) :
    Option Bits := do
  let dir ← assign.get? head
  let d ← donors.get? dir
  let info ← d.tensors.get? (head ++ ".trellis")
  (bitsFromTrellisShape info.shape none).toOption

/-- That of the first taken head. -/
def headWidth (donors : PyDict String Donor) (assign : PyDict String String) : Option Value :=
  ((assign.keys.find? isHead).bind (takenWidth donors assign)).map Bits.value

/-- A quantized vision module stays: one taken from a donor that has it quantized, or one of the
base's that is neither taken nor restored. -/
def VisionStays (env : Env) (base_t : Tensors) (donors : PyDict String Donor)
    (assign restore : PyDict String String) : Prop :=
  (∃ mod dir d, assign.get? mod = some dir ∧ donors.get? dir = some d ∧ mod ∈ d.tensors.quantized ∧
    isVision env mod = true) ∨
  ∃ mod ∈ base_t.quantized, assign.get? mod = none ∧ restore.get? mod = none ∧
    isVision env mod = true

/-- The condition. Of the taken heads that have a trellis, each has the width of the first taken one,
or, where that one has no trellis, the width the base's `head_bits` gives. No quantized vision module
stays beside a restored one. Where the base gives `vision_bits`, a quantized vision module stays,
unless modules are restored and every quantized vision module of the base is among them. -/
structure DescribedWhen (env : Env) (base_t : Tensors) (donors : PyDict String Donor)
    (assign restore : PyDict String String) (qc : QuantizationConfig) : Prop where
  heads : ∀ head ∈ assign.keys, isHead head = true → ∀ bits,
    takenWidth donors assign head = some bits →
    (headWidth donors assign).or qc.head_bits = some (Bits.value bits)
  vision : (∃ mod ∈ restore.keys, isVision env mod = true) →
    ¬VisionStays env base_t donors assign restore
  vision_bits : qc.vision_bits.isSome →
    VisionStays env base_t donors assign restore ∨ restore.items ≠ [] ∧
      ∀ mod ∈ base_t.quantized, isVision env mod = true → (restore.get? mod).isSome

variable {env : Env} {load_qc : String → Except Exit QuantizationConfig} {json : Json} {disk : Disk}
  {base : String} {args : Args} {base_t : Tensors} {donors : PyDict String Donor}
  {assign restore : PyDict String String} {versions : PyDict String Value} {out : Dir}
  {qc qc' : QuantizationConfig} {name mod dir : String} {ts : PyDict String Value} {st : Stored}
  {moves : List (String × String)} {moved_unlisted : Nat}

/-! ## The output's tensors -/

theorem composed_taken (h : assign.get? (moduleKey name) = some dir) :
    composed base_t donors assign restore name = (donors.get? dir).bind (·.tensors.get? name) := by
  rw [composed, h]

theorem composed_restored (h : assign.get? (moduleKey name) = none)
    (h' : restore.get? (moduleKey name) = some dir) :
    composed base_t donors assign restore name =
      if isDense name then (donors.get? dir).bind (·.tensors.get? name) else none := by
  rw [composed, h, h']

theorem composed_kept (h : assign.get? (moduleKey name) = none)
    (h' : restore.get? (moduleKey name) = none) :
    composed base_t donors assign restore name = base_t.get? name := by
  rw [composed, h, h']

/-- Where modules moved whole, the output's files store these tensors. -/
theorem MovesWhole.holds_iff_composed (h : MovesWhole json disk base base_t donors assign restore out)
    (hassign : ∀ mod dir, assign.get? mod = some dir → (donors.get? dir).isSome)
    (hrestore : ∀ mod dir, restore.get? mod = some dir → (donors.get? dir).isSome) :
    (∃ shard, Holds json out shard name st) ↔ ∃ info,
      composed base_t donors assign restore name = some info ∧
        tensorIn json (disk.file info.path) name = some st := by
  cases hmod : assign.get? (moduleKey name) with
  | some dir =>
    obtain ⟨d, hd⟩ := Option.isSome_iff_exists.mp (hassign _ _ hmod)
    rw [h.taken _ dir d hmod hd name rfl, Tensors.stored, Option.bind_eq_some_iff,
      composed_taken hmod, hd]
    rfl
  | none =>
    cases hmod' : restore.get? (moduleKey name) with
    | some dir =>
      obtain ⟨d, hd⟩ := Option.isSome_iff_exists.mp (hrestore _ _ hmod')
      rw [h.restored _ dir d hmod' hd name rfl, Tensors.stored, Option.bind_eq_some_iff,
        composed_restored hmod hmod', hd]
      cases isDense name <;> simp
    | none =>
      rw [h.kept name hmod hmod', Tensors.stored, Option.bind_eq_some_iff, composed_kept hmod hmod']

theorem mem_outputNames : name ∈ outputNames base_t donors assign restore ↔
    (composed base_t donors assign restore name).isSome := by
  rw [outputNames, List.mem_filter, and_iff_right_of_imp]
  intro hsome
  obtain ⟨info, hinfo⟩ := Option.isSome_iff_exists.mp hsome
  have hdonor : ∀ dir, (donors.get? dir).bind (·.tensors.get? name) = some info →
      ∃ d ∈ donors.values, name ∈ d.tensors.keys := by
    intro dir hdir
    obtain ⟨d, hd, hname⟩ := Option.bind_eq_some_iff.mp hdir
    exact ⟨d, List.mem_map_of_mem (PyDict.get?_eq_some_iff.mp hd), PyDict.mem_keys_of_get? hname⟩
  rw [List.mem_dedup, List.mem_append, List.mem_flatMap]
  unfold composed at hinfo
  split at hinfo
  · next dir _ => exact .inr (hdonor dir hinfo)
  · next dir _ _ =>
    split_ifs at hinfo
    exact .inr (hdonor dir hinfo)
  · exact .inl (PyDict.mem_keys_of_get? hinfo)

@[simp] theorem moduleKey_trellis (mod : String) : moduleKey (mod ++ ".trellis") = mod := by
  have hfind : GROUPING_SUFFIXES.find? (fun suffix => endswith (mod ++ ".trellis") suffix) =
      some ".trellis" := by
    show List.find? _ (".trellis" :: _) = _
    rw [List.find?_cons_of_pos]
    exact endswith_append mod ".trellis"
  rw [moduleKey, hfind]
  exact dropEnd_append mod ".trellis"

/-- A trellis is not dense. -/
theorem isDense_trellis (mod : String) : isDense (mod ++ ".trellis") = false := by
  have hends := endswith_append mod ".trellis"
  have hweight : endswith (mod ++ ".trellis") ".weight" = false := not_endswith hends (by decide)
  have hbias : endswith (mod ++ ".trellis") ".bias" = false := not_endswith hends (by decide)
  rw [isDense, hweight, hbias]
  rfl

/-- The output's quantized modules are the donors' and the base's; of a restored one no trellis is
left. -/
theorem mem_outputQuantized : mod ∈ outputQuantized base_t donors assign restore ↔
    (∃ dir d, assign.get? mod = some dir ∧ donors.get? dir = some d ∧ mod ∈ d.tensors.quantized) ∨
      mod ∈ base_t.quantized ∧ assign.get? mod = none ∧ restore.get? mod = none := by
  rw [outputQuantized, mem_quantizedModuleKeys, mem_outputNames]
  simp only [Tensors.quantized, mem_quantizedModuleKeys]
  cases hassign : assign.get? mod with
  | some dir =>
    rw [composed_taken (by rw [moduleKey_trellis, hassign])]
    cases hd : donors.get? dir with
    | none => simp [hd]
    | some d => simp [hd, PyDict.isSome_get?_iff]
  | none =>
    cases hrestore : restore.get? mod with
    | some dir =>
      rw [composed_restored (by rw [moduleKey_trellis, hassign])
        (by rw [moduleKey_trellis, hrestore]), isDense_trellis]
      simp
    | none =>
      rw [composed_kept (by rw [moduleKey_trellis, hassign]) (by rw [moduleKey_trellis, hrestore])]
      simp [PyDict.isSome_get?_iff]

theorem visionStays_iff : (∃ mod ∈ outputQuantized base_t donors assign restore,
    isVision env mod = true) ↔ VisionStays env base_t donors assign restore := by
  simp only [mem_outputQuantized, VisionStays]
  constructor
  · rintro ⟨mod, ⟨dir, d, hdir, hd, hmod⟩ | ⟨hmod, hassign, hrestore⟩, hvision⟩
    · exact .inl ⟨mod, dir, d, hdir, hd, hmod, hvision⟩
    · exact .inr ⟨mod, hmod, hassign, hrestore, hvision⟩
  · rintro (⟨mod, dir, d, hdir, hd, hmod, hvision⟩ | ⟨mod, hmod, hassign, hrestore, hvision⟩)
    · exact ⟨mod, .inl ⟨dir, d, hdir, hd, hmod⟩, hvision⟩
    · exact ⟨mod, .inr ⟨hmod, hassign, hrestore⟩, hvision⟩

/-! ## The map of entries -/

theorem mem_sortedItems {d : PyDict String String} : (mod, dir) ∈ sortedItems d ↔
    d.get? mod = some dir := by
  rw [sortedItems, List.mem_insertionSort, PyDict.get?_eq_some_iff]

theorem nodup_sortedItems (d : PyDict String String) : ((sortedItems d).map Prod.fst).Nodup :=
  (((List.perm_insertionSort _ d.items).map Prod.fst).nodup_iff).mpr d.nodup

theorem mem_sortedItems_fst {d : PyDict String String} :
    mod ∈ (sortedItems d).map Prod.fst ↔ (d.get? mod).isSome := by
  rw [List.mem_map, Option.isSome_iff_exists]
  constructor
  · rintro ⟨⟨mod', dir⟩, hmem, rfl⟩
    exact ⟨dir, mem_sortedItems.mp hmem⟩
  · rintro ⟨dir, hdir⟩
    exact ⟨(mod, dir), mem_sortedItems.mpr hdir, rfl⟩

/-- A taken module's entry becomes the donor's, or goes. -/
theorem assignStep_spec {acc : Option (PyDict String Value) × Nat}
    (h : assignStep load_qc (some ts, moved_unlisted) (mod, dir) = .ok acc) :
    ∃ donor_qc ts', load_qc dir = .ok donor_qc ∧ acc.1 = some ts' ∧
      ∀ a, ts'.get? a = if a = mod then donor_qc.entry mod else ts.get? a := by
  obtain ⟨donor_qc, hload, h⟩ := bind_eq_ok h
  have hentry : (donor_qc.tensor_storage.getD .empty).get? mod = donor_qc.entry mod := by
    rw [QuantizationConfig.entry]
    cases donor_qc.tensor_storage <;> rfl
  refine ⟨donor_qc, ?_⟩
  dsimp only at h
  rw [hentry] at h
  cases hdonor : donor_qc.entry mod with
  | some entry =>
    rw [hdonor] at h
    obtain rfl := Except.ok.inj h
    exact ⟨_, hload, rfl, fun a => PyDict.get?_set ts mod a entry⟩
  | none =>
    rw [hdonor] at h
    dsimp only at h
    split_ifs at h with hlisted
    · obtain rfl := Except.ok.inj h
      exact ⟨_, hload, rfl, fun a => PyDict.get?_pop ts mod a⟩
    · obtain rfl := Except.ok.inj h
      refine ⟨_, hload, rfl, fun a => ?_⟩
      split_ifs with ha
      · rw [ha, PyDict.get?_eq_none_iff]
        simpa using hlisted
      · rfl

/-- The loop over `assign`: every taken module has its donor's entry or none, every other its own. -/
theorem assignFold_spec {acc : Option (PyDict String Value) × Nat}
    (hkeys : (moves.map Prod.fst).Nodup)
    (h : moves.foldlM (assignStep load_qc) (some ts, moved_unlisted) = .ok acc) :
    ∃ ts', acc.1 = some ts' ∧ (∀ mod ∉ moves.map Prod.fst, ts'.get? mod = ts.get? mod) ∧
      ∀ mod dir, (mod, dir) ∈ moves →
        ∃ donor_qc, load_qc dir = .ok donor_qc ∧ ts'.get? mod = donor_qc.entry mod := by
  induction moves generalizing ts moved_unlisted with
  | nil =>
    obtain rfl := Except.ok.inj h
    exact ⟨ts, rfl, fun _ _ => rfl, fun _ _ hmem => absurd hmem List.not_mem_nil⟩
  | cons move rest ih =>
    obtain ⟨mod, dir⟩ := move
    rw [List.foldlM_cons] at h
    obtain ⟨acc', hstep, h⟩ := bind_eq_ok h
    obtain ⟨donor_qc, ts₁, hload, hacc, hget⟩ := assignStep_spec hstep
    obtain ⟨_, moved'⟩ := acc'
    obtain rfl : _ = some ts₁ := hacc
    rw [List.map_cons, List.nodup_cons] at hkeys
    obtain ⟨ts', hts', hother, hself⟩ := ih hkeys.2 h
    refine ⟨ts', hts', ?_, ?_⟩
    · intro a ha
      rw [List.map_cons, List.mem_cons, not_or] at ha
      rw [hother a ha.2, hget, if_neg ha.1]
    · intro a d hmem
      rcases List.mem_cons.mp hmem with heq | hmem
      · obtain ⟨rfl, rfl⟩ := Prod.mk.inj heq
        refine ⟨donor_qc, hload, ?_⟩
        rw [hother _ hkeys.1, hget, if_pos rfl]
      · exact hself a d hmem

/-- Without a map there is none after the loop. -/
theorem assignFold_none {acc : Option (PyDict String Value) × Nat}
    (h : moves.foldlM (assignStep load_qc) (none, moved_unlisted) = .ok acc) : acc.1 = none := by
  induction moves generalizing moved_unlisted with
  | nil =>
    obtain rfl := Except.ok.inj h
    rfl
  | cons move rest ih =>
    rw [List.foldlM_cons] at h
    obtain ⟨acc', hstep, h⟩ := bind_eq_ok h
    obtain ⟨donor_qc, -, hstep⟩ := bind_eq_ok hstep
    obtain rfl := Except.ok.inj hstep
    exact ih h

/-- The loop over a module's dense tensors. -/
theorem storedTensors_fold {d : Donor} {names : List String} {entry entry' : PyDict String Value}
    (h : names.foldlM (fun entry name => do
      let info ← item d.tensors name
      return entry.set name (storedTensor info)) entry = .ok entry') (name : String) :
    entry'.get? name = if name ∈ names then (d.tensors.get? name).map storedTensor
      else entry.get? name := by
  induction names generalizing entry with
  | nil =>
    obtain rfl := Except.ok.inj h
    rfl
  | cons n rest ih =>
    rw [List.foldlM_cons] at h
    obtain ⟨entry₁, hstep, h⟩ := bind_eq_ok h
    obtain ⟨info, hinfo, hstep⟩ := bind_eq_ok hstep
    rw [item_eq_ok] at hinfo
    obtain rfl := Except.ok.inj hstep
    rw [ih h, PyDict.get?_set]
    by_cases hrest : name ∈ rest
    · simp [hrest]
    · by_cases hn : name = n
      · subst hn
        simp [hrest, hinfo]
      · simp [hrest, hn]

/-- The entry says what a dense tensor of the donor's is, for each that travels. -/
theorem storedTensors_spec {d : Donor} {names : List String} {stored_tensors : PyDict String Value}
    (hnames : d.tensors.modules.get? mod = some names)
    (h : storedTensors d names = .ok stored_tensors) (name : String) (v : Value) :
    stored_tensors.get? name = some v ↔ isDense name = true ∧ moduleKey name = mod ∧
      ∃ info, d.tensors.get? name = some info ∧ v = storedTensor info := by
  rw [storedTensors_fold h name]
  simp only [List.mem_filter, mem_group hnames, PyDict.get?_empty]
  constructor
  · intro hget
    split_ifs at hget with hmem
    obtain ⟨info, hinfo, rfl⟩ := Option.map_eq_some_iff.mp hget
    exact ⟨hmem.2, hmem.1.2, info, hinfo, rfl⟩
  · rintro ⟨hdense, hmod, info, hinfo, rfl⟩
    rw [if_pos ⟨⟨PyDict.mem_keys_of_get? hinfo, hmod⟩, hdense⟩, hinfo]
    rfl

/-- The loop over `restore`: every restored module has a dense entry or none, every other its own. -/
theorem restoreEntries_spec {r : Option (PyDict String Value)} (hkeys : (moves.map Prod.fst).Nodup)
    (h : restoreEntries donors moves (some ts) = .ok r) :
    ∃ ts', r = some ts' ∧ (∀ mod ∉ moves.map Prod.fst, ts'.get? mod = ts.get? mod) ∧
      ∀ mod dir, (mod, dir) ∈ moves → ∀ d, donors.get? dir = some d →
        ts'.get? mod = none ∨ ∃ stored_tensors, ts'.get? mod = some (denseEntry stored_tensors) ∧
          ∀ name v, stored_tensors.get? name = some v ↔ isDense name = true ∧ moduleKey name = mod ∧
            ∃ info, d.tensors.get? name = some info ∧ v = storedTensor info := by
  induction moves generalizing ts with
  | nil =>
    obtain rfl := Except.ok.inj h
    exact ⟨ts, rfl, fun _ _ => rfl, fun _ _ hmem => absurd hmem List.not_mem_nil⟩
  | cons move rest ih =>
    obtain ⟨mod, dir⟩ := move
    obtain ⟨d, hd, h⟩ := bind_eq_ok h
    obtain ⟨names, hnames, h⟩ := bind_eq_ok h
    obtain ⟨stored_tensors, hstored, h⟩ := bind_eq_ok h
    rw [item_eq_ok] at hd hnames
    rw [List.map_cons, List.nodup_cons] at hkeys
    obtain ⟨ts', hr, hother, hself⟩ := ih hkeys.2 h
    refine ⟨ts', hr, ?_, ?_⟩
    · intro a ha
      rw [List.map_cons, List.mem_cons, not_or] at ha
      rw [hother a ha.2]
      split_ifs
      · rw [PyDict.get?_pop, if_neg ha.1]
      · rw [PyDict.get?_set_ne _ _ ha.1, PyDict.get?_pop, if_neg ha.1]
    · intro a donor_dir hmem d' hd'
      rcases List.mem_cons.mp hmem with heq | hmem
      · obtain ⟨rfl, rfl⟩ := Prod.mk.inj heq
        obtain rfl := Option.some.inj (hd.symm.trans hd')
        rw [hother _ hkeys.1]
        split_ifs
        · rw [PyDict.get?_pop, if_pos rfl]
          exact .inl rfl
        · rw [PyDict.get?_set_self]
          exact .inr ⟨stored_tensors, rfl, storedTensors_spec hnames hstored⟩
      · exact hself a donor_dir hmem d' hd'

theorem restoreEntries_none {r : Option (PyDict String Value)}
    (h : restoreEntries donors moves none = .ok r) : r = none := by
  cases moves with
  | nil => exact (Except.ok.inj h).symm
  | cons move rest =>
    obtain ⟨d, -, h⟩ := bind_eq_ok h
    exact (Except.ok.inj h).symm

/-! ## The other fields -/

@[simp] theorem tensor_storage_visionBits (left : List String) :
    (visionBits env restore left qc).tensor_storage = qc.tensor_storage := by
  unfold visionBits
  dsimp only
  split_ifs <;> rfl

@[simp] theorem head_bits_visionBits (left : List String) :
    (visionBits env restore left qc).head_bits = qc.head_bits := by
  unfold visionBits
  dsimp only
  split_ifs <;> rfl

/-- `vision_bits` goes when something is restored and no vision module among the given ones is left. -/
theorem isSome_visionBits (left : List String) :
    (visionBits env restore left qc).vision_bits.isSome = true ↔ qc.vision_bits.isSome = true ∧
      (restore.items = [] ∨ ∃ mod ∈ left, isVision env mod = true) := by
  unfold visionBits
  dsimp only
  split_ifs with hnoted hleft
  · have hnone : ¬∃ mod ∈ left, isVision env mod = true := by
      simpa [List.filter_eq_nil_iff] using hleft
    simp only [Bool.and_eq_true, Bool.not_eq_true', List.isEmpty_eq_false_iff] at hnoted
    simp [hnoted.1, hnone]
  · have hsome : ∃ mod ∈ left, isVision env mod = true := by
      simpa [List.filter_eq_nil_iff] using hleft
    simp [hsome]
  · cases hrestore : restore.items with
    | nil => simp
    | cons p rest =>
      have hnone : qc.vision_bits.isSome = false := by simpa [hrestore] using hnoted
      simp [hnone]

/-- The loop over a head's tensors, where only one of them is a trellis. -/
theorem headTensor_fold {d : Donor} {names : List String} (hnames : ∀ n ∈ names, n = name)
    (h : names.foldlM (headTensor d) qc = .ok qc') :
    names = [] ∧ qc' = qc ∨ ∃ info bits, d.tensors.get? name = some info ∧
      bitsFromTrellisShape info.shape none = .ok bits ∧
      qc' = { qc with head_bits := some (Bits.value bits) } := by
  induction names generalizing qc with
  | nil => exact .inl ⟨rfl, (Except.ok.inj h).symm⟩
  | cons n rest ih =>
    obtain rfl := hnames n List.mem_cons_self
    rw [List.foldlM_cons] at h
    obtain ⟨qc₁, hstep, h⟩ := bind_eq_ok h
    obtain ⟨info, hinfo, hstep⟩ := bind_eq_ok hstep
    rw [item_eq_ok] at hinfo
    cases hbits : bitsFromTrellisShape info.shape none with
    | error err =>
      rw [hbits] at hstep
      cases hstep
    | ok bits =>
      rw [hbits] at hstep
      obtain rfl := Except.ok.inj hstep
      refine .inr ⟨info, bits, hinfo, hbits, ?_⟩
      rcases ih (fun m hm => hnames m (List.mem_cons_of_mem n hm)) h with
        ⟨-, rfl⟩ | ⟨info', bits', hinfo', hbits', rfl⟩
      · rfl
      · obtain rfl := Option.some.inj (hinfo.symm.trans hinfo')
        obtain rfl := Except.ok.inj (hbits.symm.trans hbits')
        rfl

/-- `head_bits` becomes the width of the first taken head, where it has a trellis. -/
theorem headBits_spec (h : headBits donors assign qc = .ok qc') :
    qc' = { qc with head_bits := (headWidth donors assign).or qc.head_bits } := by
  unfold headBits at h
  rw [headWidth]
  cases hhead : assign.keys.find? isHead with
  | none =>
    rw [hhead] at h
    exact (Except.ok.inj h).symm
  | some head =>
    rw [hhead] at h
    obtain ⟨dir, hdir, h⟩ := bind_eq_ok h
    obtain ⟨d, hd, h⟩ := bind_eq_ok h
    obtain ⟨names, hnames, h⟩ := bind_eq_ok h
    rw [item_eq_ok] at hdir hd hnames
    -- the only trellis of the module is its own
    have honly : ∀ n ∈ names.filter fun name => endswith name ".trellis", n = head ++ ".trellis" := by
      intro n hn
      obtain ⟨hmem, hends⟩ := List.mem_filter.mp hn
      obtain ⟨stem, rfl⟩ := endswith_iff.mp hends
      have hmod := ((mem_group hnames).mp hmem).2
      rw [moduleKey_trellis] at hmod
      rw [hmod]
    have hwidth : takenWidth donors assign head = (d.tensors.get? (head ++ ".trellis")).bind
        fun info => (bitsFromTrellisShape info.shape none).toOption := by
      rw [takenWidth, hdir]
      show (donors.get? dir >>= _) = _
      rw [hd]
      rfl
    rw [Option.bind_some, hwidth]
    rcases headTensor_fold honly h with ⟨hnil, rfl⟩ | ⟨info, bits, hinfo, hbits, rfl⟩
    · have hnone : d.tensors.get? (head ++ ".trellis") = none := by
        rw [PyDict.get?_eq_none_iff]
        intro hmem
        have hin := (mem_group hnames).mpr ⟨hmem, moduleKey_trellis head⟩
        have : head ++ ".trellis" ∈ names.filter fun name => endswith name ".trellis" :=
          List.mem_filter.mpr ⟨hin, endswith_append head ".trellis"⟩
        rw [hnil] at this
        exact absurd this List.not_mem_nil
      rw [hnone]
      rfl
    · rw [hinfo, Option.bind_some, hbits]
      rfl

/-- The block that is written notes nothing of the vision modules. -/
theorem compositionBlock_partial (codebook : Bool) :
    (compositionBlock args assign restore versions codebook moved_unlisted).get?
      "vision_bits_partial" = none := by
  unfold compositionBlock
  dsimp only
  by_cases hlisted : moved_unlisted = 0
  · rw [if_pos hlisted, PyDict.get?_eq_none_iff, PyDict.mem_keys_ofList]
    simp
  · rw [if_neg hlisted, PyDict.get?_set_ne _ _ (by decide), PyDict.get?_eq_none_iff,
      PyDict.mem_keys_ofList]
    simp

/-! ## What is written -/

/-- The written file beside the base's: the entries follow their modules, `head_bits` is that of the
first taken head, `vision_bits` goes where something is restored and no vision module of the base is
left, and the `composition` block is the new one. -/
structure Updated (env : Env) (load_qc : String → Except Exit QuantizationConfig)
    (donors : PyDict String Donor) (assign restore : PyDict String String) (left : List String)
    (qc qc' : QuantizationConfig) : Prop
    extends EntriesFollow load_qc donors assign restore qc qc' where
  head_bits : qc'.head_bits = (headWidth donors assign).or qc.head_bits
  vision_bits : qc'.vision_bits.isSome = true ↔ qc.vision_bits.isSome = true ∧
    (restore.items = [] ∨ ∃ mod ∈ left, isVision env mod = true)
  no_partial : (qc'.composition.getD .empty).get? "vision_bits_partial" = none

/-- What the two loops leave of the map of entries. -/
theorem entriesFollow {acc : Option (PyDict String Value) × Nat}
    {r : Option (PyDict String Value)}
    (hdisjoint : ∀ mod, assign.get? mod = none ∨ restore.get? mod = none)
    (hassign : (sortedItems assign).foldlM (assignStep load_qc) (qc.tensor_storage, 0) = .ok acc)
    (hrestore : restoreEntries donors (sortedItems restore) acc.1 = .ok r)
    (hqc' : qc'.tensor_storage = r) : EntriesFollow load_qc donors assign restore qc qc' := by
  have hentry : ∀ mod, qc'.entry mod = r.bind (·.get? mod) := by
    intro mod
    rw [QuantizationConfig.entry, hqc']
  cases hts : qc.tensor_storage with
  | none =>
    rw [hts] at hassign
    rw [assignFold_none hassign] at hrestore
    obtain rfl := restoreEntries_none hrestore
    refine ⟨fun mod _ _ => .inl (hentry mod), fun mod _ _ _ _ => .inl (hentry mod),
      fun mod _ _ => ?_⟩
    rw [hentry, QuantizationConfig.entry, hts]
  | some ts =>
    rw [hts] at hassign
    obtain ⟨ts₁, hacc, hother₁, hself₁⟩ := assignFold_spec (nodup_sortedItems assign) hassign
    rw [hacc] at hrestore
    obtain ⟨ts₂, rfl, hother₂, hself₂⟩ := restoreEntries_spec (nodup_sortedItems restore) hrestore
    have hout : ∀ {d : PyDict String String} {mod : String}, d.get? mod = none →
        mod ∉ (sortedItems d).map Prod.fst := by
      intro d mod hnone hmem
      rw [mem_sortedItems_fst, hnone] at hmem
      cases hmem
    constructor
    · intro mod dir hdir
      have hkept : restore.get? mod = none := by
        rcases hdisjoint mod with hnone | hnone
        · rw [hnone] at hdir
          cases hdir
        · exact hnone
      obtain ⟨donor_qc, hload, hget⟩ := hself₁ mod dir (mem_sortedItems.mpr hdir)
      refine .inr ⟨donor_qc, hload, ?_⟩
      rw [hentry, Option.bind_some, hother₂ mod (hout hkept), hget]
    · intro mod dir d hdir hd
      rw [hentry, Option.bind_some]
      exact hself₂ mod dir (mem_sortedItems.mpr hdir) d hd
    · intro mod hmod hmod'
      rw [hentry, Option.bind_some, hother₂ mod (hout hmod'), hother₁ mod (hout hmod),
        QuantizationConfig.entry, hts]
      rfl

theorem writeQuantizationConfig_spec {left : List String}
    (hdisjoint : ∀ mod, assign.get? mod = none ∨ restore.get? mod = none)
    (hqc : load_qc args.base = .ok qc)
    (h : writeQuantizationConfig env load_qc args donors assign restore versions left =
      .ok (some qc')) :
    Updated env load_qc donors assign restore left qc qc' := by
  obtain ⟨qc₀, hqc₀, h⟩ := bind_eq_ok h
  obtain rfl := Except.ok.inj (hqc.symm.trans hqc₀)
  by_cases hempty : qc.isEmpty = true
  · rw [if_pos hempty] at h
    cases h
  rw [if_neg hempty] at h
  obtain ⟨acc, hassign, h⟩ := bind_eq_ok h
  obtain ⟨ts, moved_unlisted⟩ := acc
  obtain ⟨ts', hrestore, h⟩ := bind_eq_ok h
  obtain ⟨qc₁, hhead, h⟩ := bind_eq_ok h
  obtain rfl := Option.some.inj (Except.ok.inj h)
  obtain rfl := headBits_spec hhead
  constructor
  · exact entriesFollow hdisjoint hassign hrestore (tensor_storage_visionBits left)
  · simp
  · exact isSome_visionBits left
  · exact compositionBlock_partial _

/-! ## The metadata of the output -/

theorem mem_quantAfter : mod ∈ quantAfter base_t restore ↔
    mod ∈ base_t.quantized ∧ restore.get? mod = none := by
  rw [quantAfter, Tensors.quantized, mem_quantizedModuleKeys, mem_quantizedModuleKeys,
    List.mem_filter, moduleKey_trellis, PyDict.contains]
  cases restore.get? mod <;> simp

/-- A taken head's width is that of the output's trellis. -/
theorem takenWidth_eq_some {head : String} {bits : Bits} (h : head ∈ assign.keys) :
    takenWidth donors assign head = some bits ↔ ∃ info,
      composed base_t donors assign restore (head ++ ".trellis") = some info ∧
        bitsFromTrellisShape info.shape none = .ok bits := by
  obtain ⟨dir, hdir⟩ := Option.isSome_iff_exists.mp (PyDict.isSome_get?_iff.mpr h)
  rw [composed_taken (by rw [moduleKey_trellis, hdir]), takenWidth, hdir]
  show (donors.get? dir).bind _ = _ ↔ _
  cases donors.get? dir with
  | none => simp
  | some d =>
    rw [Option.bind_some]
    show (d.tensors.get? (head ++ ".trellis")).bind _ = _ ↔ _
    rw [Option.bind_eq_some_iff]
    refine exists_congr fun info => and_congr_right fun _ => ?_
    cases bitsFromTrellisShape info.shape none <;> simp [Except.toOption]

/-- The metadata describes the composed checkpoint exactly where the taken heads agree with the first,
no quantized vision module stays beside a restored one, and a `vision_bits` of the base is either
still about something or dropped: for every base with a `quantization_config.json`, every donors, and
every assignment and restoration of disjoint sets of modules. -/
theorem write_quantization_config_describes_iff
    (hdisjoint : ∀ mod, assign.get? mod = none ∨ restore.get? mod = none)
    (hqc : load_qc args.base = .ok qc)
    (h : writeQuantizationConfig env load_qc args donors assign restore versions
      (quantAfter base_t restore) = .ok (some qc')) :
    Describes env load_qc base_t donors assign restore qc qc' ↔
      DescribedWhen env base_t donors assign restore qc := by
  have hout := writeQuantizationConfig_spec hdisjoint hqc h
  have hleft : (∃ mod ∈ quantAfter base_t restore, isVision env mod = true) ↔
      ¬∀ mod ∈ base_t.quantized, isVision env mod = true → (restore.get? mod).isSome := by
    simp only [mem_quantAfter, not_forall, Option.not_isSome_iff_eq_none, and_assoc, exists_prop,
      and_comm]
  constructor
  · intro hdescribes
    refine ⟨fun head hhead hishead bits hwidth => ?_, fun hrestored hstays => ?_, fun hsome => ?_⟩
    · obtain ⟨info, hinfo, hbits⟩ := (takenWidth_eq_some hhead).mp hwidth
      rw [← hout.head_bits]
      exact hdescribes.head_bits head hhead hishead info bits hinfo hbits
    · have hnoted := hdescribes.vision_partial hrestored (visionStays_iff.mpr hstays)
      rw [hout.no_partial] at hnoted
      cases hnoted
    · by_cases hkept : restore.items = [] ∨ ∃ mod ∈ quantAfter base_t restore, isVision env mod = true
      · have hvision := hdescribes.vision_bits (hout.vision_bits.mpr ⟨hsome, hkept⟩)
        exact .inl (visionStays_iff.mp hvision)
      · rw [not_or, hleft, not_not] at hkept
        exact .inr hkept
  · intro hwhen
    refine ⟨hout.toEntriesFollow, fun head hhead hishead info bits hinfo hbits => ?_, fun hsome => ?_,
      fun hrestored hremains => ?_⟩
    · rw [hout.head_bits]
      exact hwhen.heads head hhead hishead bits
        ((takenWidth_eq_some hhead).mpr ⟨info, hinfo, hbits⟩)
    · obtain ⟨hbase, hkept⟩ := hout.vision_bits.mp hsome
      rw [visionStays_iff]
      rcases hwhen.vision_bits hbase with hstays | ⟨hne, hall⟩
      · exact hstays
      · rcases hkept with hnil | hsome
        · exact absurd hnil hne
        · exact absurd hall (hleft.mp hsome)
    · exact absurd (visionStays_iff.mp hremains) (hwhen.vision hrestored)

/-! ### Two vision layers, one of them restored -/

/-- A base of two quantized vision layers. -/
def visionTensors : Tensors where
  items := [("vision.fc1.trellis", ⟨⟨"base", "model.safetensors"⟩, [8, 8, 64], "I16"⟩),
    ("vision.fc2.trellis", ⟨⟨"base", "model.safetensors"⟩, [8, 8, 64], "I16"⟩)]
  nodup := by
    show ["vision.fc1.trellis", "vision.fc2.trellis"].Nodup
    decide

/-- The model before quantization has both as they were. -/
def visionArms : PyDict String Donor where
  items := [("orig", ⟨"orig", ⟨[
    ("vision.fc1.weight", ⟨⟨"orig", "model.safetensors"⟩, [128, 128], "BF16"⟩),
    ("vision.fc2.weight", ⟨⟨"orig", "model.safetensors"⟩, [128, 128], "BF16"⟩)], by
      show ["vision.fc1.weight", "vision.fc2.weight"].Nodup
      decide⟩⟩)]
  nodup := by
    show ["orig"].Nodup
    decide

def visionText : String := "\x7b\"vision_bits\": 4\x7d"

def visionConfig : QuantizationConfig := { QuantizationConfig.empty with vision_bits := some (.number 4) }

/-- The base's file is the only one of its kind. -/
def visionDisk : Disk := fun dir =>
  if dir = "base" then some (.ofList [("quantization_config.json", utf8 visionText)])
  else if dir = "orig" then some .empty
  else none

def visionLoads (file : Bytes) : Option QuantizationConfig :=
  if file = utf8 visionText then some visionConfig else none

/-- The one category of these modules. -/
def visionEnv : Env where
  readHeaders := fun dir => .error (.unreadable dir)
  readData := fun path => .error (.mapUnreadable path)
  search := fun _ s => startswith s "vision"
  compile := fun _ => .ok fun _ => false
  fnmatchcase := fun _ _ => false

def visionArgs : Args := ⟨"base", "/base", [("from", "orig"), ("restore", "vision.fc1")]⟩

def fromOrig (mods : List String) : PyDict String String := .ofList (mods.map fun m => (m, "orig"))

theorem load_visionConfig : loadQc visionLoads visionDisk "base" = .ok visionConfig := by
  have hfile : (visionDisk "base").bind (·.get? "quantization_config.json") =
      some (utf8 visionText) := by rfl
  rw [loadQc, hfile]
  simp [visionLoads]

/-- One of the two is restored: the other stays quantized, and the metadata does not say so. -/
theorem partial_restore_not_described :
    ∃ qc', writeQuantizationConfig visionEnv (loadQc visionLoads visionDisk) visionArgs visionArms
        .empty (fromOrig ["vision.fc1"]) .empty
        (quantAfter visionTensors (fromOrig ["vision.fc1"])) = .ok (some qc') ∧
      outputQuantized visionTensors visionArms .empty (fromOrig ["vision.fc1"]) = ["vision.fc2"] ∧
      ¬Describes visionEnv (loadQc visionLoads visionDisk) visionTensors visionArms .empty
        (fromOrig ["vision.fc1"]) visionConfig qc' := by
  have hrun : ∃ qc', writeQuantizationConfig visionEnv (loadQc visionLoads visionDisk) visionArgs
      visionArms .empty (fromOrig ["vision.fc1"]) .empty
      (quantAfter visionTensors (fromOrig ["vision.fc1"])) = .ok (some qc') := ⟨_, rfl⟩
  obtain ⟨qc', hrun⟩ := hrun
  refine ⟨qc', hrun, by decide +kernel, fun hdescribes => ?_⟩
  have hnoted := hdescribes.vision_partial ⟨"vision.fc1", by decide +kernel, by decide +kernel⟩
    ⟨"vision.fc2", by decide +kernel, by decide +kernel⟩
  have hout := writeQuantizationConfig_spec (fun _ => .inl rfl) load_visionConfig hrun
  rw [hout.no_partial] at hnoted
  cases hnoted

/-- Both are restored. -/
theorem full_restore_described :
    ∃ qc', writeQuantizationConfig visionEnv (loadQc visionLoads visionDisk) visionArgs visionArms
        .empty (fromOrig ["vision.fc1", "vision.fc2"]) .empty
        (quantAfter visionTensors (fromOrig ["vision.fc1", "vision.fc2"])) = .ok (some qc') ∧
      (Describes visionEnv (loadQc visionLoads visionDisk) visionTensors visionArms .empty
          (fromOrig ["vision.fc1", "vision.fc2"]) visionConfig qc' ↔
        DescribedWhen visionEnv visionTensors visionArms .empty
          (fromOrig ["vision.fc1", "vision.fc2"]) visionConfig) := by
  have hrun : ∃ qc', writeQuantizationConfig visionEnv (loadQc visionLoads visionDisk) visionArgs
      visionArms .empty (fromOrig ["vision.fc1", "vision.fc2"]) .empty
      (quantAfter visionTensors (fromOrig ["vision.fc1", "vision.fc2"])) = .ok (some qc') := ⟨_, rfl⟩
  obtain ⟨qc', hrun⟩ := hrun
  exact ⟨qc', hrun, write_quantization_config_describes_iff (fun _ => .inl rfl) load_visionConfig hrun⟩

end VllmExl3.Compose
