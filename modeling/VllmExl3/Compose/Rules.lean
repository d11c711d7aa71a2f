/-
# VllmExl3.Compose.Rules — resolving `--from`, `--take`, `--restore`, `--map` and `--keep`

The rule loop of `compose_checkpoint.py`'s `main`. Rules are applied in the order written; a `--take`
or `--restore` draws from the most recent `--from`, a `--map` from every donor opened so far. Two
dictionaries come out: which modules are taken from which donor, and which are restored to dense from
which one. What is read from disk, `re` and `fnmatch` are inputs (`Env`). A set is a list here: only
membership is asked of it, and the two dictionaries are only looked up.
-/
import VllmExl3.Compose.Checkpoint
import VllmExl3.Lib.PyPath
import VllmExl3.Lib.Except

namespace VllmExl3.Compose

open PyStr PyPath Names Format

/-! ## Inputs -/

/-- A key of a parsed recipe: its `str`, and whether it is a string. -/
structure DataKey where
  str : String
  is_str : Bool
  deriving DecidableEq, Repr

/-- What a recipe file parses into. A Python bool is an `int`. -/
inductive Data where
  | int (v : Int)
  | bool (b : Bool)
  | dict (items : List (DataKey × Data))
  | other

/-- The disk, as `read_headers` and `load_map` see it, and the two pattern languages. -/
structure Env where
  readHeaders : String → Except Exit Tensors
  readData : String → Except Exit Data
  /-- `re.search` of a pattern the source spells out. -/
  search : String → String → Bool
  /-- `re.compile(pattern).search`, or `re.error`. -/
  compile : String → Except PyError (String → Bool)
  fnmatchcase : String → String → Bool

/-! ## Selectors -/

/-- `_CATEGORY` -/
def CATEGORY (env : Env) (category : String) : Option (String → Bool) :=
  match category with
  | "head" => some fun m => m = "lm_head" || endswith m ".lm_head"
  | "embed" => some fun m => endswith m "embed_tokens"
  | "vision" => some (env.search ("(^|\\.)(vision|visual|vision_tower|vision_adapter|" ++
      "vision_projection|mm_projector|multi_modal|audio_tower)"))
  | "mtp" => some fun m =>
      m = "mtp" || startswith m "mtp." || occursIn ".mtp." m
  | "experts" => some (env.search "(^|\\.)experts\\.\\d+\\.")
  | "shared-experts" => some (occursIn "shared_expert")
  | "attn" => some (env.search "(^|\\.)(self_attn|linear_attn|attn)\\.")
  | "mlp" => some (env.search "(^|\\.)mlp\\.")
  | "all" => some fun _ => true
  | _ => none

/-- `select` -/
def select (env : Env) (sel : String) (modules quantized : List String) :
    Except Exit (List String) :=
  if sel = "quantized" then .ok quantized
  else if sel = "body" then
    let excluded := ["head", "embed", "vision", "mtp"]
    .ok (quantized.filter fun m => !excluded.any fun c => ((CATEGORY env c).map (· m)).getD false)
  else match CATEGORY env sel with
    | some category => .ok (modules.filter category)
    | none =>
      if startswith sel "re:" then match env.compile (dropStart sel 3) with
        | .ok rx => .ok (modules.filter rx)
        | .error err => .error (.raised err)
      else if sel.toList.any (· ∈ ['*', '?', '[']) then
        .ok (modules.filter fun m => env.fnmatchcase m sel)
      else if sel ∈ modules then .ok [sel]
      else .error (.noSelectorMatch sel)

/-- `data.get(name)` -/
def Data.get? (name : String) : Data → Option Data
  | .dict items => (items.find? fun p => p.1 = ⟨name, true⟩).map Prod.snd
  | _ => none

/-- The items of a dictionary, or `none` for anything else. -/
def Data.items? : Data → Option (List (DataKey × Data))
  | .dict items => some items
  | _ => none

/-- `v if isinstance(v, int)` -/
def Data.int? : Data → Option Int
  | .int v => some v
  | .bool b => some (if b then 1 else 0)
  | _ => none

/-- The loop that checks a recipe's values. -/
def loadItems (path : String) (items : List (DataKey × Data)) : Except Exit (PyDict String Int) :=
  items.foldlM (fun (out : PyDict String Int) p =>
    match p.2.int? with
    | some v => if (MIN_BITS : Int) ≤ v ∧ v ≤ (MAX_BITS : Int) then .ok (out.set p.1.str v)
      else .error (.mapNotABitWidth path p.1.str)
    | none => .error (.mapNotABitWidth path p.1.str)) .empty

/-- `load_map` -/
def loadMap (env : Env) (path : String) : Except Exit (PyDict String Int) :=
  match env.readData path with
  | .error exit => .error exit
  | .ok data =>
    let data := match (data.get? "tensors").bind Data.items? with
      | some tensors => Data.dict tensors
      | none => data
    match data.items? with
    | some items => if items.isEmpty then .error (.mapNotADict path) else loadItems path items
    | none => .error (.mapNotADict path)

/-! ## State -/

/-- A donor: its normalized path and its tensors. -/
structure Donor where
  dir : String
  tensors : Tensors

/-- The donors opened so far and the current one. -/
structure Arms where
  current : Option String
  donors : PyDict String Donor

/-- The state of the rule loop. -/
structure RuleState where
  arms : Arms
  assign : PyDict String String
  restore : PyDict String String

/-! ## Rules -/

/-- `--from` -/
def Arms.open (env : Env) (arms : Arms) (value : String) : Except Exit Arms :=
  let current := normpath value
  if arms.donors.contains current then .ok { arms with current := some current }
  else match env.readHeaders current with
    | .ok t => .ok { current := some current, donors := arms.donors.set current ⟨current, t⟩ }
    | .error exit => .error exit

/-- The current donor's path, or the exit of a rule before any `--from`. -/
def Arms.required (arms : Arms) (rule : Rule) : Except Exit String :=
  match arms.current with
  | none => .error (.beforeFrom rule)
  | some current => .ok current

/-- `trellis_bits(mod, base_mods[mod], base_t) == bits`, and the same of a donor, where a module that
is not there has no width. -/
def atWidth (t : Tensors) (mod : String) (bits : Int) : Except Exit Bool :=
  match t.modules.get? mod with
  | none => .ok false
  | some group => match trellisBits group t with
    | .ok (some (.int k)) => .ok ((k : Int) = bits)
    | .ok _ => .ok false
    | .error err => .error (.raised err)

/-- The first donor that carries a module at a width. -/
def findDonor (mod : String) (bits : Int) : List Donor → Except Exit (Option Donor)
  | [] => .ok none
  | dd :: rest => do
    if ← atWidth dd.tensors mod bits then return some dd
    findDonor mod bits rest

/-- One item of a recipe: nothing where the base is already at the width, else the first donor that
carries it, else it is unmet. -/
def placeItem (base : Tensors) (donors : PyDict String Donor)
    (acc : (PyDict String String × PyDict String String) × List (String × Int))
    (item : String × Int) :
    Except Exit ((PyDict String String × PyDict String String) × List (String × Int)) := do
  let ((assign, restore), unmet) := acc
  let (mod, bits) := item
  if ← atWidth base mod bits then return acc
  match ← findDonor mod bits donors.values with
  | some dd => return ((assign.set mod dd.dir, restore.pop mod), unmet)
  | none => return ((assign, restore), unmet ++ [(mod, bits)])

/-- `--keep` -/
def applyKeep (env : Env) (base : Tensors) (s : RuleState) (value : String) :
    Except Exit RuleState := do
  let chosen ← select env value base.modules.keys base.quantized
  return { s with assign := chosen.foldl .pop s.assign, restore := chosen.foldl .pop s.restore }

/-- `--restore`. Selected from the base, because it is about what the base has quantized. -/
def applyRestore (env : Env) (base : Tensors) (s : RuleState) (value : String) :
    Except Exit RuleState := do
  let current ← s.arms.required (.restore value)
  let d ← item s.arms.donors current
  let selected ← select env value base.modules.keys base.quantized
  let chosen := selected.filter (· ∈ base.quantized)
  exitIf chosen.isEmpty (.restoreMatchedNoQuantized value)
  let absent := chosen.filter (· ∉ d.tensors.modules.keys)
  exitIf (!absent.isEmpty) (.restoreAbsent value current absent)
  return { s with
    restore := chosen.foldl (fun restore m => restore.set m current) s.restore
    assign := chosen.foldl .pop s.assign }

/-- `--map` -/
def applyMap (env : Env) (base : Tensors) (s : RuleState) (value : String) :
    Except Exit RuleState := do
  let _ ← s.arms.required (.map value)
  let wanted ← loadMap env value
  let unknown := wanted.keys.filter (· ∉ base.modules.keys)
  exitIf (!unknown.isEmpty) (.mapUnknown value unknown)
  let ((assign, restore), unmet) ←
    wanted.items.foldlM (placeItem base s.arms.donors) ((s.assign, s.restore), [])
  exitIf (!unmet.isEmpty) (.mapUnmet value unmet)
  return { s with assign, restore }

/-- `--take` -/
def applyTake (env : Env) (base : Tensors) (s : RuleState) (value : String) :
    Except Exit RuleState := do
  let current ← s.arms.required (.take value)
  let d ← item s.arms.donors current
  let chosen ← select env value d.tensors.modules.keys d.tensors.quantized
  let missing := chosen.filter (· ∉ base.modules.keys)
  exitIf (!missing.isEmpty) (.takeMissing value current missing)
  return { s with
    assign := chosen.foldl (fun assign m => assign.set m current) s.assign
    restore := chosen.foldl .pop s.restore }

/-- One rule of the loop. -/
def applyRule (env : Env) (base : Tensors) (s : RuleState) : Rule → Except Exit RuleState
  | .fromDonor value => do
    let arms ← s.arms.open env value
    return { s with arms }
  | .keep value => applyKeep env base s value
  | .restore value => applyRestore env base s value
  | .map value => applyMap env base s value
  | .take value => applyTake env base s value

/-- The state before any rule. -/
def RuleState.start : RuleState := ⟨⟨none, .empty⟩, .empty, .empty⟩

/-- `main`: rule resolution. -/
def resolve (env : Env) (base : Tensors) (rules : List Rule) : Except Exit RuleState := do
  exitIf rules.isEmpty .nothingToCompose
  let s ← rules.foldlM (applyRule env base) .start
  exitIf (s.assign.items.isEmpty && s.restore.items.isEmpty) .selectedNothing
  return s

end VllmExl3.Compose
