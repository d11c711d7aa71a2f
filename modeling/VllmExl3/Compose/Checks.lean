/-
# VllmExl3.Compose.Checks — what `compose_checkpoint.py` checks before it writes

Between resolving the rules and writing, `main` compares the two sides: the configs, every module that is
taken, every module that is restored. It collects what it finds and goes on to the end; an error among the
findings then keeps it from writing, unless `--force` is given. A check that found nothing says exactly what
the two sides have in common (`checkModule_ok`, `checkRestoreModule_ok`).

Left out are two warnings that are printed and decide nothing, on a tied head and on exllamav3 versions, and
the text of the report. A donor's config is read with the checks on it, not when the donor is opened. The
sampled comparison of restored weights runs on a GPU and is an input.
-/
import VllmExl3.Compose.QuantizationConfig

namespace VllmExl3.Compose

open PyStr Names Format

/-! ## Findings -/

inductive Level where
  | warn
  | error
  deriving DecidableEq, Repr

/-- What a check found, with what its text prints. -/
inductive Problem where
  | noConfig
  | configDiffers (key : String)
  | moduleSetsDiffer (donor : String) (only_base only_donor : Nat)
  | dimensionsDiffer (name : String) (base donor : Nat × Nat)
  | presentOnly (name side : String)
  | shapeDiffers (name : String) (base donor : List Nat)
  | notQuantized (mod : String)
  | noDenseWeight (mod : String) (stored : List String)
  | notAMatrix (mod : String) (shape : List Nat)
  | doesNotPad (mod : String) (weight trellis : Nat × Nat)
  | biasMissing (mod : String)
  | noDevice
  | notTheDequantized (mod : String)
  | unverified
  | mixedCodebook (modules : Nat)
  deriving DecidableEq, Repr

/-- The level a finding is reported at. -/
def Problem.level : Problem → Level
  | .configDiffers key => if key ∈ ["architectures", "model_type"] then .error else .warn
  | .noConfig | .moduleSetsDiffer .. | .noDevice | .unverified | .mixedCodebook _ => .warn
  | _ => .error

@[simp] theorem Problem.level_ne_error {p : Problem} : p.level ≠ .error ↔ p.level = .warn := by
  cases p.level <;> simp

/-- No finding is an error. -/
def NoErrors (problems : List Problem) : Prop := ∀ p ∈ problems, p.level = .warn

theorem noErrors_append {ps qs : List Problem} : NoErrors (ps ++ qs) ↔ NoErrors ps ∧ NoErrors qs := by
  simp only [NoErrors, List.mem_append, or_imp, forall_and]

theorem noErrors_flatten {pss : List (List Problem)} : NoErrors pss.flatten ↔ ∀ ps ∈ pss, NoErrors ps := by
  simp only [NoErrors, List.mem_flatten]
  exact ⟨fun h ps hps p hp => h p ⟨ps, hps, hp⟩, fun h p ⟨ps, hps, hp⟩ => h ps hps p hp⟩

theorem noErrors_ite {c : Prop} [Decidable c] {p : Problem} (hp : p.level = .error) :
    NoErrors (if c then [p] else []) ↔ ¬c := by
  split_ifs with hc
  · exact iff_of_false (fun h => absurd (h p (List.mem_singleton_self p)) (by simp [hp])) (not_not.mpr hc)
  · exact iff_of_true (fun _ hq => absurd hq List.not_mem_nil) hc

/-! ## The configs -/

/-- A `config.json`; `null` is what a key that is not there reads as. -/
abbrev ModelConfig (V : Type) := PyDict String (Option V)

/-- `load_config`, for a `json.load` of such files. -/
def loadConfig {V : Type} (loads : Bytes → Option (ModelConfig V)) (disk : Disk) (d : String) :
    Except Exit (ModelConfig V) :=
  match (disk d).bind (·.get? "config.json") with
  | none => .ok .empty
  | some file => match loads file with
    | some cfg => .ok cfg
    | none => .error (.unreadable (ShardPath.str ⟨d, "config.json"⟩))

/-- `_CONFIG_IGNORED` -/
def CONFIG_IGNORED : List String :=
  ["quantization_config", "torch_dtype", "dtype", "transformers_version"]

/-- `cfg.get(key)` -/
def ModelConfig.read {V : Type} (cfg : ModelConfig V) (key : String) : Option V := (cfg.get? key).join

/-- `check_same_model` -/
def checkSameModel {V : Type} [DecidableEq V] (base_cfg donor_cfg : ModelConfig V) : List Problem :=
  if base_cfg.items.isEmpty || donor_cfg.items.isEmpty then [.noConfig]
  else
    let keys := ((base_cfg.keys ++ donor_cfg.keys).dedup.filter (· ∉ CONFIG_IGNORED)).insertionSort (· ≤ ·)
    keys.filterMap fun key => if base_cfg.read key ≠ donor_cfg.read key then some (.configDiffers key) else none

/-! ## A taken module -/

/-- `{n[len(mod):]: tensors[n][1] for n in group}` -/
def shapesOf (mod : String) (group : List String) (tensors : Tensors) :
    Except Exit (PyDict String (List Nat)) := do
  let pairs ← group.mapM fun n => do
    let info ← item tensors n
    return (dropStart n mod.toList.length, info.shape)
  return .ofList pairs

/-- `format.dims_from_trellis_shape` -/
def trellisDims (shape : List Nat) : Except Exit (Nat × Nat) :=
  match dimsFromTrellisShape shape with
  | .ok dims => .ok dims
  | .error err => .error (.raised err)

/-- One round of the loop of `check_module`. -/
def checkSuffix (mod suffix : String) (a b : Option (List Nat)) : Except Exit (List Problem) :=
  match a, b with
  | some a, some b =>
    if suffix = ".trellis" ∧ a ≠ [] ∧ b ≠ [] then do
      let dims ← trellisDims a
      let dims' ← trellisDims b
      return if dims ≠ dims' then [.dimensionsDiffer (mod ++ suffix) dims dims'] else []
    else .ok (if a ≠ b then [.shapeDiffers (mod ++ suffix) a b] else [])
  | none, none => .ok []
  | _, b => .ok (if suffix ∉ [".mcg", ".mul1"]
      then [.presentOnly (mod ++ suffix) (if b.isNone then "base" else "donor")] else [])

/-- `check_module` -/
def checkModule (mod : String) (base_group donor_group : List String) (base_t donor_t : Tensors) :
    Except Exit (List Problem) := do
  let bs ← shapesOf mod base_group base_t
  let ds ← shapesOf mod donor_group donor_t
  let found ← ((bs.keys ++ ds.keys).dedup.insertionSort (· ≤ ·)).mapM fun suffix =>
    checkSuffix mod suffix (bs.get? suffix) (ds.get? suffix)
  return found.flatten

/-- `codebook_of` -/
def codebookOf : List String → String
  | [] => "default"
  | name :: rest =>
    if endswith name ".mcg" then "mcg" else if endswith name ".mul1" then "mul1" else codebookOf rest

/-! ## A restored module -/

/-- The shapes of a dense weight against the trellis it replaces. -/
def checkWeight (mod : String) (t_dims : Nat × Nat) (w : List Nat) (b d : PyDict String (List Nat)) :
    List Problem :=
  match w with
  | [w_out, w_in] =>
    (if padDim w_in PAD_TO ≠ t_dims.1 ∨ padDim w_out PAD_TO ≠ t_dims.2
      then [.doesNotPad mod (w_out, w_in) t_dims] else []) ++
    (if b.contains ".bias" && !d.contains ".bias" then [.biasMissing mod] else [])
  | w => [.notAMatrix mod w]

/-- `check_restore_module` -/
def checkRestoreModule (mod : String) (base_group donor_group : List String) (base_t donor_t : Tensors) :
    Except Exit (List Problem) := do
  let b ← shapesOf mod base_group base_t
  let d ← shapesOf mod donor_group donor_t
  match b.get? ".trellis" with
  | none => return [.notQuantized mod]
  | some t => match d.get? ".weight" with
    | none => return [.noDenseWeight mod (d.keys.insertionSort (· ≤ ·))]
    | some w => do
      let t_dims ← trellisDims t
      return checkWeight mod t_dims w b d

/-! ### What an accepted module has in common -/

/-- Two sides' shapes of a tensor name: equal, or trellises of one matrix. A codebook selector may be on one
side only. -/
def SameShape (name : String) (a b : Option (List Nat)) : Prop :=
  match a, b with
  | some a, some b => a = b ∨ endswith name ".trellis" = true ∧
      ∃ dims, dimsFromTrellisShape a = .ok dims ∧ dimsFromTrellisShape b = .ok dims
  | none, none => True
  | _, _ => endswith name ".mcg" = true ∨ endswith name ".mul1" = true

/-- A dense weight that takes a trellis's place: a matrix that pads to its dimensions. -/
def PadsTo (weight trellis : List Nat) : Prop :=
  ∃ w_out w_in, weight = [w_out, w_in] ∧
    dimsFromTrellisShape trellis = .ok (padDim w_in PAD_TO, padDim w_out PAD_TO)

/-- A tensor that is no selector is on both sides or on neither. -/
theorem SameShape.isSome_eq {name : String} {a b : Option (List Nat)} (h : SameShape name a b)
    (hmcg : endswith name ".mcg" = false) (hmul1 : endswith name ".mul1" = false) : a.isSome = b.isSome := by
  cases a <;> cases b <;> simp_all [SameShape]

section Accepted

variable {mod suffix name : String} {a b : Option (List Nat)} {problems : List Problem}
    {t base_t donor_t : Tensors}
  {group base_group donor_group : List String} {shapes : PyDict String (List Nat)}

theorem trellisDims_eq_ok {shape : List Nat} {dims : Nat × Nat} :
    trellisDims shape = .ok dims ↔ dimsFromTrellisShape shape = .ok dims := by
  unfold trellisDims
  cases dimsFromTrellisShape shape <;> simp

/-- A tensor that one side lacks is a selector. -/
theorem selector_of_noErrors {side : String} (h : NoErrors (if suffix ∉ [".mcg", ".mul1"]
    then [.presentOnly (mod ++ suffix) side] else [])) :
    endswith (mod ++ suffix) ".mcg" = true ∨ endswith (mod ++ suffix) ".mul1" = true := by
  rw [noErrors_ite rfl, not_not, List.mem_cons, List.mem_singleton] at h
  rcases h with rfl | rfl
  · exact .inl (endswith_append mod ".mcg")
  · exact .inr (endswith_append mod ".mul1")

theorem checkSuffix_ok (h : checkSuffix mod suffix a b = .ok problems) (hproblems : NoErrors problems) :
    SameShape (mod ++ suffix) a b := by
  rcases a with _ | a <;> rcases b with _ | b
  · trivial
  · exact selector_of_noErrors (Except.ok.inj h ▸ hproblems)
  · exact selector_of_noErrors (Except.ok.inj h ▸ hproblems)
  · unfold checkSuffix at h
    dsimp only at h
    by_cases htrellis : suffix = ".trellis" ∧ a ≠ [] ∧ b ≠ []
    · rw [if_pos htrellis] at h
      obtain ⟨dims, hdims, h⟩ := bind_eq_ok h
      obtain ⟨dims', hdims', h⟩ := bind_eq_ok h
      rw [trellisDims_eq_ok] at hdims hdims'
      rw [← Except.ok.inj h, noErrors_ite rfl, not_not] at hproblems
      rw [htrellis.1]
      exact .inr ⟨endswith_append mod ".trellis", dims, hdims, hproblems ▸ hdims'⟩
    · rw [if_neg htrellis] at h
      rw [← Except.ok.inj h, noErrors_ite rfl, not_not] at hproblems
      exact .inl hproblems

/-- No grouping suffix ends another. -/
theorem moduleKey_append (hsuffix : suffix ∈ GROUPING_SUFFIXES) : moduleKey (mod ++ suffix) = mod := by
  have hends : ∀ s ∈ GROUPING_SUFFIXES, ∀ s' ∈ GROUPING_SUFFIXES,
      (endswith s s' || endswith s' s) = true → s = s' := by decide
  unfold moduleKey
  cases hfind : GROUPING_SUFFIXES.find? fun s => endswith (mod ++ suffix) s with
  | none =>
    exact absurd (endswith_append mod suffix)
      (by simpa using List.find?_eq_none.mp hfind suffix hsuffix)
  | some s =>
    have hs : endswith (mod ++ suffix) s = true := List.find?_some hfind
    obtain rfl := hends s (List.mem_of_find?_eq_some hfind) suffix hsuffix
      (endswith_comparable hs (endswith_append mod suffix))
    exact dropEnd_append mod s

/-- A tensor's name is its module's with a suffix. -/
theorem exists_suffix (name : String) : ∃ suffix, name = moduleKey name ++ suffix := by
  unfold moduleKey
  cases hfind : GROUPING_SUFFIXES.find? fun s => endswith name s with
  | none => exact ⟨"", by simp⟩
  | some s =>
    obtain ⟨stem, rfl⟩ := endswith_iff.mp (List.find?_some hfind)
    exact ⟨s, by simp⟩

/-- The shapes of a module's tensors, by suffix. -/
theorem get?_shapesOf (hgroup : t.modules.get? mod = some group) (h : shapesOf mod group t = .ok shapes)
    (hname : moduleKey (mod ++ suffix) = mod) :
    shapes.get? suffix = (t.get? (mod ++ suffix)).map (·.shape) := by
  obtain ⟨pairs, hpairs, h⟩ := bind_eq_ok h
  obtain rfl := Except.ok.inj h
  -- a pair is a tensor of the group, without the module's name
  have hpair : ∀ shape, (suffix, shape) ∈ pairs ↔
      ∃ info, t.get? (mod ++ suffix) = some info ∧ info.shape = shape := by
    intro shape
    rw [mem_mapM_ok hpairs]
    constructor
    · rintro ⟨n, hn, hcall⟩
      obtain ⟨info, hinfo, hcall⟩ := bind_eq_ok hcall
      obtain ⟨hsuffix, rfl⟩ := Prod.mk.inj (Except.ok.inj hcall)
      obtain ⟨s, hs⟩ := exists_suffix n
      rw [((mem_group hgroup).mp hn).2] at hs
      subst hs
      rw [dropStart_append] at hsuffix
      subst hsuffix
      exact ⟨info, item_eq_ok.mp hinfo, rfl⟩
    · rintro ⟨info, hinfo, rfl⟩
      refine ⟨mod ++ suffix, (mem_group hgroup).mpr ⟨PyDict.mem_keys_of_get? hinfo, hname⟩, ?_⟩
      rw [item_eq_ok.mpr hinfo, ok_bind, dropStart_append]
      rfl
  have hagree : ∀ v v', (suffix, v) ∈ pairs → (suffix, v') ∈ pairs → v = v' := by
    intro v v' hv hv'
    obtain ⟨info, hinfo, rfl⟩ := (hpair v).mp hv
    obtain ⟨info', hinfo', rfl⟩ := (hpair v').mp hv'
    rw [Option.some.inj (hinfo.symm.trans hinfo')]
  ext shape
  rw [PyDict.get?_ofList_eq_some_iff hagree, hpair, Option.map_eq_some_iff]

/-- A taken module without errors has the same tensors on both sides, of the same shapes. -/
theorem checkModule_ok (hbase : base_t.modules.get? mod = some base_group)
    (hdonor : donor_t.modules.get? mod = some donor_group)
    (h : checkModule mod base_group donor_group base_t donor_t = .ok problems) (hproblems : NoErrors problems)
    (hname : moduleKey name = mod) :
    SameShape name ((base_t.get? name).map (·.shape)) ((donor_t.get? name).map (·.shape)) := by
  obtain ⟨bs, hbs, h⟩ := bind_eq_ok h
  obtain ⟨ds, hds, h⟩ := bind_eq_ok h
  obtain ⟨found, hfound, h⟩ := bind_eq_ok h
  obtain rfl := Except.ok.inj h
  obtain ⟨suffix, hsuffix⟩ := exists_suffix name
  rw [hname] at hsuffix
  subst hsuffix
  rw [← get?_shapesOf hbase hbs hname, ← get?_shapesOf hdonor hds hname]
  by_cases hmem : suffix ∈ bs.keys ++ ds.keys
  · obtain ⟨ps, hps, hcall⟩ := exists_of_mapM_ok hfound (x := suffix) (by simpa using hmem)
    exact checkSuffix_ok hcall (noErrors_flatten.mp hproblems ps hps)
  · rw [List.mem_append, not_or] at hmem
    rw [PyDict.get?_eq_none_iff.mpr hmem.1, PyDict.get?_eq_none_iff.mpr hmem.2]
    trivial

/-- A restored module without errors has a dense weight that pads to the trellis, and its bias. -/
theorem checkRestoreModule_ok (hbase : base_t.modules.get? mod = some base_group)
    (hdonor : donor_t.modules.get? mod = some donor_group)
    (h : checkRestoreModule mod base_group donor_group base_t donor_t = .ok problems)
    (hproblems : NoErrors problems) :
    (∃ trellis weight, base_t.get? (mod ++ ".trellis") = some trellis ∧
      donor_t.get? (mod ++ ".weight") = some weight ∧ PadsTo weight.shape trellis.shape) ∧
    ((base_t.get? (mod ++ ".bias")).isSome → (donor_t.get? (mod ++ ".bias")).isSome) := by
  obtain ⟨b, hb, h⟩ := bind_eq_ok h
  obtain ⟨d, hd, h⟩ := bind_eq_ok h
  have hread : ∀ suffix ∈ GROUPING_SUFFIXES, b.get? suffix = (base_t.get? (mod ++ suffix)).map (·.shape) :=
    fun _ hsuffix => get?_shapesOf hbase hb (moduleKey_append hsuffix)
  have hdense : ∀ suffix ∈ GROUPING_SUFFIXES, d.get? suffix = (donor_t.get? (mod ++ suffix)).map (·.shape) :=
    fun _ hsuffix => get?_shapesOf hdonor hd (moduleKey_append hsuffix)
  have herror : ∀ {p : Problem}, p.level = .error → ¬NoErrors [p] := by
    intro p hp hnone
    exact absurd (hnone p (List.mem_singleton_self p)) (by simp [hp])
  cases htrellis : b.get? ".trellis" with
  | none =>
    rw [htrellis] at h
    exact absurd (Except.ok.inj h ▸ hproblems) (herror rfl)
  | some t =>
    rw [htrellis] at h
    cases hweight : d.get? ".weight" with
    | none =>
      rw [hweight] at h
      exact absurd (Except.ok.inj h ▸ hproblems) (herror rfl)
    | some w =>
      rw [hweight] at h
      obtain ⟨dims, hdims, h⟩ := bind_eq_ok h
      rw [trellisDims_eq_ok] at hdims
      rw [← Except.ok.inj h] at hproblems
      rw [hread ".trellis" (by decide), Option.map_eq_some_iff] at htrellis
      rw [hdense ".weight" (by decide), Option.map_eq_some_iff] at hweight
      obtain ⟨trellis, htrellis, rfl⟩ := htrellis
      obtain ⟨weight, hweight, rfl⟩ := hweight
      unfold checkWeight at hproblems
      split at hproblems
      · next w_out w_in hshape =>
        rw [noErrors_append, noErrors_ite rfl, noErrors_ite rfl, not_or, not_not, not_not] at hproblems
        obtain ⟨⟨hin, hout⟩, hbias⟩ := hproblems
        refine ⟨⟨trellis, weight, htrellis, hweight, w_out, w_in, hshape, ?_⟩, fun hsome => ?_⟩
        · rw [hin, hout]
          exact hdims
        · have hb' : b.contains ".bias" = true := by
            rw [PyDict.contains, hread ".bias" (by decide), Option.isSome_map]
            exact hsome
          have hd' : d.contains ".bias" = true := by simpa [hb'] using hbias
          rwa [PyDict.contains, hdense ".bias" (by decide), Option.isSome_map] at hd'
      · exact absurd hproblems (herror rfl)

end Accepted

/-! ## `main` -/

/-- The command line. -/
structure MainArgs where
  base : String
  output : String
  rules : List Rule
  verify : Int
  dry_run : Bool
  force : Bool

section Main

variable {V : Type} [DecidableEq V] (json : Json) (disk : Disk) (env : Env)
  (loads : Bytes → Option (ModelConfig V))
  (verify_restores : Tensors → PyDict String Donor → PyDict String String → Int → Except Exit (List Problem))

/-- The checks on one donor. -/
def checkDonor (base_cfg : ModelConfig V) (base_t : Tensors) (donor : String × Donor) :
    Except Exit (List Problem) := do
  let (path, d) := donor
  let donor_cfg ← loadConfig loads disk path
  let only_base := base_t.modules.keys.filter (· ∉ d.tensors.modules.keys)
  let only_donor := d.tensors.modules.keys.filter (· ∉ base_t.modules.keys)
  return checkSameModel base_cfg donor_cfg ++
    if only_base ≠ [] ∨ only_donor ≠ []
    then [.moduleSetsDiffer path only_base.length only_donor.length] else []

/-- The two groups of names a moved module has, with its donor. -/
def bothGroups (base_t : Tensors) (donors : PyDict String Donor) (move : String × String) :
    Except Exit (List String × Donor × List String) := do
  let d ← item donors move.2
  let base_group ← item base_t.modules move.1
  let donor_group ← item d.tensors.modules move.1
  return (base_group, d, donor_group)

/-- The check of one restored module. -/
def checkRestored (base_t : Tensors) (donors : PyDict String Donor) (move : String × String) :
    Except Exit (List Problem) := do
  let (base_group, d, donor_group) ← bothGroups base_t donors move
  checkRestoreModule move.1 base_group donor_group base_t d.tensors

/-- The check of one taken module, and whether its codebook changes. -/
def checkTaken (base_t : Tensors) (donors : PyDict String Donor) (move : String × String) :
    Except Exit (List Problem × Bool) := do
  let (base_group, d, donor_group) ← bothGroups base_t donors move
  let found ← checkModule move.1 base_group donor_group base_t d.tensors
  return (found, codebookOf base_group ≠ codebookOf donor_group)

/-- The sampled comparison of restored weights, which needs every finding so far to be a warning. -/
def verifyStep (verify : Int) (base_t : Tensors) (s : RuleState) (problems : List Problem) :
    Except Exit (List Problem) :=
  if s.restore.items.isEmpty then .ok []
  else if verify = 0 then .ok [.unverified]
  else if problems.any (·.level = .error) then .ok []
  else verify_restores base_t s.arms.donors s.restore verify

/-- The checks, in the order `main` makes them. -/
def findings (verify : Int) (base_cfg : ModelConfig V) (base_t : Tensors) (s : RuleState) :
    Except Exit (List Problem) := do
  let donors ← s.arms.donors.items.mapM (checkDonor disk loads base_cfg base_t)
  let restored ← (sortedItems s.restore).mapM (checkRestored base_t s.arms.donors)
  let problems := donors.flatten ++ restored.flatten
  let verified ← verifyStep verify_restores verify base_t s problems
  let taken ← (sortedItems s.assign).mapM (checkTaken base_t s.arms.donors)
  let mixed_codebook := (taken.filter (·.2)).length
  return problems ++ verified ++ (taken.map (·.1)).flatten ++
    if mixed_codebook ≠ 0 then [.mixedCodebook mixed_codebook] else []

/-- The widths the report prints, which are read of every module that changes. -/
def reportWidths (base_t : Tensors) (s : RuleState) : Except Exit Unit := do
  let _ ← (s.assign.items ++ s.restore.items).mapM fun move => do
    let (base_group, d, donor_group) ← bothGroups base_t s.arms.donors move
    let read (group : List String) (t : Tensors) : Except Exit (Option Bits) :=
      match trellisBits group t with
      | .ok bits => .ok bits
      | .error err => .error (.raised err)
    let bits ← read base_group base_t
    let donor_bits ← if (s.assign.get? move.1).isSome then read donor_group d.tensors else .ok none
    return (bits, donor_bits)
  return ()

deriving instance DecidableEq for Donor, Arms, RuleState

/-- What `main` has decided when it comes to write: the base's tensors, the assignment, and what the checks
found. -/
structure MainPlan where
  base_t : Tensors
  rules : RuleState
  problems : List Problem
  deriving DecidableEq

/-- `main`, up to the report. -/
def planComposition (args : MainArgs) : Except Exit MainPlan := do
  exitIf args.rules.isEmpty .nothingToCompose
  let base_t ← readHeaders json disk args.base
  let base_cfg ← loadConfig loads disk args.base
  let s ← resolve { env with readHeaders := readHeaders json disk } base_t args.rules
  let problems ← findings disk loads verify_restores args.verify base_cfg base_t s
  reportWidths base_t s
  return ⟨base_t, s, problems⟩

/-- Why `main` stops: one of the tool's exits, or that it refuses to write over errors. -/
inductive Stop where
  | exit (e : Exit)
  | refused (errors : Nat)
  deriving DecidableEq, Repr

/-- `main`: the shards it wrote, or nothing on a dry run. -/
def main (args : MainArgs) : Except Stop (Option Dir) :=
  match planComposition json disk env loads verify_restores args with
  | .error e => .error (.exit e)
  | .ok plan =>
    let errors := plan.problems.filter (·.level = .error)
    if !errors.isEmpty && !args.force then .error (.refused errors.length)
    else if args.dry_run then .ok none
    else match write json disk args.base args.output plan.base_t plan.rules.arms.donors plan.rules.assign
        plan.rules.restore with
      | .ok out => .ok (some out)
      | .error e => .error (.exit e)

end Main

end VllmExl3.Compose
