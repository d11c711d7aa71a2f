/-
# VllmExl3.Compose.LaterWins — which rule decides where a module comes from

The last rule that selects a module is meant to decide its source. The two dictionaries do record one
source for each module (`run_spec`): every rule but one sets it for every module it selects. The
exception is `--map` where the base is already at the width the recipe asks for: it leaves whatever
an earlier rule assigned. So later rules win exactly where no such item follows a `--take`, a
`--restore` or a `--map` that did place the module (`resolve_later_wins`).
-/
import VllmExl3.Compose.Rules
import VllmExl3.Lib.LastWins

namespace VllmExl3.Compose

open PyStr PyPath Names Format

/-! ## Sources -/

/-- Where a module comes from. -/
inductive Source where
  | base
  | donor (dir : String)
  | restored (dir : String)
  deriving DecidableEq, Repr

/-- What the two dictionaries hold for a module. -/
def RuleState.entry (s : RuleState) (mod : String) : Option String × Option String :=
  (s.assign.get? mod, s.restore.get? mod)

/-- What they hold for a source. -/
def Source.entry : Source → Option String × Option String
  | .base => (none, none)
  | .donor dir => (some dir, none)
  | .restored dir => (none, some dir)

/-- The source the two dictionaries give a module. -/
def RuleState.source (s : RuleState) (mod : String) : Source :=
  match s.entry mod with
  | (some dir, _) => .donor dir
  | (none, some dir) => .restored dir
  | (none, none) => .base

/-- No module is both assigned and restored. -/
def RuleState.Disjoint (s : RuleState) : Prop :=
  ∀ mod, s.assign.get? mod = none ∨ s.restore.get? mod = none

theorem RuleState.source_of_entry {s : RuleState} {mod : String} {src : Source}
    (h : s.entry mod = src.entry) : s.source mod = src := by
  rw [source, h]
  cases src <;> rfl

/-! ## What a rule says of a module -/

/-- A rule and the donors open when it is applied. -/
structure Applied where
  arms : Arms
  rule : Rule

/-- The donors open after a rule. -/
def Arms.after (env : Env) (arms : Arms) : Rule → Arms
  | .fromDonor value => match arms.open env value with
    | .ok arms' => arms'
    | .error _ => arms
  | _ => arms

/-- The rules of a command line, each with the donors open when its turn comes. -/
def applied (env : Env) : Arms → List Rule → List Applied
  | _, [] => []
  | arms, rule :: rest => ⟨arms, rule⟩ :: applied env (arms.after env rule) rest

/-- `mod in select(sel, modules, quantized)` -/
def selected (env : Env) (sel : String) (modules quantized : List String) (mod : String) : Bool :=
  match select env sel modules quantized with
  | .ok chosen => mod ∈ chosen
  | .error _ => false

/-- The width a recipe asks of a module. -/
def asked (env : Env) (path mod : String) : Option Int :=
  match loadMap env path with
  | .ok wanted => wanted.get? mod
  | .error _ => none

/-- The checkpoint stores the module at the width. -/
def isAt (t : Tensors) (mod : String) (bits : Int) : Bool :=
  match atWidth t mod bits with
  | .ok b => b
  | .error _ => false

/-- The rule selects the module. -/
def selects (env : Env) (base : Tensors) (o : Applied) (mod : String) : Bool :=
  match o.rule with
  | .fromDonor _ => false
  | .keep value => selected env value base.modules.keys base.quantized mod
  | .restore value =>
    selected env value base.modules.keys base.quantized mod && mod ∈ base.quantized
  | .take value => match o.arms.current.bind o.arms.donors.get? with
    | some d => selected env value d.tensors.modules.keys d.tensors.quantized mod
    | none => false
  | .map value => (asked env value mod).isSome

/-- The rule is a `--map` that asks of the module the width the base has. -/
def baseSuffices (env : Env) (base : Tensors) (o : Applied) (mod : String) : Bool :=
  match o.rule with
  | .map value => match asked env value mod with
    | some bits => isAt base mod bits
    | none => false
  | _ => false

/-- The rule selects the module and does not leave it alone because the base suffices. -/
def setsModule (env : Env) (base : Tensors) (mod : String) (o : Applied) : Bool :=
  selects env base o mod && !baseSuffices env base o mod

/-- Where a module's last rule is a `--map` that asks for the base's own width, the last rule before
it that is not one is a `--keep`, or there is none. -/
def IdleMapsFollowKeep (env : Env) (base : Tensors) (rules : List Rule) : Prop :=
  ∀ mod o, lastBy (selects env base · mod) (applied env RuleState.start.arms rules) = some o →
    baseSuffices env base o mod = true →
    ∀ o', lastBy (setsModule env base mod) (applied env RuleState.start.arms rules) = some o' →
      ∃ value, o'.rule = .keep value

/-- The source stores the module at the width. -/
def StoresAt (base : Tensors) (donors : PyDict String Donor) (mod : String) (bits : Int) :
    Source → Prop
  | .base => isAt base mod bits = true
  | .donor dir => ∃ d, donors.get? dir = some d ∧ isAt d.tensors mod bits = true
  | .restored _ => False

/-- The source is the one the rule demands: the base after `--keep`, the current donor after `--take`
and `--restore`, and after `--map` one that stores the module at the requested width, the base where
it does. -/
def Demands (env : Env) (base : Tensors) (donors : PyDict String Donor) (o : Applied) (mod : String)
    (src : Source) : Prop :=
  match o.rule with
  | .fromDonor _ => True
  | .keep _ => src = .base
  | .take _ => ∃ dir, o.arms.current = some dir ∧ src = .donor dir
  | .restore _ => ∃ dir, o.arms.current = some dir ∧ src = .restored dir
  | .map value => ∃ bits, asked env value mod = some bits ∧ StoresAt base donors mod bits src ∧
      (isAt base mod bits = true → src = .base)

/-- Each module has the source the last rule that selects it demands, the base where none does, and
no module is both assigned and restored. -/
def LaterWins (env : Env) (base : Tensors) (rules : List Rule) (s : RuleState) : Prop :=
  (∀ mod, match lastBy (selects env base · mod) (applied env RuleState.start.arms rules) with
    | some o => Demands env base s.arms.donors o mod (s.source mod)
    | none => s.source mod = .base) ∧
  s.Disjoint

/-! ## One rule -/

/-- The source a rule gives a module it selects. -/
def target (env : Env) (o : Applied) (mod : String) : Source :=
  match o.rule with
  | .take _ => .donor (o.arms.current.getD "")
  | .restore _ => .restored (o.arms.current.getD "")
  | .map value => match asked env value mod with
    | some bits => match o.arms.donors.values.find? fun dd => isAt dd.tensors mod bits with
      | some dd => .donor dd.dir
      | none => .base
    | none => .base
  | _ => .base

/-- What the code does with a module: it sets the source of those a rule selects, unless the base
already suffices. -/
def update (env : Env) (base : Tensors) (o : Applied) (mod : String) : Option Source :=
  if setsModule env base mod o then some (target env o mod) else none

/-- What a rule that did not exit says of the donors, those open at the end being `donors`. -/
def Sound (env : Env) (base : Tensors) (donors : PyDict String Donor) (o : Applied) : Prop :=
  ∀ mod, selects env base o mod = true → baseSuffices env base o mod = false →
    Demands env base donors o mod (target env o mod)

/-- Every donor is filed under its own path. -/
def Arms.Filed (arms : Arms) : Prop := ∀ dir d, arms.donors.get? dir = some d → d.dir = dir

/-- No donor is lost or replaced. -/
def Arms.Extends (arms arms' : Arms) : Prop :=
  ∀ dir d, arms.donors.get? dir = some d → arms'.donors.get? dir = some d

variable {env : Env} {base : Tensors} {s s' : RuleState} {arms arms' : Arms} {value mod : String}
  {bits : Int}

theorem selected_of_select {sel : String} {modules quantized chosen : List String}
    (h : select env sel modules quantized = .ok chosen) :
    selected env sel modules quantized mod = decide (mod ∈ chosen) := by
  rw [selected, h]

theorem open_spec (h : arms.open env value = .ok arms') (hfiled : arms.Filed) :
    arms'.Filed ∧ arms.Extends arms' := by
  unfold Arms.open at h
  dsimp only at h
  split_ifs at h with hopen
  · obtain rfl := Except.ok.inj h
    exact ⟨hfiled, fun _ _ hd => hd⟩
  · rcases hread : env.readHeaders (normpath value) with exit | t
    · rw [hread] at h
      cases h
    · rw [hread] at h
      obtain rfl := Except.ok.inj h
      -- the path is new, so opening it replaces nothing
      have hnew : arms.donors.get? (normpath value) = none := by
        rw [PyDict.get?_eq_none_iff]
        simpa using hopen
      refine ⟨fun dir d hd => ?_, fun dir d hd => ?_⟩
      · rcases PyDict.of_get?_set hd with ⟨heq, rfl⟩ | ⟨_, hold⟩
        · exact heq.symm
        · exact hfiled dir d hold
      · show (arms.donors.set (normpath value) _).get? dir = some d
        rw [PyDict.get?_set_ne]
        · exact hd
        · rintro rfl
          rw [hnew] at hd
          cases hd

theorem findDonor_eq {ds : List Donor} {r : Option Donor} (h : findDonor mod bits ds = .ok r) :
    r = ds.find? fun dd => isAt dd.tensors mod bits := by
  induction ds with
  | nil => exact (Except.ok.inj h).symm
  | cons dd rest ih =>
    obtain ⟨there, hthere, h⟩ := bind_eq_ok h
    have hat : isAt dd.tensors mod bits = there := by rw [isAt, hthere]
    rw [List.find?_cons, hat]
    cases there with
    | true => exact (Except.ok.inj h).symm
    | false => exact ih h

/-! ### Recipes -/

/-- What a recipe does with a module it asks a width of, `e` and `e'` being what the dictionaries hold
for it before and after. -/
def Placed (base : Tensors) (donors : PyDict String Donor) (mod : String) (bits : Int)
    (e e' : Option String × Option String) : Prop :=
  isAt base mod bits = true ∧ e' = e ∨
    isAt base mod bits = false ∧ ∃ dd,
      (donors.values.find? fun dd => isAt dd.tensors mod bits) = some dd ∧
        e' = (Source.donor dd.dir).entry

theorem placeItem_spec {donors : PyDict String Donor} {a r a' r' : PyDict String String}
    {u : List (String × Int)} (h : placeItem base donors ((a, r), u) (mod, bits) = .ok ((a', r'), [])) :
    u = [] ∧ Placed base donors mod bits (a.get? mod, r.get? mod) (a'.get? mod, r'.get? mod) ∧
      ∀ other, other ≠ mod → a'.get? other = a.get? other ∧ r'.get? other = r.get? other := by
  unfold placeItem at h
  obtain ⟨there, hthere, h⟩ := bind_eq_ok h
  have hat : isAt base mod bits = there := by rw [isAt, hthere]
  cases there with
  | true =>
    obtain ⟨⟨rfl, rfl⟩, rfl⟩ : (a = a' ∧ r = r') ∧ u = [] := by simpa using Except.ok.inj h
    exact ⟨rfl, .inl ⟨hat, rfl⟩, fun _ _ => ⟨rfl, rfl⟩⟩
  | false =>
    obtain ⟨found, hfound, h⟩ := bind_eq_ok h
    have hfind := findDonor_eq hfound
    cases found with
    | none =>
      -- an unmet item is recorded, so the list does not end up empty
      have hunmet := congrArg Prod.snd (Except.ok.inj h)
      simp at hunmet
    | some dd =>
      obtain ⟨⟨rfl, rfl⟩, rfl⟩ : (a.set mod dd.dir = a' ∧ r.pop mod = r') ∧ u = [] := by
        simpa using Except.ok.inj h
      refine ⟨rfl, .inr ⟨hat, dd, hfind.symm, ?_⟩, fun other hother => ⟨?_, ?_⟩⟩
      · rw [PyDict.get?_set_self, PyDict.get?_pop, if_pos rfl]
        rfl
      · exact PyDict.get?_set_ne a dd.dir hother
      · rw [PyDict.get?_pop, if_neg hother]

theorem placeItems_spec {donors : PyDict String Donor} {items : List (String × Int)}
    (hnodup : (items.map Prod.fst).Nodup) {a r a' r' : PyDict String String}
    {u : List (String × Int)}
    (h : items.foldlM (placeItem base donors) ((a, r), u) = .ok ((a', r'), [])) :
    u = [] ∧ (∀ mod ∉ items.map Prod.fst, a'.get? mod = a.get? mod ∧ r'.get? mod = r.get? mod) ∧
      ∀ mod bits, (mod, bits) ∈ items →
        Placed base donors mod bits (a.get? mod, r.get? mod) (a'.get? mod, r'.get? mod) := by
  induction items generalizing a r u with
  | nil =>
    obtain ⟨⟨rfl, rfl⟩, rfl⟩ : (a = a' ∧ r = r') ∧ u = [] := by simpa using Except.ok.inj h
    exact ⟨rfl, fun _ _ => ⟨rfl, rfl⟩, fun _ _ hmem => absurd hmem List.not_mem_nil⟩
  | cons item rest ih =>
    obtain ⟨mod₀, bits₀⟩ := item
    obtain ⟨hout, hnodup⟩ := List.nodup_cons.mp hnodup
    rw [List.foldlM_cons] at h
    obtain ⟨⟨⟨a₁, r₁⟩, u₁⟩, hhead, h⟩ := bind_eq_ok h
    obtain ⟨rfl, hothers, hplaced⟩ := ih hnodup h
    obtain ⟨hu, hplaced₀, hothers₀⟩ := placeItem_spec hhead
    refine ⟨hu, fun mod hmod => ?_, fun mod bits hmem => ?_⟩
    · obtain ⟨hne, hrest⟩ : mod ≠ mod₀ ∧ mod ∉ rest.map Prod.fst := by simpa using hmod
      rw [(hothers mod hrest).1, (hothers mod hrest).2]
      exact hothers₀ mod hne
    · rcases List.mem_cons.mp hmem with heq | hrest
      · -- the head of the recipe: the rest does not mention it again
        obtain ⟨rfl, rfl⟩ := Prod.mk.inj heq
        rw [(hothers mod hout).1, (hothers mod hout).2]
        exact hplaced₀
      · have hne : mod ≠ mod₀ := by
          rintro rfl
          exact hout (List.mem_map.mpr ⟨(mod, bits), hrest, rfl⟩)
        rw [← (hothers₀ mod hne).1, ← (hothers₀ mod hne).2]
        exact hplaced mod bits hrest

/-! ### What each rule leaves -/

/-- After a rule, a module has the source the rule gives it, or what it had. -/
def Steps (env : Env) (base : Tensors) (s : RuleState) (rule : Rule) (s' : RuleState) : Prop :=
  (∀ mod, s'.entry mod =
    ((update env base ⟨s.arms, rule⟩ mod).map Source.entry).getD (s.entry mod)) ∧
  Sound env base s.arms.donors ⟨s.arms, rule⟩ ∧ s'.arms = s.arms.after env rule

/-- Where a rule sets one source for every module it selects, and does not depend on the base's
widths. -/
theorem steps_of_chosen {rule : Rule} (chosen : List String) (src : Source)
    (hselects : ∀ mod, selects env base ⟨s.arms, rule⟩ mod = decide (mod ∈ chosen))
    (hbase : ∀ mod, baseSuffices env base ⟨s.arms, rule⟩ mod = false)
    (htarget : ∀ mod, target env ⟨s.arms, rule⟩ mod = src)
    (hdemands : ∀ mod, Demands env base s.arms.donors ⟨s.arms, rule⟩ mod src)
    (hentry : ∀ mod, s'.entry mod = if mod ∈ chosen then src.entry else s.entry mod)
    (harms : s'.arms = s.arms.after env rule) : Steps env base s rule s' := by
  refine ⟨fun mod => ?_, fun mod _ _ => htarget mod ▸ hdemands mod, harms⟩
  rw [hentry, update, setsModule, hselects, hbase, htarget, Bool.not_false, Bool.and_true]
  by_cases hmem : mod ∈ chosen <;> simp [hmem]

theorem required_eq_ok {rule : Rule} {current : String} (h : arms.required rule = .ok current) :
    arms.current = some current := by
  unfold Arms.required at h
  cases hcurrent : arms.current with
  | none => simp [hcurrent] at h
  | some dir => simpa [hcurrent] using h

theorem keep_steps (h : applyKeep env base s value = .ok s') :
    Steps env base s (.keep value) s' := by
  obtain ⟨chosen, hchosen, h⟩ := bind_eq_ok h
  obtain rfl := Except.ok.inj h
  refine steps_of_chosen chosen .base (fun _ => selected_of_select hchosen)
    (fun _ => rfl) (fun _ => rfl) (fun _ => rfl) (fun mod => ?_) rfl
  show ((chosen.foldl PyDict.pop s.assign).get? mod, (chosen.foldl PyDict.pop s.restore).get? mod) = _
  rw [PyDict.get?_foldl_pop, PyDict.get?_foldl_pop]
  split_ifs <;> rfl

theorem restore_steps (h : applyRestore env base s value = .ok s') :
    Steps env base s (.restore value) s' := by
  unfold applyRestore at h
  obtain ⟨current, hcurrent, h⟩ := bind_eq_ok h
  obtain ⟨d, -, h⟩ := bind_eq_ok h
  obtain ⟨found, hfound, h⟩ := bind_eq_ok h
  obtain ⟨-, -, h⟩ := bind_eq_ok h
  obtain ⟨-, -, h⟩ := bind_eq_ok h
  obtain rfl := Except.ok.inj h
  have hdir := required_eq_ok hcurrent
  refine steps_of_chosen (found.filter (· ∈ base.quantized)) (.restored current)
    (fun mod => ?_) (fun _ => rfl) (fun _ => ?_) (fun _ => ⟨current, hdir, rfl⟩) (fun mod => ?_) rfl
  · show (selected env value _ _ mod && decide (mod ∈ base.quantized)) = _
    rw [selected_of_select hfound, ← Bool.decide_and]
    simp
  · show Source.restored (s.arms.current.getD "") = _
    rw [hdir]
    rfl
  · show ((List.foldl PyDict.pop s.assign _).get? mod, (List.foldl _ s.restore _).get? mod) = _
    rw [PyDict.get?_foldl_pop, PyDict.get?_foldl_set_const]
    split_ifs <;> rfl

theorem take_steps (h : applyTake env base s value = .ok s') :
    Steps env base s (.take value) s' := by
  unfold applyTake at h
  obtain ⟨current, hcurrent, h⟩ := bind_eq_ok h
  obtain ⟨d, hdonor, h⟩ := bind_eq_ok h
  obtain ⟨chosen, hchosen, h⟩ := bind_eq_ok h
  obtain ⟨-, -, h⟩ := bind_eq_ok h
  obtain rfl := Except.ok.inj h
  have hdir := required_eq_ok hcurrent
  refine steps_of_chosen chosen (.donor current) (fun mod => ?_) (fun _ => rfl)
    (fun _ => ?_) (fun _ => ⟨current, hdir, rfl⟩) (fun mod => ?_) rfl
  · have hopen : s.arms.current.bind s.arms.donors.get? = some d := by
      rw [hdir, Option.bind_some, item_eq_ok.mp hdonor]
    show (match s.arms.current.bind s.arms.donors.get? with
      | some d => selected env value d.tensors.modules.keys d.tensors.quantized mod
      | none => false) = _
    rw [hopen]
    exact selected_of_select hchosen
  · show Source.donor (s.arms.current.getD "") = _
    rw [hdir]
    rfl
  · show ((List.foldl _ s.assign _).get? mod, (List.foldl PyDict.pop s.restore _).get? mod) = _
    rw [PyDict.get?_foldl_pop, PyDict.get?_foldl_set_const]
    split_ifs <;> rfl

theorem map_steps (hfiled : s.arms.Filed) (h : applyMap env base s value = .ok s') :
    Steps env base s (.map value) s' := by
  unfold applyMap at h
  obtain ⟨current, hcurrent, h⟩ := bind_eq_ok h
  obtain ⟨wanted, hwanted, h⟩ := bind_eq_ok h
  obtain ⟨-, -, h⟩ := bind_eq_ok h
  obtain ⟨⟨⟨assign, restore⟩, unmet⟩, hplace, h⟩ := bind_eq_ok h
  obtain ⟨_, hunmet, h⟩ := bind_eq_ok h
  obtain rfl := Except.ok.inj h
  obtain rfl : unmet = [] := by simpa using hunmet
  obtain ⟨-, hothers, hplaced⟩ := placeItems_spec wanted.nodup hplace
  have hasked : ∀ mod, asked env value mod = wanted.get? mod := fun mod => by rw [asked, hwanted]
  -- what the recipe did with a module, in terms of the width it asks for
  have hcases : ∀ mod bits, asked env value mod = some bits →
      Placed base s.arms.donors mod bits (s.entry mod) (assign.get? mod, restore.get? mod) :=
    fun mod bits hbits => hplaced mod bits (PyDict.get?_eq_some_iff.mp (hasked mod ▸ hbits))
  refine ⟨fun mod => ?_, fun mod hselects hbase => ?_, rfl⟩
  · show (assign.get? mod, restore.get? mod) = _
    rcases Option.eq_none_or_eq_some (asked env value mod) with hbits | ⟨bits, hbits⟩
    · have hout : mod ∉ wanted.keys := by
        rw [← PyDict.get?_eq_none_iff, ← hasked, hbits]
      rw [(hothers mod hout).1, (hothers mod hout).2]
      simp [update, setsModule, selects, hbits, RuleState.entry]
    · rcases hcases mod bits hbits with ⟨hat, heq⟩ | ⟨hat, dd, hfind, heq⟩
      · simp [update, setsModule, selects, baseSuffices, hbits, hat, heq]
      · simp [update, setsModule, selects, baseSuffices, target, hbits, hat, heq, hfind]
  · obtain ⟨bits, hbits⟩ := Option.isSome_iff_exists.mp hselects
    replace hbase : isAt base mod bits = false := by simpa [baseSuffices, hbits] using hbase
    simp only [Demands, target, hbits]
    refine ⟨bits, rfl, ?_, fun hat => absurd hat (by simp [hbase])⟩
    rcases hcases mod bits hbits with ⟨hat, -⟩ | ⟨-, dd, hfind, -⟩
    · rw [hbase] at hat
      cases hat
    · rw [hfind]
      -- the donor found is filed under the path that is recorded
      obtain ⟨⟨dir, d⟩, hitem, heq⟩ := List.mem_map.mp (List.mem_of_find?_eq_some hfind)
      obtain rfl : d = dd := heq
      have hget := PyDict.get?_eq_some_iff.mpr hitem
      refine ⟨d, ?_, by simpa using List.find?_some hfind⟩
      rw [hfiled dir d hget]
      exact hget

/-- Every rule that does not exit. -/
theorem rule_steps {rule : Rule} (hfiled : s.arms.Filed)
    (h : applyRule env base s rule = .ok s') : Steps env base s rule s' := by
  cases rule with
  | fromDonor value =>
    obtain ⟨arms, hopen, h⟩ := bind_eq_ok h
    obtain rfl := Except.ok.inj h
    refine ⟨fun _ => rfl, fun _ hselects => absurd hselects Bool.false_ne_true, ?_⟩
    show arms = _
    rw [Arms.after, hopen]
  | keep value => exact keep_steps h
  | restore value => exact restore_steps h
  | map value => exact map_steps hfiled h
  | take value => exact take_steps h

/-! ## A whole command line -/

theorem Arms.after_spec (env : Env) (hfiled : arms.Filed) (rule : Rule) :
    (arms.after env rule).Filed ∧ arms.Extends (arms.after env rule) := by
  cases rule with
  | fromDonor value =>
    rcases hopen : arms.open env value with exit | arms'
    · rw [Arms.after, hopen]
      exact ⟨hfiled, fun _ _ hd => hd⟩
    · rw [Arms.after, hopen]
      exact open_spec hopen hfiled
  | take _ => exact ⟨hfiled, fun _ _ hd => hd⟩
  | restore _ => exact ⟨hfiled, fun _ _ hd => hd⟩
  | map _ => exact ⟨hfiled, fun _ _ hd => hd⟩
  | keep _ => exact ⟨hfiled, fun _ _ hd => hd⟩

/-- What a rule demanded stays in force when more donors are opened. -/
theorem Sound.mono {o : Applied} (h : Sound env base arms.donors o) (hext : arms.Extends arms') :
    Sound env base arms'.donors o := by
  intro mod hselects hbase
  have hdemands := h mod hselects hbase
  unfold Demands at hdemands ⊢
  revert hdemands
  cases o.rule with
  | map value =>
    rintro ⟨bits, hbits, hstores, honly⟩
    refine ⟨bits, hbits, ?_, honly⟩
    revert hstores
    cases target env o mod with
    | base => exact id
    | donor dir =>
      rintro ⟨d, hd, hat⟩
      exact ⟨d, hext dir d hd, hat⟩
    | restored _ => exact id
  | fromDonor _ => exact id
  | take _ => exact id
  | restore _ => exact id
  | keep _ => exact id

/-- A run of rules leaves, for every module, the source of the last rule that set it. -/
theorem run_spec {rules : List Rule} (sources : String → Source) (hfiled : s.arms.Filed)
    (hentry : ∀ mod, s.entry mod = (sources mod).entry)
    (h : rules.foldlM (applyRule env base) s = .ok s') :
    (∀ mod, s'.entry mod =
      (lastWins (update env base) sources (applied env s.arms rules) mod).entry) ∧
    (∀ o ∈ applied env s.arms rules, Sound env base s'.arms.donors o) ∧
    s.arms.Extends s'.arms := by
  induction rules generalizing s sources with
  | nil =>
    obtain rfl := Except.ok.inj h
    exact ⟨hentry, fun _ ho => absurd ho List.not_mem_nil, fun _ _ hd => hd⟩
  | cons rule rest ih =>
    rw [List.foldlM_cons] at h
    obtain ⟨s₁, hrule, h⟩ := bind_eq_ok h
    obtain ⟨hstep, hsound, harms⟩ := rule_steps hfiled hrule
    obtain ⟨hfiled₁, hext₁⟩ := Arms.after_spec env hfiled rule
    rw [← harms] at hfiled₁ hext₁
    have hentry₁ : ∀ mod, s₁.entry mod =
        ((update env base ⟨s.arms, rule⟩ mod).getD (sources mod)).entry := by
      intro mod
      rw [hstep, hentry]
      cases update env base ⟨s.arms, rule⟩ mod <;> rfl
    obtain ⟨hfinal, hsounds, hext⟩ := ih _ hfiled₁ hentry₁ h
    have hext' : s.arms.Extends s'.arms := fun dir d hd => hext dir d (hext₁ dir d hd)
    rw [applied, ← harms]
    refine ⟨hfinal, fun o ho => ?_, hext'⟩
    rcases List.mem_cons.mp ho with rfl | hrest
    · exact hsound.mono hext'
    · exact hsounds o hrest

theorem target_eq_base {o : Applied} {donors : PyDict String Donor}
    (hdemands : Demands env base donors o mod (target env o mod))
    (hselects : selects env base o mod = true) (hbase : baseSuffices env base o mod = false) :
    target env o mod = .base ↔ ∃ value, o.rule = .keep value := by
  obtain ⟨arms, rule⟩ := o
  cases rule with
  | fromDonor _ => exact absurd hselects Bool.false_ne_true
  | take _ => simp [target]
  | restore _ => simp [target]
  | keep value => simp [target]
  | map value =>
    obtain ⟨bits, hbits, hstores, -⟩ := hdemands
    replace hbase : isAt base mod bits = false := by simpa [baseSuffices, hbits] using hbase
    constructor
    · intro htarget
      rw [htarget] at hstores
      rw [hstores] at hbase
      cases hbase
    · rintro ⟨_, hrule⟩
      cases hrule

/-- What a resolved command line leaves for each module, and what its rules demand. -/
theorem resolve_spec {rules : List Rule} (h : resolve env base rules = .ok s) :
    (∀ mod, s.entry mod = (lastWins (update env base) (fun _ => .base)
      (applied env RuleState.start.arms rules) mod).entry) ∧
    ∀ o ∈ applied env RuleState.start.arms rules, Sound env base s.arms.donors o := by
  obtain ⟨-, -, h⟩ := bind_eq_ok h
  obtain ⟨s₁, hrun, h⟩ := bind_eq_ok h
  obtain ⟨-, -, h⟩ := bind_eq_ok h
  obtain rfl := Except.ok.inj h
  have hfiled : RuleState.start.arms.Filed := fun _ _ hd => absurd hd (by simp [RuleState.start])
  obtain ⟨hentry, hsound, -⟩ :=
    run_spec (fun _ => .base) hfiled (fun _ => rfl) hrun
  exact ⟨hentry, hsound⟩

/-- No module is both assigned and restored, whatever the rules. -/
theorem resolve_disjoint {rules : List Rule} (h : resolve env base rules = .ok s) :
    s.Disjoint := by
  intro mod
  have hpair := Prod.mk.inj ((resolve_spec h).1 mod)
  rw [hpair.1, hpair.2]
  cases lastWins (update env base) (fun _ => Source.base)
    (applied env RuleState.start.arms rules) mod with
  | base => exact .inl rfl
  | donor _ => exact .inr rfl
  | restored _ => exact .inl rfl

/-- The source is the target of the last rule that sets the module. -/
theorem source_eq_target {rules : List Rule} (h : resolve env base rules = .ok s) (mod : String) :
    s.source mod =
      match lastBy (setsModule env base mod) (applied env RuleState.start.arms rules) with
      | some o => target env o mod
      | none => .base := by
  have hupdate : ∀ o, (update env base o mod).isSome = setsModule env base mod o := by
    intro o
    rw [update]
    cases setsModule env base mod o <;> rfl
  rw [RuleState.source_of_entry ((resolve_spec h).1 mod), lastWins_eq]
  simp only [hupdate]
  cases hlast : lastBy (setsModule env base mod) (applied env RuleState.start.arms rules) with
  | none => rfl
  | some o =>
    show (update env base o mod).getD .base = target env o mod
    rw [update, lastBy_selected hlast]
    rfl

/-- A recipe that asks for the width the base has demands the base. -/
theorem demands_iff_base {donors : PyDict String Donor} {o : Applied} {src : Source}
    (h : baseSuffices env base o mod = true) : Demands env base donors o mod src ↔ src = .base := by
  unfold baseSuffices at h
  unfold Demands
  cases hrule : o.rule with
  | map value =>
    rw [hrule] at h
    rcases Option.eq_none_or_eq_some (asked env value mod) with hbits | ⟨bits, hbits⟩
    · simp [hbits] at h
    · simp only [hbits] at h
      simp only [hbits, Option.some.injEq, exists_eq_left', h, true_implies]
      constructor
      · exact And.right
      · rintro rfl
        exact ⟨h, rfl⟩
  | _ => simp [hrule] at h

/-- Later rules win in a resolved command line exactly where no recipe that asks for the base's own
width comes after another rule placed the module. -/
theorem resolve_later_wins {rules : List Rule} (h : resolve env base rules = .ok s) :
    LaterWins env base rules s ↔ IdleMapsFollowKeep env base rules := by
  obtain ⟨-, hsound⟩ := resolve_spec h
  rw [LaterWins, and_iff_left (resolve_disjoint h), IdleMapsFollowKeep]
  refine forall_congr' fun mod => ?_
  rw [source_eq_target h]
  set log := applied env RuleState.start.arms rules with hlog
  cases hlast : lastBy (selects env base · mod) log with
  | none =>
    have hnone : lastBy (setsModule env base mod) log = none := by
      rw [lastBy_eq_none] at hlast ⊢
      intro o ho
      rw [setsModule, hlast o ho, Bool.false_and]
    simp [hnone]
  | some o =>
    have hselects := lastBy_selected (p := fun r => selects env base r mod) hlast
    simp only [Option.some.injEq, forall_eq']
    rcases hbase : baseSuffices env base o mod with _ | _
    · -- the rule sets the module itself
      have hsets : lastBy (setsModule env base mod) log = some o :=
        lastBy_and_of_last hlast (by rw [hbase]; rfl)
      rw [hsets]
      simpa using hsound o (mem_of_lastBy hlast) mod hselects hbase
    · -- the rule leaves the module where the one before it put it
      rw [demands_iff_base hbase]
      simp only [true_implies]
      cases hset : lastBy (setsModule env base mod) log with
      | none => simp
      | some o' =>
        have hsets := lastBy_selected hset
        obtain ⟨hsel', hbase'⟩ : selects env base o' mod = true ∧
            baseSuffices env base o' mod = false := by simpa [setsModule] using hsets
        simp only [Option.some.injEq, forall_eq']
        exact target_eq_base (hsound o' (mem_of_lastBy hset) mod hsel' hbase') hsel' hbase'

/-! ### A head at four bits, an arm that has it at six -/

/-- The headers of a checkpoint that stores a quantized head of this trellis width, in words. -/
def headHeaders (dir : String) (last : Nat) : Tensors where
  items := [("lm_head.trellis", ⟨⟨dir, "model.safetensors"⟩, [8, 8, last], "I16"⟩),
    ("lm_head.suh", ⟨⟨dir, "model.safetensors"⟩, [128], "F16"⟩)]
  nodup := by
    show ["lm_head.trellis", "lm_head.suh"].Nodup
    decide

/-- A disk with one arm, and one recipe that asks for a four-bit head. -/
def headEnv : Env where
  readHeaders := fun dir => if dir = "arm" then .ok (headHeaders "arm" 96) else .error (.unreadable dir)
  readData := fun path => if path = "recipe.json" then .ok (.dict [(⟨"lm_head", true⟩, .int 4)])
    else .error (.mapUnreadable path)
  search := fun _ _ => false
  compile := fun _ => .ok fun _ => false
  fnmatchcase := fun _ _ => false

/-- The state after the head is taken from the arm. -/
def headTaken : RuleState where
  arms := ⟨some "arm", ⟨[("arm", ⟨"arm", headHeaders "arm" 96⟩)], by decide⟩⟩
  assign := ⟨[("lm_head", "arm")], by decide⟩
  restore := .empty

/-- `--from arm --take head --map recipe.json`: the recipe asks for the base's own four bits, and the
head still comes from the arm, at six. -/
theorem map_does_not_win :
    resolve headEnv (headHeaders "base" 64)
      [.fromDonor "arm", .take "head", .map "recipe.json"] = .ok headTaken ∧
    isAt (headHeaders "base" 64) "lm_head" 4 = true ∧
    headTaken.source "lm_head" = .donor "arm" ∧
    ¬LaterWins headEnv (headHeaders "base" 64)
      [.fromDonor "arm", .take "head", .map "recipe.json"] headTaken := by
  refine ⟨rfl, rfl, rfl, fun hwins => ?_⟩
  have hdemands : Demands headEnv (headHeaders "base" 64) headTaken.arms.donors
      ⟨headTaken.arms, .map "recipe.json"⟩ "lm_head" (.donor "arm") := hwins.1 "lm_head"
  obtain ⟨bits, hbits, -, honly⟩ := hdemands
  obtain rfl : (4 : Int) = bits := Option.some.inj hbits
  cases honly rfl

/-- The head is taken, left as it is by the recipe, and taken again. -/
def headRules : List Rule := [.fromDonor "arm", .take "head", .map "recipe.json", .take "head"]

theorem asked_recipe {mod : String} (h : mod ≠ "lm_head") : asked headEnv "recipe.json" mod = none := by
  show PyDict.get? ⟨[("lm_head", (4 : Int))], _⟩ mod = none
  rw [PyDict.get?_eq_none_iff]
  exact fun hmem => h (List.mem_singleton.mp hmem)

theorem headRules_idle : IdleMapsFollowKeep headEnv (headHeaders "base" 64) headRules := by
  intro mod o ho hbase
  by_cases hmod : mod = "lm_head"
  · subst hmod
    -- the last rule of the head is the second `--take`, which is no recipe
    obtain rfl := Option.some.inj (ho.symm.trans
      (show _ = some ⟨headTaken.arms, .take "head"⟩ from rfl))
    cases hbase
  · cases hrule : o.rule with
    | map value =>
      have hmem : o ∈ [⟨RuleState.start.arms, .fromDonor "arm"⟩, ⟨headTaken.arms, .take "head"⟩,
          ⟨headTaken.arms, .map "recipe.json"⟩, ⟨headTaken.arms, .take "head"⟩] := mem_of_lastBy ho
      have hvalue : value = "recipe.json" := by
        simp only [List.mem_cons, List.not_mem_nil, or_false] at hmem
        rcases hmem with rfl | rfl | rfl | rfl
        · cases hrule
        · cases hrule
        · exact (Rule.map.inj hrule).symm
        · cases hrule
      simp [baseSuffices, hrule, hvalue, asked_recipe hmod] at hbase
    | fromDonor value => simp [baseSuffices, hrule] at hbase
    | take value => simp [baseSuffices, hrule] at hbase
    | restore value => simp [baseSuffices, hrule] at hbase
    | keep value => simp [baseSuffices, hrule] at hbase

/-- With a `--take` after the recipe the last rule is that one. -/
theorem take_wins : LaterWins headEnv (headHeaders "base" 64) headRules headTaken :=
  (resolve_later_wins (show resolve headEnv (headHeaders "base" 64) headRules = .ok headTaken from
    rfl)).mpr headRules_idle

end VllmExl3.Compose
