/-
# VllmExl3.Compose.KeepsModel — a composition that is not forced is of the same model

The checks of `main` look at headers alone, and what `write` then puts on disk is not looked at again. Still
they decide what the output is: the same modules, each with the shapes the base gives it, a trellis at another
width only where it stands for a matrix of the same dimensions, and in a restored module's place a matrix that
pads to those dimensions (`compose_keeps_model`). This is about every command line that is not forced, over
checkpoints whose replaced modules lie in one shard each.
-/
import VllmExl3.Compose.Checks
import VllmExl3.Compose.LaterWins

namespace VllmExl3.Compose

open PyStr PyPath Names Format

/-! ## The promise -/

/-- A directory stores a tensor, in one shard or another. -/
def StoresIn (json : Json) (out : Dir) (name : String) (st : Stored) : Prop :=
  ∃ shard, Holds json out shard name st

/-- The output is of the base's model, `restore` being the modules that were restored. -/
structure KeepsModel (json : Json) (base_t : Tensors) (restore : PyDict String String) (out : Dir) : Prop where
  once : ∀ name shard shard' st st', Holds json out shard name st → Holds json out shard' name st' →
    shard = shard'
  modules : ∀ mod, (∃ name st, moduleKey name = mod ∧ StoresIn json out name st) ↔ mod ∈ base_t.modules.keys
  present : ∀ name, restore.get? (moduleKey name) = none → endswith name ".mcg" = false →
    endswith name ".mul1" = false → ((∃ st, StoresIn json out name st) ↔ name ∈ base_t.keys)
  shapes : ∀ name st info, restore.get? (moduleKey name) = none → StoresIn json out name st →
    base_t.get? name = some info → SameShape name (some info.shape) (some st.shape)
  restored : ∀ mod, (restore.get? mod).isSome → ∃ trellis st, base_t.get? (mod ++ ".trellis") = some trellis ∧
    StoresIn json out (mod ++ ".weight") st ∧ PadsTo st.shape trellis.shape
  bias : ∀ mod, (restore.get? mod).isSome → mod ++ ".bias" ∈ base_t.keys →
    ∃ st, StoresIn json out (mod ++ ".bias") st
  dense : ∀ name st, (restore.get? (moduleKey name)).isSome → StoresIn json out name st → isDense name = true

variable {json : Json} {disk : Disk} {base d : String} {t base_t : Tensors} {donors : PyDict String Donor}
  {assign restore : PyDict String String} {out : Dir} {name mod : String} {moves : List Move}
  {weight_map : PyDict String String}

/-! ## What headers say -/

/-- A tensor that headers record lies in the file they say, with the shape they say. -/
def Recorded (json : Json) (disk : Disk) (t : Tensors) : Prop :=
  ∀ name info, t.get? name = some info →
    ∃ st, tensorIn json (disk.file info.path) name = some st ∧ st.shape = info.shape

theorem readHeader_recorded {p : String} {t' : Tensors} (ht : Recorded json disk t)
    (h : readHeader json disk d t p = .ok t') : Recorded json disk t' := by
  obtain ⟨file, hfile, h⟩ := bind_eq_ok h
  obtain ⟨⟨n, header⟩, hheader, h⟩ := bind_eq_ok h
  obtain rfl := Except.ok.inj h
  intro name info hinfo
  rw [PyDict.get?_update, PyDict.get?_mapValues] at hinfo
  cases hrec : header.tensors.get? name with
  | none =>
    rw [hrec] at hinfo
    exact ht name info hinfo
  | some rec =>
    rw [hrec] at hinfo
    obtain rfl := Option.some.inj hinfo
    refine ⟨⟨rec.dtype, rec.shape, slice (8 + n + rec.data_offsets.1) (8 + n + rec.data_offsets.2) file⟩,
      ?_, rfl⟩
    rw [Disk.read_eq_ok hfile, tensorIn, loadHeader_eq_ok.mp hheader, Option.bind_some]
    show (header.tensors.get? name).map _ = _
    rw [hrec]
    rfl

theorem readHeaders_recorded (h : readHeaders json disk d = .ok t) : Recorded json disk t := by
  obtain ⟨-, -, h⟩ := bind_eq_ok h
  obtain ⟨-, -, h⟩ := bind_eq_ok h
  exact foldlM_invariant (fun _ ht _ _ _ hshard => readHeader_recorded ht hshard)
    (fun name info hinfo => by cases hinfo) h

/-- What is stored under a recorded name has the recorded shape. -/
theorem Recorded.stored (ht : Recorded json disk t) {info : TensorInfo} (hinfo : t.get? name = some info) :
    ∃ st, t.stored json disk name = some st ∧ st.shape = info.shape := by
  obtain ⟨st, hst, hshape⟩ := ht name info hinfo
  refine ⟨st, ?_, hshape⟩
  rw [Tensors.stored, hinfo]
  exact hst

theorem Recorded.of_stored (ht : Recorded json disk t) {st : Stored} (hst : t.stored json disk name = some st) :
    ∃ info, t.get? name = some info ∧ info.shape = st.shape := by
  obtain ⟨info, hinfo, hin⟩ := Option.bind_eq_some_iff.mp hst
  obtain ⟨st', hst', hshape⟩ := ht name info hinfo
  obtain rfl := Option.some.inj (hin.symm.trans hst')
  exact ⟨info, hinfo, hshape.symm⟩

/-! ## What the rules leave -/

/-- Every donor is filed under its path and was read from it. -/
def Arms.Read (env : Env) (arms : Arms) : Prop :=
  ∀ dir donor, arms.donors.get? dir = some donor → env.readHeaders dir = .ok donor.tensors

variable {env : Env} {s s' : RuleState} {arms arms' : Arms}

theorem open_read {value : String} (harms : arms.Read env) (h : arms.open env value = .ok arms') :
    arms'.Read env := by
  unfold Arms.open at h
  dsimp only at h
  split_ifs at h
  · obtain rfl := Except.ok.inj h
    exact harms
  · cases hread : env.readHeaders (normpath value) with
    | error exit =>
      rw [hread] at h
      cases h
    | ok t =>
      rw [hread] at h
      obtain rfl := Except.ok.inj h
      intro dir donor hdonor
      rcases PyDict.of_get?_set hdonor with ⟨rfl, rfl⟩ | ⟨-, hold⟩
      · exact hread
      · exact harms dir donor hold

theorem after_read (harms : arms.Read env) (rule : Rule) : (arms.after env rule).Read env := by
  cases rule with
  | fromDonor value =>
    cases hopen : arms.open env value with
    | error exit =>
      rw [Arms.after, hopen]
      exact harms
    | ok arms' =>
      rw [Arms.after, hopen]
      exact open_read harms hopen
  | _ => exact harms

theorem resolve_read {rules : List Rule} (h : resolve env base_t rules = .ok s) : s.arms.Read env := by
  obtain ⟨-, -, h⟩ := bind_eq_ok h
  obtain ⟨s₁, hrun, h⟩ := bind_eq_ok h
  obtain ⟨-, -, h⟩ := bind_eq_ok h
  obtain rfl := Except.ok.inj h
  have hkeep : s₁.arms.Filed ∧ s₁.arms.Read env := by
    refine foldlM_invariant (P := fun s : RuleState => s.arms.Filed ∧ s.arms.Read env) ?_ ?_ hrun
    · rintro s ⟨hfiled, hread⟩ rule - s' hrule
      rw [(rule_steps hfiled hrule).2.2]
      exact ⟨(Arms.after_spec env hfiled rule).1, after_read hread rule⟩
    · exact ⟨fun _ _ hd => absurd hd (by simp [RuleState.start]), fun _ _ hd => absurd hd
        (by simp [RuleState.start])⟩
  exact hkeep.2

/-! ## What the checks leave -/

/-- What the checks accepted of the modules that change. -/
structure Accepted (base_t : Tensors) (donors : PyDict String Donor) (assign restore : PyDict String String) :
    Prop where
  taken : ∀ mod dir donor, assign.get? mod = some dir → donors.get? dir = some donor →
    (∃ name ∈ donor.tensors.keys, moduleKey name = mod) ∧ ∀ name, moduleKey name = mod →
      SameShape name ((base_t.get? name).map (·.shape)) ((donor.tensors.get? name).map (·.shape))
  restored : ∀ mod dir donor, restore.get? mod = some dir → donors.get? dir = some donor →
    (∃ trellis weight, base_t.get? (mod ++ ".trellis") = some trellis ∧
      donor.tensors.get? (mod ++ ".weight") = some weight ∧ PadsTo weight.shape trellis.shape) ∧
    ((base_t.get? (mod ++ ".bias")).isSome → (donor.tensors.get? (mod ++ ".bias")).isSome)

theorem bothGroups_ok {move : String × String} {groups : List String × Donor × List String} {donor : Donor}
    (h : bothGroups base_t donors move = .ok groups) (hdonor : donors.get? move.2 = some donor) :
    groups.2.1 = donor ∧ base_t.modules.get? move.1 = some groups.1 ∧
      donor.tensors.modules.get? move.1 = some groups.2.2 := by
  obtain ⟨d, hd, h⟩ := bind_eq_ok h
  obtain ⟨base_group, hbase, h⟩ := bind_eq_ok h
  obtain ⟨donor_group, hgroup, h⟩ := bind_eq_ok h
  obtain rfl := Except.ok.inj h
  rw [item_eq_ok] at hd hbase hgroup
  obtain rfl := Option.some.inj (hd.symm.trans hdonor)
  exact ⟨rfl, hbase, hgroup⟩

section Findings

variable {V : Type} [DecidableEq V] {loads : Bytes → Option (ModelConfig V)}
  {verify_restores : Tensors → PyDict String Donor → PyDict String String → Int → Except Exit (List Problem)}
  {verify : Int} {base_cfg : ModelConfig V} {problems : List Problem}

theorem findings_accepted (h : findings disk loads verify_restores verify base_cfg base_t s = .ok problems)
    (hproblems : NoErrors problems) : Accepted base_t s.arms.donors s.assign s.restore := by
  obtain ⟨donors, -, h⟩ := bind_eq_ok h
  obtain ⟨restored, hrestored, h⟩ := bind_eq_ok h
  obtain ⟨verified, -, h⟩ := bind_eq_ok h
  obtain ⟨taken, htaken, h⟩ := bind_eq_ok h
  rw [← Except.ok.inj h, noErrors_append, noErrors_append, noErrors_append, noErrors_append] at hproblems
  obtain ⟨⟨⟨⟨-, hnone⟩, -⟩, hnone'⟩, -⟩ := hproblems
  constructor
  · intro mod dir donor hassign hdonor
    obtain ⟨⟨found, changed⟩, hmem, hcall⟩ := exists_of_mapM_ok htaken (mem_sortedItems.mpr hassign)
    obtain ⟨⟨base_group, d, donor_group⟩, hgroups, hcall⟩ := bind_eq_ok hcall
    obtain ⟨found', hfound, hcall⟩ := bind_eq_ok hcall
    obtain ⟨rfl, -⟩ := Prod.mk.inj (Except.ok.inj hcall)
    obtain ⟨rfl, hbase, hgroup⟩ := bothGroups_ok hgroups hdonor
    refine ⟨mem_keys_modulesOf.mp (PyDict.mem_keys_of_get? hgroup), fun name hname => ?_⟩
    exact checkModule_ok hbase hgroup hfound
      (noErrors_flatten.mp hnone' found' (List.mem_map_of_mem (f := Prod.fst) hmem)) hname
  · intro mod dir donor hrestore hdonor
    obtain ⟨found, hmem, hcall⟩ := exists_of_mapM_ok hrestored (mem_sortedItems.mpr hrestore)
    obtain ⟨⟨base_group, d, donor_group⟩, hgroups, hfound⟩ := bind_eq_ok hcall
    obtain ⟨rfl, hbase, hgroup⟩ := bothGroups_ok hgroups hdonor
    exact checkRestoreModule_ok hbase hgroup hfound (noErrors_flatten.mp hnone found hmem)

/-- Two configs without an error are of one architecture. -/
theorem checkSameModel_ok {donor_cfg : ModelConfig V} (h : NoErrors (checkSameModel base_cfg donor_cfg))
    (hbase : base_cfg.items ≠ []) (hdonor : donor_cfg.items ≠ []) {key : String}
    (hkey : key ∈ ["architectures", "model_type"]) : base_cfg.read key = donor_cfg.read key := by
  unfold checkSameModel at h
  rw [if_neg (by simp [hbase, hdonor])] at h
  by_contra hdiffer
  have hread : key ∈ base_cfg.keys ++ donor_cfg.keys := by
    rw [List.mem_append]
    by_contra hnone
    rw [not_or, ← PyDict.get?_eq_none_iff, ← PyDict.get?_eq_none_iff] at hnone
    exact hdiffer (by rw [ModelConfig.read, ModelConfig.read, hnone.1, hnone.2])
  have hignored : key ∉ CONFIG_IGNORED := by
    revert hkey
    simp only [CONFIG_IGNORED, List.mem_cons, List.not_mem_nil, or_false]
    rintro (rfl | rfl) <;> decide
  have hmem : Problem.configDiffers key ∈ (((base_cfg.keys ++ donor_cfg.keys).dedup.filter
      (· ∉ CONFIG_IGNORED)).insertionSort (· ≤ ·)).filterMap fun key =>
        if base_cfg.read key ≠ donor_cfg.read key then some (Problem.configDiffers key) else none := by
    refine List.mem_filterMap.mpr ⟨key, ?_, if_pos hdiffer⟩
    simpa [hignored] using hread
  have hlevel := h _ hmem
  rw [Problem.level, if_pos hkey] at hlevel
  cases hlevel

theorem findings_sameModel (h : findings disk loads verify_restores verify base_cfg base_t s = .ok problems)
    (hproblems : NoErrors problems) {dir : String} {donor : Donor}
      (hdonor : s.arms.donors.get? dir = some donor) :
    ∃ donor_cfg, loadConfig loads disk dir = .ok donor_cfg ∧ NoErrors (checkSameModel base_cfg donor_cfg) := by
  obtain ⟨donors, hdonors, h⟩ := bind_eq_ok h
  obtain ⟨restored, -, h⟩ := bind_eq_ok h
  obtain ⟨verified, -, h⟩ := bind_eq_ok h
  obtain ⟨taken, -, h⟩ := bind_eq_ok h
  rw [← Except.ok.inj h, noErrors_append, noErrors_append, noErrors_append, noErrors_append] at hproblems
  obtain ⟨⟨⟨⟨hnone, -⟩, -⟩, -⟩, -⟩ := hproblems
  obtain ⟨found, hmem, hcall⟩ := exists_of_mapM_ok hdonors (PyDict.get?_eq_some_iff.mp hdonor)
  obtain ⟨donor_cfg, hcfg, hcall⟩ := bind_eq_ok hcall
  have hfound := noErrors_flatten.mp hnone found hmem
  rw [← Except.ok.inj hcall, noErrors_append] at hfound
  exact ⟨donor_cfg, hcfg, hfound.1⟩

end Findings

/-! ## What is written -/

section Output

variable (hbase : readHeaders json disk base = .ok base_t) (hone : OneShardEach json disk base)
  (hdisjoint : ∀ mod, assign.get? mod = none ∨ restore.get? mod = none)
  (hmoves : AreMoves base_t donors assign restore moves) (hout : Written json disk base_t moves weight_map out)
  (hwhole : ReplacedInOneShard base_t assign restore)

include hbase hone hmoves hout

theorem storesIn_kept (hassign : assign.get? (moduleKey name) = none)
    (hrestore : restore.get? (moduleKey name) = none) {st : Stored} :
    StoresIn json out name st ↔ base_t.stored json disk name = some st := by
  simp only [StoresIn, holds_kept hbase hone hmoves hout hassign hrestore]
  constructor
  · rintro ⟨_, _, _, _, hstored⟩
    exact hstored
  · intro hstored
    obtain ⟨info, hinfo, -⟩ := Option.bind_eq_some_iff.mp hstored
    exact ⟨_, info, hinfo, rfl, hstored⟩

include hdisjoint hwhole

theorem storesIn_replaced {donor : Donor} {brings : String → Bool}
    (h : Replaced donors assign restore (moduleKey name) donor brings) {st : Stored} :
    StoresIn json out name st ↔ brings name = true ∧ donor.tensors.stored json disk name = some st := by
  have hreplaced : (assign.get? (moduleKey name)).isSome ∨ (restore.get? (moduleKey name)).isSome := by
    rcases h with ⟨dir, hdir, -⟩ | ⟨dir, hdir, -⟩ <;> simp [hdir]
  obtain ⟨m, d', brings', hm⟩ := hmoves.of_replaced hreplaced
  obtain ⟨rfl, rfl⟩ := hm.replaced.unique hdisjoint h
  simp only [StoresIn, holds_replaced hbase hone hdisjoint hmoves hout hwhole hm, exists_and_right, exists_eq',
    true_and]

variable (hread : ∀ dir donor, donors.get? dir = some donor → Recorded json disk donor.tensors)
  (haccepted : Accepted base_t donors assign restore)

omit hbase hone hout hwhole hdisjoint in
/-- A module is kept, taken or restored. -/
theorem kept_or_replaced (mod : String) :
    assign.get? mod = none ∧ restore.get? mod = none ∨
    (∃ dir donor, assign.get? mod = some dir ∧ donors.get? dir = some donor) ∨
    ∃ dir donor, restore.get? mod = some dir ∧ donors.get? dir = some donor := by
  by_cases h : (assign.get? mod).isSome ∨ (restore.get? mod).isSome
  · obtain ⟨m, donor, brings, hm⟩ := hmoves.of_replaced h
    rcases hm.replaced with ⟨dir, hdir, hdonor, -⟩ | ⟨dir, hdir, hdonor, -⟩
    · exact .inr (.inl ⟨dir, donor, hdir, hdonor⟩)
    · exact .inr (.inr ⟨dir, donor, hdir, hdonor⟩)
  · exact .inl (by simpa using h)

omit hdisjoint hwhole in
/-- What is stored of a kept module has the base's shape, and all of it is stored. -/
theorem kept_shape (hassign : assign.get? (moduleKey name) = none)
    (hrestore : restore.get? (moduleKey name) = none) (shape : List Nat) :
    (∃ st, StoresIn json out name st ∧ st.shape = shape) ↔ (base_t.get? name).map (·.shape) = some shape := by
  have hrecorded := readHeaders_recorded hbase
  rw [Option.map_eq_some_iff]
  constructor
  · rintro ⟨st, hst, rfl⟩
    exact hrecorded.of_stored ((storesIn_kept hbase hone hmoves hout hassign hrestore).mp hst)
  · rintro ⟨info, hinfo, rfl⟩
    obtain ⟨st, hst, hshape⟩ := hrecorded.stored hinfo
    exact ⟨st, (storesIn_kept hbase hone hmoves hout hassign hrestore).mpr hst, hshape⟩

include hread

/-- What is stored of a replaced module has its donor's shape, and all that travels is stored. -/
theorem replaced_shape {dir : String} {donor : Donor} {brings : String → Bool}
    (hdonor : donors.get? dir = some donor)
    (h : Replaced donors assign restore (moduleKey name) donor brings) (hbrings : brings name = true)
    (shape : List Nat) :
    (∃ st, StoresIn json out name st ∧ st.shape = shape) ↔
      (donor.tensors.get? name).map (·.shape) = some shape := by
  rw [Option.map_eq_some_iff]
  constructor
  · rintro ⟨st, hst, rfl⟩
    exact (hread dir donor hdonor).of_stored
      ((storesIn_replaced hbase hone hdisjoint hmoves hout hwhole h).mp hst).2
  · rintro ⟨info, hinfo, rfl⟩
    obtain ⟨st, hst, hshape⟩ := (hread dir donor hdonor).stored hinfo
    exact ⟨st, (storesIn_replaced hbase hone hdisjoint hmoves hout hwhole h).mpr ⟨hbrings, hst⟩, hshape⟩

include haccepted

/-- The shapes stored under a name of a module that is not restored are as the base's. -/
theorem sameShape_of_accepted (hrestore : restore.get? (moduleKey name) = none) :
    ∃ shape, SameShape name ((base_t.get? name).map (·.shape)) shape ∧
      ∀ s, (∃ st, StoresIn json out name st ∧ st.shape = s) ↔ shape = some s := by
  rcases kept_or_replaced hmoves (moduleKey name) with ⟨hassign, -⟩ | ⟨dir, donor, hassign, hdonor⟩ |
    ⟨dir, donor, hdir, -⟩
  · refine ⟨_, ?_, kept_shape hbase hone hmoves hout hassign hrestore⟩
    cases base_t.get? name with
    | none => trivial
    | some info => exact .inl rfl
  · refine ⟨_, (haccepted.taken _ dir donor hassign hdonor).2 name rfl, ?_⟩
    exact replaced_shape hbase hone hdisjoint hmoves hout hwhole hread hdonor
      (.inl ⟨dir, hassign, hdonor, rfl⟩) rfl
  · rw [hrestore] at hdir
    cases hdir

/-- A restored module is its donor's dense tensors, and those fit. -/
theorem restored_of_accepted {dir : String} {donor : Donor} (hrestore : restore.get? mod = some dir)
    (hdonor : donors.get? dir = some donor) :
    (∃ trellis st, base_t.get? (mod ++ ".trellis") = some trellis ∧ StoresIn json out (mod ++ ".weight") st ∧
      PadsTo st.shape trellis.shape) ∧
    (mod ++ ".bias" ∈ base_t.keys → ∃ st, StoresIn json out (mod ++ ".bias") st) := by
  have hreplaced : ∀ suffix ∈ GROUPING_SUFFIXES,
      Replaced donors assign restore (moduleKey (mod ++ suffix)) donor isDense := by
    intro suffix hsuffix
    rw [moduleKey_append hsuffix]
    exact .inr ⟨dir, hrestore, hdonor, rfl⟩
  have hdense : ∀ suffix ∈ [".weight", ".bias"], isDense (mod ++ suffix) = true := by
    simp [isDense, endswith_append]
  obtain ⟨⟨trellis, weight, htrellis, hweight, hpads⟩, hbias⟩ :=
    haccepted.restored mod dir donor hrestore hdonor
  constructor
  · obtain ⟨st, hst, hshape⟩ := (replaced_shape hbase hone hdisjoint hmoves hout hwhole hread hdonor
      (hreplaced ".weight" (by decide)) (hdense ".weight" (by decide)) weight.shape).mpr (by rw [hweight]; rfl)
    exact ⟨trellis, st, htrellis, hst, hshape ▸ hpads⟩
  · intro hin
    obtain ⟨info, hinfo⟩ := Option.isSome_iff_exists.mp (hbias (PyDict.isSome_get?_iff.mpr hin))
    obtain ⟨st, hst, -⟩ := (replaced_shape hbase hone hdisjoint hmoves hout hwhole hread hdonor
      (hreplaced ".bias" (by decide)) (hdense ".bias" (by decide)) info.shape).mpr (by rw [hinfo]; rfl)
    exact ⟨st, hst⟩

/-- The modules stored are the base's. -/
theorem modules_of_accepted (mod : String) :
    (∃ name st, moduleKey name = mod ∧ StoresIn json out name st) ↔ mod ∈ base_t.modules.keys := by
  rw [Tensors.modules, mem_keys_modulesOf]
  constructor
  · rintro ⟨name, st, rfl, hst⟩
    rcases kept_or_replaced hmoves (moduleKey name) with ⟨hassign, hrestore⟩ | ⟨dir, _, hdir, -⟩ |
      ⟨dir, _, hdir, -⟩
    · obtain ⟨info, hinfo, -⟩ := (readHeaders_recorded hbase).of_stored
        ((storesIn_kept hbase hone hmoves hout hassign hrestore).mp hst)
      exact ⟨name, PyDict.mem_keys_of_get? hinfo, rfl⟩
    all_goals
      have hreplaced : (assign.get? (moduleKey name)).isSome ∨ (restore.get? (moduleKey name)).isSome := by
        simp [hdir]
      obtain ⟨m, d, brings, hm⟩ := hmoves.of_replaced hreplaced
      obtain ⟨n, info, hinfo, hn, -⟩ := hm.isMove.begins
      exact ⟨n, PyDict.mem_keys_of_get? hinfo, hn.trans hm.mod_eq⟩
  · rintro ⟨name, hname, rfl⟩
    rcases kept_or_replaced hmoves (moduleKey name) with ⟨hassign, hrestore⟩ | ⟨dir, donor, hassign, hdonor⟩ |
      ⟨dir, donor, hrestore, hdonor⟩
    · obtain ⟨info, hinfo⟩ := Option.isSome_iff_exists.mp (PyDict.isSome_get?_iff.mpr hname)
      obtain ⟨st, hst, -⟩ := (kept_shape hbase hone hmoves hout hassign hrestore info.shape).mpr
        (by rw [hinfo]; rfl)
      exact ⟨name, st, rfl, hst⟩
    · obtain ⟨n, hn, hmod⟩ := (haccepted.taken _ dir donor hassign hdonor).1
      obtain ⟨info, hinfo⟩ := Option.isSome_iff_exists.mp (PyDict.isSome_get?_iff.mpr hn)
      have hreplaced : Replaced donors assign restore (moduleKey n) donor fun _ => true :=
        .inl ⟨dir, hmod ▸ hassign, hdonor, rfl⟩
      obtain ⟨st, hst, -⟩ := (replaced_shape hbase hone hdisjoint hmoves hout hwhole hread hdonor hreplaced rfl
        info.shape).mpr (by rw [hinfo]; rfl)
      exact ⟨n, st, hmod, hst⟩
    · obtain ⟨-, st, -, hst, -⟩ := (restored_of_accepted hbase hone hdisjoint hmoves hout hwhole hread haccepted
        hrestore hdonor).1
      exact ⟨_, st, moduleKey_append (by decide), hst⟩

omit hbase hone hout hwhole hread haccepted in
/-- A restored module has a donor. -/
theorem restored_donor (h : (restore.get? mod).isSome) :
    ∃ dir donor, restore.get? mod = some dir ∧ donors.get? dir = some donor := by
  rcases kept_or_replaced hmoves mod with ⟨-, hnone⟩ | ⟨dir, _, hdir, -⟩ | hrestored
  · simp [hnone] at h
  · rcases hdisjoint mod with hnone | hnone
    · simp [hnone] at hdir
    · simp [hnone] at h
  · exact hrestored

/-- What is written of accepted moves is of the base's model. -/
theorem keepsModel_of_accepted : KeepsModel json base_t restore out where
  once _ _ _ _ _ := holds_once hbase hone hdisjoint hmoves hout hwhole
  modules := modules_of_accepted hbase hone hdisjoint hmoves hout hwhole hread haccepted
  present name hrestore hmcg hmul1 := by
    obtain ⟨shape, hsame, hshape⟩ :=
      sameShape_of_accepted hbase hone hdisjoint hmoves hout hwhole hread haccepted hrestore
    rw [← PyDict.isSome_get?_iff, ← Option.isSome_map (f := (·.shape)), hsame.isSome_eq hmcg hmul1,
      Option.isSome_iff_exists]
    simp only [← hshape]
    exact ⟨fun ⟨st, hst⟩ => ⟨st.shape, st, hst, rfl⟩, fun ⟨_, st, hst, _⟩ => ⟨st, hst⟩⟩
  shapes name st info hrestore hst hinfo := by
    obtain ⟨shape, hsame, hshape⟩ :=
      sameShape_of_accepted hbase hone hdisjoint hmoves hout hwhole hread haccepted hrestore
    rw [hinfo, (hshape st.shape).mp ⟨st, hst, rfl⟩] at hsame
    exact hsame
  restored mod hsome := by
    obtain ⟨dir, donor, hrestore, hdonor⟩ := restored_donor hdisjoint hmoves hsome
    exact (restored_of_accepted hbase hone hdisjoint hmoves hout hwhole hread haccepted hrestore hdonor).1
  bias mod hsome := by
    obtain ⟨dir, donor, hrestore, hdonor⟩ := restored_donor hdisjoint hmoves hsome
    exact (restored_of_accepted hbase hone hdisjoint hmoves hout hwhole hread haccepted hrestore hdonor).2
  dense name st hsome hst := by
    obtain ⟨dir, donor, hrestore, hdonor⟩ := restored_donor hdisjoint hmoves hsome
    exact ((storesIn_replaced hbase hone hdisjoint hmoves hout hwhole
      (.inr ⟨dir, hrestore, hdonor, rfl⟩)).mp hst).1

end Output

/-! ## A run of the tool -/

section Main

variable {V : Type} [DecidableEq V] {loads : Bytes → Option (ModelConfig V)}
  {verify_restores : Tensors → PyDict String Donor → PyDict String String → Int → Except Exit (List Problem)}
  {args : MainArgs} {plan : MainPlan}

theorem main_eq_ok (h : main json disk env loads verify_restores args = .ok (some out))
    (hplan : planComposition json disk env loads verify_restores args = .ok plan)
      (hforce : args.force = false) :
    NoErrors plan.problems ∧ write json disk args.base args.output plan.base_t plan.rules.arms.donors
      plan.rules.assign plan.rules.restore = .ok out := by
  rw [main, hplan] at h
  dsimp only at h
  split_ifs at h with herrors hdry
  · cases h
  constructor
  · simpa [hforce, List.filter_eq_nil_iff, NoErrors, Problem.level_ne_error] using herrors
  · cases hwrite : write json disk args.base args.output plan.base_t plan.rules.arms.donors plan.rules.assign
        plan.rules.restore with
    | error e =>
      rw [hwrite] at h
      cases h
    | ok dir =>
      rw [hwrite] at h
      rw [Option.some.inj (Except.ok.inj h)]

/-- What the tool writes without being forced is of the base's model, whatever the rules are, and every donor
whose config is there is of one architecture with the base. -/
theorem compose_keeps_model (h : main json disk env loads verify_restores args = .ok (some out))
    (hforce : args.force = false) (hplan : planComposition json disk env loads verify_restores args = .ok plan)
    (hone : OneShardEach json disk args.base)
    (hwhole : ReplacedInOneShard plan.base_t plan.rules.assign plan.rules.restore) :
    KeepsModel json plan.base_t plan.rules.restore out ∧
    ∀ base_cfg, loadConfig loads disk args.base = .ok base_cfg → base_cfg.items ≠ [] →
      ∀ dir donor, plan.rules.arms.donors.get? dir = some donor →
        ∃ donor_cfg, loadConfig loads disk dir = .ok donor_cfg ∧ (donor_cfg.items ≠ [] →
          ∀ key ∈ ["architectures", "model_type"], base_cfg.read key = donor_cfg.read key) := by
  obtain ⟨hnone, hwrite⟩ := main_eq_ok h hplan hforce
  obtain ⟨-, -, hplan⟩ := bind_eq_ok hplan
  obtain ⟨base_t, hbase, hplan⟩ := bind_eq_ok hplan
  obtain ⟨base_cfg, hcfg, hplan⟩ := bind_eq_ok hplan
  obtain ⟨s, hresolve, hplan⟩ := bind_eq_ok hplan
  obtain ⟨problems, hfindings, hplan⟩ := bind_eq_ok hplan
  obtain ⟨-, -, hplan⟩ := bind_eq_ok hplan
  obtain rfl := Except.ok.inj hplan
  have hread : ∀ dir donor, s.arms.donors.get? dir = some donor → Recorded json disk donor.tensors :=
    fun dir donor hdonor => readHeaders_recorded (resolve_read hresolve dir donor hdonor)
  obtain ⟨moves, dir, weight_map, hmovesOf, hloop, hdir, -⟩ := write_spec hwrite
  have hmoves := movesOf_spec hmovesOf
  have hdisjoint := resolve_disjoint hresolve
  have hout := written hbase hone hdisjoint hmoves hloop hdir
  refine ⟨keepsModel_of_accepted hbase hone hdisjoint hmoves hout hwhole hread
    (findings_accepted hfindings hnone), fun base_cfg' hcfg' hitems dir donor hdonor => ?_⟩
  obtain rfl := Except.ok.inj (hcfg.symm.trans hcfg')
  obtain ⟨donor_cfg, hdonor_cfg, hsame⟩ := findings_sameModel hfindings hnone hdonor
  exact ⟨donor_cfg, hdonor_cfg, fun hitems' key hkey => checkSameModel_ok hsame hitems hitems' hkey⟩

end Main

/-! ### A norm taken from an arm -/

/-- The config both checkpoints come with. -/
def layerConfig : ModelConfig String := ⟨[("model_type", some "llama")], by simp⟩

def configText : Bytes := utf8 "\x7b\"model_type\": \"llama\"\x7d"

/-- `json.load`, on that text. -/
def loadsConfig (file : Bytes) : Option (ModelConfig String) :=
  if file = configText then some layerConfig else none

/-- The two checkpoints, with it. -/
def configDisk : Disk := fun dir => (layerDisk dir).map (·.set "config.json" configText)

/-- An environment for rules that match nothing by pattern and read no recipe. -/
def noPatterns : Env where
  readHeaders dir := .error (.noSafetensors dir)
  readData path := .error (.unreadable path)
  search _ _ := false
  compile _ := .ok fun _ => false
  fnmatchcase _ _ := false

def takeNorm : MainArgs where
  base := "base"
  output := "out"
  rules := [.fromDonor "arm", .take "norm"]
  verify := 2
  dry_run := false
  force := false

/-- What is decided before writing. -/
def takeNormPlan : MainPlan where
  base_t := baseTensors
  rules := ⟨⟨some "arm", layerArms⟩, fromArm "norm", .empty⟩
  problems := []

/-- What is written: the config travels. -/
def takeNormOut : Dir :=
  ⟨[("model-1.safetensors", shardFile normHeader (filled [1, 12])),
    ("model-2.safetensors", shardFile baseHeader₂ (filled [3, 4])), ("config.json", configText),
    (INDEX_NAME, utf8 (indexText (layerIndex 432 "model-1.safetensors")))], by decide⟩

/-- `verify_restores` is not called. -/
def noRestores (_ : Tensors) (_ : PyDict String Donor) (_ : PyDict String String) (_ : Int) :
    Except Exit (List Problem) :=
  .ok []

theorem configDisk_oneShardEach : OneShardEach layerJson configDisk "base" := by
  have hnames : shardNames configDisk "base" = shardNames layerDisk "base" := by decide +kernel
  have hfiles : ∀ p ∈ shardNames layerDisk "base",
      configDisk.file ⟨"base", p⟩ = layerDisk.file ⟨"base", p⟩ := by decide +kernel
  rw [OneShardEach, hnames]
  intro p hp q hq name hin hin'
  rw [hfiles p hp] at hin
  rw [hfiles q hq] at hin'
  exact base_oneShardEach p hp q hq name hin hin'

theorem norm_inOneShard : ReplacedInOneShard baseTensors (fromArm "norm") .empty := by
  have hpaths : ∀ r ∈ baseTensors.items, ∀ r' ∈ baseTensors.items, moduleKey r.1 = moduleKey r'.1 →
      ((fromArm "norm").get? (moduleKey r.1)).isSome = true → r.2.path = r'.2.path := by decide +kernel
  intro n n' info info' hinfo hinfo' hmod hreplaced
  exact hpaths (n, info) (PyDict.get?_eq_some_iff.mp hinfo) (n', info') (PyDict.get?_eq_some_iff.mp hinfo') hmod
    (hreplaced.resolve_right (by simp))

theorem takeNorm_keepsModel :
    KeepsModel layerJson baseTensors .empty takeNormOut ∧
    ∀ base_cfg, loadConfig loadsConfig configDisk "base" = .ok base_cfg → base_cfg.items ≠ [] →
      ∀ dir donor, layerArms.get? dir = some donor →
        ∃ donor_cfg, loadConfig loadsConfig configDisk dir = .ok donor_cfg ∧ (donor_cfg.items ≠ [] →
          ∀ key ∈ ["architectures", "model_type"], base_cfg.read key = donor_cfg.read key) := by
  have hplan : planComposition layerJson configDisk noPatterns loadsConfig noRestores takeNorm =
      .ok takeNormPlan := by
    decide +kernel
  have h : main layerJson configDisk noPatterns loadsConfig noRestores takeNorm =
      .ok (some takeNormOut) := by
    decide +kernel
  exact compose_keeps_model h rfl hplan configDisk_oneShardEach norm_inOneShard

end VllmExl3.Compose
