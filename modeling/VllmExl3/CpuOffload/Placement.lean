/-
# VllmExl3.CpuOffload.Placement — which experts go to the host, and what their tensors hold

`place_expert` plans a projection when its first expert arrives: over the expert ids in ascending order,
it takes the matching ones while the budget lasts. The plan reads nothing of the arriving expert but
the shape all of them share, and the bytes charged so far; so the experts of a projection may come in
any order. Dense tensors draw on the same budget, so a plan does depend on which of them came before.
-/
import VllmExl3.CpuOffload.Blocks
import VllmExl3.Lib.PyStr
import VllmExl3.Lib.Except

namespace VllmExl3.CpuOffload

/-! ## Selectors and the budget -/

/-- The fields of vLLM's `UVAOffloader` that placement reads. -/
structure UVALoader where
  cpu_offload_params : List String
  cpu_offload_max_bytes : Nat

/-- What placement runs under: `_uva_loader()`, whether `re.search(pattern, name)` finds a match, and
with the cache on, `_host_quota`'s share of each layer. -/
structure Offload where
  loader : Option UVALoader
  search : String → String → Bool
  host_quota : Option Nat

/-- `_OFFLOADABLE_COMPONENTS` -/
def OFFLOADABLE_COMPONENTS : List String := ["trellis", "weight"]

/-- `_matches` -/
def matchesSelectors (search : String → String → Bool) (params : List String)
    (full : String) : Bool :=
  if params = [] then true
  else params.any fun pattern =>
    if PyStr.startswith pattern "re:" then search (PyStr.dropStart pattern 3) full
    else PyStr.occursIn s!".{pattern}." full

/-- The running totals: what `vLLM`'s budget was charged, and what the cache hosts outside it. -/
structure Charged where
  cpu_offload_bytes : Nat
  expert_bytes : Nat
  deriving DecidableEq

/-- `_count` -/
def count (c : Charged) (nbytes : Nat) (budget : Bool) : Charged :=
  if budget then { c with cpu_offload_bytes := c.cpu_offload_bytes + nbytes }
  else { c with expert_bytes := c.expert_bytes + nbytes }

/-! ## Plans -/

/-- A layer's collector for one component: the `param` of `place_expert`. -/
structure Collector where
  exl3_prefix : String
  exl3_name : String
  exl3_num_experts : Nat

/-- The dotted name of an expert's tensor. -/
def expertName (param : Collector) (label : Label) (e : Nat) : String :=
  s!".{ param.exl3_prefix}.{e}.{label.name}_proj.{param.exl3_name}."

/-- The loop of `_plan_block` over the expert ids, with `taken` and the totals as it goes. -/
def planLoop (o : Offload) (loader : UVALoader) (name : Nat → String) (quota nbytes : Nat) :
    List Nat → List Nat → Charged → List Nat × Charged
  | [], taken, c => (taken, c)
  | e :: rest, taken, c =>
    if taken.length ≥ quota ∨
        o.host_quota = none ∧ c.cpu_offload_bytes ≥ loader.cpu_offload_max_bytes then (taken, c)
    else if matchesSelectors o.search loader.cpu_offload_params (name e) then
      planLoop o loader name quota nbytes rest (taken ++ [e]) (count c nbytes o.host_quota.isNone)
    else planLoop o loader name quota nbytes rest taken c

/-- What the loop takes is what matches, up to some point. -/
theorem planLoop_taken (o : Offload) (loader : UVALoader) (name : Nat → String)
    (quota nbytes : Nat) (ids taken : List Nat) (c : Charged) :
    ∃ more, (planLoop o loader name quota nbytes ids taken c).1 = taken ++ more ∧
      more <+: ids.filter fun e =>
        matchesSelectors o.search loader.cpu_offload_params (name e) := by
  induction ids generalizing taken c with
  | nil => exact ⟨[], (List.append_nil taken).symm, List.prefix_rfl⟩
  | cons e rest ih =>
    rw [planLoop]
    split_ifs with hstop hmatch
    · exact ⟨[], (List.append_nil taken).symm, List.nil_prefix⟩
    · obtain ⟨more, hmore, hprefix⟩ := ih (taken ++ [e]) (count c nbytes o.host_quota.isNone)
      refine ⟨e :: more, by rw [hmore, List.append_assoc, List.singleton_append], ?_⟩
      rw [List.filter_cons, if_pos hmatch]
      exact List.cons_prefix_cons.mpr ⟨rfl, hprefix⟩
    · obtain ⟨more, hmore, hprefix⟩ := ih taken c
      refine ⟨more, hmore, ?_⟩
      rwa [List.filter_cons, if_neg hmatch]

/-- The ids a projection's plan takes, and the totals after it. -/
def planTaken (o : Offload) (loader : UVALoader) (param : Collector) (label : Label) (nbytes : Nat)
    (c : Charged) : List Nat × Charged :=
  planLoop o loader (expertName param label) (o.host_quota.getD param.exl3_num_experts) nbytes
    (List.range param.exl3_num_experts) [] c

theorem planTaken_prefix (o : Offload) (loader : UVALoader) (param : Collector) (label : Label)
    (nbytes : Nat) (c : Charged) : (planTaken o loader param label nbytes c).1 <+:
      (List.range param.exl3_num_experts).filter fun e =>
        matchesSelectors o.search loader.cpu_offload_params (expertName param label e) := by
  obtain ⟨more, hmore, hprefix⟩ := planLoop_taken o loader (expertName param label)
    (o.host_quota.getD param.exl3_num_experts) nbytes (List.range param.exl3_num_experts) [] c
  rw [planTaken, hmore, List.nil_append]
  exact hprefix

theorem planTaken_nodup (o : Offload) (loader : UVALoader) (param : Collector) (label : Label)
    (nbytes : Nat) (c : Charged) : (planTaken o loader param label nbytes c).1.Nodup :=
  (List.nodup_range.filter _).sublist ( planTaken_prefix o loader param label nbytes c).sublist

/-- `HostBlock({e: row for row, e in enumerate(taken)}, shape, dtype)` -/
def HostBlock.new (taken : List Nat) (hnodup : taken.Nodup) (hne : taken ≠ []) (shape : List Nat)
    (element_size : Nat) : HostBlock where
  rows :=
    { items := taken.zipIdx
      nodup := by rwa [List.zipIdx_map_fst] }
  shape := shape
  element_size := element_size
  host := List.replicate taken.length (List.replicate (shape.prod * element_size) 0)
  host_ne := by rwa [Ne, List.replicate_eq_nil_iff, List.length_eq_zero_iff]
  rows_eq := by
    rw [PyDict.values, List.zipIdx_map_snd, List.length_replicate, List.range_eq_range']
  host_eq := by
    intro row hrow
    rw [List.eq_of_mem_replicate hrow, List.length_replicate]

/-- The rows number the ids taken. -/
theorem HostBlock.keys_new {taken : List Nat} (hnodup : taken.Nodup) (hne : taken ≠ [])
    (shape : List Nat) (element_size : Nat) :
    (HostBlock.new taken hnodup hne shape element_size).rows.keys = taken := List.zipIdx_map_fst ..

/-- `_plan_block`, for tensors of one shape and element size -/
def planBlock (o : Offload) (param : Collector) (label : Label) (shape : List Nat)
    (element_size : Nat) (c : Charged) : Option HostBlock × Charged :=
  if param.exl3_name ∉ OFFLOADABLE_COMPONENTS then (none, c)
  else match o.loader with
    | none => (none, c)
    | some loader =>
      let planned := planTaken o loader param label (shape.prod * element_size) c
      if hne : planned.1 = [] then (none, planned.2)
      else (some (HostBlock.new planned.1 (planTaken_nodup ..) hne shape element_size), planned.2)

/-- What a plan can be: none, nothing taken, or a block of the experts taken. -/
theorem planBlock_cases (o : Offload) (param : Collector) (label : Label) (shape : List Nat)
    (element_size : Nat) (c : Charged) :
    planBlock o param label shape element_size c = (none, c) ∨
      ∃ loader, o.loader = some loader ∧
        ((planTaken o loader param label (shape.prod * element_size) c).1 = [] ∧
            planBlock o param label shape element_size c =
              (none, (planTaken o loader param label (shape.prod * element_size) c).2) ∨
          ∃ hne, planBlock o param label shape element_size c =
            (some (HostBlock.new (planTaken o loader param label (shape.prod * element_size) c).1
                (planTaken_nodup o loader param label (shape.prod * element_size) c) hne shape
                element_size),
              (planTaken o loader param label (shape.prod * element_size) c).2)) := by
  unfold planBlock
  split
  · exact .inl rfl
  · cases hloader : o.loader with
    | none => exact .inl rfl
    | some loader =>
      refine .inr ⟨loader, rfl, ?_⟩
      dsimp only
      split
      · rename_i hempty
        exact .inl ⟨hempty, rfl⟩
      · rename_i hne
        exact .inr ⟨hne, rfl⟩

/-! ## Placement -/

/-- Where a tensor ended up: on the device, in pinned memory of its own, or in a row of the host block
of its collector and label. -/
inductive Placed where
  | device (t : Tensor)
  | pinned (t : Tensor)
  | row (param : Nat) (label : Label) (row : Nat)

/-- A load in progress: the totals, and every collector's `exl3_blocks`. -/
structure Load where
  charged : Charged
  blocks : PyDict (Nat × Label) (Option HostBlock)

/-- `block.host[row].copy_(t)`, of a tensor of the block's shape and element type -/
def HostBlock.write (block : HostBlock) (row : Nat) (bytes : Bytes) : HostBlock :=
  if h : bytes.length = block.shape.prod * block.element_size then
    { block with
      host := block.host.set row bytes
      host_ne := by
        rw [Ne, List.set_eq_nil_iff]
        exact block.host_ne
      rows_eq := by rw [List.length_set, block.rows_eq]
      host_eq := by
        intro r hr
        rcases List.mem_or_eq_of_mem_set hr with hold | rfl
        · exact block.host_eq r hold
        · exact h }
  else block

/-- The block of a projection, planned now if this is its first expert. -/
def lookupBlock (o : Offload) (collector : Nat → Collector) (param : Nat) (label : Label)
    (t : Tensor) (s : Load) : Option HostBlock × Load :=
  match s.blocks.get? (param, label) with
  | some block => (block, s)
  | none =>
    let (block, charged) := planBlock o (collector param) label t.shape t.element_size s.charged
    (block, { charged := charged, blocks := s.blocks.set (param, label) block })

/-- `place_expert` -/
def placeExpert (o : Offload) (collector : Nat → Collector) (param : Nat) (t : Tensor)
    (label : Label) (expert_id : Nat) (s : Load) : Except PyError (Placed × Load) :=
  let (block, s) := lookupBlock o collector param label t s
  match block with
  | none => .ok (.device t, s)
  | some block =>
    match block.rows.get? expert_id with
    | none => .ok (.device t, s)
    | some row =>
      let c := collector param
      if t.shape ≠ block.shape then .error (.exl3Format
        s!"{ c.exl3_prefix}: expert {expert_id} {label.name} {c.exl3_name} has shape {t.shape}, others {block.shape}; exl3_mgemm takes one shape per call")
      else .ok (.row param label row,
        { s with blocks := s.blocks.set (param, label) (some (block.write row t.bytes)) })

/-- A dense linear's parameter: the `param` of `place`. -/
structure DenseParam where
  exl3_prefix : String
  exl3_name : String
  exl3_offloadable : Bool

/-- `place` -/
def place (o : Offload) (param : DenseParam) (t : Tensor) (c : Charged) : Placed × Charged :=
  match if param.exl3_offloadable ∧ param.exl3_name ∈ OFFLOADABLE_COMPONENTS then o.loader
    else none with
  | none => (.device t, c)
  | some loader =>
    if loader.cpu_offload_params = [] ∨
        matchesSelectors o.search loader.cpu_offload_params
          s!".{ param.exl3_prefix}.{param.exl3_name}." = false ∨
        c.cpu_offload_bytes ≥ loader.cpu_offload_max_bytes then (.device t, c)
    else (.pinned t, count c t.nbytes true)

/-! ## Loading a model -/

/-- What the loader delivers. The experts of a projection have one shape and one element type: a layer
whose experts disagree is refused once it is loaded. -/
structure Model where
  collector : Nat → Collector
  shape : Nat → Label → List Nat
  element_size : Nat → Label → Nat
  expert_bytes : Nat → Label → Nat → Bytes
  expert_bytes_eq : ∀ p label e,
    (expert_bytes p label e).length = (shape p label).prod * element_size p label
  dense_param : Nat → DenseParam
  dense_tensor : Nat → Tensor

/-- An expert's tensor. -/
def Model.expert (M : Model) (p : Nat) (label : Label) (e : Nat) : Tensor where
  shape := M.shape p label
  element_size := M.element_size p label
  bytes := M.expert_bytes p label e
  bytes_eq := M.expert_bytes_eq p label e

/-- A tensor arriving: an expert of a projection, or a dense linear's. -/
inductive Delivery where
  | expert (param : Nat) (label : Label) (expert_id : Nat)
  | dense (d : Nat)
  deriving DecidableEq

/-- One delivery. -/
def deliver (o : Offload) (M : Model) (s : Load) : Delivery → Except PyError (Placed × Load)
  | .expert p label e => placeExpert o M.collector p (M.expert p label e) label e s
  | .dense d =>
    let (placed, charged) := place o (M.dense_param d) (M.dense_tensor d) s.charged
    .ok (placed, { s with charged := charged })

/-- A sequence of deliveries: what each of them returned, and the state at the end. -/
def load (o : Offload) (M : Model) : List Delivery → Load →
    Except PyError (List (Delivery × Placed) × Load)
  | [], s => .ok ([], s)
  | d :: rest, s => do
    let (placed, s) ← deliver o M s d
    let (later, s) ← load o M rest s
    return ((d, placed) :: later, s)

/-- Before the first tensor arrives, with `bytes` already charged. -/
def Load.start (bytes : Nat) : Load := ⟨⟨bytes, 0⟩, PyDict.empty⟩

/-- The bytes a returned tensor holds. -/
def Load.deref (s : Load) : Placed → Option Bytes
  | .device t => some t.bytes
  | .pinned t => some t.bytes
  | .row p label row => (s.blocks.get? (p, label)).join.bind fun block => block.host[row]?

/-! ## What the budget pays for -/

section Budget

variable {o : Offload} {loader : UVALoader}

/-- With the cache off the totals stand still, or end less than one tensor over the budget. -/
theorem planLoop_charged (hoff : o.host_quota = none) (name : Nat → String) (quota nbytes : Nat)
    (ids taken : List Nat) (c : Charged) :
    (planLoop o loader name quota nbytes ids taken c).2.cpu_offload_bytes = c.cpu_offload_bytes ∨
      (planLoop o loader name quota nbytes ids taken c).2.cpu_offload_bytes <
        loader.cpu_offload_max_bytes + nbytes := by
  induction ids generalizing taken c with
  | nil => exact .inl rfl
  | cons e rest ih =>
    rw [planLoop]
    split_ifs with hstop hmatch
    · exact .inl rfl
    · have hbudget : c.cpu_offload_bytes < loader.cpu_offload_max_bytes := by
        by_contra hover
        exact hstop (.inr ⟨hoff, by omega⟩)
      have hcount : (count c nbytes o.host_quota.isNone).cpu_offload_bytes =
          c.cpu_offload_bytes + nbytes := by
        rw [hoff]
        rfl
      rcases ih (taken ++ [e]) (count c nbytes o.host_quota.isNone) with hsame | hless
      · exact .inr (by omega)
      · exact .inr hless
    · exact ih taken c

/-- What a plan takes of the ids that match, with `charged` bytes charged before it: the budget is not
used up before any of them is taken, and is once one is left out. -/
structure Takes (budget nbytes charged : Nat) (matching ids : List Nat) : Prop where
  initial : ids <+: matching
  pays : ∀ k < ids.length, charged + k * nbytes < budget
  stops : ids = matching ∨ budget ≤ charged + ids.length * nbytes

/-- With the cache off the loop takes ids until the budget is used up, or there are no more. -/
theorem planLoop_takes (hoff : o.host_quota = none) (name : Nat → String) {quota : Nat} (nbytes : Nat)
    {ids taken : List Nat} (c : Charged) (hquota : taken.length + ids.length ≤ quota) :
    ∃ more, (planLoop o loader name quota nbytes ids taken c).1 = taken ++ more ∧
      Takes loader.cpu_offload_max_bytes nbytes c.cpu_offload_bytes
        (ids.filter fun e => matchesSelectors o.search loader.cpu_offload_params (name e)) more := by
  induction ids generalizing taken c with
  | nil =>
    exact ⟨[], (List.append_nil taken).symm, List.prefix_rfl, fun _ hk => (nomatch hk), .inl rfl⟩
  | cons e rest ih =>
    rw [List.length_cons] at hquota
    rw [planLoop]
    split_ifs with hstop hmatch
    · -- the quota is all the experts, so it is the budget that is used up
      obtain ⟨_, hover⟩ := hstop.resolve_left (by omega)
      refine ⟨[], (List.append_nil taken).symm, List.nil_prefix, fun _ hk => (nomatch hk), .inr ?_⟩
      rwa [List.length_nil, Nat.zero_mul, Nat.add_zero]
    · have hbudget : c.cpu_offload_bytes < loader.cpu_offload_max_bytes := by
        by_contra hover
        exact hstop (.inr ⟨hoff, by omega⟩)
      have hcount : (count c nbytes o.host_quota.isNone).cpu_offload_bytes =
          c.cpu_offload_bytes + nbytes := by
        rw [hoff]
        rfl
      have hquota' : (taken ++ [e]).length + rest.length ≤ quota := by
        rw [List.length_append, List.length_singleton]
        omega
      obtain ⟨more, hmore, htakes⟩ := ih (count c nbytes o.host_quota.isNone) hquota'
      rw [hcount] at htakes
      refine ⟨e :: more, by rw [hmore, List.append_assoc, List.singleton_append], ?_, ?_, ?_⟩
      · rw [List.filter_cons, if_pos hmatch]
        exact List.cons_prefix_cons.mpr ⟨rfl, htakes.initial⟩
      · intro k hk
        cases k with
        | zero => rwa [Nat.zero_mul, Nat.add_zero]
        | succ k =>
          have hpays := htakes.pays k (Nat.lt_of_succ_lt_succ hk)
          rw [Nat.succ_mul]
          omega
      · rw [List.filter_cons, if_pos hmatch, List.length_cons, Nat.succ_mul]
        refine htakes.stops.imp (congrArg (List.cons e)) fun hover => ?_
        omega
    · have hquota' : taken.length + rest.length ≤ quota := by omega
      obtain ⟨more, hmore, htakes⟩ := ih c hquota'
      refine ⟨more, hmore, ?_⟩
      rwa [List.filter_cons, if_neg hmatch]

theorem planTaken_takes (hoff : o.host_quota = none) (loader : UVALoader) (param : Collector)
    (label : Label) (nbytes : Nat) (c : Charged) :
    Takes loader.cpu_offload_max_bytes nbytes c.cpu_offload_bytes
      ((List.range param.exl3_num_experts).filter fun e =>
        matchesSelectors o.search loader.cpu_offload_params (expertName param label e))
      (planTaken o loader param label nbytes c).1 := by
  have hquota : ([] : List Nat).length + (List.range param.exl3_num_experts).length ≤
      param.exl3_num_experts := by simp
  obtain ⟨more, hmore, htakes⟩ := planLoop_takes hoff (expertName param label) nbytes c hquota
  rw [planTaken, hoff, Option.getD_none, hmore]
  exact htakes

/-- A total that a delivery of `n` bytes left. -/
def Within (o : Offload) (n before after : Nat) : Prop :=
  after = before ∨ ∃ loader, o.loader = some loader ∧ after < loader.cpu_offload_max_bytes + n

theorem planBlock_within (hoff : o.host_quota = none) (param : Collector) (label : Label)
    (shape : List Nat) (element_size : Nat) (c : Charged) :
    Within o (shape.prod * element_size) c.cpu_offload_bytes
      (planBlock o param label shape element_size c).2.cpu_offload_bytes := by
  rcases planBlock_cases o param label shape element_size c with
    hnone | ⟨loader, hloader, ⟨_, hempty⟩ | ⟨_, hblock⟩⟩
  · rw [hnone]
    exact .inl rfl
  · rw [hempty]
    exact (planLoop_charged hoff _ _ _ _ _ c).imp id fun hless => ⟨loader, hloader, hless⟩
  · rw [hblock]
    exact (planLoop_charged hoff _ _ _ _ _ c).imp id fun hless => ⟨loader, hloader, hless⟩

theorem place_within (param : DenseParam) (t : Tensor) (c : Charged) :
    Within o t.nbytes c.cpu_offload_bytes (place o param t c).2.cpu_offload_bytes := by
  unfold place
  split
  · exact .inl rfl
  · rename_i loader hloader
    split
    · exact .inl rfl
    · rename_i hfits
      obtain ⟨_, hbudget⟩ := not_or.mp (not_or.mp hfits).2
      have hself : o.loader = some loader := by
        split at hloader
        · exact hloader
        · cases hloader
      refine .inr ⟨loader, hself, ?_⟩
      show c.cpu_offload_bytes + t.nbytes < _
      omega

end Budget

end VllmExl3.CpuOffload
