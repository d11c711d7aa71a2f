/-
# VllmExl3.CpuOffload.Loading — a model's tensors arriving in any order

A load goes through two kinds of steps: a plan is made, or bytes are copied into a row that an earlier
plan set aside. Copying changes neither the totals nor the rows, so what is hosted is settled by the
plans alone, and those happen at the first expert of each projection and at each dense tensor that the
selectors match. `load_run` carries both halves through a whole load: it makes the plans its `events`
say, and leaves every expert with its own bytes.
-/
import VllmExl3.CpuOffload.Placement

namespace VllmExl3.CpuOffload

/-! ## The plans of a load -/

/-- Whether the selectors let a dense tensor draw on the budget. -/
def DenseParam.eligible (o : Offload) (param : DenseParam) : Bool :=
  match if param.exl3_offloadable ∧ param.exl3_name ∈ OFFLOADABLE_COMPONENTS then o.loader
    else none with
  | none => false
  | some loader => loader.cpu_offload_params ≠ [] &&
      matchesSelectors o.search loader.cpu_offload_params
        s!".{ param.exl3_prefix}.{param.exl3_name}."

/-- A tensor the selectors do not match goes to the device and is not charged. -/
theorem place_of_not_eligible {o : Offload} {param : DenseParam} (t : Tensor) (c : Charged)
    (h : param.eligible o = false) : place o param t c = (.device t, c) := by
  unfold DenseParam.eligible at h
  unfold place
  split
  · rfl
  · rename_i loader hloader
    rw [hloader] at h
    rw [if_pos]
    rcases Bool.and_eq_false_iff.mp h with hempty | hmatch
    · exact .inl (not_not.mp (of_decide_eq_false hempty))
    · exact .inr (.inl hmatch)

/-- What a plan is made at: the first expert of a projection, or a dense tensor. -/
inductive Event where
  | projection (param : Nat) (label : Label)
  | dense (d : Nat)
  deriving DecidableEq

/-- The plans a sequence of deliveries makes, once those of `seen` are made. -/
def events (o : Offload) (M : Model) : List (Nat × Label) → List Delivery → List Event
  | _, [] => []
  | seen, .dense d :: rest =>
    if (M.dense_param d).eligible o then .dense d :: events o M seen rest
    else events o M seen rest
  | seen, .expert p label _ :: rest =>
    if (p, label) ∈ seen then events o M seen rest
    else .projection p label :: events o M ((p, label) :: seen) rest

/-- The totals and the rows planned so far: a load without the copying. -/
@[ext] structure Plans where
  charged : Charged
  rows : Nat × Label → Option (Option (PyDict Nat Nat))

/-- Making one plan. -/
def planEvent (o : Offload) (M : Model) (P : Plans) : Event → Plans
  | .projection p label =>
    let (block, charged) :=
      planBlock o (M.collector p) label (M.shape p label) (M.element_size p label) P.charged
    { charged := charged
      rows := Function.update P.rows (p, label) (some (block.map HostBlock.rows)) }
  | .dense d => { P with charged := (place o (M.dense_param d) (M.dense_tensor d) P.charged).2 }

/-- The plans that a load has made. -/
def Load.plans (s : Load) : Plans where
  charged := s.charged
  rows := fun k => (s.blocks.get? k).map (Option.map HostBlock.rows)

/-- A projection has rows planned, or none to plan, once its block is settled. -/
theorem Load.plans_rows_eq_none {s : Load} {k : Nat × Label} :
    s.plans.rows k = none ↔ s.blocks.get? k = none := Option.map_eq_none_iff

/-- The row of an expert that is hosted. -/
def Load.hosted (s : Load) (p : Nat) (label : Label) (e : Nat) : Option Nat :=
  (s.blocks.get? (p, label)).join.bind fun block => block.rows.get? e

/-- What is hosted is a matter of the plans. -/
theorem Load.hosted_eq (s : Load) (p : Nat) (label : Label) (e : Nat) :
    s.hosted p label e = (s.plans.rows (p, label)).join.bind fun rows => rows.get? e := by
  show (s.blocks.get? (p, label)).join.bind _ =
    ((s.blocks.get? (p, label)).map (Option.map HostBlock.rows)).join.bind _
  rcases s.blocks.get? (p, label) with _ | _ | block <;> rfl

/-- The experts hosted, in the order of their rows. -/
def Load.hostedIds (s : Load) (p : Nat) (label : Label) : List Nat :=
  match (s.blocks.get? (p, label)).join with
  | none => []
  | some block => block.rows.keys

theorem Load.hostedIds_eq (s : Load) (p : Nat) (label : Label) :
    s.hostedIds p label = (s.plans.rows (p, label)).join.elim [] PyDict.keys := by
  show s.hostedIds p label =
    ((s.blocks.get? (p, label)).map (Option.map HostBlock.rows)).join.elim [] PyDict.keys
  rw [hostedIds]
  rcases s.blocks.get? (p, label) with _ | _ | block <;> rfl

/-- The experts the selectors match, in ascending order. -/
def matchingIds (o : Offload) (param : Collector) (label : Label) : List Nat :=
  match o.loader with
  | none => []
  | some loader => (List.range param.exl3_num_experts).filter fun e =>
      matchesSelectors o.search loader.cpu_offload_params (expertName param label e)

/-- A block that was planned holds rows of the plan's kind, for the first of the matching experts. -/
theorem planBlock_some {o : Offload} {param : Collector} {label : Label} {shape : List Nat}
    {element_size : Nat} {c : Charged} {block : HostBlock}
    (h : (planBlock o param label shape element_size c).1 = some block) :
    block.shape = shape ∧ block.element_size = element_size ∧
      block.rows.keys <+: matchingIds o param label := by
  rcases planBlock_cases o param label shape element_size c with
    hnone | ⟨loader, hloader, ⟨_, hempty⟩ | ⟨hne, hblock⟩⟩
  · rw [hnone] at h
    cases h
  · rw [hempty] at h
    cases h
  · rw [hblock, Option.some.injEq] at h
    rw [← h]
    refine ⟨rfl, rfl, ?_⟩
    rw [HostBlock.keys_new, matchingIds, hloader]
    exact planTaken_prefix o loader param label (shape.prod * element_size) c

/-- What a plan takes with `charged` bytes charged before it, of a component that may be offloaded. -/
def PlanTakes (o : Offload) (param : Collector) (label : Label) (nbytes charged : Nat)
    (ids : List Nat) : Prop :=
  match if param.exl3_name ∈ OFFLOADABLE_COMPONENTS then o.loader else none with
  | none => ids = []
  | some loader =>
    Takes loader.cpu_offload_max_bytes nbytes charged (matchingIds o param label) ids

/-- With the cache off a plan takes what the budget pays for. -/
theorem planBlock_takes {o : Offload} (hoff : o.host_quota = none) (param : Collector) (label : Label)
    (shape : List Nat) (element_size : Nat) (c : Charged) :
    PlanTakes o param label (shape.prod * element_size) c.cpu_offload_bytes
      (((planBlock o param label shape element_size c).1.map HostBlock.rows).elim [] PyDict.keys) := by
  unfold PlanTakes planBlock
  by_cases hname : param.exl3_name ∈ OFFLOADABLE_COMPONENTS
  · rw [if_pos hname, if_neg (not_not_intro hname)]
    cases hloader : o.loader with
    | none => rfl
    | some loader =>
      have htakes := planTaken_takes hoff loader param label (shape.prod * element_size) c
      dsimp only
      rw [matchingIds, hloader]
      by_cases hempty : (planTaken o loader param label (shape.prod * element_size) c).1 = []
      · rw [dif_pos hempty]
        rwa [hempty] at htakes
      · rw [dif_neg hempty, Option.map_some, Option.elim_some, HostBlock.keys_new]
        exact htakes
  · rw [if_neg hname, if_pos hname]
    rfl

/-! ## Writing a row -/

namespace HostBlock

variable (block : HostBlock) (row : Nat) (bytes : Bytes)

@[simp] theorem rows_write : (block.write row bytes).rows = block.rows := by
  unfold write
  split <;> rfl

@[simp] theorem shape_write : (block.write row bytes).shape = block.shape := by
  unfold write
  split <;> rfl

@[simp] theorem element_size_write :
    (block.write row bytes).element_size = block.element_size := by
  unfold write
  split <;> rfl

theorem host_write (h : bytes.length = block.shape.prod * block.element_size) :
    (block.write row bytes).host = block.host.set row bytes := by
  rw [write, dif_pos h]

end HostBlock

/-! ## What holds while a model loads -/

/-- Where an expert's tensor is, of a projection that has its plan: on the device if the plan left it
out, otherwise in its row, which holds its bytes. -/
inductive Settled (M : Model) (s : Load) (p : Nat) (label : Label) (e : Nat) : Placed → Prop where
  | device (block : Option HostBlock) (hplan : s.blocks.get? (p, label) = some block)
      (hout : (block.bind fun b => b.rows.get? e) = none) :
      Settled M s p label e (.device (M.expert p label e))
  | row (block : HostBlock) (row : Nat) (hplan : s.blocks.get? (p, label) = some (some block))
      (hrow : block.rows.get? e = some row)
      (hbytes : block.host[row]? = some (M.expert_bytes p label e)) :
      Settled M s p label e (.row p label row)

/-- The state of a load that has returned `done` so far. -/
structure Loading (o : Offload) (M : Model) (s : Load) (done : List (Delivery × Placed)) : Prop where
  shape : ∀ p label block, s.blocks.get? (p, label) = some (some block) →
    block.shape = M.shape p label ∧ block.element_size = M.element_size p label
  matching : ∀ p label block, s.blocks.get? (p, label) = some (some block) →
    block.rows.keys <+: matchingIds o (M.collector p) label
  settled : ∀ p label e placed, (Delivery.expert p label e, placed) ∈ done →
    Settled M s p label e placed

section Loading

variable {o : Offload} {M : Model} {s : Load} {done : List (Delivery × Placed)}

theorem Settled.congr {s' : Load} {p : Nat} {label : Label} {e : Nat} {placed : Placed}
    (h : Settled M s p label e placed)
    (hsame : s'.blocks.get? (p, label) = s.blocks.get? (p, label)) :
    Settled M s' p label e placed := by
  cases h with
  | device block hplan hout => exact .device block (hsame.trans hplan) hout
  | row block row hplan hrow hbytes => exact .row block row (hsame.trans hplan) hrow hbytes

/-- A projection that has an expert settled has its plan. -/
theorem Settled.planned {p : Nat} {label : Label} {e : Nat} {placed : Placed}
    (h : Settled M s p label e placed) : s.blocks.get? (p, label) ≠ none := by
  cases h with
  | device block hplan _ => exact fun hnone => nomatch hplan.symm.trans hnone
  | row block _ hplan _ _ => exact fun hnone => nomatch hplan.symm.trans hnone

theorem Loading.start (bytes : Nat) : Loading o M (Load.start bytes) [] where
  shape := fun _ _ _ h => nomatch h
  matching := fun _ _ _ h => nomatch h
  settled := fun _ _ _ _ h => nomatch h

/-- A settled tensor holds its expert's bytes. -/
theorem Settled.deref {p : Nat} {label : Label} {e : Nat} {placed : Placed}
    (h : Settled M s p label e placed) : s.deref placed = some (M.expert_bytes p label e) := by
  cases h with
  | device block _ _ => rfl
  | row block row hplan _ hbytes =>
    show (s.blocks.get? (p, label)).join.bind _ = _
    rw [hplan]
    exact hbytes

/-- It is in the row its expert has, or on the device if it has none. -/
theorem Settled.eq_hosted {p : Nat} {label : Label} {e : Nat} {placed : Placed}
    (h : Settled M s p label e placed) :
    placed = match s.hosted p label e with
      | none => .device (M.expert p label e)
      | some r => .row p label r := by
  cases h with
  | device block hplan hout =>
    have hnone : s.hosted p label e = none := by
      rw [Load.hosted, hplan]
      exact hout
    rw [hnone]
  | row block row hplan hrow _ =>
    have hsome : s.hosted p label e = some row := by
      rw [Load.hosted, hplan]
      exact hrow
    rw [hsome]

/-- A delivery that settles itself. -/
theorem Loading.snoc (h : Loading o M s done) (d : Delivery) (placed : Placed)
    (hnew : ∀ p label e, d = .expert p label e → Settled M s p label e placed) :
    Loading o M s (done ++ [(d, placed)]) where
  shape := h.shape
  matching := h.matching
  settled := by
    intro p label e placed' hmem
    rcases List.mem_append.mp hmem with hold | hlast
    · exact h.settled p label e placed' hold
    · obtain ⟨hd, rfl⟩ := Prod.mk.inj (List.mem_singleton.mp hlast)
      exact hnew p label e hd.symm

theorem Loading.charge (h : Loading o M s done) (c : Charged) :
    Loading o M { s with charged := c } done where
  shape := h.shape
  matching := h.matching
  settled := fun p label e placed hmem => (h.settled p label e placed hmem).congr rfl

/-- Making a projection's plan. -/
theorem Loading.plan (h : Loading o M s done) {p : Nat} {label : Label} {c : Charged}
    {block : Option HostBlock} (hnew : s.blocks.get? (p, label) = none)
    (hblock : (planBlock o (M.collector p) label (M.shape p label) (M.element_size p label) c).1 =
      block) (c' : Charged) :
    Loading o M { charged := c', blocks := s.blocks.set (p, label) block } done where
  shape := by
    intro q l b hget
    rcases PyDict.of_get?_set hget with ⟨hkey, rfl⟩ | ⟨_, hold⟩
    · obtain ⟨rfl, rfl⟩ := Prod.mk.inj hkey
      obtain ⟨hshape, helement, _⟩ := planBlock_some hblock
      exact ⟨hshape, helement⟩
    · exact h.shape q l b hold
  matching := by
    intro q l b hget
    rcases PyDict.of_get?_set hget with ⟨hkey, rfl⟩ | ⟨_, hold⟩
    · obtain ⟨rfl, rfl⟩ := Prod.mk.inj hkey
      exact (planBlock_some hblock).2.2
    · exact h.matching q l b hold
  settled := by
    intro q l e placed hmem
    have hold := h.settled q l e placed hmem
    refine hold.congr (PyDict.get?_set_ne _ _ fun hkey => hold.planned ?_)
    rw [hkey]
    exact hnew

/-- An expert stays settled when another expert's bytes, or its own again, are copied into a row. -/
theorem Settled.write {p : Nat} {label : Label} {e row : Nat} {block : HostBlock}
    (hplan : s.blocks.get? (p, label) = some (some block)) (hrow : block.rows.get? e = some row)
    (hlength : (M.expert_bytes p label e).length = block.shape.prod * block.element_size)
    {q : Nat} {l : Label} {e' : Nat} {placed : Placed} (h : Settled M s q l e' placed) :
    Settled M
      { s with blocks :=
        s.blocks.set (p, label) (some (block.write row (M.expert_bytes p label e))) }
      q l e' placed := by
  by_cases hkey : (q, l) = (p, label)
  · obtain ⟨rfl, rfl⟩ := Prod.mk.inj hkey
    cases h with
    | device block' hplan' hout =>
      obtain rfl := Option.some.inj (hplan.symm.trans hplan')
      refine .device _ (PyDict.get?_set_self ..) ?_
      rw [Option.bind_some, HostBlock.rows_write]
      exact hout
    | row block' row' hplan' hrow' hbytes' =>
      obtain rfl := Option.some.inj (Option.some.inj (hplan.symm.trans hplan'))
      refine .row _ row' (PyDict.get?_set_self ..) ?_ ?_
      · rw [HostBlock.rows_write]
        exact hrow'
      · rw [HostBlock.host_write _ _ _ hlength]
        by_cases hsame : row = row'
        · -- no other expert has the row
          subst hsame
          rw [HostBlock.row_injective hrow' hrow]
          exact List.getElem?_set_self (HostBlock.row_lt hrow)
        · rw [List.getElem?_set_ne hsame]
          exact hbytes'
  · exact h.congr (PyDict.get?_set_ne _ _ hkey)

/-- Copying an expert's bytes into the row its plan set aside for it settles it. -/
theorem Loading.write (h : Loading o M s done) {p : Nat} {label : Label} {e row : Nat}
    {block : HostBlock} (hplan : s.blocks.get? (p, label) = some (some block))
    (hrow : block.rows.get? e = some row) :
    Loading o M
      { s with blocks :=
        s.blocks.set (p, label) (some (block.write row (M.expert_bytes p label e))) }
      (done ++ [(.expert p label e, .row p label row)]) := by
  obtain ⟨hshape, helement⟩ := h.shape p label block hplan
  have hlength : (M.expert_bytes p label e).length = block.shape.prod * block.element_size := by
    rw [M.expert_bytes_eq, hshape, helement]
  refine Loading.snoc ⟨?_, ?_, ?_⟩ _ _ ?_
  · intro q l b hget
    rcases PyDict.of_get?_set hget with ⟨hkey, hb⟩ | ⟨_, hold⟩
    · obtain ⟨rfl, rfl⟩ := Prod.mk.inj hkey
      rw [Option.some.inj hb, HostBlock.shape_write, HostBlock.element_size_write]
      exact ⟨hshape, helement⟩
    · exact h.shape q l b hold
  · intro q l b hget
    rcases PyDict.of_get?_set hget with ⟨hkey, hb⟩ | ⟨_, hold⟩
    · obtain ⟨rfl, rfl⟩ := Prod.mk.inj hkey
      rw [Option.some.inj hb, HostBlock.rows_write]
      exact h.matching q l block hplan
    · exact h.matching q l b hold
  · intro q l e' placed hmem
    exact (h.settled q l e' placed hmem).write hplan hrow hlength
  · intro q l e' hd
    obtain ⟨rfl, rfl, rfl⟩ := Delivery.expert.inj hd
    refine .row _ row (PyDict.get?_set_self ..) ?_ ?_
    · rw [HostBlock.rows_write]
      exact hrow
    · rw [HostBlock.host_write _ _ _ hlength]
      exact List.getElem?_set_self (HostBlock.row_lt hrow)

/-! ## Deliveries, one and all -/

/-- An expert whose projection has its plan: nothing is planned, and its tensor is settled. -/
theorem Loading.expert_planned (h : Loading o M s done) {p : Nat} {label : Label} (e : Nat)
    {block : Option HostBlock} (hplan : s.blocks.get? (p, label) = some block) :
    ∃ placed s', deliver o M s (.expert p label e) = .ok (placed, s') ∧
      Loading o M s' (done ++ [(.expert p label e, placed)]) ∧ s'.plans = s.plans := by
  have hlookup : lookupBlock o M.collector p label (M.expert p label e) s = (block, s) := by
    rw [lookupBlock, hplan]
  have hdevice : (block.bind fun b => b.rows.get? e) = none →
      Loading o M s (done ++ [(.expert p label e, .device (M.expert p label e))]) := by
    intro hout
    refine h.snoc _ _ ?_
    intro q l e' hd
    obtain ⟨rfl, rfl, rfl⟩ := Delivery.expert.inj hd
    exact .device block hplan hout
  show ∃ placed s', placeExpert o M.collector p (M.expert p label e) label e s = _ ∧ _
  cases hblock : block with
  | none =>
    subst hblock
    refine ⟨.device (M.expert p label e), s, ?_, hdevice rfl, rfl⟩
    rw [placeExpert, hlookup]
  | some b =>
    subst hblock
    cases hrow : b.rows.get? e with
    | none =>
      refine ⟨.device (M.expert p label e), s, ?_, hdevice hrow, rfl⟩
      rw [placeExpert, hlookup]
      dsimp only
      rw [hrow]
    | some row =>
      refine ⟨.row p label row, _, ?_, h.write hplan hrow, ?_⟩
      · have hshape : ¬ (M.expert p label e).shape ≠ b.shape :=
          not_not.mpr (h.shape p label b hplan).1.symm
        rw [placeExpert, hlookup]
        dsimp only
        rw [hrow]
        dsimp only
        rw [if_neg hshape]
        rfl
      · refine Plans.ext rfl (funext fun k => ?_)
        show ((s.blocks.set (p, label) _).get? k).map _ = (s.blocks.get? k).map _
        rw [PyDict.get?_set]
        split_ifs with hkey
        · rw [hkey, hplan, Option.map_some, Option.map_some, Option.map_some, Option.map_some,
            HostBlock.rows_write]
        · rfl

/-- The first expert of a projection: its plan is made, and its tensor is settled under it. -/
theorem Loading.expert_new (h : Loading o M s done) {p : Nat} {label : Label} (e : Nat)
    (hnew : s.blocks.get? (p, label) = none) :
    ∃ placed s', deliver o M s (.expert p label e) = .ok (placed, s') ∧
      Loading o M s' (done ++ [(.expert p label e, placed)]) ∧
      s'.plans = planEvent o M s.plans (.projection p label) := by
  obtain ⟨planned, hplanned⟩ : ∃ planned, planned =
      planBlock o (M.collector p) label (M.shape p label) (M.element_size p label) s.charged :=
    ⟨_, rfl⟩
  obtain ⟨s₁, hs₁⟩ : ∃ s₁ : Load, s₁ =
      { charged := planned.2, blocks := s.blocks.set (p, label) planned.1 } := ⟨_, rfl⟩
  have hget : s₁.blocks.get? (p, label) = some planned.1 := by
    rw [hs₁]
    exact PyDict.get?_set_self ..
  have hloading : Loading o M s₁ done := by
    rw [hs₁]
    exact h.plan hnew (congrArg Prod.fst hplanned.symm) planned.2
  have hlookup : lookupBlock o M.collector p label (M.expert p label e) s = (planned.1, s₁) := by
    rw [lookupBlock, hnew, hs₁, hplanned]
    rfl
  have hlookup₁ : lookupBlock o M.collector p label (M.expert p label e) s₁ = (planned.1, s₁) := by
    rw [lookupBlock, hget]
  -- delivering before the plan is made, and right after, is the same
  have hsame : deliver o M s (.expert p label e) = deliver o M s₁ (.expert p label e) := by
    show placeExpert o M.collector p (M.expert p label e) label e s =
      placeExpert o M.collector p (M.expert p label e) label e s₁
    rw [placeExpert, placeExpert, hlookup, hlookup₁]
  obtain ⟨placed, s', hdeliver, hdone, hplans⟩ := hloading.expert_planned e hget
  refine ⟨placed, s', hsame.trans hdeliver, hdone, hplans.trans ?_⟩
  refine Plans.ext ?_ (funext fun k => ?_)
  · rw [hs₁, hplanned]
    rfl
  · show (s₁.blocks.get? k).map (Option.map HostBlock.rows) =
      Function.update s.plans.rows (p, label) _ k
    rw [hs₁, PyDict.get?_set, hplanned]
    split_ifs with hkey
    · rw [hkey, Function.update_self]
      rfl
    · rw [Function.update_of_ne hkey]
      rfl

/-- A dense tensor: no row is touched, and the budget is charged as its plan says. -/
theorem Loading.dense (h : Loading o M s done) (d : Nat) :
    ∃ placed s', deliver o M s (.dense d) = .ok (placed, s') ∧
      Loading o M s' (done ++ [(.dense d, placed)]) ∧
      s'.plans = planEvent o M s.plans (.dense d) := by
  refine ⟨(place o (M.dense_param d) (M.dense_tensor d) s.charged).1,
    { s with charged := (place o (M.dense_param d) (M.dense_tensor d) s.charged).2 }, rfl, ?_, rfl⟩
  refine (h.charge _).snoc _ _ ?_
  intro p label e hd
  cases hd

/-- The projections that have their plans, after a delivery. -/
def seenAfter (seen : List (Nat × Label)) : Delivery → List (Nat × Label)
  | .dense _ => seen
  | .expert p label _ => if (p, label) ∈ seen then seen else (p, label) :: seen

/-- The plans of a delivery, then those of the rest. -/
theorem events_cons (o : Offload) (M : Model) (seen : List (Nat × Label)) (d : Delivery)
    (rest : List Delivery) :
    events o M seen (d :: rest) = events o M seen [d] ++ events o M (seenAfter seen d) rest := by
  cases d with
  | dense d =>
    rw [events, events, seenAfter]
    split_ifs <;> rfl
  | expert p label e =>
    rw [events, events, seenAfter]
    split_ifs <;> rfl

/-- A dense tensor the selectors do not match makes no plan. -/
theorem planEvent_of_not_eligible {d : Nat} (P : Plans) (h : (M.dense_param d).eligible o = false) :
    planEvent o M P (.dense d) = P := by
  refine Plans.ext ?_ rfl
  show (place o (M.dense_param d) (M.dense_tensor d) P.charged).2 = P.charged
  rw [place_of_not_eligible _ _ h]

/-- One delivery: it does not fail, and makes the plan it calls for, if any. -/
theorem Loading.step (h : Loading o M s done) {seen : List (Nat × Label)}
    (hseen : ∀ k, k ∈ seen ↔ s.plans.rows k ≠ none) (d : Delivery) :
    ∃ placed s', deliver o M s d = .ok (placed, s') ∧
      Loading o M s' (done ++ [(d, placed)]) ∧
      (∀ k, k ∈ seenAfter seen d ↔ s'.plans.rows k ≠ none) ∧
      s'.plans = (events o M seen [d]).foldl (planEvent o M) s.plans := by
  cases d with
  | dense d =>
    obtain ⟨placed, s', hdeliver, hloading, hplans⟩ := h.dense d
    have hrows : s'.plans.rows = s.plans.rows := by
      rw [hplans]
      rfl
    refine ⟨placed, s', hdeliver, hloading, fun k => by rw [hrows]; exact hseen k, ?_⟩
    rw [hplans, events]
    split_ifs with heligible
    · rfl
    · exact planEvent_of_not_eligible s.plans (Bool.not_eq_true _ ▸ heligible)
  | expert p label e =>
    rw [events, seenAfter]
    split_ifs with hold
    · obtain ⟨block, hblock⟩ := Option.ne_none_iff_exists'.mp
        (mt Load.plans_rows_eq_none.mpr ((hseen _).mp hold))
      obtain ⟨placed, s', hdeliver, hloading, hplans⟩ := h.expert_planned e hblock
      exact ⟨placed, s', hdeliver, hloading, fun k => by rw [hplans]; exact hseen k, hplans⟩
    · have hnew : s.blocks.get? (p, label) = none :=
        Load.plans_rows_eq_none.mp (not_not.mp (mt (hseen _).mpr hold))
      obtain ⟨placed, s', hdeliver, hloading, hplans⟩ := h.expert_new e hnew
      refine ⟨placed, s', hdeliver, hloading, fun k => ?_, hplans⟩
      rw [hplans]
      show _ ↔ Function.update s.plans.rows (p, label) _ k ≠ none
      rw [List.mem_cons, hseen k]
      by_cases hkey : k = (p, label)
      · rw [hkey, Function.update_self]
        simp
      · rw [Function.update_of_ne hkey, or_iff_right hkey]

/-- A whole load: it never fails, makes the plans its deliveries call for, and leaves every expert
settled. -/
theorem load_run (o : Offload) (M : Model) (ds : List Delivery) (s : Load)
    (done : List (Delivery × Placed)) (seen : List (Nat × Label)) (h : Loading o M s done)
    (hseen : ∀ k, k ∈ seen ↔ s.plans.rows k ≠ none) :
    ∃ placed s', load o M ds s = .ok (placed, s') ∧ placed.map Prod.fst = ds ∧
      Loading o M s' (done ++ placed) ∧
      s'.plans = (events o M seen ds).foldl (planEvent o M) s.plans := by
  -- on the deliveries; `seen` holds the projections planned in `s`, and `Loading` carries the rest
  induction ds generalizing s done seen with
  | nil => exact ⟨[], s, rfl, rfl, by rwa [List.append_nil], rfl⟩
  | cons d rest ih =>
    obtain ⟨placed, s₁, hdeliver, hloading, hseen₁, hplans⟩ := h.step hseen d
    obtain ⟨later, s', hload, hfst, hdone, hlater⟩ := ih s₁ _ _ hloading hseen₁
    refine ⟨(d, placed) :: later, s', ?_, ?_, ?_, ?_⟩
    · rw [load, hdeliver]
      show (load o M rest s₁).bind _ = _
      rw [hload]
      rfl
    · rw [List.map_cons, hfst]
    · rwa [List.append_assoc] at hdone
    · rw [hlater, hplans, events_cons o M seen d rest, List.foldl_append]

end Loading

/-! ## What the budget pays for -/

/-- The size of the tensors a plan is about. -/
def Event.nbytes (M : Model) : Event → Nat
  | .projection p label => (M.shape p label).prod * M.element_size p label
  | .dense d => (M.dense_tensor d).nbytes

/-- The size of the tensor delivered. -/
def Delivery.nbytes (M : Model) : Delivery → Nat
  | .expert p label e => (M.expert p label e).nbytes
  | .dense d => (M.dense_tensor d).nbytes

/-- A delivery's plan is about its tensor. -/
theorem nbytes_of_mem_events {o : Offload} {M : Model} {seen : List (Nat × Label)} {d : Delivery}
    {ev : Event} (h : ev ∈ events o M seen [d]) : d.nbytes M = ev.nbytes M := by
  cases d with
  | dense d =>
    rw [events] at h
    split_ifs at h
    · rw [List.mem_singleton.mp h]
      rfl
    · cases h
  | expert p label e =>
    rw [events] at h
    split_ifs at h
    · cases h
    · rw [List.mem_singleton.mp h]
      rfl

/-- Every plan is about the tensors of some delivery. -/
theorem mem_events {o : Offload} {M : Model} {seen : List (Nat × Label)} {ds : List Delivery}
    {ev : Event} (h : ev ∈ events o M seen ds) : ∃ d ∈ ds, d.nbytes M = ev.nbytes M := by
  induction ds generalizing seen with
  | nil => cases h
  | cons d rest ih =>
    rw [events_cons o M seen d rest] at h
    rcases List.mem_append.mp h with hown | hlater
    · exact ⟨d, List.mem_cons_self, nbytes_of_mem_events hown⟩
    · obtain ⟨d', hd', hsize⟩ := ih hlater
      exact ⟨d', List.mem_cons_of_mem _ hd', hsize⟩

theorem planEvent_within {o : Offload} (hoff : o.host_quota = none) (M : Model) (P : Plans)
    (ev : Event) : Within o (ev.nbytes M) P.charged.cpu_offload_bytes
      (planEvent o M P ev).charged.cpu_offload_bytes := by
  cases ev with
  | projection p label => exact planBlock_within hoff ..
  | dense d => exact place_within ..

/-- The plans of a load leave the total alone, or less than one of their tensors over the budget. -/
theorem foldl_planEvent_within {o : Offload} (hoff : o.host_quota = none) (M : Model)
    (evs : List Event) (P : Plans) :
    (evs.foldl (planEvent o M) P).charged.cpu_offload_bytes = P.charged.cpu_offload_bytes ∨
      ∃ ev ∈ evs, ∃ loader, o.loader = some loader ∧
        (evs.foldl (planEvent o M) P).charged.cpu_offload_bytes <
          loader.cpu_offload_max_bytes + ev.nbytes M := by
  induction evs generalizing P with
  | nil => exact .inl rfl
  | cons ev rest ih =>
    rw [List.foldl_cons]
    rcases ih (planEvent o M P ev) with hsame | ⟨ev', hev', hless⟩
    · rw [hsame]
      rcases planEvent_within hoff M P ev with hquiet | hwithin
      · exact .inl hquiet
      · exact .inr ⟨ev, List.mem_cons_self, hwithin⟩
    · exact .inr ⟨ev', List.mem_cons_of_mem _ hev', hless⟩

/-- The rows of a projection after a series of plans are those of its last plan, made at what was
charged by then. -/
theorem foldl_planEvent_rows (o : Offload) (M : Model) (evs : List Event) (P : Plans) (p : Nat)
    (label : Label) :
    (evs.foldl (planEvent o M) P).rows (p, label) = P.rows (p, label) ∨
      ∃ before after, evs = before ++ .projection p label :: after ∧
        (evs.foldl (planEvent o M) P).rows (p, label) =
          some ((planBlock o (M.collector p) label (M.shape p label) (M.element_size p label)
            (before.foldl (planEvent o M) P).charged).1.map HostBlock.rows) := by
  induction evs using List.reverseRecOn with
  | nil => exact .inl rfl
  | append_singleton evs ev ih =>
    rw [List.foldl_append, List.foldl_cons, List.foldl_nil]
    have hother : ev ≠ .projection p label →
        (planEvent o M (evs.foldl (planEvent o M) P) ev).rows (p, label) =
          (evs.foldl (planEvent o M) P).rows (p, label) := by
      intro hne
      cases ev with
      | dense d => rfl
      | projection q l =>
        refine Function.update_of_ne (fun hkey => hne ?_) _ _
        obtain ⟨rfl, rfl⟩ := Prod.mk.inj hkey
        rfl
    by_cases hev : ev = .projection p label
    · subst hev
      exact .inr ⟨evs, [], rfl, Function.update_self ..⟩
    · rw [hother hev]
      refine ih.imp_right ?_
      rintro ⟨before, after, rfl, hrows⟩
      exact ⟨before, after ++ [ev], by rw [List.append_assoc, List.cons_append], hrows⟩

/-! ## What a load amounts to -/

/-- The projections in the order their first experts come. -/
def appearances : List (Nat × Label) → List Delivery → List (Nat × Label)
  | _, [] => []
  | seen, .dense _ :: rest => appearances seen rest
  | seen, .expert p label _ :: rest =>
    if (p, label) ∈ seen then appearances seen rest
    else (p, label) :: appearances ((p, label) :: seen) rest

/-- Where the selectors match no dense tensor, the plans are those of the projections. -/
theorem events_of_not_eligible {o : Offload} {M : Model} {ds : List Delivery}
    (h : ∀ d, .dense d ∈ ds → (M.dense_param d).eligible o = false) (seen : List (Nat × Label)) :
    events o M seen ds = (appearances seen ds).map fun k => .projection k.1 k.2 := by
  induction ds generalizing seen with
  | nil => rfl
  | cons d rest ih =>
    have hrest := ih fun d' hd' => h d' (List.mem_cons_of_mem _ hd')
    cases d with
    | dense d => rw [events, appearances, h d List.mem_cons_self, if_neg Bool.false_ne_true, hrest]
    | expert p label e =>
      rw [events, appearances]
      split_ifs
      · exact hrest seen
      · rw [List.map_cons, hrest]

/-- What a load from `bytes` already charged leaves: every tensor with its own bytes, in its own row
if it is hosted; the hosted experts, as many of the matching ones in ascending order as the budget paid
for when their plan was made, which is a matter of the order of projections alone where the selectors
match no dense tensor; and a total less than one tensor over the budget. -/
structure Placement (o : Offload) (M : Model) (bytes : Nat) (ds : List Delivery)
    (placed : List (Delivery × Placed)) (s : Load) : Prop where
  delivered : placed.map Prod.fst = ds
  own_bytes : ∀ p label e at_, (Delivery.expert p label e, at_) ∈ placed →
    s.deref at_ = some (M.expert_bytes p label e)
  hosted : ∀ p label e at_, (Delivery.expert p label e, at_) ∈ placed →
    at_ = match s.hosted p label e with
      | none => .device (M.expert p label e)
      | some row => .row p label row
  own_row : ∀ p label e e' row, s.hosted p label e = some row → s.hosted p label e' = some row →
    e = e'
  ascending : ∀ p label, s.hostedIds p label <+: matchingIds o (M.collector p) label ∧
    ∀ e row, s.hosted p label e = some row ↔ (s.hostedIds p label)[row]? = some e
  taken : ∀ p label e, Delivery.expert p label e ∈ ds → ∃ before after,
    events o M [] ds = before ++ .projection p label :: after ∧
      PlanTakes o (M.collector p) label ((M.shape p label).prod * M.element_size p label)
        (before.foldl (planEvent o M) (Load.start bytes).plans).charged.cpu_offload_bytes
        (s.hostedIds p label)
  order : ∀ ds' placed' s', load o M ds' (Load.start bytes) = .ok (placed', s') →
    events o M [] ds' = events o M [] ds → ∀ p label e, s'.hosted p label e = s.hosted p label e
  pairs : (∀ d, .dense d ∈ ds → (M.dense_param d).eligible o = false) →
    ∀ ds' placed' s', load o M ds' (Load.start bytes) = .ok (placed', s') →
      (∀ d, .dense d ∈ ds' → (M.dense_param d).eligible o = false) →
      appearances [] ds' = appearances [] ds →
      ∀ p label e, s'.hosted p label e = s.hosted p label e
  budget : s.charged.cpu_offload_bytes = bytes ∨
    ∃ d ∈ ds, ∃ loader, o.loader = some loader ∧
      s.charged.cpu_offload_bytes < loader.cpu_offload_max_bytes + d.nbytes M

/-- Two loads that make the same plans host the same experts in the same rows. -/
theorem hosted_eq_of_plans_eq {s s' : Load} (h : s'.plans = s.plans) (p : Nat) (label : Label)
    (e : Nat) : s'.hosted p label e = s.hosted p label e := by
  rw [Load.hosted_eq, Load.hosted_eq, h]

/-- The rows of a projection number its hosted experts. -/
theorem Load.hosted_eq_some_iff (s : Load) (p : Nat) (label : Label) (e row : Nat) :
    s.hosted p label e = some row ↔ (s.hostedIds p label)[row]? = some e := by
  rw [hosted, hostedIds]
  rcases (s.blocks.get? (p, label)).join with _ | block
  · exact ⟨fun h => (nomatch h), fun h => (nomatch h)⟩
  · exact HostBlock.get?_rows_iff

/-- No two experts of a projection share a row. -/
theorem Load.hosted_injective {s : Load} {p : Nat} {label : Label} {e e' row : Nat}
    (h : s.hosted p label e = some row) (h' : s.hosted p label e' = some row) : e = e' := by
  rw [Load.hosted_eq_some_iff] at h h'
  exact Option.some.inj (h.symm.trans h')

theorem Loading.hostedIds_prefix {o : Offload} {M : Model} {s : Load}
    {done : List (Delivery × Placed)} (h : Loading o M s done) (p : Nat) (label : Label) :
    s.hostedIds p label <+: matchingIds o (M.collector p) label := by
  rw [Load.hostedIds]
  rcases hget : s.blocks.get? (p, label) with _ | _ | block
  · exact List.nil_prefix
  · exact List.nil_prefix
  · exact h.matching p label block hget

/-- What is hosted of a projection is what its plan took. -/
theorem Loading.hostedIds_taken {o : Offload} {M : Model} {s : Load} {done : List (Delivery × Placed)}
    (h : Loading o M s done) (hoff : o.host_quota = none) {bytes : Nat} {evs : List Event}
    (hplans : s.plans = evs.foldl (planEvent o M) (Load.start bytes).plans) {p : Nat} {label : Label}
    {e : Nat} {placed : Placed} (hmem : (Delivery.expert p label e, placed) ∈ done) :
    ∃ before after, evs = before ++ .projection p label :: after ∧
      PlanTakes o (M.collector p) label ((M.shape p label).prod * M.element_size p label)
        (before.foldl (planEvent o M) (Load.start bytes).plans).charged.cpu_offload_bytes
        (s.hostedIds p label) := by
  have hplanned : s.plans.rows (p, label) ≠ none :=
    mt Load.plans_rows_eq_none.mp (h.settled p label e placed hmem).planned
  rw [hplans] at hplanned
  rw [Load.hostedIds_eq, hplans]
  rcases foldl_planEvent_rows o M evs (Load.start bytes).plans p label with
    hsame | ⟨before, after, hevs, hrows⟩
  · exact absurd hsame hplanned
  · refine ⟨before, after, hevs, ?_⟩
    rw [hrows]
    exact planBlock_takes hoff (M.collector p) label (M.shape p label) (M.element_size p label)
      (before.foldl (planEvent o M) (Load.start bytes).plans).charged

/-- A load from the start. -/
theorem load_start (o : Offload) (M : Model) (bytes : Nat) (ds : List Delivery) :
    ∃ placed s, load o M ds (Load.start bytes) = .ok (placed, s) ∧ placed.map Prod.fst = ds ∧
      Loading o M s placed ∧
      s.plans = (events o M [] ds).foldl (planEvent o M) (Load.start bytes).plans := by
  have hstart : ∀ k, k ∈ [] ↔ (Load.start bytes).plans.rows k ≠ none := by
    intro k
    exact ⟨fun h => absurd h List.not_mem_nil, fun h => absurd rfl h⟩
  exact load_run o M ds (Load.start bytes) [] [] (Loading.start bytes) hstart

/-- A load with the cache off, whatever order its tensors come in. -/
theorem expert_placement (o : Offload) (M : Model) (bytes : Nat) (ds : List Delivery)
    (hoff : o.host_quota = none) :
    ∃ placed s, load o M ds (Load.start bytes) = .ok (placed, s) ∧
      Placement o M bytes ds placed s := by
  obtain ⟨placed, s, hload, hfst, hloading, hplans⟩ := load_start o M bytes ds
  have horder : ∀ ds' placed' s', load o M ds' (Load.start bytes) = .ok (placed', s') →
      events o M [] ds' = events o M [] ds →
      ∀ p label e, s'.hosted p label e = s.hosted p label e := by
    intro ds' placed' s' hload' hevents p label e
    obtain ⟨_, _, hload'', _, _, hplans'⟩ := load_start o M bytes ds'
    obtain ⟨_, rfl⟩ := Prod.mk.inj (Except.ok.inj (hload''.symm.trans hload'))
    refine hosted_eq_of_plans_eq ?_ p label e
    rw [hplans, hplans', hevents]
  refine ⟨placed, s, hload, hfst, ?_, ?_, ?_, ?_, ?_, horder, ?_, ?_⟩
  · exact fun p label e at_ hmem => (hloading.settled p label e at_ hmem).deref
  · exact fun p label e at_ hmem => (hloading.settled p label e at_ hmem).eq_hosted
  · exact fun p label e e' row => Load.hosted_injective
  · exact fun p label => ⟨hloading.hostedIds_prefix p label, s.hosted_eq_some_iff p label⟩
  · intro p label e hmem
    rw [← hfst, List.mem_map] at hmem
    obtain ⟨⟨_, at_⟩, hplaced, rfl⟩ := hmem
    exact hloading.hostedIds_taken hoff hplans hplaced
  · intro hquiet ds' placed' s' hload' hquiet' hpairs
    refine horder ds' placed' s' hload' ?_
    rw [events_of_not_eligible hquiet, events_of_not_eligible hquiet', hpairs]
  · have htotal : s.charged = ((events o M [] ds).foldl (planEvent o M)
        (Load.start bytes).plans).charged := congrArg Plans.charged hplans
    rw [htotal]
    rcases foldl_planEvent_within hoff M (events o M [] ds) (Load.start bytes).plans with
      hsame | ⟨ev, hev, loader, hloader, hless⟩
    · exact .inl hsame
    · obtain ⟨d, hd, hsize⟩ := mem_events hev
      exact .inr ⟨d, hd, loader, hloader, by omega⟩

/-! One layer of two experts and a dense projection, all of two bytes a tensor, with a budget of five
bytes that the selectors spend on either. -/

/-- `--cpu-offload-params experts q_proj`, five bytes -/
def fiveBytes : Offload where
  loader := some ⟨["experts", "q_proj"], 5⟩
  search := fun _ _ => false
  host_quota := none

/-- Expert `e` of every projection holds `e` twice. -/
def twoExperts : Model where
  collector := fun _ => ⟨"model.layers.0.mlp.experts", "trellis", 2⟩
  shape := fun _ _ => [1]
  element_size := fun _ _ => 2
  expert_bytes := fun _ _ e => [UInt8.ofNat e, UInt8.ofNat e]
  expert_bytes_eq := fun _ _ _ => rfl
  dense_param := fun _ => ⟨"model.layers.0.self_attn.q_proj", "trellis", true⟩
  dense_tensor := fun _ => ⟨[1], 2, [9, 9], rfl⟩

/-- The gate experts, the dense tensor, the up experts. -/
def gateFirst : List Delivery :=
  [.expert 0 .gate 1, .expert 0 .gate 0, .dense 0, .expert 0 .up 0, .expert 0 .up 1]

/-- The same with an up expert and a gate expert changing places. -/
def interleaved : List Delivery :=
  [.expert 0 .gate 1, .expert 0 .up 0, .dense 0, .expert 0 .gate 0, .expert 0 .up 1]

theorem twoExperts_placement : ∃ placed s,
    load fiveBytes twoExperts gateFirst (Load.start 0) = .ok (placed, s) ∧
      Placement fiveBytes twoExperts 0 gateFirst placed s :=
  expert_placement fiveBytes twoExperts 0 gateFirst rfl

/-- The row of up expert 0 at the end of a load. -/
def upRow (ds : List Delivery) : Option (Option Nat) :=
  match load fiveBytes twoExperts ds (Load.start 0) with
  | .ok (_, s) => some (s.hosted 0 .up 0)
  | .error _ => none

theorem upRow_eq {ds : List Delivery} {placed : List (Delivery × Placed)} {s : Load}
    (h : load fiveBytes twoExperts ds (Load.start 0) = .ok (placed, s)) :
    upRow ds = some (s.hosted 0 .up 0) := by
  rw [upRow, h]

/-- Gate comes before up in both orders, but only in one of them does the dense tensor come before the
up projection is planned. -/
theorem appearances_do_not_settle_rows : ¬ ∀ (o : Offload) (M : Model) (bytes : Nat)
    (ds ds' : List Delivery) (placed placed' : List (Delivery × Placed)) (s s' : Load),
    o.host_quota = none → ds.Perm ds' → appearances [] ds = appearances [] ds' →
    load o M ds (Load.start bytes) = .ok (placed, s) →
    load o M ds' (Load.start bytes) = .ok (placed', s') →
    ∀ p label e, s'.hosted p label e = s.hosted p label e := by
  intro hall
  obtain ⟨placed, s, hload, _⟩ := load_start fiveBytes twoExperts 0 gateFirst
  obtain ⟨placed', s', hload', _⟩ := load_start fiveBytes twoExperts 0 interleaved
  have hsame := hall fiveBytes twoExperts 0 gateFirst interleaved placed placed' s s' rfl
    (by decide) (by decide) hload hload' 0 .up 0
  have hout : upRow gateFirst = some none := by decide +kernel
  have hin : upRow interleaved = some (some 0) := by decide +kernel
  rw [upRow_eq hload] at hout
  rw [upRow_eq hload'] at hin
  rw [Option.some.inj hout, Option.some.inj hin] at hsame
  cases hsame

end VllmExl3.CpuOffload
