/-
# VllmExl3.CpuOffload.HostQuota — the share of each layer that host RAM is asked to hold

With the expert cache on, `_plan_block` takes every matching expert up to `_host_quota`: all of them
where host RAM allows, else one share for every layer. The share is a double and the quota is rounded
up to whole experts, once; the bytes hosted are that quota times every declared layer and projection.
So the bytes stay within the RAM the share was taken of only where the share is a whole number of
experts, and where the doubles make no more of it.
-/
import VllmExl3.CpuOffload.Placement
import VllmExl3.Lib.Double

namespace VllmExl3.CpuOffload

/-! ## `_host_quota` -/

/-- What `_mem_available`, `_mem_total` and `get_tensor_model_parallel_world_size` return; no world
size where the call raises. -/
structure Host where
  mem_available : Nat
  mem_total : Nat
  world_size : Option Int

/-- `_HOST_MARGIN` -/
def HOST_MARGIN : Nat := 4 * 2 ^ 30

/-- `_local_ranks` -/
def Host.localRanks (h : Host) : Int :=
  match h.world_size with
  | some size => max size 1
  | none => 1

/-- `free`: this rank's part of the available RAM, less the margin left to the host. -/
def Host.free (h : Host) : Int :=
  h.mem_available / h.localRanks - max HOST_MARGIN (h.mem_total / 10 : Nat)

/-- The fields of `_STATS` that the quota is decided from and kept in. -/
structure Stats where
  moe_layers : List String
  quota : Option Int
  deriving DecidableEq

/-- `_reset_stats` -/
def Stats.reset : Stats := ⟨[], none⟩

/-- `declare_moe_layer` -/
def Stats.declareMoeLayer (s : Stats) ( layer_prefix : String) : Stats :=
  if layer_prefix ∈ s.moe_layers then s else { s with moe_layers := s.moe_layers ++ [ layer_prefix] }

/-- The layers the quota is shared out over. -/
def Stats.layers (s : Stats) : Nat := max s.moe_layers.length 1

/-- `want`: the bytes of every expert of every declared layer. -/
def Stats.want (s : Stats) (experts nbytes : Nat) : Nat := s.layers * experts * 3 * nbytes

/-- `math.ceil(share * experts)`; `none` where the division or the conversion raises. -/
def Host.quota (h : Host) (experts want : Nat) : Option Int := do
  let share ← if (want : Int) ≤ h.free then some 1 else Double.intDiv (max h.free 0) want
  let count ← Double.ofInt experts
  return ⌈Double.mul share count⌉

/-- `_host_quota` -/
def hostQuota (h : Host) (experts nbytes : Nat) (s : Stats) : Option (Int × Stats) :=
  match s.quota with
  | some quota => some (quota, s)
  | none => do
    let quota ← h.quota experts (s.want experts nbytes)
    return (quota, { s with quota := some quota })

/-- The quota is decided once: whatever the host looks like later, the next call returns it. -/
theorem hostQuota_kept {h h' : Host} {experts nbytes experts' nbytes' : Nat} {s s' : Stats}
    {quota : Int} (hq : hostQuota h experts nbytes s = some (quota, s')) :
    hostQuota h' experts' nbytes' s' = some (quota, s') := by
  have hkept : s'.quota = some quota := by
    unfold hostQuota at hq
    split at hq
    · rename_i q hs
      obtain ⟨rfl, rfl⟩ := Prod.mk.inj (Option.some.inj hq)
      exact hs
    · obtain ⟨q, _, hq⟩ := Option.bind_eq_some_iff.mp hq
      obtain ⟨rfl, rfl⟩ := Prod.mk.inj (Option.some.inj hq)
      rfl
  rw [hostQuota, hkept]

/-! ## What the plans host -/

/-- Planning a list of projections, in any order they arrive in. -/
def planAll (o : Offload) (shape : List Nat) (element_size : Nat) (ps : List (Collector × Label))
    (c : Charged) : Charged :=
  ps.foldl (fun c p => (planBlock o p.1 p.2 shape element_size c).2) c

/-- The projections of the declared layers. -/
def projections (s : Stats) (experts : Nat) : List (Collector × Label) :=
  s.moe_layers.flatMap fun layer_prefix =>
    LABELS.map fun label => (⟨ layer_prefix, "trellis", experts⟩, label)

theorem length_projections (s : Stats) (experts : Nat) :
    (projections s experts).length = 3 * s.moe_layers.length := by
  simp [projections, LABELS, Nat.mul_comm]

section Charge

variable {o : Offload} {loader : UVALoader} {quota : Nat}

/-- With the cache on and every name matching, the loop charges each expert it takes up to the
quota. -/
theorem planLoop_expert_bytes (hquota : o.host_quota = some quota) {name : Nat → String}
    {nbytes : Nat} {ids : List Nat} (taken : List Nat) (c : Charged)
    (hmatch : ∀ e ∈ ids, matchesSelectors o.search loader.cpu_offload_params (name e) = true) :
    (planLoop o loader name quota nbytes ids taken c).2.expert_bytes =
      c.expert_bytes + min ids.length (quota - taken.length) * nbytes := by
  induction ids generalizing taken c with
  | nil => simp [planLoop]
  | cons e rest ih =>
    rw [planLoop]
    split_ifs with hstop hname
    · have hfull : quota ≤ taken.length := by simpa [hquota] using hstop
      simp [Nat.sub_eq_zero_of_le hfull]
    · have hroom : taken.length < quota := by
        rw [hquota] at hstop
        simp only [reduceCtorEq, false_and, or_false, ge_iff_le, not_le] at hstop
        exact hstop
      have hcharge : (count c nbytes o.host_quota.isNone).expert_bytes = c.expert_bytes + nbytes := by
        rw [hquota]
        rfl
      have hstep : min (rest.length + 1) (quota - taken.length) =
          min rest.length (quota - (taken.length + 1)) + 1 := by omega
      rw [ih _ _ fun e' he' => hmatch e' (List.mem_cons_of_mem e he'), hcharge, List.length_append,
        List.length_singleton, List.length_cons, hstep, Nat.add_mul]
      omega
    · exact absurd (hmatch e List.mem_cons_self) hname

/-- So each projection hosts the quota, or all its experts if the quota is more. -/
theorem planAll_expert_bytes (hquota : o.host_quota = some quota) (hloader : o.loader = some loader)
    {shape : List Nat} {element_size experts : Nat} {ps : List (Collector × Label)} (c : Charged)
    (hname : ∀ p ∈ ps, p.1.exl3_name ∈ OFFLOADABLE_COMPONENTS)
    (hexperts : ∀ p ∈ ps, p.1.exl3_num_experts = experts)
    (hmatch : ∀ p ∈ ps, ∀ e < experts,
      matchesSelectors o.search loader.cpu_offload_params (expertName p.1 p.2 e) = true) :
    (planAll o shape element_size ps c).expert_bytes =
      c.expert_bytes + ps.length * (min experts quota * (shape.prod * element_size)) := by
  induction ps generalizing c with
  | nil => simp [planAll]
  | cons p rest ih =>
    have hone : (planBlock o p.1 p.2 shape element_size c).2.expert_bytes =
        c.expert_bytes + min experts quota * (shape.prod * element_size) := by
      have hplan : (planBlock o p.1 p.2 shape element_size c).2 =
          (planTaken o loader p.1 p.2 (shape.prod * element_size) c).2 := by
        unfold planBlock
        rw [if_neg (not_not_intro (hname p List.mem_cons_self)), hloader]
        dsimp only
        split_ifs <;> rfl
      rw [hplan, planTaken, hquota, Option.getD_some, planLoop_expert_bytes hquota [] c,
        hexperts p List.mem_cons_self, List.length_range, List.length_nil, Nat.sub_zero]
      intro e he
      rw [hexperts p List.mem_cons_self] at he
      exact hmatch p List.mem_cons_self e (List.mem_range.mp he)
    rw [planAll, List.foldl_cons, ← planAll, ih _ (fun q hq => hname q (List.mem_cons_of_mem p hq))
      (fun q hq => hexperts q (List.mem_cons_of_mem p hq))
      (fun q hq => hmatch q (List.mem_cons_of_mem p hq)), hone, List.length_cons, Nat.succ_mul]
    omega

/-- The bytes a loaded model hosts under the cache, every expert of the declared layers matching. -/
theorem projections_expert_bytes (hquota : o.host_quota = some quota)
    (hloader : o.loader = some loader) {shape : List Nat} {element_size experts : Nat} (s : Stats)
    (c : Charged) (hmatch : ∀ p ∈ projections s experts, ∀ e < experts,
      matchesSelectors o.search loader.cpu_offload_params (expertName p.1 p.2 e) = true) :
    (planAll o shape element_size (projections s experts) c).expert_bytes = c.expert_bytes +
      3 * s.moe_layers.length * (min experts quota * (shape.prod * element_size)) := by
  have hshape : ∀ p ∈ projections s experts,
      p.1.exl3_name = "trellis" ∧ p.1.exl3_num_experts = experts := by
    intro p hp
    obtain ⟨_, _, hp⟩ := List.mem_flatMap.mp hp
    obtain ⟨_, _, rfl⟩ := List.mem_map.mp hp
    exact ⟨rfl, rfl⟩
  rw [planAll_expert_bytes hquota hloader c (fun p hp => by rw [(hshape p hp).1]; decide)
    (fun p hp => (hshape p hp).2) hmatch, length_projections]

end Charge

/-! ## Where the quota keeps to the RAM it was computed from -/

/-- The bytes of one expert in every projection of every declared layer: what one more expert in the
quota costs. -/
def Stats.unit (s : Stats) (nbytes : Nat) : Nat := 3 * s.layers * nbytes

theorem Stats.want_eq (s : Stats) (experts nbytes : Nat) :
    s.want experts nbytes = s.unit nbytes * experts := by
  rw [Stats.want, Stats.unit]
  ring

/-- The bytes hosted are within the RAM computed to be free, or every expert fits there. -/
def HostedWithin (h : Host) (experts nbytes : Nat) (moe_layers : List String) : Prop :=
  ∀ quota s', hostQuota h experts nbytes ⟨moe_layers, none⟩ = some (quota, s') →
    3 * (Stats.layers ⟨moe_layers, none⟩) * quota * nbytes ≤ max 0 h.free ∨
      (Stats.want ⟨moe_layers, none⟩ experts nbytes : Int) ≤ h.free

/-- Every expert fits, nothing is free, or the free bytes are those of a whole number of experts a
layer that its share in doubles does not exceed. -/
def WholeShare (h : Host) (experts nbytes : Nat) (moe_layers : List String) : Prop :=
  (Stats.want ⟨moe_layers, none⟩ experts nbytes : Int) ≤ h.free ∨ h.free ≤ 0 ∨
    ((Stats.unit ⟨moe_layers, none⟩ nbytes : Int) ∣ h.free ∧
      Double.backAtMost (h.free / (Stats.unit ⟨moe_layers, none⟩ nbytes : Nat)) experts = true)

section Quota

variable {h : Host} {experts u : Nat} {free : Int}

/-- Where not every expert fits, the quota is the share rounded up. -/
theorem quota_of_short (hshort : h.free < (u * experts : Nat)) :
    h.quota experts (u * experts) = Double.ceilShare (max h.free 0) (u * experts) experts := by
  rw [Host.quota, Double.ceilShare, if_neg (not_le.mpr hshort)]
  push_cast
  rfl

theorem hostQuota_fst (nbytes : Nat) (moe_layers : List String) {quota : Int} :
    (∃ s', hostQuota h experts nbytes ⟨moe_layers, none⟩ = some (quota, s')) ↔
      h.quota experts (Stats.want ⟨moe_layers, none⟩ experts nbytes) = some quota := by
  rw [hostQuota]
  cases h.quota experts (Stats.want ⟨moe_layers, none⟩ experts nbytes) with
  | none => simp
  | some q => simp [eq_comm]

/-- The rounded share costs no more than is free: nothing is free, or the free bytes are those of a
whole number of experts a layer that its share in doubles does not exceed. -/
theorem share_within (hshort : free < u * experts)
    (hwhole : free ≤ 0 ∨ (u : Int) ∣ free ∧ Double.backAtMost (free / u) experts = true)
    {quota : Int} (hq : Double.ceilShare (max free 0) (u * experts) experts = some quota) :
    u * quota ≤ max 0 free := by
  by_cases hfree : free ≤ 0
  · rw [max_eq_right hfree] at hq
    simp [Double.ceilShare_zero hq]
  · have hpos := not_le.mp hfree
    obtain ⟨⟨k, rfl⟩, hback⟩ := hwhole.resolve_left hfree
    have hu : (u : Int) ≠ 0 := by
      intro hzero
      simp [hzero] at hpos
    rw [Int.mul_ediv_cancel_left _ hu] at hback
    rw [max_eq_left hpos.le] at hq
    rw [max_eq_right hpos.le]
    exact Int.mul_le_mul_of_nonneg_left ((Double.backAtMost_iff hu).mp hback quota hq) (by omega)

/-- At the sizes a host has, the rounded share costs no more than is free only so: any remainder is
rounded up to one more expert in every projection of every layer. -/
theorem whole_of_share_within (hshort : free < u * experts) (hpos : 0 < free)
    (hsmall : free < 2 ^ 51) (hwant : (u * experts : Int) < 2 ^ 64)
    (hwithin : ∀ quota, Double.ceilShare free (u * experts) experts = some quota →
      u * quota ≤ free) :
    (u : Int) ∣ free ∧ Double.backAtMost (free / u) experts = true := by
  have hprod : (0 : Int) < u * experts := hpos.trans hshort
  have hu : (0 : Int) < u := by
    apply pos_of_mul_pos_left hprod
    omega
  have hexperts : (0 : Int) < experts := pos_of_mul_pos_right hprod hu.le
  have hdiv := Int.mul_ediv_add_emod free u
  by_cases hrem : free % u = 0
  · refine ⟨Int.dvd_of_emod_eq_zero hrem, (Double.backAtMost_iff hu.ne').mpr ?_⟩
    intro quota hq
    rw [hrem, add_zero] at hdiv
    rw [hdiv] at hq
    apply le_of_mul_le_mul_left _ hu
    rw [hdiv]
    exact hwithin quota hq
  · exfalso
    have hk : 0 ≤ free / u := Int.ediv_nonneg hpos.le hu.le
    have hmod := Int.emod_nonneg free hu.ne'
    obtain ⟨quota, hq, hmore⟩ := Double.lt_ceilShare hexperts hu hsmall hwant hk (by omega) hshort
    have hmul := Int.mul_le_mul_of_nonneg_left (Int.add_one_le_of_lt hmore) hu.le
    have hlt := Int.emod_lt_of_pos free hu
    have hcost := hwithin quota hq
    rw [mul_add, mul_one] at hmul
    omega

end Quota

/-- The share in the terms of `ceilShare`. -/
theorem hostedWithin_iff (h : Host) (experts nbytes : Nat) (moe_layers : List String) :
    HostedWithin h experts nbytes moe_layers ↔
      (Stats.want ⟨moe_layers, none⟩ experts nbytes : Int) ≤ h.free ∨
        ∀ quota, Double.ceilShare (max h.free 0) (Stats.unit ⟨moe_layers, none⟩ nbytes * experts)
          experts = some quota → Stats.unit ⟨moe_layers, none⟩ nbytes * quota ≤ max 0 h.free := by
  have hbytes : ∀ quota : Int, 3 * (Stats.layers ⟨moe_layers, none⟩ : Int) * quota * nbytes =
      Stats.unit ⟨moe_layers, none⟩ nbytes * quota := by
    intro quota
    rw [Stats.unit]
    push_cast
    ring
  by_cases hfits : (Stats.want ⟨moe_layers, none⟩ experts nbytes : Int) ≤ h.free
  · exact ⟨fun _ => .inl hfits, fun _ _ _ _ => .inr hfits⟩
  · have hshort := not_le.mp hfits
    rw [Stats.want_eq] at hshort
    have hquota : ∀ quota, (∃ s', hostQuota h experts nbytes ⟨moe_layers, none⟩ =
        some (quota, s')) ↔ Double.ceilShare (max h.free 0)
          (Stats.unit ⟨moe_layers, none⟩ nbytes * experts) experts = some quota := by
      intro quota
      rw [hostQuota_fst, Stats.want_eq, quota_of_short hshort]
    constructor
    · intro hwithin
      refine .inr fun quota hq => ?_
      obtain ⟨s', hs'⟩ := (hquota quota).mpr hq
      rw [← hbytes]
      exact (hwithin quota s' hs').resolve_right hfits
    · intro hall quota s' hs'
      rw [hbytes]
      exact .inl (hall.resolve_left hfits quota ((hquota quota).mp ⟨s', hs'⟩))

/-- A whole share is enough. -/
theorem hostedWithin_of_whole {h : Host} {experts nbytes : Nat} {moe_layers : List String}
    (hwhole : WholeShare h experts nbytes moe_layers) : HostedWithin h experts nbytes moe_layers := by
  rw [hostedWithin_iff]
  by_cases hfits : (Stats.want ⟨moe_layers, none⟩ experts nbytes : Int) ≤ h.free
  · exact .inl hfits
  · have hshort := not_le.mp hfits
    rw [Stats.want_eq] at hshort
    push_cast at hshort
    exact .inr fun quota hq => share_within hshort (hwhole.resolve_left hfits) hq

/-- Rounding the share up costs bytes the host does not have unless the share is whole. A whole share
is enough at every size; it is needed at every size a host has, up to `2 ^ 51` free bytes and
`2 ^ 64` bytes of experts. -/
theorem host_quota_within (h : Host) (experts nbytes : Nat) (moe_layers : List String) :
    (WholeShare h experts nbytes moe_layers → HostedWithin h experts nbytes moe_layers) ∧
      (h.free < 2 ^ 51 → Stats.want ⟨moe_layers, none⟩ experts nbytes < 2 ^ 64 →
        HostedWithin h experts nbytes moe_layers → WholeShare h experts nbytes moe_layers) := by
  refine ⟨hostedWithin_of_whole, fun hsmall hwant hwithin => ?_⟩
  rw [hostedWithin_iff] at hwithin
  by_cases hfits : (Stats.want ⟨moe_layers, none⟩ experts nbytes : Int) ≤ h.free
  · exact .inl hfits
  have hshort := not_le.mp hfits
  rw [Stats.want_eq] at hshort hwant
  push_cast at hshort
  by_cases hfree : h.free ≤ 0
  · exact .inr (.inl hfree)
  · have hpos := not_le.mp hfree
    rw [max_eq_left hpos.le, max_eq_right hpos.le] at hwithin
    refine .inr (.inr ?_)
    exact whole_of_share_within hshort hpos hsmall (by exact_mod_cast hwant)
      (hwithin.resolve_left hfits)

/-- However often the layers are declared, the quota is still to be decided when the first is planned. -/
theorem quota_declared (declared : List String) (s : Stats) :
    (declared.foldl Stats.declareMoeLayer s).quota = s.quota := by
  induction declared generalizing s with
  | nil => rfl
  | cons layer rest ih =>
    rw [List.foldl_cons, ih, Stats.declareMoeLayer]
    split_ifs <;> rfl

/-- A layer is counted where none is declared, and there may be fewer experts than the quota. -/
theorem taken_cost_le {declared layers experts nbytes : Nat} {quota : Int} (hlayers : declared ≤ layers) :
    ((3 * declared * (min experts quota.toNat * nbytes) : Nat) : Int) ≤
      max 0 (3 * layers * quota * nbytes) := by
  rcases le_total quota 0 with hneg | hpos
  · rw [Int.toNat_of_nonpos hneg]
    simp
  · have hcast : (declared : Int) ≤ layers := by exact_mod_cast hlayers
    have htaken : (min experts quota.toNat : Int) ≤ quota := by omega
    refine le_max_of_le_right ?_
    rw [mul_assoc (3 * (layers : Int))]
    push_cast
    gcongr

/-- What is charged for the experts of a loaded model: with a whole share, no more than the host had free
when the first of the declared layers was planned, or all of them. -/
theorem declared_within {o : Offload} {loader : UVALoader} (hloader : o.loader = some loader) (h : Host)
    {shape : List Nat} {element_size experts : Nat} {declared : List String} {s s' : Stats} {quota : Int}
    (hs : s = declared.foldl Stats.declareMoeLayer .reset)
    (hquota : hostQuota h experts (shape.prod * element_size) s = some (quota, s'))
    (ho : o.host_quota = some quota.toNat)
    (hmatch : ∀ p ∈ projections s experts, ∀ e < experts,
      matchesSelectors o.search loader.cpu_offload_params (expertName p.1 p.2 e) = true)
    (hwhole : WholeShare h experts (shape.prod * element_size) s.moe_layers) (c : Charged) :
    (planAll o shape element_size (projections s experts) c).expert_bytes ≤
        (c.expert_bytes : Int) + max 0 h.free ∨
      (s.want experts (shape.prod * element_size) : Int) ≤ h.free := by
  have hundecided : s = ⟨s.moe_layers, none⟩ := by
    have hnone : s.quota = none := hs ▸ quota_declared declared .reset
    rw [← hnone]
  rw [hundecided] at hquota ⊢
  refine (hostedWithin_of_whole hwhole quota s' hquota).imp_left fun hbytes => ?_
  rw [← hundecided] at hbytes ⊢
  rw [projections_expert_bytes ho hloader s c hmatch, Nat.cast_add]
  exact add_le_add le_rfl ((taken_cost_le (le_max_left _ _)).trans (max_le (le_max_left _ _) hbytes))

/-- Two layers of eight experts of 512 bytes, of which 12 KiB hold half. -/
theorem halfShare_within :
    WholeShare ⟨4 * 2 ^ 30 + 12 * 2 ^ 10, 16 * 2 ^ 30, none⟩ 8 512 ["m.layers.3", "m.layers.4"] ∧
      HostedWithin ⟨4 * 2 ^ 30 + 12 * 2 ^ 10, 16 * 2 ^ 30, none⟩ 8 512
        ["m.layers.3", "m.layers.4"] := by
  have hwhole : WholeShare ⟨4 * 2 ^ 30 + 12 * 2 ^ 10, 16 * 2 ^ 30, none⟩ 8 512
      ["m.layers.3", "m.layers.4"] := .inr (.inr ⟨by decide, by decide +kernel⟩)
  exact ⟨hwhole, (host_quota_within _ _ _ _).1 hwhole⟩

/-- Two layers of eight experts of 64 MiB a projection, on a host with 6 of 16 GiB available: 2 GiB
are free past the margin, five and a third experts a layer. -/
def shortHost : Host := ⟨6 * 2 ^ 30, 16 * 2 ^ 30, none⟩

/-- The quota is six a layer: 2.25 GiB are hosted, a quarter of a GiB out of the margin. -/
theorem shortHost_over : ¬ HostedWithin shortHost 8 (64 * 2 ^ 20)
    ["model.layers.0.mlp.experts", "model.layers.1.mlp.experts"] := by
  rw [hostedWithin_iff]
  intro h
  rcases h with hfits | hwithin
  · exact absurd hfits (by decide)
  · exact absurd (hwithin 6 (by decide +kernel)) (by decide)

/-- Where 7 of 25 experts a layer fill the free bytes exactly, the double `7 / 25 * 25` is past 7 and
the quota is 8. -/
example : (hostQuota ⟨4 * 2 ^ 30 + 21 * 2 ^ 20, 16 * 2 ^ 30, none⟩ 25 (2 ^ 20)
    ⟨["model.layers.0.mlp.experts"], none⟩).map Prod.fst = some 8 := by
  decide +kernel

end VllmExl3.CpuOffload
