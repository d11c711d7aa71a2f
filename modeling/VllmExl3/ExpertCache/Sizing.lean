/-
# VllmExl3.ExpertCache.Sizing — how many slots `build` allocates, and what they cost

`build` prices a slot at the first layer's rows and divides what it may spend by that price times the
number of layers; `ExpertCache.__init__` then allocates every layer's own rows, capped at the experts
that layer hosts. The two agree when no number of slots costs more over the layers than its price.
Where a later layer stores wider trellises than the first, the slots run over the rule. The division
drops the part of a slot, and with it the floor the budget sets where that is no whole number of slots.
-/
import VllmExl3.ExpertCache.Model
import Mathlib.Algebra.BigOperators.Group.List.Basic
import Mathlib.Algebra.Order.BigOperators.Group.List
import Mathlib.Algebra.BigOperators.Ring.List
import Mathlib.Tactic.Ring

namespace VllmExl3.ExpertCache

/-! ## `size_slots` -/

/-- The bytes slots may take: what the reserve leaves or the budget's floor, whichever is more, and
never more than the hosted experts or than is available. -/
def slotTarget (available reserve hosted may_free : Int) : Int :=
  let want := max (available - reserve) 0
  let floor := max (hosted - may_free) 0
  min (min (max want floor) hosted) available

/-- `size_slots` -/
def sizeSlots (available reserve hosted may_free slot_bytes layers per_layer_max : Int) : Int :=
  min per_layer_max (slotTarget available reserve hosted may_free / max (slot_bytes * layers) 1)

/-! ## `build` -/

/-- The layers `prepare` was given: each has a host block, and each block a row, of a size of its
own. The `slots` of `P` are `build`'s to decide. -/
structure HostedLayers where
  P : Params
  row_bytes : Nat → Label → Nat
  layers_ne : P.layers ≠ []
  blocks_ne : ∀ layer ∈ P.layers, ∃ j, (layer.blocks j).isSome
  rows_ne : ∀ layer ∈ P.layers, ∀ j b, layer.blocks j = some b → b.rows.items ≠ []

/-- The fields of vLLM's `UVAOffloader` that `build` reads. -/
structure UVALoader where
  cpu_offload_bytes : Int
  cpu_offload_max_bytes : Int

/-- `cache_mode()` where the cache is on: `auto`, with the reserve `_kv_reserve` computes, or the
fixed count of `_slots_per_layer`. -/
inductive CacheMode where
  | auto (reserve : Int)
  | fixed (slots_per_layer : Int)

namespace HostedLayers

variable (M : HostedLayers)

/-- The bytes of one row of a layer's block, if it has the block. -/
def blockBytes (l : Nat) (j : Label) : Nat :=
  if (M.P.block l j).isSome then M.row_bytes l j else 0

/-- The bytes of one slot of layer `l`, across its projections. -/
def slotBytesOf (l : Nat) : Nat := (labels.map (M.blockBytes l)).sum

/-- `slot_bytes`, measured on the first layer -/
def slotBytes : Nat := M.slotBytesOf 0

/-- `len(b.rows)` -/
def blockRows (l : Nat) (j : Label) : Nat :=
  ((M.P.block l j).map fun b => b.rows.items.length).getD 0

/-- `per_layer_max` -/
def perLayerMax : Nat :=
  ((List.range M.P.L).map fun l => (labels.map (M.blockRows l)).foldr max 0).foldr max 0

/-- `cpu_offload._STATS["expert_bytes"]`: every row `_plan_block` counted. -/
def hostedBytes : Nat :=
  ((List.range M.P.L).map fun l => (labels.map fun j => M.blockRows l j * M.blockBytes l j).sum).sum

/-- `may_free` -/
def mayFree (loader : Option UVALoader) : Int :=
  match loader with
  | some loader => max (loader.cpu_offload_max_bytes - loader.cpu_offload_bytes) 0
  | none => M.hostedBytes

/-- The parameters of the cache with `slots` slots a layer. -/
def withSlots (slots : Nat) : Params := { M.P with slots := slots }

/-- `used`: the bytes of the slot tensors `__init__` allocates. -/
def slotTensorBytes (slots : Nat) : Nat :=
  ((List.range M.P.L).map fun l =>
    (labels.map fun j => (M.withSlots slots).capacity l * M.blockBytes l j).sum).sum

/-- `holds_everything` -/
def holdsEverything (slots : Nat) : Bool :=
  (List.range M.P.L).all fun l => (M.withSlots slots).capacity l ≥ (M.P.hosted l).length

/-- `slots`, as `build` decides them -/
def slots (available : Int) (mode : CacheMode) (loader : Option UVALoader) : Int :=
  match mode with
  | .fixed slots_per_layer => min slots_per_layer M.perLayerMax
  | .auto reserve => sizeSlots available reserve M.hostedBytes (M.mayFree loader) M.slotBytes
      M.P.layers.length M.perLayerMax

/-- The bytes `build` allocates. -/
def allocated (available : Int) (mode : CacheMode) (loader : Option UVALoader) : Nat :=
  let slots := M.slots available mode loader
  if slots ≤ 0 then 0 else M.slotTensorBytes slots.toNat

/-- `build`; `window` is the size of the staging window, which goes back to KV when every hosted
expert has a slot for good. -/
def build (available : Int) (mode : CacheMode) (loader : Option UVALoader)
    (window : Option Nat) : Int :=
  let slots := M.slots available mode loader
  if slots ≤ 0 then 0
  else
    let used := M.slotTensorBytes slots.toNat
    if M.holdsEverything slots.toNat then
      let freed := window.getD 0
      used - freed
    else used

/-- `determine_available_memory`, over the memory vLLM measured -/
def determineAvailableMemory (available : Int) (mode : CacheMode) (loader : Option UVALoader)
    (window : Option Nat) : Int :=
  available - M.build available mode loader window

/-! ## The rule -/

/-- What `build` divides its target by. -/
def price : Nat := max (M.slotBytes * M.P.layers.length) 1

/-- Slot memory in auto mode stays within the sizing rule: the bytes allocated, what KV keeps of its
reserve unless the budget forces more slots, and what is left for KV at all. -/
structure WithinRule (available reserve : Int) (loader : Option UVALoader)
    (window : Option Nat) : Prop where
  allocated_le : (M.allocated available (.auto reserve) loader : Int) ≤
    slotTarget available reserve M.hostedBytes (M.mayFree loader)
  reserve_kept : (M.hostedBytes : Int) - M.mayFree loader ≤ max (available - reserve) 0 →
    min reserve available ≤ available - M.allocated available (.auto reserve) loader
  left_nonneg : 0 ≤ M.determineAvailableMemory available (.auto reserve) loader window

variable {M}

theorem build_le_allocated (available : Int) (mode : CacheMode) (loader : Option UVALoader)
    (window : Option Nat) :
    M.build available mode loader window ≤ M.allocated available mode loader := by
  unfold build allocated
  dsimp only
  split
  · exact Int.le_refl 0
  · split
    · omega
    · exact Int.le_refl _

/-- The target decides the rest of the rule. -/
theorem withinRule_of_le {available reserve : Int} {loader : Option UVALoader}
    {window : Option Nat} (hle : (M.allocated available (.auto reserve) loader : Int) ≤
      slotTarget available reserve M.hostedBytes (M.mayFree loader)) :
    M.WithinRule available reserve loader window := by
  have hbuild : M.build available (.auto reserve) loader window ≤ _ :=
    build_le_allocated available (.auto reserve) loader window
  refine ⟨hle, fun hfloor => ?_, ?_⟩
  · unfold slotTarget at hle
    dsimp only at hle
    omega
  · unfold slotTarget at hle
    unfold determineAvailableMemory
    dsimp only at hle
    omega

theorem price_pos : 0 < M.price := by
  unfold price
  omega

theorem price_cast :
    max ((M.slotBytes : Int) * (M.P.layers.length : Nat)) 1 = (M.price : Int) := by
  unfold price
  rw [← Int.natCast_mul]
  omega

/-- As many slots as the target pays for, each at the price. -/
theorem slots_mul_price_le {available reserve : Int} {loader : Option UVALoader} {s : Nat}
    (h : (s : Int) ≤ M.slots available (.auto reserve) loader) :
    ((s * M.price : Nat) : Int) ≤
      slotTarget available reserve M.hostedBytes (M.mayFree loader) := by
  have hs : (s : Int) ≤
      slotTarget available reserve M.hostedBytes (M.mayFree loader) / (M.price : Int) := by
    rw [← price_cast]
    exact h.trans (Int.min_le_right _ _)
  rw [Int.natCast_mul]
  exact (Int.le_ediv_iff_mul_le (by exact_mod_cast price_pos)).mp hs

/-- A target that pays for exactly `s` slots gives `s` slots. -/
theorem slots_of_target {available reserve : Int} {loader : Option UVALoader} {s : Nat}
    (hs : s ≤ M.perLayerMax) (h : slotTarget available reserve M.hostedBytes (M.mayFree loader) =
      ((s * M.price : Nat) : Int)) : M.slots available (.auto reserve) loader = s := by
  have hpos : (M.price : Int) ≠ 0 := by exact_mod_cast price_pos.ne'
  show min (M.perLayerMax : Int) (slotTarget available reserve M.hostedBytes (M.mayFree loader) /
    max ((M.slotBytes : Int) * (M.P.layers.length : Nat)) 1) = s
  rw [price_cast, h, Int.natCast_mul, Int.mul_ediv_cancel _ hpos]
  omega

theorem slots_le_perLayerMax {available reserve : Int} {loader : Option UVALoader} :
    M.slots available (.auto reserve) loader ≤ M.perLayerMax := Int.min_le_left _ _

theorem slotTensorBytes_zero : M.slotTensorBytes 0 = 0 := by
  simp [slotTensorBytes, withSlots, Params.capacity]

/-- Where every affordable number of slots is worth its price, `build` keeps to the rule. -/
theorem withinRule_of_cost {available : Int} (havail : 0 ≤ available)
    (hcost : ∀ s ≤ M.perLayerMax, s * M.price ≤ M.hostedBytes →
      ((s * M.price : Nat) : Int) ≤ available → M.slotTensorBytes s ≤ s * M.price)
    (reserve : Int) (loader : Option UVALoader) (window : Option Nat) :
    M.WithinRule available reserve loader window := by
  refine withinRule_of_le ?_
  unfold allocated
  dsimp only
  split
  · unfold slotTarget
    dsimp only
    omega
  · rename_i hpos
    have hs : ((M.slots available (.auto reserve) loader).toNat : Int) =
        M.slots available (.auto reserve) loader := Int.toNat_of_nonneg (by omega)
    have hpaid := slots_mul_price_le hs.le
    have hmax : M.slots available (.auto reserve) loader ≤ M.perLayerMax := slots_le_perLayerMax
    have hcap : slotTarget available reserve M.hostedBytes (M.mayFree loader) ≤ M.hostedBytes ∧
        slotTarget available reserve M.hostedBytes (M.mayFree loader) ≤ available := by
      unfold slotTarget
      dsimp only
      omega
    have hused := hcost _ (by omega) (by omega) (hpaid.trans hcap.2)
    omega

/-- `build` keeps to the sizing rule, whatever the reserve, the budget and the staging window,
exactly when memory is not overdrawn to begin with and no number of slots it can pay for costs more
over the layers than that many of the first layer's, once a layer. -/
theorem build_within_rule_iff (M : HostedLayers) (available : Int) :
    (∀ reserve loader window, M.WithinRule available reserve loader window) ↔
      0 ≤ available ∧ ∀ s ≤ M.perLayerMax, s * M.price ≤ M.hostedBytes →
        ((s * M.price : Nat) : Int) ≤ available → M.slotTensorBytes s ≤ s * M.price := by
  constructor
  · intro hrule
    constructor
    · have hle := (hrule 0 none none).allocated_le
      unfold slotTarget at hle
      dsimp only at hle
      omega
    · intro s hmax hhosted havail
      -- the reserve that leaves `s` slots' price, under a budget that forces none
      have htarget : slotTarget available (available - (s * M.price : Nat)) M.hostedBytes
          (M.mayFree none) = ((s * M.price : Nat) : Int) := by
        unfold slotTarget mayFree
        dsimp only
        omega
      have hslots := slots_of_target hmax htarget
      have hle := (hrule (available - (s * M.price : Nat)) none none).allocated_le
      rcases Nat.eq_zero_or_pos s with rfl | hpos
      · rw [slotTensorBytes_zero]
        exact Nat.zero_le _
      · rw [htarget, allocated, hslots, if_neg (by omega), Int.toNat_natCast] at hle
        exact_mod_cast hle
  · rintro ⟨havail, hcost⟩ reserve loader window
    exact withinRule_of_cost havail hcost reserve loader window

/-- Two layers of four experts, all hosted; the second layer's trellises are twice as wide. -/
def twoWidths : HostedLayers where
  P :=
    { E := 4
      layers := List.replicate 2
        ⟨fun _ => some ⟨⟨[(0, 0), (1, 1), (2, 2), (3, 3)], by decide⟩⟩, by
          rintro j b hb e he
          obtain rfl := Option.some.inj hb
          exact (by decide : ∀ e ∈ [0, 1, 2, 3], e < 4) e he⟩
      slots := 0
      budget := 32
      rows := 32 }
  row_bytes l _ := if l = 0 then 1024 else 2048
  layers_ne := by decide
  blocks_ne := by
    intro layer hlayer
    rw [List.eq_of_mem_replicate hlayer]
    exact ⟨0, rfl⟩
  rows_ne := by
    intro layer hlayer j b hb
    rw [List.eq_of_mem_replicate hlayer] at hb
    obtain rfl := Option.some.inj hb
    decide

/-- Two slots a layer are paid for at 12288 bytes and cost 18432, more than there was. -/
theorem twoWidths_overdraws : ¬twoWidths.WithinRule 12288 0 none none := by
  intro hrule
  have hleft := hrule.left_nonneg
  have hvalue : twoWidths.determineAvailableMemory 12288 (.auto 0) none none = -6144 := by
    decide +kernel
  rw [hvalue] at hleft
  exact absurd hleft (by decide)

/-- A slot of layer `l` costs that layer's own rows, and no layer has more slots than experts. -/
theorem slotTensorBytes_eq (s : Nat) : M.slotTensorBytes s =
    ((List.range M.P.L).map fun l => min s (M.P.hosted l).length * M.slotBytesOf l).sum := by
  have hlayer : ∀ l, (labels.map fun j => (M.withSlots s).capacity l * M.blockBytes l j).sum =
      min s (M.P.hosted l).length * M.slotBytesOf l := by
    intro l
    rw [List.sum_map_mul_left]
    rfl
  simp only [slotTensorBytes, hlayer]

/-- Where no layer stores wider rows than the first, every number of slots is worth its price. -/
theorem slotTensorBytes_le_of_first_widest (h : ∀ l < M.P.L, M.slotBytesOf l ≤ M.slotBytes)
    (s : Nat) : M.slotTensorBytes s ≤ s * M.price := by
  have hlayer : ∀ x ∈ (List.range M.P.L).map fun l =>
      min s (M.P.hosted l).length * M.slotBytesOf l, x ≤ s * M.slotBytes := by
    intro x hx
    obtain ⟨l, hl, rfl⟩ := List.mem_map.mp hx
    exact Nat.mul_le_mul (Nat.min_le_left _ _) (h l (List.mem_range.mp hl))
  calc M.slotTensorBytes s
      = ((List.range M.P.L).map fun l => min s (M.P.hosted l).length * M.slotBytesOf l).sum :=
        slotTensorBytes_eq s
    _ ≤ M.P.L * (s * M.slotBytes) := by
        have hsum := List.sum_le_card_nsmul _ _ hlayer
        rw [List.length_map, List.length_range] at hsum
        exact hsum
    _ = s * (M.slotBytes * M.P.layers.length) := by
        rw [Params.L]
        ring
    _ ≤ s * M.price := Nat.mul_le_mul_left s (Nat.le_max_left _ _)

/-- The models `build` was sized for: the rule holds whatever the reserve and the budget. -/
theorem withinRule_of_first_widest (h : ∀ l < M.P.L, M.slotBytesOf l ≤ M.slotBytes)
    {available : Int} (havail : 0 ≤ available) (reserve : Int) (loader : Option UVALoader)
    (window : Option Nat) : M.WithinRule available reserve loader window :=
  withinRule_of_cost havail (fun s _ _ _ => slotTensorBytes_le_of_first_widest h s)
    reserve loader window

end HostedLayers

/-! ## The budget as a floor on slots

`size_slots` divides its target into whole slots, one in every layer at a time, and drops the rest. A
floor that is no whole number of slots is dropped with it, unless KV's share of the memory pays for
the next slot anyway. -/

/-- The bytes of the whole slots, in each of `layers` layers, that it takes to hold `bytes`. -/
def wholeSlots (slot_bytes layers bytes : Int) : Int :=
  -(-bytes / (slot_bytes * layers)) * (slot_bytes * layers)

/-- What the sizing is to guarantee of a fully hosted model: experts give up at most the budget, no
layer has more slots than experts, and the slots fit what is available. -/
structure FloorKept (available reserve may_free slot_bytes layers per_layer_max : Int) : Prop where
  given_up : layers * per_layer_max * slot_bytes - sizeSlots available reserve
    (layers * per_layer_max * slot_bytes) may_free slot_bytes layers per_layer_max * slot_bytes *
      layers ≤ may_free
  capped : sizeSlots available reserve (layers * per_layer_max * slot_bytes) may_free slot_bytes
    layers per_layer_max ≤ per_layer_max
  allocated : sizeSlots available reserve (layers * per_layer_max * slot_bytes) may_free slot_bytes
    layers per_layer_max * slot_bytes * layers ≤ available

section Floor

variable {available reserve may_free slot_bytes layers per_layer_max : Int}

/-- Rounding up to whole slots costs less than one slot a layer. -/
theorem wholeSlots_spec (hu : 0 < slot_bytes * layers) (bytes : Int) :
    bytes ≤ wholeSlots slot_bytes layers bytes ∧
      wholeSlots slot_bytes layers bytes < bytes + slot_bytes * layers := by
  have hdiv := Int.mul_ediv_add_emod (-bytes) (slot_bytes * layers)
  have hnonneg := Int.emod_nonneg (-bytes) hu.ne'
  have hlt := Int.emod_lt_of_pos (-bytes) hu
  rw [wholeSlots, Int.neg_mul, Int.mul_comm]
  omega

/-- A number of whole slots covers `bytes` when it covers them rounded up. -/
theorem wholeSlots_le_iff (hu : 0 < slot_bytes * layers) {bytes n : Int} :
    wholeSlots slot_bytes layers bytes ≤ n * (slot_bytes * layers) ↔
      bytes ≤ n * (slot_bytes * layers) := by
  constructor
  · exact (wholeSlots_spec hu bytes).1.trans
  · intro hle
    apply Int.mul_le_mul_of_nonneg_right _ hu.le
    have hneg : -n ≤ -bytes / (slot_bytes * layers) := by
      apply (Int.le_ediv_iff_mul_le hu).mpr
      rw [Int.neg_mul]
      omega
    omega

/-- As many whole slots as `target` pays for cover `bytes` when it pays for them rounded up. -/
theorem wholeSlots_le_target_iff (hu : 0 < slot_bytes * layers) {bytes target : Int} :
    bytes ≤ target / (slot_bytes * layers) * (slot_bytes * layers) ↔
      wholeSlots slot_bytes layers bytes ≤ target := by
  rw [← wholeSlots_le_iff hu]
  constructor
  · exact fun h => h.trans (Int.ediv_mul_le target hu.ne')
  · intro h
    apply Int.mul_le_mul_of_nonneg_right _ hu.le
    exact (Int.le_ediv_iff_mul_le hu).mpr h

/-- The target stays within what is available and what there is to host. -/
theorem slotTarget_le (available reserve hosted may_free : Int) :
    slotTarget available reserve hosted may_free ≤ available ∧
      slotTarget available reserve hosted may_free ≤ hosted := by
  unfold slotTarget
  dsimp only
  omega

/-- The slots are the target divided by one slot in every layer: hosting all of a model, the target
never pays for more than its experts. -/
theorem sizeSlots_hosted (hu : 0 < slot_bytes * layers) (available reserve may_free : Int) :
    sizeSlots available reserve (layers * per_layer_max * slot_bytes) may_free slot_bytes layers
        per_layer_max =
      slotTarget available reserve (layers * per_layer_max * slot_bytes) may_free /
        (slot_bytes * layers) := by
  have hprice : max (slot_bytes * layers) 1 = slot_bytes * layers := max_eq_left (by omega)
  have hhosted : layers * per_layer_max * slot_bytes = per_layer_max * (slot_bytes * layers) := by
    ring
  have htarget : slotTarget available reserve (layers * per_layer_max * slot_bytes) may_free ≤
      per_layer_max * (slot_bytes * layers) := by
    rw [← hhosted]
    exact (slotTarget_le _ _ _ _).2
  rw [sizeSlots, hprice]
  apply min_eq_right
  exact Int.ediv_le_of_le_mul hu htarget

/-- The floor survives the rounding exactly when the whole slots it takes fit what is available, and
are none, or are the floor to the byte, or fit what the reserve leaves. -/
theorem size_slots_floor_iff (hslot : 1 ≤ slot_bytes) (hlayers : 1 ≤ layers) (hfree : 0 ≤ may_free) :
    FloorKept available reserve may_free slot_bytes layers per_layer_max ↔
      let floor := layers * per_layer_max * slot_bytes - may_free
      let needed := wholeSlots slot_bytes layers floor
      needed ≤ available ∧ (needed ≤ 0 ∨ needed = floor ∨ needed ≤ available - reserve) := by
  have hu : 0 < slot_bytes * layers := Int.mul_pos (by omega) (by omega)
  have hhosted : layers * per_layer_max * slot_bytes = per_layer_max * (slot_bytes * layers) := by
    ring
  have hslots : sizeSlots available reserve (layers * per_layer_max * slot_bytes) may_free slot_bytes
      layers per_layer_max = _ := sizeSlots_hosted hu available reserve may_free
  set floor := layers * per_layer_max * slot_bytes - may_free with hfloor
  set target := slotTarget available reserve (layers * per_layer_max * slot_bytes) may_free
  have hneeded : wholeSlots slot_bytes layers floor ≤ layers * per_layer_max * slot_bytes := by
    rw [hhosted]
    apply (wholeSlots_le_iff hu).mpr
    omega
  have hround := (wholeSlots_spec hu floor).1
  have htarget : wholeSlots slot_bytes layers floor ≤ target ↔
      wholeSlots slot_bytes layers floor ≤ available ∧
        (wholeSlots slot_bytes layers floor ≤ 0 ∨ wholeSlots slot_bytes layers floor = floor ∨
          wholeSlots slot_bytes layers floor ≤ available - reserve) := by
    show _ ≤ slotTarget available reserve (layers * per_layer_max * slot_bytes) may_free ↔ _
    unfold slotTarget
    dsimp only
    omega
  have hbytes : target / (slot_bytes * layers) * slot_bytes * layers =
      target / (slot_bytes * layers) * (slot_bytes * layers) := Int.mul_assoc ..
  have hpaid : target / (slot_bytes * layers) * (slot_bytes * layers) ≤ target :=
    Int.ediv_mul_le target hu.ne'
  have hcaps : target ≤ available := (slotTarget_le _ _ _ _).1
  show _ ↔ wholeSlots slot_bytes layers floor ≤ available ∧
    (wholeSlots slot_bytes layers floor ≤ 0 ∨ wholeSlots slot_bytes layers floor = floor ∨
      wholeSlots slot_bytes layers floor ≤ available - reserve)
  rw [← htarget, ← wholeSlots_le_target_iff hu]
  constructor
  · intro hkept
    have hgiven := hkept.given_up
    rw [hslots, hbytes] at hgiven
    omega
  · intro hfits
    refine ⟨?_, ?_, ?_⟩
    · rw [hslots, hbytes]
      omega
    · exact Int.min_le_left _ _
    · rw [hslots, hbytes]
      omega

end Floor

/-- Twenty slots' worth of experts in two layers, of which the budget lets 120 of 200 bytes go: the
floor is eight slots a layer to the byte. -/
theorem wholeFloor_kept : (1 : Int) ≤ 5 ∧ (1 : Int) ≤ 2 ∧ (0 : Int) ≤ 120 ∧
    FloorKept 100 30 120 5 2 20 :=
  ⟨by decide, by decide, by decide, (size_slots_floor_iff (by decide) (by decide) (by decide)).mpr
    (by decide)⟩

/-- Five bytes more in the budget leave a floor of seven and a half slots a layer. Seven are given,
and the experts give up 130 bytes of the 125 allowed. -/
theorem halfSlot_given_up : ¬ FloorKept 100 30 125 5 2 20 :=
  fun hkept => absurd hkept.given_up (by decide)

end VllmExl3.ExpertCache
