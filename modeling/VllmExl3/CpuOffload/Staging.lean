/-
# VllmExl3.CpuOffload.Staging — one window, every layer's offloaded experts

`build_staging` lays the host blocks of each layer out in one shared window, each block at a multiple of
256 bytes, and writes a second set of pointer tables into it. `expert_tables` copies a layer's blocks
in before its GEMM. Copies and GEMMs run in stream order, so what a GEMM reads is what the window
holds after every copy issued so far; it is the bytes of the expert's own row, whatever other layers
left in the window before.
-/
import VllmExl3.CpuOffload.Blocks
import VllmExl3.Lib.Chunks

namespace VllmExl3.CpuOffload

open Format (padDim padDim_spec)

/-! ## Registration -/

/-- A set of pointer tables: for each projection, one address an expert. -/
abbrev Tables := Label → List Nat

/-- A MoE layer as `register_experts` is given it: its decode tables, and for every projection its
host block, if the experts of that projection were offloaded. -/
structure Layer where
  num_experts : Nat
  trellis_ptrs : Tables
  blocks : PyDict Label (Option HostBlock)
  ptrs_len : ∀ label, (trellis_ptrs label).length = num_experts
  rows_lt : ∀ label block, blocks.get? label = some (some block) →
    ∀ e row, block.rows.get? e = some row → e < num_experts

/-- `layer.exl3_host_blocks` -/
def Layer.hostBlocks (layer : Layer) : PyDict Label HostBlock := layer.blocks.dropNone

/-- `register_experts`, on the list `_HOSTED` -/
def registerExperts (hosted : List Layer) (layer : Layer) : List Layer :=
  if layer.hostBlocks.items = [] then hosted else hosted ++ [layer]

/-! ## `build_staging` -/

/-- `_ALIGN` -/
def ALIGN : Nat := 256

/-- `-(-n // _ALIGN) * _ALIGN` -/
def aligned (n : Nat) : Nat := padDim n ALIGN

/-- The loop that gives every block of a layer its offset: `offsets` and `off`. -/
def layOut : List (Label × HostBlock) → PyDict Label Nat → Nat → PyDict Label Nat × Nat
  | [], offsets, off => (offsets, off)
  | (label, block) :: rest, offsets, off =>
    layOut rest (offsets.set label off) (off + aligned block.nbytes)

/-- `offsets` of a layer -/
def offsets (layer : Layer) : PyDict Label Nat :=
  (layOut layer.hostBlocks.items PyDict.empty 0).1

/-- The bytes a layer takes of the window. -/
def extent (layer : Layer) : Nat := (layOut layer.hostBlocks.items PyDict.empty 0).2

/-- `size` of the window: the largest layer's. -/
def windowSize (layers : List Layer) : Nat :=
  layers.foldl (fun size layer => max size (extent layer)) 0

/-- A copy into the window: `dst`, as its offset there, and `src`. -/
abbrev Copy := Nat × Bytes

/-- `layer.exl3_stage` -/
structure Stage where
  copies : List Copy
  tables : Tables

/-- The staging copy of one projection. -/
def stageCopy (layer : Layer) (label : Label) : Option Copy := do
  let block ← layer.hostBlocks.get? label
  let off ← (offsets layer).get? label
  return (off, block.host.flatten)

/-- The staged table of one projection: hosted experts' entries point into the window. -/
def stageTable (base : Nat) (layer : Layer) (label : Label) : List Nat :=
  match layer.hostBlocks.get? label, (offsets layer).get? label with
  | some block, some off =>
    let row_bytes := block.nbytes / block.host.length
    applyWrites (block.rows.items.map fun p => (p.1, base + off + p.2 * row_bytes))
      (layer.trellis_ptrs label)
  | _, _ => layer.trellis_ptrs label

/-- `layer.exl3_stage`, with the window at address `base` -/
def stage (base : Nat) (layer : Layer) : Stage where
  copies := LABELS.filterMap (stageCopy layer)
  tables := stageTable base layer

/-! ## `expert_tables` -/

/-- `expert_tables`: the tables a batch reads, and the copies issued for it. `decode` is what the
layer's decode tables are at the time. -/
def expertTables (STAGE_MIN_TOKENS : Int) (exl3_stage : Option Stage) (decode : Tables)
    (tokens : Int) : Tables × List Copy :=
  match exl3_stage with
  | none => (decode, [])
  | some stage =>
    if tokens ≤ STAGE_MIN_TOKENS then (decode, []) else (stage.tables, stage.copies)

/-- A call of `expert_tables` on a layer, named by its place among the hosted ones, with the GEMM that
reads the tables behind it. -/
structure Call where
  layer : Nat
  decode : Tables
  tokens : Int

/-- What a call issues. -/
def Call.copies (STAGE_MIN_TOKENS : Int) (base : Nat) (layers : List Layer) (c : Call) :
    List Copy :=
  (expertTables STAGE_MIN_TOKENS (layers[c.layer]?.map (stage base)) c.decode c.tokens).2

/-- The window once the copies of a sequence of calls have run, in stream order. `uninit` is what
`torch.empty` found there. -/
def windowAfter (STAGE_MIN_TOKENS : Int) (base : Nat) (layers : List Layer) (uninit : Nat → UInt8)
    (calls : List Call) : Bytes :=
  applySplices (calls.flatMap (Call.copies STAGE_MIN_TOKENS base layers))
    (tabulate (windowSize layers) uninit)

/-- The `n` bytes at a device address inside the window. -/
def readWindow (window : Bytes) (base addr n : Nat) : Bytes :=
  slice (addr - base) (addr - base + n) window

/-! ## The layout -/

theorem aligned_spec (n : Nat) : ALIGN ∣ aligned n ∧ n ≤ aligned n := by
  have h := padDim_spec (n := n) (show 0 < ALIGN by decide)
  exact ⟨h.1, h.2.1⟩

/-- Blocks laid out from `off` to `stop`: aligned, inside, and clear of each other. -/
structure LaidOut (items : List (Label × HostBlock)) (offsets : PyDict Label Nat)
    (off stop : Nat) : Prop where
  off_le : off ≤ stop
  placed : ∀ label block, (label, block) ∈ items → ∃ o, offsets.get? label = some o ∧ off ≤ o ∧
    ALIGN ∣ o ∧ o + block.nbytes ≤ stop
  disjoint : ∀ label label' block block' o o', (label, block) ∈ items → (label', block') ∈ items →
    label ≠ label' → offsets.get? label = some o → offsets.get? label' = some o' →
      o + block.nbytes ≤ o' ∨ o' + block'.nbytes ≤ o

theorem get?_layOut {items : List (Label × HostBlock)} {offsets : PyDict Label Nat} {off : Nat}
    {label : Label} (h : label ∉ items.map Prod.fst) :
    (layOut items offsets off).1.get? label = offsets.get? label := by
  induction items generalizing offsets off with
  | nil => rfl
  | cons p rest ih =>
    obtain ⟨label', block⟩ := p
    rw [List.map_cons, List.mem_cons, not_or] at h
    rw [layOut, ih h.2, PyDict.get?_set_ne offsets off h.1]

theorem layOut_spec {items : List (Label × HostBlock)} {offsets : PyDict Label Nat} {off : Nat}
    (hnodup : (items.map Prod.fst).Nodup) (hoff : ALIGN ∣ off) :
    LaidOut items (layOut items offsets off).1 off (layOut items offsets off).2 := by
  induction items generalizing offsets off with
  | nil => exact ⟨Nat.le_refl off, fun _ _ h => (nomatch h), fun _ _ _ _ _ _ h => (nomatch h)⟩
  | cons p rest ih =>
    obtain ⟨label₀, block₀⟩ := p
    rw [List.map_cons, List.nodup_cons] at hnodup
    obtain ⟨hdvd, hsize⟩ := aligned_spec block₀.nbytes
    have hrest : LaidOut rest (layOut rest (offsets.set label₀ off) (off + aligned block₀.nbytes)).1
        (off + aligned block₀.nbytes)
        (layOut rest (offsets.set label₀ off) (off + aligned block₀.nbytes)).2 :=
      ih hnodup.2 (Nat.dvd_add hoff hdvd)
    have hself : (layOut rest (offsets.set label₀ off) (off + aligned block₀.nbytes)).1.get? label₀ =
        some off := by
      rw [get?_layOut hnodup.1, PyDict.get?_set, if_pos rfl]
    have hle := hrest.off_le
    rw [layOut]
    refine ⟨by omega, ?_, ?_⟩
    · intro label block hmem
      rcases List.mem_cons.mp hmem with hhead | htail
      · obtain ⟨rfl, rfl⟩ := Prod.mk.inj hhead
        exact ⟨off, hself, Nat.le_refl off, hoff, by omega⟩
      · obtain ⟨o, ho, hstart, halign, hstop⟩ := hrest.placed label block htail
        exact ⟨o, ho, by omega, halign, hstop⟩
    · -- the head ends where the rest begins; within the rest, by induction
      have hfirst : ∀ label block o, (label, block) ∈ rest →
          (layOut rest (offsets.set label₀ off) (off + aligned block₀.nbytes)).1.get? label =
            some o → off + block₀.nbytes ≤ o := by
        intro label block o hmem ho
        obtain ⟨o', ho', hstart, _⟩ := hrest.placed label block hmem
        obtain rfl : o' = o := Option.some.inj (ho'.symm.trans ho)
        omega
      intro label label' block block' o o' hmem hmem' hne ho ho'
      rcases List.mem_cons.mp hmem with hhead | htail
      · obtain ⟨rfl, rfl⟩ := Prod.mk.inj hhead
        obtain rfl : off = o := Option.some.inj (hself.symm.trans ho)
        rcases List.mem_cons.mp hmem' with hhead' | htail'
        · exact absurd (Prod.mk.inj hhead').1.symm hne
        · exact .inl (hfirst label' block' o' htail' ho')
      · rcases List.mem_cons.mp hmem' with hhead' | htail'
        · obtain ⟨rfl, rfl⟩ := Prod.mk.inj hhead'
          obtain rfl : off = o' := Option.some.inj (hself.symm.trans ho')
          exact .inr (hfirst label block o htail ho)
        · exact hrest.disjoint label label' block block' o o' htail htail' hne ho ho'

section Window

variable {layers : List Layer} {layer : Layer} {label : Label} {block : HostBlock} {base : Nat}

theorem laidOut_layer (layer : Layer) :
    LaidOut layer.hostBlocks.items (offsets layer) 0 (extent layer) :=
  layOut_spec layer.hostBlocks.nodup (Nat.dvd_zero ALIGN)

theorem extent_le_windowSize (h : layer ∈ layers) : extent layer ≤ windowSize layers := by
  have hmono : ∀ (ls : List Layer) (n : Nat), n ≤ ls.foldl (fun n l => max n (extent l)) n ∧
      ∀ l ∈ ls, extent l ≤ ls.foldl (fun n l => max n (extent l)) n := by
    intro ls
    induction ls with
    | nil => exact fun n => ⟨Nat.le_refl n, fun _ hmem => nomatch hmem⟩
    | cons l rest ih =>
      intro n
      obtain ⟨hinit, hmem⟩ := ih (max n (extent l))
      refine ⟨(Nat.le_max_left _ _).trans hinit, fun l' hl' => ?_⟩
      rcases List.mem_cons.mp hl' with rfl | hrest
      · exact (Nat.le_max_right _ _).trans hinit
      · exact hmem l' hrest
  exact (hmono layers 0).2 layer h

/-- Where a hosted projection's block lies. -/
theorem offset_spec (h : layer ∈ layers) (hblock : layer.hostBlocks.get? label = some block) :
    ∃ off, (offsets layer).get? label = some off ∧ ALIGN ∣ off ∧
      off + block.nbytes ≤ windowSize layers := by
  obtain ⟨off, hoff, _, halign, hstop⟩ :=
    (laidOut_layer layer).placed label block (PyDict.get?_eq_some_iff.mp hblock)
  exact ⟨off, hoff, halign, hstop.trans (extent_le_windowSize h)⟩

theorem mem_stage_copies {c : Copy} : c ∈ (stage base layer).copies ↔
    ∃ label block off, layer.hostBlocks.get? label = some block ∧
      (offsets layer).get? label = some off ∧ c = (off, block.host.flatten) := by
  constructor
  · intro hmem
    obtain ⟨label, _, hcopy⟩ := List.mem_filterMap.mp hmem
    obtain ⟨block, hblock, hcopy⟩ := Option.bind_eq_some_iff.mp hcopy
    obtain ⟨off, hoff, hcopy⟩ := Option.bind_eq_some_iff.mp hcopy
    exact ⟨label, block, off, hblock, hoff, (Option.some.inj hcopy).symm⟩
  · rintro ⟨label, block, off, hblock, hoff, rfl⟩
    refine List.mem_filterMap.mpr ⟨label, mem_LABELS label, ?_⟩
    rw [stageCopy, hblock, Option.bind_eq_bind, Option.bind_some, hoff]
    rfl

theorem stage_inside (base : Nat) (h : layer ∈ layers) :
    Inside (windowSize layers) (stage base layer).copies := by
  intro c hc
  obtain ⟨label, block, off, hblock, hoff, rfl⟩ := mem_stage_copies.mp hc
  obtain ⟨off', hoff', _, hstop⟩ := offset_spec h hblock
  obtain rfl : off = off' := Option.some.inj (hoff.symm.trans hoff')
  show off + block.host.flatten.length ≤ windowSize layers
  rwa [block.length_flatten]

theorem stage_clear (base : Nat) (layer : Layer) : (stage base layer).copies.Pairwise Clear := by
  have hnodup : LABELS.Nodup := by decide
  refine List.Pairwise.filterMap _ (fun label label' hne c hc c' hc' => ?_) hnodup
  obtain ⟨block, hblock, hc⟩ := Option.bind_eq_some_iff.mp hc
  obtain ⟨off, hoff, hc⟩ := Option.bind_eq_some_iff.mp hc
  obtain ⟨block', hblock', hc'⟩ := Option.bind_eq_some_iff.mp hc'
  obtain ⟨off', hoff', hc'⟩ := Option.bind_eq_some_iff.mp hc'
  obtain rfl := Option.some.inj hc
  obtain rfl := Option.some.inj hc'
  show off + block.host.flatten.length ≤ off' ∨ off' + block'.host.flatten.length ≤ off
  rw [block.length_flatten, block'.length_flatten]
  exact (laidOut_layer layer).disjoint label label' block block' off off'
    (PyDict.get?_eq_some_iff.mp hblock) (PyDict.get?_eq_some_iff.mp hblock') hne hoff hoff'

/-! ## The tables -/

/-- The staged entry of a hosted expert: its row of the block in the window. -/
theorem stageTable_hosted {off e row : Nat} (hblock : layer.hostBlocks.get? label = some block)
    (hoff : (offsets layer).get? label = some off) (hrow : block.rows.get? e = some row) :
    (stageTable base layer label)[e]? = some (base + off + row * block.rowBytes) := by
  have hcollected : layer.blocks.get? label = some (some block) := by
    rw [Layer.hostBlocks, PyDict.get?_dropNone, Option.join_eq_some_iff] at hblock
    exact hblock
  have hlt : e < (layer.trellis_ptrs label).length := by
    rw [layer.ptrs_len]
    exact layer.rows_lt label block hcollected e row hrow
  have hval : ∀ w ∈ block.rows.items.map (fun p => (p.1, base + off + p.2 * block.rowBytes)),
      w.2 = base + off + (block.rows.get? w.1).getD 0 * block.rowBytes := by
    intro w hw
    obtain ⟨⟨e', row'⟩, hmem, rfl⟩ := List.mem_map.mp hw
    rw [PyDict.get?_eq_some_iff.mpr hmem]
    rfl
  have hmem : e ∈ (block.rows.items.map fun p =>
      (p.1, base + off + p.2 * block.rowBytes)).map Prod.fst := by
    rw [List.map_map]
    exact List.mem_map_of_mem (PyDict.get?_eq_some_iff.mp hrow)
  simp only [stageTable, hblock, hoff, block.nbytes_div_length]
  rw [getElem?_applyWrites (f := fun e => base + off + (block.rows.get? e).getD 0 * block.rowBytes)
    hval hlt, if_pos hmem, hrow, Option.getD_some]

/-- The staged entry of a resident expert is its device address. -/
theorem stageTable_resident {e : Nat}
    (hrow : (layer.hostBlocks.get? label).bind (fun block => block.rows.get? e) = none) :
    (stageTable base layer label)[e]? = (layer.trellis_ptrs label)[e]? := by
  unfold stageTable
  split
  · rename_i block off hblock hoff
    rw [hblock, Option.bind_some] at hrow
    have hout : e ∉ (block.rows.items.map fun p =>
        (p.1, base + off + p.2 * (block.nbytes / block.host.length))).map Prod.fst := by
      rw [List.map_map]
      exact PyDict.get?_eq_none_iff.mp hrow
    have hval : ∀ w ∈ block.rows.items.map
        (fun p => (p.1, base + off + p.2 * (block.nbytes / block.host.length))),
        w.2 = base + off + (block.rows.get? w.1).getD 0 * (block.nbytes / block.host.length) := by
      intro w hw
      obtain ⟨⟨e', row'⟩, hmem, rfl⟩ := List.mem_map.mp hw
      rw [PyDict.get?_eq_some_iff.mpr hmem]
      rfl
    rcases Nat.lt_or_ge e (layer.trellis_ptrs label).length with hlt | hge
    · rw [getElem?_applyWrites
        (f := fun e => base + off + (block.rows.get? e).getD 0 * (block.nbytes / block.host.length))
        hval hlt, if_neg hout]
    · rw [List.getElem?_eq_none (by rwa [length_applyWrites]), List.getElem?_eq_none hge]
  · rfl

/-! ## The window over a run -/

variable {STAGE_MIN_TOKENS : Int} {uninit : Nat → UInt8} {calls : List Call}

theorem copies_inside (c : Call) :
    Inside (windowSize layers) (c.copies STAGE_MIN_TOKENS base layers) := by
  cases hlayer : layers[c.layer]? with
  | none =>
    rw [Call.copies, hlayer]
    exact fun _ hmem => nomatch hmem
  | some layer =>
    rw [Call.copies, hlayer, Option.map_some, expertTables]
    split
    · exact fun _ hmem => nomatch hmem
    · exact stage_inside base (List.mem_of_getElem? hlayer)

theorem length_windowAfter :
    (windowAfter STAGE_MIN_TOKENS base layers uninit calls).length = windowSize layers := by
  have hinside : Inside (tabulate (windowSize layers) uninit).length
      (calls.flatMap (Call.copies STAGE_MIN_TOKENS base layers)) := by
    intro w hw
    obtain ⟨c, _, hmem⟩ := List.mem_flatMap.mp hw
    rw [length_tabulate]
    exact copies_inside c w hmem
  rw [windowAfter, length_applySplices hinside, length_tabulate]

/-- After a staged call, whatever ran before, the window holds the layer's blocks. -/
theorem windowAfter_staged {c : Call} {off : Nat} (hlayer : layers[c.layer]? = some layer)
    (htokens : STAGE_MIN_TOKENS < c.tokens) (hblock : layer.hostBlocks.get? label = some block)
    (hoff : (offsets layer).get? label = some off) :
    slice off (off + block.nbytes)
      (windowAfter STAGE_MIN_TOKENS base layers uninit (calls ++ [c])) = block.host.flatten := by
  have hcopies : c.copies STAGE_MIN_TOKENS base layers = (stage base layer).copies := by
    rw [Call.copies, hlayer, Option.map_some, expertTables, if_neg (by omega)]
  have hwindow : windowAfter STAGE_MIN_TOKENS base layers uninit (calls ++ [c]) =
      applySplices (stage base layer).copies
        (windowAfter STAGE_MIN_TOKENS base layers uninit calls) := by
    rw [windowAfter, List.flatMap_append, List.flatMap_singleton, hcopies, applySplices,
      List.foldl_append]
    rfl
  have hinside : Inside (windowAfter STAGE_MIN_TOKENS base layers uninit calls).length
      (stage base layer).copies := by
    rw [length_windowAfter]
    exact stage_inside base (List.mem_of_getElem? hlayer)
  rw [hwindow, ← block.length_flatten]
  exact slice_applySplices hinside (stage_clear base layer)
    (mem_stage_copies.mpr ⟨label, block, off, hblock, hoff, rfl⟩)

/-- A row of a block that lies in the window, read at its address. -/
theorem readWindow_row {window : Bytes} {off row : Nat}
    (h : slice off (off + block.nbytes) window = block.host.flatten)
    (hrow : row < block.host.length) :
    readWindow window base (base + off + row * block.rowBytes) block.rowBytes =
      block.host[row] := by
  have hfit : row * block.rowBytes + block.rowBytes ≤ block.nbytes := by
    rw [← Nat.succ_mul]
    exact Nat.mul_le_mul_right block.rowBytes hrow
  have haddr : base + off + row * block.rowBytes - base = off + row * block.rowBytes := by omega
  have hmin : min (off + block.nbytes) (off + (row * block.rowBytes + block.rowBytes)) =
      off + row * block.rowBytes + block.rowBytes := by omega
  calc readWindow window base (base + off + row * block.rowBytes) block.rowBytes
      = slice (row * block.rowBytes) (row * block.rowBytes + block.rowBytes)
          (slice off (off + block.nbytes) window) := by
        rw [readWindow, haddr, slice_slice, hmin]
    _ = block.host[row] := by
        rw [h]
        exact slice_flatten block.host_eq hrow

end Window

/-! ## Prefill staging -/

/-- What staging promises of a list of hosted layers, with the window at address `base` and whatever
bytes it was allocated over. -/
structure ServesOwn (STAGE_MIN_TOKENS : Int) (base : Nat) (layers : List Layer)
    (uninit : Nat → UInt8) : Prop where
  inside : ∀ layer ∈ layers, ∀ label block, layer.hostBlocks.get? label = some block →
    ∃ off, (offsets layer).get? label = some off ∧ ALIGN ∣ off ∧
      off + block.nbytes ≤ windowSize layers
  disjoint : ∀ layer ∈ layers, ∀ label label' block block' off off', label ≠ label' →
    layer.hostBlocks.get? label = some block → layer.hostBlocks.get? label' = some block' →
      (offsets layer).get? label = some off → (offsets layer).get? label' = some off' →
        off + block.nbytes ≤ off' ∨ off' + block'.nbytes ≤ off
  hosted : ∀ (calls : List Call) (c : Call) (layer : Layer), layers[c.layer]? = some layer →
    STAGE_MIN_TOKENS < c.tokens → ∀ label block e row,
      layer.hostBlocks.get? label = some block → block.rows.get? e = some row →
        ∃ addr, ((expertTables STAGE_MIN_TOKENS (some (stage base layer)) c.decode
            c.tokens).1 label)[e]? = some addr ∧
          some (readWindow (windowAfter STAGE_MIN_TOKENS base layers uninit (calls ++ [c])) base
            addr block.rowBytes) = block.host[row]?
  resident : ∀ (c : Call) (layer : Layer), layers[c.layer]? = some layer →
    STAGE_MIN_TOKENS < c.tokens → ∀ label e,
      (layer.hostBlocks.get? label).bind (fun block => block.rows.get? e) = none →
        ((expertTables STAGE_MIN_TOKENS (some (stage base layer)) c.decode
          c.tokens).1 label)[e]? = (layer.trellis_ptrs label)[e]?
  small : ∀ (c : Call) (layer : Layer), layers[c.layer]? = some layer →
    c.tokens ≤ STAGE_MIN_TOKENS →
      expertTables STAGE_MIN_TOKENS (some (stage base layer)) c.decode c.tokens = (c.decode, [])

theorem servesOwn (STAGE_MIN_TOKENS : Int) (base : Nat) (layers : List Layer)
    (uninit : Nat → UInt8) : ServesOwn STAGE_MIN_TOKENS base layers uninit where
  inside _ hmem _ _ hblock := offset_spec hmem hblock
  disjoint layer _ label label' block block' off off' hne hblock hblock' hoff hoff' :=
    (laidOut_layer layer).disjoint label label' block block' off off'
      (PyDict.get?_eq_some_iff.mp hblock) (PyDict.get?_eq_some_iff.mp hblock') hne hoff hoff'
  hosted := by
    intro calls c layer hlayer htokens label block e row hblock hrow
    obtain ⟨off, hoff, _⟩ := offset_spec (List.mem_of_getElem? hlayer) hblock
    have hlt := HostBlock.row_lt hrow
    refine ⟨base + off + row * block.rowBytes, ?_, ?_⟩
    · rw [expertTables, if_neg (by omega)]
      exact stageTable_hosted hblock hoff hrow
    · rw [readWindow_row (windowAfter_staged hlayer htokens hblock hoff) hlt,
        List.getElem?_eq_getElem hlt]
  resident := by
    intro c layer _ htokens label e hrow
    rw [expertTables, if_neg (by omega)]
    exact stageTable_resident hrow
  small := by
    intro c layer _ htokens
    rw [expertTables, if_pos htokens]

/-- Prefill staging serves every expert its own bytes, whichever layers were registered and in
whatever order. -/
theorem staging_serves_own (STAGE_MIN_TOKENS : Int) (base : Nat) (loaded : List Layer)
    (uninit : Nat → UInt8) :
    ServesOwn STAGE_MIN_TOKENS base (loaded.foldl registerExperts []) uninit :=
  servesOwn STAGE_MIN_TOKENS base (loaded.foldl registerExperts []) uninit

/-! Three layers of three experts: one with two gate experts and a down expert offloaded, one with none,
one with an up expert. -/

/-- Gate experts 0 and 2. -/
def gateRows : HostBlock where
  rows := ⟨[(0, 0), (2, 1)], by decide⟩
  shape := [1]
  element_size := 2
  host := [[1, 2], [5, 6]]
  host_ne := by decide
  rows_eq := by decide
  host_eq := by decide

/-- Expert 1 of another projection, with rows of another size. -/
def oneRow : HostBlock where
  rows := ⟨[(1, 0)], by decide⟩
  shape := [3]
  element_size := 1
  host := [[7, 8, 9]]
  host_ne := by decide
  rows_eq := by decide
  host_eq := by decide

/-- A layer of three experts, from the blocks of its projections. -/
def threeExperts (gate up down : Option HostBlock)
    (h : ∀ b ∈ [gate, up, down], ∀ block ∈ b, ∀ e ∈ block.rows.keys, e < 3) : Layer where
  num_experts := 3
  trellis_ptrs := fun _ => [64, 72, 80]
  blocks := ⟨[(.gate, gate), (.up, up), (.down, down)], show [Label.gate, .up, .down].Nodup by decide⟩
  ptrs_len := fun _ => rfl
  rows_lt := by
    intro label block hblock e row hrow
    have hmem : some block ∈ [gate, up, down] :=
      List.mem_map_of_mem (f := Prod.snd) (PyDict.get?_eq_some_iff.mp hblock)
    exact h (some block) hmem block rfl e
      (List.mem_map_of_mem (f := Prod.fst) (PyDict.get?_eq_some_iff.mp hrow))

/-- Gate and down experts of the first layer, no experts of the second, an up expert of the third. -/
def threeLayers : List Layer :=
  [threeExperts (some gateRows) none (some oneRow) (by decide), threeExperts none none none (by decide),
    threeExperts none (some oneRow) none (by decide)]

/-- The first layer is staged over what the third left in the window: gate expert 2 is in its second row
there, gate expert 1 where it was. -/
theorem threeLayers_staged :
    ((expertTables 32 ((threeLayers[0]?).map (stage 4096)) (fun _ => [1, 2, 3]) 33).1 .gate) =
        [4096, 72, 4098] ∧
      readWindow (windowAfter 32 4096 (threeLayers.foldl registerExperts []) (fun _ => 255)
        [⟨1, fun _ => [1, 2, 3], 40⟩, ⟨0, fun _ => [1, 2, 3], 33⟩]) 4096 4098 2 = [5, 6] := by
  obtain ⟨addr, haddr, hread⟩ := (staging_serves_own 32 4096 threeLayers fun _ => 255).hosted
    [⟨1, fun _ => [1, 2, 3], 40⟩] ⟨0, fun _ => [1, 2, 3], 33⟩ _ rfl (by decide) .gate gateRows 2 1 rfl
    rfl
  obtain rfl : 4098 = addr := Option.some.inj haddr
  exact ⟨by decide, Option.some.inj hread⟩

end VllmExl3.CpuOffload
