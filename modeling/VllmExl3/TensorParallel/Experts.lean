/-
# VllmExl3.TensorParallel.Experts — tensor parallelism of a routed expert (`fused_moe.py`)

`_tp_shard` cuts a routed expert on its stored intermediate width: a column split of `gate` and `up`,
the matching row split of `down`. It reads that width off whichever tensor it is handed, so three
projections agree only because every tensor that carries the width is accepted or refused alike;
the other scale vector and the codebook selectors do not carry it and pass through whole.
-/
import VllmExl3.TensorParallel.Dense

namespace VllmExl3.TensorParallel

open Format (TILE HAD_BLOCK shardBounds Splits)

/-! ## `_tp_shard` -/

/-- `_GATE`, `_UP` and `_DOWN`. -/
inductive ShardId where
  | w1
  | w3
  | w2
  deriving DecidableEq, Repr

/-- A shard id as the source spells it. -/
def ShardId.repr : ShardId → String
  | .w1 => "w1"
  | .w3 => "w3"
  | .w2 => "w2"

/-- `shard_id in (_GATE, _UP)` -/
def ShardId.column : ShardId → Bool
  | .w1 => true
  | .w3 => true
  | .w2 => false

variable {W R : Type}

/-- `t.shape[axis]` -/
def Tensor.dim (t : Tensor W R) (axis : Nat) : Except PyError Nat :=
  match t.shape[axis]? with
  | some n => .ok n
  | none => .error .index

/-- The width `_tp_shard` splits on, or `none` where the tensor is replicated. -/
def splitWidth (role : Role) (t : Tensor W R) (column : Bool) : Except PyError (Option Nat) :=
  if role = .trellis then do
    let n ← t.dim (if column then 1 else 0)
    return some (n * TILE)
  else if role = (if column then .svh else .suh) then do
    let n ← t.dim 0
    return some n
  else return none

/-- `_tp_shard` -/
def tpShard (name : String) (t : Tensor W R) (shard_id : ShardId) (tp_rank tp_size : Nat) :
    Except PyError (Tensor W R) :=
  let role := roleOf name
  if tp_size = 1 then .ok t
  else do
    match ← splitWidth role t shard_id.column with
    | none => return t
    | some dim =>
      let (first, last) ← shardBounds dim tp_rank tp_size s!"MoE intermediate ({shard_id.repr})"
      if shard_id.column then shardColumn role t first last
      else return shardRow role t first last

/-! ## Experts -/

/-- A routed expert's three projections, of one stored intermediate width. -/
structure Expert (W R : Type) where
  gate : Linear W R
  up : Linear W R
  down : Linear W R
  up_rows : up.trellis.rows = gate.trellis.rows
  up_cols : up.trellis.cols = gate.trellis.cols
  down_rows : down.trellis.rows = gate.trellis.cols

/-- The sub-tensors a linear stores, by name. -/
def Linear.subTensors (L : Linear W R) : List (String × Tensor W R) :=
  [("trellis", .trellis L.trellis), ("suh", .scale L.suh), ("svh", .scale L.svh)] ++
    (L.mcg.toList.map fun v => ("mcg", .selector [v])) ++
    L.mul1.toList.map fun v => ("mul1", .selector [v])

/-- A linear stores one tensor under a name. -/
theorem subTensors_unique {L : Linear W R} {name : String} {t u : Tensor W R}
    (ht : (name, t) ∈ L.subTensors) (hu : (name, u) ∈ L.subTensors) : t = u := by
  have hnodup : (L.subTensors.map Prod.fst).Nodup := by
    cases hmcg : L.mcg <;> cases hmul1 : L.mul1 <;> simp [Linear.subTensors, hmcg, hmul1]
  exact congrArg Prod.snd (List.inj_on_of_nodup_map hnodup ht hu rfl)

theorem mem_subTensors_trellis (L : Linear W R) : ("trellis", .trellis L.trellis) ∈ L.subTensors := by
  simp [Linear.subTensors]

theorem mem_subTensors_suh (L : Linear W R) : ("suh", .scale L.suh) ∈ L.subTensors := by
  simp [Linear.subTensors]

theorem mem_subTensors_svh (L : Linear W R) : ("svh", .scale L.svh) ∈ L.subTensors := by
  simp [Linear.subTensors]

/-- Every sub-tensor of an expert, with the projection it belongs to. -/
def Expert.subTensors (E : Expert W R) : List (ShardId × String × Tensor W R) :=
  E.gate.subTensors.map (fun s => (.w1, s)) ++ E.up.subTensors.map (fun s => (.w3, s)) ++
    E.down.subTensors.map fun s => (.w2, s)

/-- Rank `rank` of `tp_size` loads this sub-tensor. -/
def Accepted (tp_size rank : Nat) (s : ShardId × String × Tensor W R) : Prop :=
  ∃ t, tpShard s.2.1 s.2.2 s.1 rank tp_size = .ok t

/-- The sub-tensors whose shape carries the intermediate width: the trellis everywhere, the output
scale of `gate` and `up`, the input scale of `down`. -/
def Carries (s : ShardId × String × Tensor W R) : Prop :=
  roleOf s.2.1 = .trellis ∨ roleOf s.2.1 = (if s.1.column then .svh else .suh)

instance : DecidablePred (Carries (W := W) (R := R)) := fun s => by
  unfold Carries
  infer_instance

/-- The intermediate width a linear stores: its output in `gate` and `up`, its input in `down`. -/
def Linear.interm (L : Linear W R) (shard_id : ShardId) : Nat :=
  if shard_id.column then TILE * L.trellis.cols else TILE * L.trellis.rows

section Run

variable [CommRing R] (ext : Exllamav3 W R) (act : R → R)

/-- One projection on the sub-tensors a rank loads. -/
def Linear.shardForward (L : Linear W R) (shard_id : ShardId) (tp_size rank : Nat) (x : List R) :
    Except PyError (List R) := do
  let trellis ← tpShard "trellis" (.trellis L.trellis) shard_id rank tp_size
  let suh ← tpShard "suh" (.scale L.suh) shard_id rank tp_size
  let svh ← tpShard "svh" (.scale L.svh) shard_id rank tp_size
  exl3Mm ext x trellis suh svh L.mcg.isSome L.mul1.isSome

/-- `act(gate) * up`, elementwise. -/
def gated (g u : List R) : List R := List.zipWith (fun a b => act a * b) g u

/-- The unsharded expert. -/
def Expert.forward (E : Expert W R) (x : List R) : Except PyError (List R) := do
  let g ← E.gate.forward ext x
  let u ← E.up.forward ext x
  E.down.forward ext (gated act g u)

/-- The expert on one rank's shards. -/
def Expert.rankForward (E : Expert W R) (x : List R) (tp_size rank : Nat) :
    Except PyError (List R) := do
  let g ← E.gate.shardForward ext .w1 tp_size rank x
  let u ← E.up.shardForward ext .w3 tp_size rank x
  E.down.shardForward ext .w2 tp_size rank (gated act g u)

/-- All ranks, summed. -/
def Expert.parallel (E : Expert W R) (x : List R) (tp_size : Nat) : Except PyError (List R) := do
  let parts ← (List.range tp_size).mapM (E.rankForward ext act x tp_size)
  return allReduce (TILE * E.down.trellis.cols) parts

end Run

/-! ## What `_tp_shard` accepts -/

section Accept

variable {tp_size rank : Nat} {L : Linear W R} {shard_id : ShardId}

/-- `_tp_shard` past its early return, for a tensor that carries the width `n`. -/
theorem tpShard_width {name : String} {t : Tensor W R} {n : Nat} (htp : tp_size ≠ 1)
    (h : splitWidth (roleOf name) t shard_id.column = .ok (some n)) :
    tpShard name t shard_id rank tp_size = do
      let (first, last) ← shardBounds n rank tp_size s!"MoE intermediate ({shard_id.repr})"
      if shard_id.column then shardColumn (roleOf name) t first last
      else return shardRow (roleOf name) t first last := by
  rw [tpShard]
  simp only [htp, if_false, h]
  rfl

theorem tpShard_replicated {name : String} {t : Tensor W R}
    (h : splitWidth (roleOf name) t shard_id.column = .ok none) :
    tpShard name t shard_id rank tp_size = .ok t := by
  rw [tpShard]
  simp only [h]
  split_ifs <;> rfl

/-- A linear's sub-tensors either carry the width being split or are replicated. -/
theorem Linear.splitWidth_eq {s : String × Tensor W R} (hs : s ∈ L.subTensors)
    (shard_id : ShardId) : splitWidth (roleOf s.1) s.2 shard_id.column =
      .ok (if Carries (shard_id, s) then some (L.interm shard_id) else none) := by
  have htile : ∀ n, n * TILE = TILE * n := fun n => Nat.mul_comm _ _
  simp only [Linear.subTensors, List.mem_append, List.mem_cons, List.mem_map, List.not_mem_nil,
    or_false] at hs
  rcases hs with ((rfl | rfl | rfl) | ⟨v, _, rfl⟩) | ⟨v, _, rfl⟩
  · cases shard_id <;> exact congrArg (fun n => Except.ok (some n)) (htile _)
  · cases shard_id
    · rfl
    · rfl
    · exact congrArg (fun n => Except.ok (some n)) L.suh_eq
  · cases shard_id
    · exact congrArg (fun n => Except.ok (some n)) L.svh_eq
    · exact congrArg (fun n => Except.ok (some n)) L.svh_eq
    · rfl
  · cases shard_id <;> rfl
  · cases shard_id <;> rfl

/-- Where the width splits, every sub-tensor is accepted. -/
theorem Linear.tpShard_ok {s : String × Tensor W R} (hs : s ∈ L.subTensors)
    (h : Splits (L.interm shard_id) tp_size) : Accepted tp_size rank (shard_id, s) := by
  rcases eq_or_ne tp_size 1 with rfl | htp
  · exact ⟨s.2, rfl⟩
  have hwidth := L.splitWidth_eq hs shard_id
  rcases Decidable.em (Carries (shard_id, s)) with hcarries | hcarries
  · rw [if_pos hcarries] at hwidth
    rw [Accepted, tpShard_width htp hwidth, Format.shardBounds_ok h]
    show ∃ t, (if shard_id.column then _ else _) = _
    split_ifs with hcolumn
    · -- only a trellis has the role that slices the second axis
      simp only [Linear.subTensors, List.mem_append, List.mem_cons, List.mem_map, List.not_mem_nil,
        or_false] at hs
      rcases hs with ((rfl | rfl | rfl) | ⟨v, _, rfl⟩) | ⟨v, _, rfl⟩ <;> exact ⟨_, rfl⟩
    · exact ⟨_, rfl⟩
  · rw [if_neg hcarries] at hwidth
    exact ⟨s.2, tpShard_replicated hwidth⟩

/-- Where it does not, every rank refuses every sub-tensor that carries the width. -/
theorem Linear.tpShard_error {s : String × Tensor W R} (hs : s ∈ L.subTensors)
    (h : ¬Splits (L.interm shard_id) tp_size) (hcarries : Carries (shard_id, s)) :
    ¬Accepted tp_size rank (shard_id, s) := by
  rintro ⟨t, ht⟩
  have htp : tp_size ≠ 1 := fun hone => h (.inl hone)
  have hwidth := L.splitWidth_eq hs shard_id
  rw [if_pos hcarries] at hwidth
  obtain ⟨err, herr⟩ := Format.shardBounds_error s!"MoE intermediate ({shard_id.repr})" h
  rw [tpShard_width htp hwidth, herr] at ht
  cases ht

/-- A sub-tensor that does not carry the width is loaded whole by every rank. -/
theorem Linear.tpShard_whole {s : String × Tensor W R} (hs : s ∈ L.subTensors)
    (hcarries : ¬Carries (shard_id, s)) : tpShard s.1 s.2 shard_id rank tp_size = .ok s.2 := by
  have hwidth := L.splitWidth_eq hs shard_id
  rw [if_neg hcarries] at hwidth
  exact tpShard_replicated hwidth

end Accept

/-! ## One rank -/

section Rank

variable [CommRing R] {ext : Exllamav3 W R} {act : R → R} {L : Linear W R} {E : Expert W R}
  {shard_id : ShardId} {tp_size rank : Nat} {x : List R}

/-- On its shards of `gate` or `up`, a rank runs a column split. -/
theorem Linear.shardForward_column (what : String) (hcolumn : shard_id.column = true)
    (htp : tp_size ≠ 1) (h : Splits (TILE * L.trellis.cols) tp_size) :
    L.shardForward ext shard_id tp_size rank x = L.columnRank ext x what tp_size rank := by
  have hinterm : L.interm shard_id = TILE * L.trellis.cols := by rw [Linear.interm, if_pos hcolumn]
  have hcut : ∀ s ∈ L.subTensors, Carries (shard_id, s) → tpShard s.1 s.2 shard_id rank tp_size =
      shardColumn (roleOf s.1) s.2 (rank * (TILE * L.trellis.cols / tp_size))
        ((rank + 1) * (TILE * L.trellis.cols / tp_size)) := by
    intro s hs hcarries
    have hwidth := L.splitWidth_eq hs shard_id
    rw [if_pos hcarries, hinterm] at hwidth
    rw [tpShard_width htp hwidth, Format.shardBounds_ok h]
    show (if shard_id.column then _ else _) = _
    rw [if_pos hcolumn]
  rw [Linear.shardForward, hcut ("trellis", .trellis L.trellis) (by simp [Linear.subTensors])
      (.inl rfl),
    L.tpShard_whole (s := ("suh", .scale L.suh)) (by simp [Linear.subTensors])
      (by
        show ¬(roleOf "suh" = .trellis ∨ roleOf "suh" = if shard_id.column then .svh else .suh)
        rw [if_pos hcolumn]
        decide),
    hcut ("svh", .scale L.svh) (by simp [Linear.subTensors]) (.inr (by rw [hcolumn]; rfl)),
    Linear.columnRank, Format.shardBounds_ok h]
  rfl

/-- On its shards of `down`, fed its slice of the intermediate, a rank runs a row split. -/
theorem Linear.shardForward_row (what : String) (htp : tp_size ≠ 1)
    (h : Splits (TILE * L.trellis.rows) tp_size) :
    L.shardForward ext .w2 tp_size rank
        (slice (rank * (TILE * L.trellis.rows / tp_size))
          ((rank + 1) * (TILE * L.trellis.rows / tp_size)) x) =
      L.rowRank ext x what tp_size rank := by
  have hcut : ∀ s ∈ L.subTensors, Carries (.w2, s) → tpShard s.1 s.2 .w2 rank tp_size =
      .ok (shardRow (roleOf s.1) s.2 (rank * (TILE * L.trellis.rows / tp_size))
        ((rank + 1) * (TILE * L.trellis.rows / tp_size))) := by
    intro s hs hcarries
    have hwidth := L.splitWidth_eq hs .w2
    rw [if_pos hcarries] at hwidth
    have hsplit : Splits (L.interm .w2) tp_size := h
    rw [tpShard_width htp hwidth, Format.shardBounds_ok hsplit]
    rfl
  rw [Linear.shardForward, hcut ("trellis", .trellis L.trellis) (by simp [Linear.subTensors])
      (.inl rfl),
    hcut ("suh", .scale L.suh) (by simp [Linear.subTensors]) (.inr rfl),
    L.tpShard_whole (s := ("svh", .scale L.svh)) (by simp [Linear.subTensors])
      (by show ¬(roleOf "svh" = .trellis ∨ roleOf "svh" = .suh); decide),
    Linear.rowRank, Format.shardBounds_ok h]
  rfl

/-- A rank's gated product is its slice of the unsharded one. -/
theorem gated_slice (a b : Nat) (g u : List R) :
    gated act (slice a b g) (slice a b u) = slice a b (gated act g u) := by
  rw [gated, gated, slice, slice, slice, ← List.drop_zipWith, ← List.take_zipWith]

theorem gated_length {n : Nat} {g u : List R} (hg : g.length = n) (hu : u.length = n) :
    (gated act g u).length = n := by
  rw [gated, List.length_zipWith, hg, hu, Nat.min_self]

/-- A rank of an expert whose first two projections succeed runs a row split of the third. -/
theorem Expert.rankForward_eq {g u : List R} (hx : x.length = TILE * E.gate.trellis.rows)
    (htp : tp_size ≠ 1) (h : Splits (TILE * E.gate.trellis.cols) tp_size)
    (hg : E.gate.forward ext x = .ok g) (hu : E.up.forward ext x = .ok u) (hr : rank < tp_size) :
    E.rankForward ext act x tp_size rank =
      E.down.rowRank ext (gated act g u) "MoE intermediate (w2)" tp_size rank := by
  rw [Expert.rankForward, Linear.shardForward_column "MoE intermediate (w1)" rfl htp h,
    E.gate.columnRank_eq hx h hr, hg,
    Linear.shardForward_column "MoE intermediate (w3)" rfl htp (by rwa [E.up_cols]),
    E.up.columnRank_eq (by rwa [E.up_rows]) (by rwa [E.up_cols]) hr, hu, E.up_cols]
  show E.down.shardForward ext .w2 tp_size rank (gated act (slice _ _ g) (slice _ _ u)) = _
  rw [gated_slice, ← E.down_rows]
  exact Linear.shardForward_row _ htp (by rwa [E.down_rows])

/-- Where the intermediate width splits, the ranks add up to the unsharded expert. -/
theorem Expert.parallel_eq (hx : x.length = TILE * E.gate.trellis.rows)
    (h : Splits (TILE * E.gate.trellis.cols) tp_size) :
    E.parallel ext act x tp_size = E.forward ext act x := by
  have hx' : x.length = TILE * E.up.trellis.rows := by rwa [E.up_rows]
  have h' : Splits (TILE * E.up.trellis.cols) tp_size := by rwa [E.up_cols]
  have hglen : ∀ g, E.gate.forward ext x = .ok g → g.length = TILE * E.down.trellis.rows :=
    fun g hg => (layer_length hx E.gate.suh_eq E.gate.svh_eq hg).trans (by rw [E.down_rows])
  have hulen : ∀ u, E.up.forward ext x = .ok u → u.length = TILE * E.down.trellis.rows :=
    fun u hu => (layer_length hx' E.up.suh_eq E.up.svh_eq hu).trans (by rw [E.down_rows, E.up_cols])
  rcases eq_or_ne tp_size 1 with rfl | htp
  · -- a single rank loads every tensor whole
    have hrank : E.rankForward ext act x 1 0 = E.forward ext act x := rfl
    rw [Expert.parallel, List.range_one, List.mapM_cons, List.mapM_nil, hrank]
    rcases hy : E.forward ext act x with err | y
    · rfl
    · refine congrArg Except.ok (allReduce_singleton ?_)
      rw [Expert.forward] at hy
      rcases hg : E.gate.forward ext x with err | g
      · rw [hg] at hy
        cases hy
      · rcases hu : E.up.forward ext x with err | u
        · rw [hg, hu] at hy
          cases hy
        · rw [hg, hu] at hy
          exact layer_length (gated_length (hglen g hg) (hulen u hu)) E.down.suh_eq E.down.svh_eq hy
  · have hpos : List.range tp_size ≠ [] := by
      have := (Format.splits_iff_check "").mp h
      rw [Ne, List.range_eq_nil]
      omega
    rw [Expert.parallel, Expert.forward]
    rcases hg : E.gate.forward ext x with err | g
    · rw [mapM_error hpos fun r hr => by
        rw [Expert.rankForward, Linear.shardForward_column "MoE intermediate (w1)" rfl htp h,
          E.gate.columnRank_eq hx h (List.mem_range.mp hr), hg]
        rfl]
      rfl
    · rcases hu : E.up.forward ext x with err | u
      · rw [mapM_error hpos fun r hr => by
          rw [Expert.rankForward, Linear.shardForward_column "MoE intermediate (w1)" rfl htp h,
            E.gate.columnRank_eq hx h (List.mem_range.mp hr), hg,
            Linear.shardForward_column "MoE intermediate (w3)" rfl htp h',
            E.up.columnRank_eq hx' h' (List.mem_range.mp hr), hu]
          rfl]
        rfl
      · rw [mapM_congr fun r hr =>
          Expert.rankForward_eq hx htp h hg hu (List.mem_range.mp hr)]
        exact Linear.rowParallel_eq (gated_length (hglen g hg) (hulen u hu)) (by rwa [E.down_rows])

end Rank

/-! ## The whole expert -/

section Projections

variable {E : Expert W R}

theorem Expert.mem_subTensors {s : ShardId × String × Tensor W R} :
    s ∈ E.subTensors ↔ ∃ L, s.2 ∈ L.subTensors ∧
      (s.1 = .w1 ∧ L = E.gate ∨ s.1 = .w3 ∧ L = E.up ∨ s.1 = .w2 ∧ L = E.down) := by
  obtain ⟨shard_id, s⟩ := s
  simp only [Expert.subTensors, List.mem_append, List.mem_map, Prod.mk.injEq]
  constructor
  · rintro ((⟨s', hs, rfl, rfl⟩ | ⟨s', hs, rfl, rfl⟩) | ⟨s', hs, rfl, rfl⟩)
    · exact ⟨E.gate, hs, .inl ⟨rfl, rfl⟩⟩
    · exact ⟨E.up, hs, .inr (.inl ⟨rfl, rfl⟩)⟩
    · exact ⟨E.down, hs, .inr (.inr ⟨rfl, rfl⟩)⟩
  · rintro ⟨L, hs, ⟨rfl, rfl⟩ | ⟨rfl, rfl⟩ | ⟨rfl, rfl⟩⟩
    · exact .inl (.inl ⟨s, hs, rfl, rfl⟩)
    · exact .inl (.inr ⟨s, hs, rfl, rfl⟩)
    · exact .inr ⟨s, hs, rfl, rfl⟩

/-- All three projections store one intermediate width. -/
theorem Expert.interm_eq {L : Linear W R} {shard_id : ShardId}
    (h : shard_id = .w1 ∧ L = E.gate ∨ shard_id = .w3 ∧ L = E.up ∨ shard_id = .w2 ∧ L = E.down) :
    L.interm shard_id = TILE * E.gate.trellis.cols := by
  rcases h with ⟨rfl, rfl⟩ | ⟨rfl, rfl⟩ | ⟨rfl, rfl⟩
  · rfl
  · exact congrArg (TILE * ·) E.up_cols
  · exact congrArg (TILE * ·) E.down_rows

end Projections

/-- Tensor parallelism of a routed expert is exact and all or nothing. For every expert, elementwise
activation, input and rank count, one of two things happens. Either every rank accepts every
sub-tensor, and the ranks' results add up to the unsharded expert. Or every rank refuses every
sub-tensor that carries the intermediate width, in all three projections, and only the replicated
ones, which no rank ever slices, come through (whole). -/
theorem expert_tp_exact [CommRing R] (ext : Exllamav3 W R) (act : R → R) (E : Expert W R) (x : List R)
    (tp_size : Nat) (hx : x.length = TILE * E.gate.trellis.rows) :
    ((∀ rank, ∀ s ∈ E.subTensors, Accepted tp_size rank s) ∧
        E.parallel ext act x tp_size = E.forward ext act x) ∨
      ∀ rank, ∀ s ∈ E.subTensors,
        (Carries s → ¬Accepted tp_size rank s) ∧
          (¬Carries s → tpShard s.2.1 s.2.2 s.1 rank tp_size = .ok s.2.2) := by
  rcases Decidable.em (Splits (TILE * E.gate.trellis.cols) tp_size) with h | h
  · refine .inl ⟨fun rank s hs => ?_, E.parallel_eq hx h⟩
    obtain ⟨L, hL, hproj⟩ := Expert.mem_subTensors.mp hs
    exact L.tpShard_ok hL (by rwa [Expert.interm_eq hproj])
  · refine .inr fun rank s hs => ?_
    obtain ⟨L, hL, hproj⟩ := Expert.mem_subTensors.mp hs
    exact ⟨L.tpShard_error hL (by rwa [Expert.interm_eq hproj]), L.tpShard_whole hL⟩

/-! ### A 128-wide expert, and a 256-wide one -/

/-- An expert of all-zero words with hidden width 128 and intermediate width `TILE * tiles`. -/
def zeroExpert (tiles : Nat) : Expert Nat Rat where
  gate := ⟨zeroTrellis 8 tiles 3, List.replicate 128 1, List.replicate (TILE * tiles) 1, none, none,
    List.length_replicate, List.length_replicate⟩
  up := ⟨zeroTrellis 8 tiles 3, List.replicate 128 1, List.replicate (TILE * tiles) 1, none, none,
    List.length_replicate, List.length_replicate⟩
  down := ⟨zeroTrellis tiles 8 3, List.replicate (TILE * tiles) 1, List.replicate 128 1, none, none,
    List.length_replicate, List.length_replicate⟩
  up_rows := rfl
  up_cols := rfl
  down_rows := rfl

/-- One 128-wide block on two ranks: a trellis is refused, a replicated scale vector is not. -/
theorem zeroExpert_mixed :
    ¬((∀ rank < 2, ∀ s ∈ (zeroExpert 8).subTensors, Accepted 2 rank s) ∨
      ∀ rank < 2, ∀ s ∈ (zeroExpert 8).subTensors, ¬Accepted 2 rank s) := by
  have hrefused : ¬Accepted 2 0 (.w1, "trellis", .trellis (zeroExpert 8).gate.trellis) :=
    (zeroExpert 8).gate.tpShard_error (by simp [Linear.subTensors]) (by decide) (by decide)
  rintro (hall | hnone)
  · exact hrefused (hall 0 (by decide) _ (by simp [Expert.subTensors, Linear.subTensors, zeroExpert]))
  · exact hnone 0 (by decide) (.w1, "suh", .scale (List.replicate 128 1))
      (by simp [Expert.subTensors, Linear.subTensors, zeroExpert]) ⟨_, rfl⟩

/-- Two blocks on two ranks: every sub-tensor is cut, and the ranks' outputs sum to the expert's. -/
theorem zeroExpert_tp_exact :
    (∀ rank, ∀ s ∈ (zeroExpert 16).subTensors, Accepted 2 rank s) ∧
      (zeroExpert 16).parallel zeroStateExt (fun a => a * a) (List.replicate 128 1) 2 =
        (zeroExpert 16).forward zeroStateExt (fun a => a * a) (List.replicate 128 1) := by
  refine (expert_tp_exact zeroStateExt (fun a => a * a) (zeroExpert 16) (List.replicate 128 1) 2
    List.length_replicate).resolve_right fun hrefused => ?_
  -- the gate's trellis is taken in two halves
  exact (hrefused 0 (.w1, "trellis", .trellis (zeroExpert 16).gate.trellis)
    (by simp [Expert.subTensors, Linear.subTensors])).1 (by decide) ⟨_, rfl⟩

end VllmExl3.TensorParallel
