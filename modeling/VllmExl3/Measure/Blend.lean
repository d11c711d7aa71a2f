/-
# VllmExl3.Measure.Blend — blended sensitivities (`quantization/quant.py`)

`blend_measurement` turns category measurements into one sensitivity for each tensor and level. Each
group weighs its categories' mean KLs, is divided by its total and enters at its share. Here is the
code, reading each category once and taking the first file it reads for a template, over exact
rationals; below it what the recipe says (`blended`), and that the code computes it
(`blendMeasurement_eq`).
-/
import VllmExl3.Lib.Normalize
import VllmExl3.Measure.Tiles
import Mathlib.Algebra.Order.BigOperators.Group.List
import Mathlib.Algebra.Order.Field.Rat

namespace VllmExl3.Measure

variable {ρ : Type}

/-! ## The code -/

/-- A group: its share (and how it prints), and its categories' weights. -/
structure Group where
  share : ℚ
  shown : String
  members : PyDict String ℚ

/-- What the output lists of a tensor: `kld`, level by level. -/
structure Sensitivity where
  key : String
  klds : List ℚ
  deriving DecidableEq, Repr

/-- What ends a blend early: the guard on a group's weights, `tmpl["results"]` where nothing was read,
or an error of reading and summing. -/
inductive BlendError where
  | systemExit (text : String)
  | noTemplate
  | python (e : PyError)
  deriving DecidableEq, Repr

/-- The message of the guard on a group's weights. -/
def zeroWeightText (share : String) : String :=
  s!"=== recipe blend: every category in a group with share {share} has weight 0 (check --category-shares) ==="

/-- `sum(l) / len(l)` -/
def mean (l : List ℚ) : Except PyError ℚ :=
  if l = [] then .error .zeroDivision else .ok (l.sum / l.length)

/-- `a / b` -/
def quotient (a b : ℚ) : Except PyError ℚ := if b = 0 then .error .zeroDivision else .ok (a / b)

/-- What has been read: each category's mean KLs, and the template. -/
structure Read where
  cache : PyDict String (PyDict String (List ℚ))
  tmpl : Option (Measurement ℚ)

/-- One tensor's means. -/
def addMeans (means : PyDict String (List ℚ)) (p : String × List (List ℚ)) :
    Except PyError (PyDict String (List ℚ)) := do
  let lv ← p.2.mapM mean
  return means.set p.1 lv

/-- `mean_kl` -/
def meanKl (dir : Dir ρ ℚ) (cat : String) (read : Read) :
    Except PyError (PyDict String (List ℚ) × Read) :=
  match read.cache.get? cat with
  | some means => .ok (means, read)
  | none => do
    let (t, per) ← categoryKlds dir cat none
    let means ← per.items.foldlM addMeans .empty
    return (means, ⟨read.cache.set cat means, read.tmpl.or t⟩)

/-- `for i, v in enumerate(lv): cur[i] += term(v)` -/
def addTo (term : ℚ → Except PyError ℚ) : List ℚ → List ℚ → Except PyError (List ℚ)
  | cur, [] => .ok cur
  | [], _ :: _ => .error .index
  | c :: cur, v :: lv => do
    let t ← term v
    let rest ← addTo term cur lv
    return (c + t) :: rest

/-- One tensor of a sum: `cur` is what is there of it, or zeros. -/
def addTensor (term : ℚ → Except PyError ℚ) (sums : PyDict String (List ℚ)) (p : String × List ℚ) :
    Except PyError (PyDict String (List ℚ)) := do
  let cur ← addTo term ((sums.get? p.1).getD (p.2.map fun _ => 0)) p.2
  return sums.set p.1 cur

/-- One category of a group whose weights total `tw`. -/
def addMember (dir : Dir ρ ℚ) (tw : ℚ) (acc : PyDict String (List ℚ) × Read) (m : String × ℚ) :
    Except PyError (PyDict String (List ℚ) × Read) := do
  let (means, read) ← meanKl dir m.1 acc.2
  let g ← means.items.foldlM (addTensor fun v => .ok (m.2 / tw * v)) acc.1
  return (g, read)

/-- What a group adds to the blend. -/
def addGroupSums (share : ℚ) (acc g : PyDict String (List ℚ)) :
    Except PyError (PyDict String (List ℚ)) :=
  g.items.foldlM (addTensor fun v => quotient (share * v) g.values.flatten.sum) acc

/-- One group. -/
def addGroup (dir : Dir ρ ℚ) (acc : PyDict String (List ℚ) × Read) (group : Group) :
    Except BlendError (PyDict String (List ℚ) × Read) :=
  let tw := group.members.values.sum
  if tw ≤ 0 then .error (.systemExit (zeroWeightText group.shown))
  else Except.mapError .python do
    let (g, read) ← group.members.items.foldlM (addMember dir tw) (.empty, acc.2)
    let sums ← addGroupSums group.share acc.1 g
    return (sums, read)

/-- `acc[key][i]` -/
def entry (acc : PyDict String (List ℚ)) (key : String) (i : Nat) : Except PyError ℚ :=
  match acc.get? key with
  | none => .error (.key key)
  | some cur => match cur[i]? with
    | none => .error .index
    | some v => .ok v

/-- One tensor of the template, with its levels' KLs replaced. -/
def fill (acc : PyDict String (List ℚ)) (r : Result ℚ) : Except PyError Sensitivity := do
  let klds ← (List.range r.levels.length).mapM (entry acc r.key)
  return ⟨r.key, klds⟩

/-- `blend_measurement` -/
def blendMeasurement (dir : Dir ρ ℚ) (groups : List Group) : Except BlendError (List Sensitivity) := do
  let (acc, read) ← groups.foldlM (addGroup dir) (.empty, ⟨.empty, none⟩)
  match read.tmpl with
  | none => .error .noTemplate
  | some tmpl => (tmpl.results.mapM (fill acc)).mapError .python

/-! ## Tensors and levels -/

/-- The places of a measurement: each tensor, each of its levels. -/
def positions (tensors : PyDict String Nat) : List (String × Nat) :=
  tensors.items.flatMap fun p => (List.range p.2).map fun i => (p.1, i)

/-- A tensor's values, level by level. -/
def levelsOf (tensors : PyDict String Nat) (F : String × Nat → ℚ) (key : String) : Option (List ℚ) :=
  (tensors.get? key).map fun levels => (List.range levels).map fun i => F (key, i)

/-- The dict gives each tensor its values, and lists no other. -/
def Holds (tensors : PyDict String Nat) (d : PyDict String (List ℚ)) (F : String × Nat → ℚ) : Prop :=
  ∀ key, d.get? key = levelsOf tensors F key

variable {tensors : PyDict String Nat} {d sums : PyDict String (List ℚ)} {F G : String × Nat → ℚ}

theorem mem_positions {key : String} {i levels : Nat} (hkey : tensors.get? key = some levels)
    (hi : i < levels) : (key, i) ∈ positions tensors :=
  List.mem_flatMap.mpr ⟨(key, levels), PyDict.get?_eq_some_iff.mp hkey,
    List.mem_map_of_mem (List.mem_range.mpr hi)⟩

/-- Only the values at the positions count. -/
theorem levelsOf_congr (h : ∀ p ∈ positions tensors, F p = G p) (key : String) :
    levelsOf tensors F key = levelsOf tensors G key := by
  unfold levelsOf
  cases hkey : tensors.get? key with
  | none => rfl
  | some levels =>
    refine congrArg some (List.map_congr_left fun i hi => ?_)
    exact h (key, i) (mem_positions hkey (List.mem_range.mp hi))

theorem Holds.congr (h : Holds tensors d F) (hFG : ∀ p ∈ positions tensors, F p = G p) :
    Holds tensors d G := fun key => (h key).trans (levelsOf_congr hFG key)

/-- The sum over a dict's lists is that over the positions. -/
theorem Holds.total (h : Holds tensors d F) : d.values.flatten.sum = total (positions tensors) F := by
  have hperm : d.items.Perm
      (tensors.items.map fun p => (p.1, (List.range p.2).map fun i => F (p.1, i))) := by
    have hnodup : (tensors.items.map fun p =>
        (p.1, (List.range p.2).map fun i => F (p.1, i))).Nodup := by
      apply List.Nodup.of_map Prod.fst
      rw [List.map_map]
      exact tensors.nodup
    rw [List.perm_ext_iff_of_nodup (List.Nodup.of_map Prod.fst d.nodup) hnodup]
    rintro ⟨key, lv⟩
    rw [← PyDict.get?_eq_some_iff, h key, levelsOf, Option.map_eq_some_iff, List.mem_map]
    constructor
    · rintro ⟨levels, hkey, rfl⟩
      exact ⟨(key, levels), PyDict.get?_eq_some_iff.mp hkey, rfl⟩
    · rintro ⟨⟨key', levels⟩, hmem, heq⟩
      obtain ⟨rfl, rfl⟩ := Prod.mk.inj heq
      exact ⟨levels, PyDict.get?_eq_some_iff.mpr hmem, rfl⟩
  have hvalues : d.values.flatten.sum = (d.items.map fun p => p.2.sum).sum := by
    rw [PyDict.values, List.sum_flatten, List.map_map]
    rfl
  have hpositions : VllmExl3.total (positions tensors) F =
      (tensors.items.map fun p => ((List.range p.2).map fun i => F (p.1, i)).sum).sum := by
    rw [VllmExl3.total, positions, List.map_flatMap, List.flatMap, List.sum_flatten, List.map_map]
    simp [Function.comp_def]
  rw [hvalues, (hperm.map _).sum_eq, hpositions, List.map_map]
  rfl

/-! ## Sums over tensors -/

/-- What a sum starts from: what it holds so far, or nothing. -/
def Sums (tensors : PyDict String Nat) (d : PyDict String (List ℚ)) (F : String × Nat → ℚ) : Prop :=
  Holds tensors d F ∨ d = .empty ∧ ∀ p, F p = 0

theorem addTo_ok {term : ℚ → Except PyError ℚ} {a : ℚ} (hterm : ∀ v, term v = .ok (a * v))
    {cur lv : List ℚ} (h : cur.length = lv.length) :
    addTo term cur lv = .ok (List.zipWith (fun c v => c + a * v) cur lv) := by
  induction lv generalizing cur with
  | nil =>
    obtain rfl := List.length_eq_zero_iff.mp h
    rfl
  | cons v lv ih =>
    cases cur with
    | nil => cases h
    | cons c cur =>
      have hrest : cur.length = lv.length := Nat.succ.inj h
      rw [addTo, hterm, ih hrest]
      rfl

/-- A sum with another dict's values added, each times `a`. -/
theorem addTensors_spec {term : ℚ → Except PyError ℚ} {a : ℚ} (hterm : ∀ v, term v = .ok (a * v))
    (hsums : Sums tensors sums F) (hd : Holds tensors d G) :
    ∃ sums', d.items.foldlM (addTensor term) sums = .ok sums' ∧
      Holds tensors sums' fun p => F p + a * G p := by
  have hcur : ∀ key lv, d.get? key = some lv →
      (sums.get? key).getD (lv.map fun _ => 0) = (List.range lv.length).map fun i => F (key, i) := by
    intro key lv hlv
    rw [hd key] at hlv
    obtain ⟨levels, hkey, rfl⟩ := Option.map_eq_some_iff.mp hlv
    rcases hsums with hsums | ⟨rfl, hzero⟩
    · rw [hsums key, levelsOf, hkey]
      simp
    · simp [hzero, Function.comp_def]
  have hstep : ∀ key lv, d.get? key = some lv → ∀ sums' : PyDict String (List ℚ),
      sums'.get? key = sums.get? key → addTensor term sums' (key, lv) =
        .ok (sums'.set key (List.zipWith (fun c v => c + a * v)
          ((sums.get? key).getD (lv.map fun _ => 0)) lv)) := by
    intro key lv hlv sums' hsums'
    have hlen : ((sums.get? key).getD (lv.map fun _ => 0)).length = lv.length := by
      rw [hcur key lv hlv]
      simp
    rw [addTensor, hsums', addTo_ok hterm hlen]
    rfl
  obtain ⟨sums', hfold, hget⟩ := @PyDict.foldlM_update_items _ _ _ _ _ (addTensor term)
    (fun lv cur => List.zipWith (fun c v => c + a * v) (cur.getD (lv.map fun _ => 0)) lv) d sums hstep
  refine ⟨sums', hfold, fun key => ?_⟩
  rw [hget key, levelsOf]
  cases hlv : d.get? key with
  | none =>
    have hkey : tensors.get? key = none := by
      rw [hd key] at hlv
      exact Option.map_eq_none_iff.mp hlv
    rw [hkey, Option.elim_none, Option.map_none]
    rcases hsums with hsums | ⟨rfl, -⟩
    · rw [hsums key, levelsOf, hkey, Option.map_none]
    · rfl
  | some lv =>
    rw [Option.elim_some, hcur key lv hlv]
    rw [hd key] at hlv
    obtain ⟨levels, hkey, rfl⟩ := Option.map_eq_some_iff.mp hlv
    rw [hkey, Option.map_some]
    simp [List.zipWith_map, List.zipWith_self]

/-! ## Reading -/

/-- The KLs a category's chunks list of a tensor at a level, one after the other. -/
def catRows (dir : Dir ρ ℚ) (cat : String) (p : String × Nat) : List ℚ :=
  (categoryChunks dir cat).flatMap (kldRows dir p.1 p.2)

/-- Their mean. -/
def catMean (dir : Dir ρ ℚ) (cat : String) (p : String × Nat) : ℚ :=
  (catRows dir cat p).sum / (catRows dir cat p).length

/-- How many rows a category's chunks hold. -/
def rowCount (dir : Dir ρ ℚ) (cat : String) : Nat :=
  ((categoryChunks dir cat).map fun x => x.stop - x.start).sum

/-- A category is measured: at least one row, and in each chunk the same tensors and levels. -/
structure Listed (dir : Dir ρ ℚ) (tensors : PyDict String Nat) (cat : String) : Prop where
  rows : 0 < rowCount dir cat
  same : SameTensors dir cat tensors.get?

/-- A measurement lists the tensors and their levels. -/
def Lists (tensors : PyDict String Nat) (t : Measurement ℚ) : Prop :=
  (t.results.map (·.key)).Nodup ∧ ∀ key, (t.levels key).map List.length = tensors.get? key

variable {dir : Dir ρ ℚ} {cat : String}

theorem length_catRows (h : Listed dir tensors cat) {key : String} {levels i : Nat}
    (hkey : tensors.get? key = some levels) (hi : i < levels) :
    (catRows dir cat (key, i)).length = rowCount dir cat := by
  rw [catRows, List.length_flatMap, rowCount]
  exact congrArg List.sum (List.map_congr_left (length_kldRows h.same hkey hi))

theorem categoryKlds_listed (h : Listed dir tensors cat) :
    ∃ t per, categoryKlds dir cat none = .ok (some t, per) ∧ Lists tensors t ∧
      ∀ key, per.get? key = (tensors.get? key).map fun levels =>
        (List.range levels).map fun i => catRows dir cat (key, i) := by
  obtain ⟨per, hfold, hper⟩ := gathered_categoryChunks h.same
  cases hchunks : categoryChunks dir cat with
  | nil =>
    have hnone := h.rows
    rw [rowCount, hchunks] at hnone
    cases hnone
  | cons x rest =>
    obtain ⟨t, ht, hnodup, hlevels, -⟩ := h.same x (hchunks ▸ List.mem_cons_self)
    refine ⟨t, per, ?_, ⟨hnodup, hlevels⟩, fun key => ?_⟩
    · rw [categoryKlds, hfold, hchunks, List.head?_cons, Option.bind_some, ht]
      rfl
    · rw [hper key, if_neg (by simp [hchunks])]
      rfl

/-- The means of a category. -/
theorem addMeans_spec (h : Listed dir tensors cat) {per : PyDict String (List (List ℚ))}
    (hper : ∀ key, per.get? key = (tensors.get? key).map fun levels =>
      (List.range levels).map fun i => catRows dir cat (key, i)) :
    ∃ means, per.items.foldlM addMeans .empty = .ok means ∧ Holds tensors means (catMean dir cat) := by
  have hstep : ∀ key lv, per.get? key = some lv → ∀ means : PyDict String (List ℚ),
      means.get? key = (.empty : PyDict String (List ℚ)).get? key →
      addMeans means (key, lv) = .ok (means.set key (lv.map fun l => l.sum / l.length)) := by
    intro key lv hlv means _
    have hmean : lv.mapM mean = .ok (lv.map fun l => l.sum / l.length) := by
      apply mapM_ok
      intro l hl
      rw [hper key] at hlv
      obtain ⟨levels, hkey, rfl⟩ := Option.map_eq_some_iff.mp hlv
      obtain ⟨i, hi, rfl⟩ := List.mem_map.mp hl
      have hlen := length_catRows h hkey (List.mem_range.mp hi)
      have hne : catRows dir cat (key, i) ≠ [] := by
        apply List.ne_nil_of_length_pos
        rw [hlen]
        exact h.rows
      rw [mean, if_neg hne]
    rw [addMeans, hmean]
    rfl
  obtain ⟨means, hfold, hget⟩ := @PyDict.foldlM_update_items _ _ _ _ _ addMeans
    (fun lv _ => lv.map fun l => l.sum / l.length) per .empty hstep
  refine ⟨means, hfold, fun key => ?_⟩
  rw [hget key, hper key, levelsOf]
  cases tensors.get? key with
  | none => rfl
  | some levels => simp [catMean, Function.comp_def]

/-- What has been read so far: means of its category each, and a template once there are any. -/
structure ReadInv (dir : Dir ρ ℚ) (tensors : PyDict String Nat) (read : Read) : Prop where
  means : ∀ cat means, read.cache.get? cat = some means →
    Holds tensors means (catMean dir cat) ∧ read.tmpl.isSome
  tmpl : ∀ t, read.tmpl = some t → Lists tensors t

/-- A category's means, read now or before. -/
theorem meanKl_spec (h : Listed dir tensors cat) {read : Read} (hread : ReadInv dir tensors read) :
    ∃ means read', meanKl dir cat read = .ok (means, read') ∧
      Holds tensors means (catMean dir cat) ∧ ReadInv dir tensors read' ∧ read'.tmpl.isSome := by
  cases hcache : read.cache.get? cat with
  | some means =>
    obtain ⟨hmeans, hsome⟩ := hread.means cat means hcache
    refine ⟨means, read, ?_, hmeans, hread, hsome⟩
    rw [meanKl, hcache]
  | none =>
    obtain ⟨t, per, hklds, hlists, hper⟩ := categoryKlds_listed h
    obtain ⟨means, hfold, hmeans⟩ := addMeans_spec h hper
    have hsome : (read.tmpl.or (some t)).isSome := by cases read.tmpl <;> rfl
    refine ⟨means, ⟨read.cache.set cat means, read.tmpl.or (some t)⟩, ?_, hmeans, ⟨?_, ?_⟩, hsome⟩
    · rw [meanKl, hcache]
      show (categoryKlds dir cat none >>= _) = _
      rw [hklds]
      show (per.items.foldlM addMeans .empty >>= _) = _
      rw [hfold]
      rfl
    · intro cat' means' hmeans'
      refine ⟨?_, hsome⟩
      rw [PyDict.get?_set] at hmeans'
      split_ifs at hmeans' with hcat
      · obtain rfl := Option.some.inj hmeans'
        rwa [hcat]
      · exact (hread.means cat' means' hmeans').1
    · intro t' ht'
      cases htmpl : read.tmpl with
      | none =>
        rw [htmpl] at ht'
        obtain rfl : t = t' := Option.some.inj ht'
        exact hlists
      | some t₀ =>
        rw [htmpl] at ht'
        obtain rfl : t₀ = t' := Option.some.inj ht'
        exact hread.tmpl t₀ htmpl

/-! ## Groups -/

/-- A group's KL of a tensor at a level: its categories' means, each at its weight. -/
def groupKl (dir : Dir ρ ℚ) (group : Group) : String × Nat → ℚ :=
  combine (group.members.items.map fun m => (m.2, catMean dir m.1))

/-- What the recipe says: each group's KLs as shares of their total, blended at the groups' shares. -/
def blended (dir : Dir ρ ℚ) (tensors : PyDict String Nat) (groups : List Group) : String × Nat → ℚ :=
  combine (groups.map fun group => (group.share, normalize (positions tensors) (groupKl dir group)))

/-- A group that can be blended: its categories are measured, no weight is negative, and its KLs have a
positive total. -/
structure Weighed (dir : Dir ρ ℚ) (tensors : PyDict String Nat) (group : Group) : Prop where
  listed : ∀ cat ∈ group.members.keys, Listed dir tensors cat
  weights : ∀ w ∈ group.members.values, 0 ≤ w
  kl : 0 < total (positions tensors) (groupKl dir group)

variable {acc : PyDict String (List ℚ) × Read} {group : Group} {groups : List Group}

/-- Where a loop has come to: the sum it should have, and what is read. -/
structure Summed (dir : Dir ρ ℚ) (tensors : PyDict String Nat) (F : String × Nat → ℚ)
    (acc : PyDict String (List ℚ) × Read) : Prop where
  holds : Holds tensors acc.1 F
  read : ReadInv dir tensors acc.2
  some : acc.2.tmpl.isSome

/-- A loop of at least one step, each of which adds a function at a weight. -/
theorem foldlM_summed {ε α : Type}
    {step : PyDict String (List ℚ) × Read → α → Except ε (PyDict String (List ℚ) × Read)}
    {w : α → ℚ × (String × Nat → ℚ)} {xs : List α}
    (hstep : ∀ x ∈ xs, ∀ F acc, Sums tensors acc.1 F → ReadInv dir tensors acc.2 →
      ∃ acc', step acc x = .ok acc' ∧ Summed dir tensors (fun p => F p + (w x).1 * (w x).2 p) acc')
    (hne : xs ≠ []) (hsums : Sums tensors acc.1 F) (hread : ReadInv dir tensors acc.2) :
    ∃ acc', xs.foldlM step acc = .ok acc' ∧
      Summed dir tensors (fun p => F p + combine (xs.map w) p) acc' := by
  induction xs generalizing acc F with
  | nil => exact absurd rfl hne
  | cons x rest ih =>
    obtain ⟨acc₁, hacc₁, hsummed⟩ := hstep x List.mem_cons_self F acc hsums hread
    rw [List.foldlM_cons, hacc₁]
    by_cases hrest : rest = []
    · subst hrest
      refine ⟨acc₁, rfl, ?_⟩
      simpa using hsummed
    · obtain ⟨acc', hfold, hacc'⟩ := ih (fun y hy => hstep y (List.mem_cons_of_mem x hy)) hrest
        (.inl hsummed.holds) hsummed.read
      refine ⟨acc', hfold, ?_⟩
      simpa [add_assoc] using hacc'

theorem addMember_spec {tw : ℚ} {m : String × ℚ} (h : Listed dir tensors m.1)
    (hsums : Sums tensors acc.1 F) (hread : ReadInv dir tensors acc.2) :
    ∃ acc', addMember dir tw acc m = .ok acc' ∧
      Summed dir tensors (fun p => F p + m.2 / tw * catMean dir m.1 p) acc' := by
  obtain ⟨means, read, hmean, hmeans, hread', hsome⟩ := meanKl_spec h hread
  obtain ⟨g, hfold, hg⟩ :=
    addTensors_spec (a := m.2 / tw) (fun v => rfl) hsums hmeans
  refine ⟨(g, read), ?_, hg, hread', hsome⟩
  rw [addMember, hmean]
  show (means.items.foldlM (addTensor fun v => .ok (m.2 / tw * v)) acc.1 >>= _) = _
  rw [hfold]
  rfl

/-- Weights that are not negative total zero only where they all are zero. -/
theorem Weighed.weights_pos (h : Weighed dir tensors group) : 0 < group.members.values.sum := by
  by_contra hle
  have hzero : group.members.values.sum = 0 :=
    le_antisymm (not_lt.mp hle) (List.sum_nonneg h.weights)
  have hnone : ∀ m ∈ group.members.items, m.2 = 0 := fun m hm =>
    List.all_zero_of_le_zero_le_of_sum_eq_zero h.weights hzero (List.mem_map_of_mem hm)
  have hkl : ∀ p ∈ positions tensors, groupKl dir group p = 0 * groupKl dir group p := by
    intro p _
    rw [groupKl, combine, List.map_map, zero_mul]
    apply List.sum_eq_zero
    intro v hv
    obtain ⟨m, hm, rfl⟩ := List.mem_map.mp hv
    simp [hnone m hm]
  have hpos := h.kl
  rw [total_congr hkl, total_mul, zero_mul] at hpos
  exact lt_irrefl 0 hpos

theorem addGroup_spec (h : Weighed dir tensors group) (hsums : Sums tensors acc.1 F)
    (hread : ReadInv dir tensors acc.2) :
    ∃ acc', addGroup dir acc group = .ok acc' ∧ Summed dir tensors
      (fun p => F p + group.share * normalize (positions tensors) (groupKl dir group) p) acc' := by
  obtain ⟨tw, htw⟩ : ∃ tw, tw = group.members.values.sum := ⟨_, rfl⟩
  have hpos : 0 < tw := htw ▸ h.weights_pos
  have hne : group.members.items ≠ [] := by
    intro hnil
    have hzero : group.members.values.sum = 0 := by rw [PyDict.values, hnil]; rfl
    exact absurd hpos (by rw [htw, hzero]; exact lt_irrefl 0)
  obtain ⟨⟨g, read⟩, hfold, hg⟩ : ∃ acc', group.members.items.foldlM (addMember dir tw)
        (.empty, acc.2) = .ok acc' ∧ Summed dir tensors (fun p => 0 +
          combine (group.members.items.map fun m => (m.2 / tw, catMean dir m.1)) p) acc' :=
    foldlM_summed (fun m hm F acc hsums hread =>
        addMember_spec (h.listed m.1 (List.mem_map_of_mem hm)) hsums hread)
      hne (.inr ⟨rfl, fun _ => rfl⟩) hread
  -- the group's weighted means are its KLs, all divided by the weights' total
  have hscale : ∀ p, 0 + combine (group.members.items.map fun m => (m.2 / tw, catMean dir m.1)) p =
      tw⁻¹ * groupKl dir group p := by
    intro p
    rw [zero_add, groupKl, ← combine_mul, List.map_map]
    simp [Function.comp_def, div_eq_inv_mul]
  have hsum : Holds tensors g fun p => tw⁻¹ * groupKl dir group p :=
    hg.holds.congr fun p _ => hscale p
  have htotal : g.values.flatten.sum = tw⁻¹ * total (positions tensors) (groupKl dir group) := by
    rw [hsum.total, total_mul]
  have htotal_ne : g.values.flatten.sum ≠ 0 := by
    rw [htotal]
    exact mul_ne_zero (inv_ne_zero hpos.ne') h.kl.ne'
  have hterm : ∀ v, quotient (group.share * v) g.values.flatten.sum =
      .ok (group.share / g.values.flatten.sum * v) := by
    intro v
    rw [quotient, if_neg htotal_ne, div_mul_eq_mul_div]
  obtain ⟨sums, hadd, hsums'⟩ := addTensors_spec hterm hsums hsum
  refine ⟨(sums, read), ?_, hsums'.congr fun p hp => ?_, hg.read, hg.some⟩
  · rw [addGroup, ← htw, if_neg (not_le.mpr hpos), hfold]
    show Except.mapError _ (addGroupSums group.share acc.1 g >>= _) = _
    rw [addGroupSums, hadd]
    rfl
  · rw [normalize, htotal]
    field_simp

/-! ## The output -/

/-- What a blend gives a tensor. -/
def klds (out : List Sensitivity) (key : String) : Option (List ℚ) :=
  (out.find? fun s => s.key = key).map (·.klds)

/-- A blend gives each tensor and level its value, once. -/
structure Assigns (tensors : PyDict String Nat) (out : List Sensitivity) (F : String × Nat → ℚ) :
    Prop where
  nodup : (out.map (·.key)).Nodup
  klds : ∀ key, klds out key = levelsOf tensors F key

/-- The values of a blend total those at the positions. -/
theorem Assigns.total {out : List Sensitivity} (h : Assigns tensors out F) :
    (out.flatMap (·.klds)).sum = total (positions tensors) F := by
  have hnodup : ((out.map fun s => (s.key, s.klds)).map Prod.fst).Nodup := by
    rw [List.map_map]
    exact h.nodup
  have hholds : Holds tensors ⟨out.map fun s => (s.key, s.klds), hnodup⟩ F := by
    intro key
    rw [← h.klds key, PyDict.get?, List.find?_map, Option.map_map]
    rfl
  rw [← hholds.total, PyDict.values, List.map_map, List.flatMap]
  rfl

/-- The template's tensors get what is held of them. -/
theorem fill_ok {r : Result ℚ} (h : Holds tensors d F)
    (hkey : tensors.get? r.key = some r.levels.length) :
    fill d r = .ok ⟨r.key, (List.range r.levels.length).map fun i => F (r.key, i)⟩ := by
  have hentry : ∀ i ∈ List.range r.levels.length, entry d r.key i = .ok (F (r.key, i)) := by
    intro i hi
    rw [entry, h r.key, levelsOf, hkey]
    simp [List.mem_range.mp hi]
  rw [fill, mapM_ok hentry]
  rfl

theorem fill_results {t : Measurement ℚ} (ht : Lists tensors t) (h : Holds tensors d F) :
    ∃ out, t.results.mapM (fill d) = .ok out ∧ Assigns tensors out F := by
  have hlevels : ∀ r ∈ t.results, tensors.get? r.key = some r.levels.length := by
    intro r hr
    rw [← ht.2 r.key, Measurement.levels, find?_key ht.1 hr]
    rfl
  refine ⟨_, mapM_ok fun r hr => fill_ok h (hlevels r hr), ?_, fun key => ?_⟩
  · rw [List.map_map]
    exact ht.1
  · rw [Measure.klds, List.find?_map, Option.map_map, levelsOf, ← ht.2 key, Measurement.levels,
      Option.map_map, Option.map_map]
    cases hr : t.results.find? ((fun s : Sensitivity => decide (s.key = key)) ∘ fun r : Result ℚ =>
        (⟨r.key, (List.range r.levels.length).map fun i => F (r.key, i)⟩ : Sensitivity)) with
    | none =>
      have hnone : (t.results.find? fun r => r.key = key) = none := hr
      rw [hnone]
      rfl
    | some r =>
      have hsome : (t.results.find? fun r => r.key = key) = some r := hr
      obtain rfl : r.key = key := by simpa using List.find?_some hsome
      rw [hsome]
      rfl

/-- A list of groups that can be blended. -/
def Blendable (dir : Dir ρ ℚ) (tensors : PyDict String Nat) (groups : List Group) : Prop :=
  groups ≠ [] ∧ ∀ group ∈ groups, Weighed dir tensors group

/-- The code computes what the recipe says. -/
theorem blendMeasurement_eq (h : Blendable dir tensors groups) :
    ∃ out, blendMeasurement dir groups = .ok out ∧
      Assigns tensors out (blended dir tensors groups) := by
  have hread : ReadInv dir tensors ⟨.empty, none⟩ := by
    constructor
    · intro cat means hmeans
      cases hmeans
    · intro t ht
      cases ht
  obtain ⟨⟨sums, read⟩, hfold, hsummed⟩ : ∃ acc', groups.foldlM (addGroup dir)
        (.empty, ⟨.empty, none⟩) = .ok acc' ∧
      Summed dir tensors (fun p => 0 + blended dir tensors groups p) acc' :=
    foldlM_summed (fun group hgroup F acc hsums hread => addGroup_spec (h.2 group hgroup) hsums hread)
      h.1 (.inr ⟨rfl, fun _ => rfl⟩) hread
  obtain ⟨t, ht⟩ := Option.isSome_iff_exists.mp hsummed.some
  have hholds : Holds tensors sums (blended dir tensors groups) :=
    hsummed.holds.congr fun p _ => zero_add _
  obtain ⟨out, hout, hassigns⟩ := fill_results (hsummed.read.tmpl t ht) hholds
  refine ⟨out, ?_, hassigns⟩
  rw [blendMeasurement, hfold]
  show (match read.tmpl with
    | none => Except.error BlendError.noTemplate
    | some tmpl => (tmpl.results.mapM (fill sums)).mapError .python) = _
  have htmpl : read.tmpl = some t := ht
  rw [htmpl]
  show Except.mapError _ (t.results.mapM (fill sums)) = _
  rw [hout]
  rfl

/-! ## What leaves a blend as it is -/

/-- Two groups, each with measurements of its own: the share is the same, the categories come in any
order with their weights times `a`, and the categories' rows come in any chunks with all KLs times `c`. -/
structure SameGroup (dir dir' : Dir ρ ℚ) (tensors : PyDict String Nat) (group group' : Group) : Prop where
  share : group'.share = group.share
  scaled : ∃ a c : ℚ, 0 < a ∧ 0 < c ∧
    group'.members.items.Perm (group.members.items.map fun m => (m.1, a * m.2)) ∧
    ∀ cat ∈ group.members.keys, ∀ p ∈ positions tensors,
      (catRows dir' cat p).Perm ((catRows dir cat p).map (c * ·))

/-- The groups in any order, each the same group. -/
def SameRecipe (dir dir' : Dir ρ ℚ) (tensors : PyDict String Nat) (groups groups' : List Group) : Prop :=
  ∃ ordered, groups'.Perm ordered ∧ List.Forall₂ (SameGroup dir dir' tensors) groups ordered

variable {dir' : Dir ρ ℚ} {group' : Group} {groups' : List Group}

/-- The mean of KLs that are all multiplied is multiplied. -/
theorem catMean_scaled {c : ℚ} {p : String × Nat}
    (h : (catRows dir' cat p).Perm ((catRows dir cat p).map (c * ·))) :
    catMean dir' cat p = c * catMean dir cat p := by
  have hsum : (catRows dir' cat p).sum = c * (catRows dir cat p).sum := by
    rw [h.sum_eq, List.sum_map_mul_left, List.map_id']
  have hlen : (catRows dir' cat p).length = (catRows dir cat p).length := by
    rw [h.length_eq, List.length_map]
  rw [catMean, catMean, hsum, hlen, mul_div_assoc]

theorem SameGroup.normalize_eq (h : SameGroup dir dir' tensors group group') {p : String × Nat}
    (hp : p ∈ positions tensors) : normalize (positions tensors) (groupKl dir' group') p =
      normalize (positions tensors) (groupKl dir group) p := by
  obtain ⟨a, c, ha, hc, hperm, hrows⟩ := h.scaled
  apply normalize_mul (mul_ne_zero ha.ne' hc.ne') _ hp
  intro q hq
  have hmeans : ∀ m ∈ group.members.items,
      (a * m.2) * catMean dir' m.1 q = a * c * (m.2 * catMean dir m.1 q) := by
    intro m hm
    rw [catMean_scaled (hrows m.1 (List.mem_map_of_mem hm) q hq)]
    ring
  rw [groupKl, combine_perm (hperm.map fun m => (m.2, catMean dir' m.1)), groupKl, combine, combine,
    List.map_map, List.map_map, List.map_map, ← List.sum_map_mul_left]
  exact congrArg List.sum (List.map_congr_left hmeans)

theorem blended_same (h : SameRecipe dir dir' tensors groups groups') {p : String × Nat}
    (hp : p ∈ positions tensors) :
    blended dir' tensors groups' p = blended dir tensors groups p := by
  obtain ⟨ordered, hperm, hgroups⟩ := h
  have hmap := hperm.map fun group => (group.share, normalize (positions tensors) (groupKl dir' group))
  rw [blended, combine_perm hmap, blended]
  apply combine_congr
  rw [List.forall₂_map_left_iff, List.forall₂_map_right_iff]
  refine hgroups.flip.imp fun group' group hgroup => ?_
  exact ⟨hgroup.share, hgroup.normalize_eq hp⟩

/-! ## One measurement of all rows -/

/-- The mean over all rows of the categories. -/
def pooledMean (dir : Dir ρ ℚ) (cats : List String) (p : String × Nat) : ℚ :=
  (cats.flatMap fun cat => catRows dir cat p).sum / (cats.flatMap fun cat => catRows dir cat p).length

/-- Weights proportional to the row counts make a group's KLs proportional to the means of all rows. -/
theorem normalize_pooled (h : Weighed dir tensors group) {c : ℚ}
    (hw : ∀ m ∈ group.members.items, m.2 = c * rowCount dir m.1) {p : String × Nat}
    (hp : p ∈ positions tensors) : normalize (positions tensors) (groupKl dir group) p =
      normalize (positions tensors) (pooledMean dir group.members.keys) p := by
  obtain ⟨rows, hrows⟩ : ∃ rows, rows = (group.members.keys.map (rowCount dir)).sum := ⟨_, rfl⟩
  have hkl : ∀ q ∈ positions tensors,
      groupKl dir group q = c * rows * pooledMean dir group.members.keys q := by
    intro q hq
    have hlen : ∀ cat ∈ group.members.keys, (catRows dir cat q).length = rowCount dir cat := by
      intro cat hcat
      obtain ⟨t, ht, hq⟩ := List.mem_flatMap.mp hq
      obtain ⟨i, hi, rfl⟩ := List.mem_map.mp hq
      exact length_catRows (h.listed cat hcat) (PyDict.get?_eq_some_iff.mpr ht) (List.mem_range.mp hi)
    have hall : (group.members.keys.flatMap fun cat => catRows dir cat q).length = rows := by
      rw [List.length_flatMap, hrows, List.map_congr_left hlen]
    -- a category's weight times its mean is `c` times the sum of its rows
    have hmember : ∀ m ∈ group.members.items,
        m.2 * catMean dir m.1 q = c * (catRows dir m.1 q).sum := by
      intro m hm
      have hpos := (h.listed m.1 (List.mem_map_of_mem hm)).rows
      have hne : (rowCount dir m.1 : ℚ) ≠ 0 := by exact_mod_cast hpos.ne'
      rw [hw m hm, catMean, hlen m.1 (List.mem_map_of_mem hm)]
      field_simp
    have hsum : groupKl dir group q =
        c * (group.members.keys.flatMap fun cat => catRows dir cat q).sum := by
      rw [groupKl, combine, List.map_map, List.flatMap, List.sum_flatten, PyDict.keys, List.map_map,
        List.map_map, ← List.sum_map_mul_left]
      exact congrArg List.sum (List.map_congr_left hmember)
    rw [hsum, pooledMean, hall]
    by_cases hzero : (rows : ℚ) = 0
    · -- no rows, nothing to sum
      have hnil : (group.members.keys.flatMap fun cat => catRows dir cat q) = [] := by
        apply List.length_eq_zero_iff.mp
        rw [hall]
        exact_mod_cast hzero
      rw [hnil, hzero]
      simp
    · field_simp
  have hne : c * rows ≠ 0 := by
    intro hzero
    have hpos := h.kl
    rw [total_congr hkl, total_mul, hzero, zero_mul] at hpos
    exact lt_irrefl 0 hpos
  exact normalize_mul hne hkl hp

/-! ## The blend -/

/-- What a blend is: every tensor and level has the recipe's value; the values total the shares; they
stay where weights or KLs of a group are multiplied, groups or categories change places or rows are
chunked differently; and one group, weighed by row counts, is the mean over all rows. -/
structure Blends (dir : Dir ρ ℚ) (tensors : PyDict String Nat) (groups : List Group)
    (out : List Sensitivity) : Prop where
  assigned : Assigns tensors out (blended dir tensors groups)
  total : (out.flatMap (·.klds)).sum = (groups.map (·.share)).sum
  same : ∀ (dir' : Dir ρ ℚ) (groups' : List Group), Blendable dir' tensors groups' →
    SameRecipe dir dir' tensors groups groups' →
    ∃ out', blendMeasurement dir' groups' = .ok out' ∧ ∀ key, klds out' key = klds out key
  pooled : ∀ (group : Group) (c : ℚ), groups = [group] →
    (∀ m ∈ group.members.items, m.2 = c * rowCount dir m.1) → ∀ key, klds out key = levelsOf tensors
      (fun p => group.share * normalize (positions tensors) (pooledMean dir group.members.keys) p) key

/-- Blended sensitivities are what the recipe says. -/
theorem blend_measurement_blends (h : Blendable dir tensors groups) :
    ∃ out, blendMeasurement dir groups = .ok out ∧ Blends dir tensors groups out := by
  obtain ⟨out, hout, hassigns⟩ := blendMeasurement_eq h
  refine ⟨out, hout, hassigns, ?_, ?_, ?_⟩
  · have htotals : ∀ w ∈ groups.map fun group => (group.share, groupKl dir group),
        total (positions tensors) w.2 ≠ 0 := by
      intro w hw
      obtain ⟨group, hgroup, rfl⟩ := List.mem_map.mp hw
      exact (h.2 group hgroup).kl.ne'
    have hsum := total_combine_normalize htotals
    rw [List.map_map, List.map_map] at hsum
    rw [hassigns.total]
    exact hsum
  · intro dir' groups' h' hsame
    obtain ⟨out', hout', hassigns'⟩ := blendMeasurement_eq h'
    refine ⟨out', hout', fun key => ?_⟩
    rw [hassigns'.klds key, hassigns.klds key]
    exact levelsOf_congr (fun p hp => blended_same hsame hp) key
  · rintro group c rfl hw key
    rw [hassigns.klds key]
    apply levelsOf_congr
    intro p hp
    rw [blended, List.map_singleton, combine_cons, combine_nil, add_zero]
    dsimp only
    rw [normalize_pooled (h.2 group List.mem_cons_self) hw hp]

/-! ## A category in two groups -/

/-- A row of two tensors, one level each. -/
def rowFile (a b : ℚ) : File Nat ℚ := .json ⟨[⟨"a", [[a]]⟩, ⟨"b", [[b]]⟩]⟩

def twoTensors : PyDict String Nat := .ofList [("a", 1), ("b", 1)]

/-- Two categories, one row each, the first one's KLs times `k`. -/
def twoCategories (k : ℚ) : Dir Nat ℚ :=
  (PyDict.empty.set "self.0-1.json" (rowFile k k)).set "loop.0-1.json" (rowFile 1 3)

/-- Own voice and everything, half each: the first category is in both. -/
def ownvoiceHalf : List Group :=
  [⟨1 / 2, "0.5", .ofList [("self", 1)]⟩, ⟨1 / 2, "0.5", .ofList [("self", 1), ("loop", 1)]⟩]

theorem listed_row {dir : Dir Nat ℚ} {f : String} {a b : ℚ}
    (hchunks : categoryChunks dir cat = [⟨0, 1, f⟩]) (hfile : dir.get? f = some (rowFile a b)) :
    Listed dir twoTensors cat := by
  refine ⟨by simp [rowCount, hchunks], fun x hx => ?_⟩
  obtain rfl := List.mem_singleton.mp (hchunks ▸ hx)
  refine ⟨⟨[⟨"a", [[a]]⟩, ⟨"b", [[b]]⟩]⟩, ?_, by simp, fun key => ?_, ?_⟩
  · rw [Chunk.measurement, hfile]
    rfl
  · have htensors : twoTensors.get? key =
        if key = "b" then some 1 else if key = "a" then some 1 else none := by
      rw [twoTensors, PyDict.ofList, List.foldl_cons, List.foldl_cons, List.foldl_nil,
        PyDict.get?_set, PyDict.get?_set, PyDict.get?_empty]
    rw [htensors, Measurement.levels]
    by_cases ha : key = "a"
    · subst ha
      rfl
    · by_cases hb : key = "b"
      · subst hb
        rfl
      · simp [Ne.symm ha, Ne.symm hb, ha, hb]
  · intro r hr l hl
    simp only [List.mem_cons, List.not_mem_nil, or_false] at hr
    rcases hr with rfl | rfl
    · rw [List.mem_singleton.mp hl]
      rfl
    · rw [List.mem_singleton.mp hl]
      rfl

theorem blendable_ownvoiceHalf {k : ℚ}
    (hself : categoryChunks (twoCategories k) "self" = [⟨0, 1, "self.0-1.json"⟩])
    (hloop : categoryChunks (twoCategories k) "loop" = [⟨0, 1, "loop.0-1.json"⟩])
    (hkl : ∀ group ∈ ownvoiceHalf, 0 < total (positions twoTensors) (groupKl (twoCategories k) group)) :
    Blendable (twoCategories k) twoTensors ownvoiceHalf := by
  have hlisted : ∀ cat ∈ ["self", "loop"], Listed (twoCategories k) twoTensors cat := by
    intro cat hcat
    rcases List.mem_cons.mp hcat with rfl | hcat
    · exact listed_row (a := k) (b := k) hself rfl
    · obtain rfl := List.mem_singleton.mp hcat
      exact listed_row (a := 1) (b := 3) hloop rfl
  refine ⟨by decide, fun group hgroup => ⟨fun cat hcat => ?_, ?_, hkl group hgroup⟩⟩
  · have hcats : ∀ group ∈ ownvoiceHalf, ∀ cat ∈ group.members.keys, cat ∈ ["self", "loop"] := by decide
    exact hlisted cat (hcats group hgroup cat hcat)
  · have hweights : ∀ group ∈ ownvoiceHalf, ∀ w ∈ group.members.values, (0 : ℚ) ≤ w := by decide
    exact hweights group hgroup

theorem ownvoiceHalf_blends : ∃ out, blendMeasurement (twoCategories 1) ownvoiceHalf = .ok out ∧
    Blends (twoCategories 1) twoTensors ownvoiceHalf out :=
  blend_measurement_blends (blendable_ownvoiceHalf (by decide +kernel) (by decide +kernel)
    (by decide +kernel))

/-- All KLs of the first group are doubled, and the blend is another: the second group's mean is no
longer the same. With no group there is no template. -/
theorem shared_category_scaled :
    Blendable (twoCategories 1) twoTensors ownvoiceHalf ∧
    Blendable (twoCategories 2) twoTensors ownvoiceHalf ∧
    (∀ p ∈ positions twoTensors, catRows (twoCategories 2) "self" p =
      (catRows (twoCategories 1) "self" p).map (2 * ·)) ∧
    (∀ p ∈ positions twoTensors, catRows (twoCategories 2) "loop" p =
      catRows (twoCategories 1) "loop" p) ∧
    (blendMeasurement (twoCategories 1) ownvoiceHalf).toOption.map (klds · "a") =
      some (some [5 / 12]) ∧
    (blendMeasurement (twoCategories 2) ownvoiceHalf).toOption.map (klds · "a") =
      some (some [7 / 16]) ∧
    blendMeasurement (twoCategories 1) [] = .error .noTemplate := by
  refine ⟨?_, ?_, by decide +kernel, by decide +kernel, by decide +kernel, by decide +kernel, rfl⟩
  · exact blendable_ownvoiceHalf (by decide +kernel) (by decide +kernel) (by decide +kernel)
  · exact blendable_ownvoiceHalf (by decide +kernel) (by decide +kernel) (by decide +kernel)

end VllmExl3.Measure
