/-
# VllmExl3.SyncOutputs.RoundTrip — a lost disk is restored

A pass that nothing disturbs, over a tree that has settled, ends, and leaves every file of the tree in
the archive, whatever earlier passes, crashes and writes have left there. The disk can then be lost: a
restore onto a new one gives back the archive, and with it every file, and records each one as synced,
so that the next pass has nothing to send back (`backup_restores`).
-/
import VllmExl3.Lib.WhileLoop
import VllmExl3.SyncOutputs.Recorded

namespace VllmExl3.SyncOutputs

open WhileLoop (Ends)

variable {settle : Nat} {exclude : String → Bool} {m m' base : Machine} {walk : List Path} {torn : Content}

/-! ## A process left alone -/

/-- The process goes on until it is down. -/
def Machine.alone (settle : Nat) (m : Machine) : Machine ⊕ Machine :=
  match m.next settle [] with
  | some m' => .inl m'
  | none => .inr m

/-- How many steps are left at most. -/
def Process.left : Process → Nat
  | .down => 0
  | .walking p => 4 * p.todo.length + 1
  | .reading p _ => 4 * p.todo.length + 4
  | .staged p _ _ => 4 * p.todo.length + 3
  | .placed p _ => 4 * p.todo.length + 2
  | .restoring p => p.todo.length + 1

theorem next_left (h : m.next settle torn = some m') : m'.process.left < m.process.left := by
  obtain ⟨v, process⟩ := m
  cases moves_of_next h <;> simp [Process.left]
  all_goals omega

theorem alone_inl (h : m.alone settle = .inl m') : m.next settle [] = some m' := by
  unfold Machine.alone at h
  split at h
  · next hnext => rw [hnext, Sum.inl.inj h]
  · cases h

theorem alone_inr (h : m.alone settle = .inr m') : m' = m ∧ m.process = .down := by
  unfold Machine.alone at h
  split at h
  · cases h
  · next hnext => exact ⟨(Sum.inr.inj h).symm, down_of_next hnext⟩

/-- Left alone, the process comes to its end, and with it what each of its steps keeps. -/
theorem ends_of_next {P : Machine → Prop} (hstep : ∀ m m', P m → m.next settle [] = some m' → P m') (hm : P m) :
    ∃ m', Ends (Machine.alone settle) m m' ∧ P m' ∧ m'.process = .down := by
  obtain ⟨last, r, hlast, hout, hends⟩ := WhileLoop.ends_of_measure (fun m : Machine => m.process.left)
    (fun a b ha hbody => hstep a b ha (alone_inl hbody)) (fun a b _ hbody => next_left (alone_inl hbody)) hm
  obtain ⟨rfl, hdown⟩ := alone_inr hout
  exact ⟨r, hends, hlast, hdown⟩

/-! ## A pass over a settled tree -/

/-- The files a pass has still to copy. -/
def Process.pending : Process → List Path
  | .down => []
  | .walking p => p.todo
  | .reading p c => c.rel :: p.todo
  | .staged p c _ => c.rel :: p.todo
  | .placed p _ => p.todo
  | .restoring _ => []

/-- The file a pass is at. -/
def Process.current : Process → Option Copying
  | .reading _ c => some c
  | .staged _ c _ => some c
  | .placed _ c => some c
  | _ => none

/-- A pass over the files of `walk` that nothing disturbs. -/
structure Backing (base : Machine) (walk : List Path) (m : Machine) : Prop where
  inv : m.Inv
  tree : m.tree = base.tree
  now : m.now = base.now
  unchanged : ∀ c, m.process.current = some c → ∃ f, base.tree c.rel = some f ∧ f.key = c.key
  covered : ∀ rel ∈ walk, ∀ f, base.tree rel = some f → m.archive rel = some f.content ∨ rel ∈ m.process.pending
  sync : m.process.isRestoring = false

theorem Backing.next (hsettle : 0 < settle)
    (hquiet : ∀ rel f, base.tree rel = some f → f.mtime_ns + settle ≤ base.now)
    (hm : Backing base walk m) (h : m.next settle [] = some m') : Backing base walk m' := by
  have hinv := hm.inv.next hsettle h
  obtain ⟨v, process⟩ := m
  obtain ⟨⟨hsound, hworking⟩, htree, hnow, hcurrent, hcovered, hsync⟩ := hm
  dsimp only at htree hnow hworking hcurrent hcovered hsync hsound
  cases moves_of_next h with
  | finish => exact ⟨hinv, htree, hnow, (fun _ hc => nomatch hc), hcovered, rfl⟩
  | gone hnone =>
    refine ⟨hinv, htree, hnow, (fun _ hc => nomatch hc), fun rel hrel f hf => ?_, rfl⟩
    obtain hdone | hpending := hcovered rel hrel f hf
    · exact .inl hdone
    · obtain rfl | hrest := List.mem_cons.mp hpending
      · rw [← htree, hnone] at hf
        cases hf
      · exact .inr hrest
  | @skip state r todo f hf hskip =>
    refine ⟨hinv, htree, hnow, (fun _ hc => nomatch hc), fun rel hrel g hg => ?_, rfl⟩
    obtain hdone | hpending := hcovered rel hrel g hg
    · exact .inl hdone
    · obtain rfl | hrest := List.mem_cons.mp hpending
      · -- it is skipped as recorded, since everything has settled
        rw [← htree] at hg
        obtain rfl := Option.some.inj (hg.symm.trans hf)
        rw [htree] at hf
        obtain hrecorded | hyoung := hskip
        · exact .inl (Record.Within.truthful hworking hsound.truthful rel g.key g hrecorded hg rfl)
        · have hold : g.mtime_ns + settle ≤ v.now := hnow ▸ hquiet rel g hf
          exact absurd hyoung (Nat.not_lt_of_le hold)
      · exact .inr hrest
  | look hf _ _ =>
    refine ⟨hinv, htree, hnow, fun c hc => ?_, hcovered, rfl⟩
    obtain rfl := Option.some.inj hc
    exact ⟨_, htree ▸ hf, rfl⟩
  | vanish hnone =>
    obtain ⟨f, hf, -⟩ := hcurrent _ rfl
    rw [← htree, hnone] at hf
    cases hf
  | read _ => exact ⟨hinv, htree, hnow, hcurrent, hcovered, rfl⟩
  | @place p c content =>
    refine ⟨hinv, htree, hnow, hcurrent, fun rel hrel f hf => ?_, rfl⟩
    by_cases hr : rel = c.rel
    · subst hr
      obtain ⟨g, hg, hkey⟩ := hcurrent c rfl
      obtain rfl := Option.some.inj (hf.symm.trans hg)
      rw [← htree] at hf
      simp only [Function.update_self, hworking.2.2 f hf hkey, true_or]
    · simp only [Function.update_of_ne hr]
      obtain hdone | hpending := hcovered rel hrel f hf
      · exact .inl hdone
      · exact .inr ((List.mem_cons.mp hpending).resolve_left hr)
  | die hnone =>
    obtain ⟨f, hf, -⟩ := hcurrent _ rfl
    rw [← htree, hnone] at hf
    cases hf
  | record _ _ => exact ⟨hinv, htree, hnow, (fun _ hc => nomatch hc), hcovered, rfl⟩
  | changed _ _ => exact ⟨hinv, htree, hnow, (fun _ hc => nomatch hc), hcovered, rfl⟩
  | restored => cases hsync
  | missing _ => cases hsync
  | restore _ => cases hsync

/-- An undisturbed pass leaves every file of a settled tree in the archive. -/
theorem sync_ends (hsettle : 0 < settle) (hinv : m.Inv)
    (hquiet : ∀ rel f, m.tree rel = some f → f.mtime_ns + settle ≤ m.now) (walk : List Path) :
    ∃ m', Ends (Machine.alone settle) { m with process := .walking (m.pass exclude true walk) } m' ∧
      m'.process = .down ∧ m'.tree = m.tree ∧
      ∀ rel ∈ walk, listed exclude rel = true → ∀ f, m.tree rel = some f → m'.archive rel = some f.content := by
  have hstart : Backing m (walk.filter (listed exclude))
      { m with process := .walking (m.pass exclude true walk) } :=
    ⟨⟨hinv.sound, read_within m.toVolumes true⟩, rfl, rfl,
      (fun _ hc => nomatch hc), fun rel hrel _ _ => .inr hrel, rfl⟩
  obtain ⟨m', hends, hm', hdown⟩ := ends_of_next (fun _ _ => Backing.next hsettle hquiet) hstart
  refine ⟨m', hends, hdown, hm'.tree, fun rel hrel hlisted f hf => ?_⟩
  obtain hdone | hpending := hm'.covered rel (List.mem_filter.mpr ⟨hrel, hlisted⟩) f hf
  · exact hdone
  · rw [hdown] at hpending
    cases hpending

/-! ## A restore onto a new disk -/

/-- The record of a restore, in memory or saved. -/
def Machine.restoredRecord (m : Machine) : Record :=
  match m.process with
  | .restoring p => p.state
  | _ => m.record

/-- What a restore has still to copy back. -/
def Process.toRestore : Process → List Path
  | .restoring p => p.todo
  | _ => []

/-- A restore of `back` onto a disk that was lost. -/
structure Restoring (kept : Path → Option Content) (back : List Path) (m : Machine) : Prop where
  archive : m.archive = kept
  held : ∀ rel ∈ back, (kept rel).isSome
  todo : ∀ rel ∈ m.process.toRestore, rel ∈ back
  files : ∀ rel f, m.tree rel = some f → rel ∈ back ∧ kept rel = some f.content ∧
    m.restoredRecord rel = some f.key
  covered : ∀ rel ∈ back, (m.tree rel).isSome ∨ rel ∈ m.process.toRestore
  restore : m.process.current = none ∧ ∀ p, m.process ≠ .walking p

theorem Restoring.next {kept : Path → Option Content} {back : List Path} (hm : Restoring kept back m)
    (h : m.next settle [] = some m') : Restoring kept back m' := by
  obtain ⟨v, process⟩ := m
  obtain ⟨harchive, hheld, htodo, hfiles, hcovered, hcurrent, hwalking⟩ := hm
  dsimp only at harchive htodo hfiles hcovered hcurrent hwalking
  cases moves_of_next h with
  | finish => exact absurd rfl (hwalking _)
  | gone _ => exact absurd rfl (hwalking _)
  | skip _ _ => exact absurd rfl (hwalking _)
  | look _ _ _ => exact absurd rfl (hwalking _)
  | vanish _ => cases hcurrent
  | read _ => cases hcurrent
  | place => cases hcurrent
  | die _ => cases hcurrent
  | record _ _ => cases hcurrent
  | changed _ _ => cases hcurrent
  | restored => exact ⟨harchive, hheld, htodo, hfiles, hcovered, rfl, fun _ hp => nomatch hp⟩
  | missing hnone =>
    have hsome := hheld _ (htodo _ List.mem_cons_self)
    rw [← harchive, hnone] at hsome
    cases hsome
  | @restore state rel todo content hcontent =>
    have hfile : (v.restored rel content).content = content := by
      obtain ⟨f, hf, -, heq⟩ | heq := v.restored_cases rel content
      · obtain ⟨-, hf, -⟩ := hfiles rel f hf
        rw [← harchive, hcontent] at hf
        rw [heq, Option.some.inj hf]
      · rw [heq]
    refine ⟨harchive, hheld, fun r hr => htodo r (List.mem_cons_of_mem _ hr), fun r f hf => ?_, fun r hr => ?_,
      rfl, fun _ hp => nomatch hp⟩
    · obtain ⟨rfl, hself⟩ | ⟨hrel, hother⟩ := update_eq_some hf
      · obtain rfl := Option.some.inj hself
        refine ⟨htodo r List.mem_cons_self, ?_, ?_⟩
        · rw [hfile, ← harchive, hcontent]
        · simp only [Machine.restoredRecord, Function.update_self]
      · simpa only [Machine.restoredRecord, Function.update_of_ne hrel] using hfiles r f hother
    · by_cases hrel : r = rel
      · subst hrel
        simp only [Function.update_self, Option.isSome_some, true_or]
      · simp only [Function.update_of_ne hrel]
        obtain hdone | hpending := hcovered r hr
        · exact .inl hdone
        · exact .inr ((List.mem_cons.mp hpending).resolve_left hrel)

/-- A restore onto a new disk gives the archive back, and records every file as its own. -/
theorem restore_ends {back : List Path} (hback : ∀ rel, rel ∈ back ↔ (m.archive rel).isSome) :
    ∃ m', Ends (Machine.alone settle) { m.lost with process := .restoring (m.lost.pass exclude true back) } m' ∧
      m'.process = .down ∧ m'.archive = m.archive ∧
      (∀ rel, (m'.tree rel).map File.content = if listed exclude rel then m.archive rel else none) ∧
      ∀ rel f, m'.tree rel = some f → m'.record rel = some f.key := by
  have hstart : Restoring m.archive (back.filter (listed exclude))
      { m.lost with process := .restoring (m.lost.pass exclude true back) } :=
    ⟨rfl, fun rel hrel => (hback rel).mp (List.mem_filter.mp hrel).1, fun _ hrel => hrel,
      (fun _ _ hf => nomatch hf),
      fun _ hrel => .inr hrel, rfl, fun _ hp => nomatch hp⟩
  have hkeeps : ∀ a b, Restoring m.archive (back.filter (listed exclude)) a → a.next settle [] = some b →
      Restoring m.archive (back.filter (listed exclude)) b := fun _ _ => Restoring.next
  obtain ⟨m', hends, hm', hdown⟩ := ends_of_next hkeeps hstart
  refine ⟨m', hends, hdown, hm'.archive, fun rel => ?_, fun rel f hf => ?_⟩
  · cases hf : m'.tree rel with
    | some f =>
      obtain ⟨hrel, harchive, -⟩ := hm'.files rel f hf
      rw [if_pos (List.mem_filter.mp hrel).2, harchive]
      rfl
    | none =>
      split_ifs with hlisted
      · cases harchive : m.archive rel with
        | none => rfl
        | some content =>
          have hrel : rel ∈ back.filter (listed exclude) :=
            List.mem_filter.mpr ⟨(hback rel).mpr (by rw [harchive]; rfl), hlisted⟩
          obtain hsome | hpending := hm'.covered rel hrel
          · rw [hf] at hsome
            cases hsome
          · rw [hdown] at hpending
            cases hpending
      · rfl
  · obtain ⟨-, -, hrecord⟩ := hm'.files rel f hf
    rwa [Machine.restoredRecord, hdown] at hrecord

/-! ## The pass after a restore -/

/-- The volumes between the steps of a pass that finds everything recorded. -/
theorem idle_of_recorded {walk : List Path} {ns : Nat}
    (hrecord : ∀ rel f, m.tree rel = some f → m.record rel = some f.key)
    (hrun : Relation.ReflTransGen (fun a b : Machine => ∃ torn, a.next settle torn = some b)
      { m with now := m.now + ns, process := .walking (m.pass exclude true walk) } m') :
    m'.toVolumes = { m.toVolumes with now := m.now + ns } ∧
      (m'.process = .down ∨ ∃ todo, m'.process = .walking ⟨m.record, todo⟩) := by
  induction hrun with
  | refl => exact ⟨rfl, .inr ⟨_, rfl⟩⟩
  | @tail a b _ hlast ih =>
    obtain ⟨torn, hnext⟩ := hlast
    obtain ⟨hvolumes, hprocess⟩ := ih
    obtain ⟨v, process⟩ := a
    dsimp only at hvolumes hprocess
    subst hvolumes
    obtain rfl | ⟨todo, rfl⟩ := hprocess
    · cases hnext
    · cases moves_of_next hnext with
      | finish => exact ⟨rfl, .inl rfl⟩
      | gone _ => exact ⟨rfl, .inr ⟨_, rfl⟩⟩
      | skip _ _ => exact ⟨rfl, .inr ⟨_, rfl⟩⟩
      | look hf hnew _ => exact absurd (hrecord _ _ hf) hnew

/-! ## The round trip -/

/-- What comes of an act where the process it starts is left alone. -/
def After (settle : Nat) (exclude : String → Bool) (m : Machine) (a : Act) (m' : Machine) : Prop :=
  ∃ s, m.Allows a ∧ act settle exclude m a = some s ∧ Ends (Machine.alone settle) s m'

/-- In every run: once the tree has settled, an undisturbed pass leaves every file in the archive; when
the disk is lost after it, a restore onto a new disk gives the archive back, every file of the tree with
it, and the next pass copies nothing. -/
theorem backup_restores (hsettle : 0 < settle) (hm : (mirror settle exclude).Reachable m)
    (hdown : m.process = .down)
    (hquiet : ∀ rel f, m.tree rel = some f → f.mtime_ns + settle ≤ m.now)
    (hwalk : ∀ rel f, m.tree rel = some f → listed exclude rel = true → rel ∈ walk) :
    ∃ m₁, After settle exclude m (.sync true walk) m₁ ∧
      (∀ rel f, m.tree rel = some f → listed exclude rel = true → m₁.archive rel = some f.content) ∧
      ∀ back, (∀ rel, rel ∈ back ↔ (m₁.archive rel).isSome) →
        ∃ m₂, After settle exclude m₁.lost (.restore true back) m₂ ∧
          (∀ rel, (m₂.tree rel).map File.content = if listed exclude rel then m₁.archive rel else none) ∧
          ∀ ns again s m₃, act settle exclude { m₂ with now := m₂.now + ns } (.sync true again) = some s →
            Relation.ReflTransGen (fun a b : Machine => ∃ torn, a.next settle torn = some b) s m₃ →
              m₃.archive = m₁.archive ∧ (m₃.process = .down ∨ ∃ p, m₃.process = .walking p) := by
  have hinv := inv_of_reachable hsettle hm
  obtain ⟨m₁, hends₁, -, -, harchive₁⟩ := sync_ends hsettle hinv hquiet walk
  have hsync : act settle exclude m (.sync true walk) = some
    { m with process := .walking (m.pass exclude true walk) } := by
    simp only [act, hdown]
  refine ⟨m₁, ⟨_, trivial, hsync, hends₁⟩, fun rel f hf hlisted => ?_, fun back hback => ?_⟩
  · exact harchive₁ rel (hwalk rel f hf hlisted) hlisted f hf
  · obtain ⟨m₂, hends₂, hdown₂, harchive₂, htree₂, hrecord₂⟩ := restore_ends hback
    have hallows : m₁.lost.Allows (.restore true back) := by
      intro rel f content hf
      cases hf
    refine ⟨m₂, ⟨_, hallows, rfl, hends₂⟩, htree₂, fun ns again s m₃ hs hrun => ?_⟩
    have hstart : s = { m₂ with now := m₂.now + ns, process := .walking (m₂.pass exclude true again) } := by
      simp only [act, hdown₂] at hs
      exact (Option.some.inj hs).symm
    subst hstart
    obtain ⟨hvolumes, hprocess⟩ := idle_of_recorded hrecord₂ hrun
    have harchive₃ : m₃.archive = m₁.archive := by
      rw [hvolumes]
      exact harchive₂
    obtain hdown₃ | ⟨todo, hwalking⟩ := hprocess
    · exact ⟨harchive₃, .inl hdown₃⟩
    · exact ⟨harchive₃, .inr ⟨_, hwalking⟩⟩

/-- A container with one file of results, two minutes old. -/
def container : Machine :=
  ⟨⟨Function.update (fun _ => none) ["qb_wild.json"] (some ⟨[1, 2], 0⟩), fun _ => none, none, 120⟩, .down⟩

/-- The container once a pass has copied the file. -/
def copied : Machine :=
  ⟨⟨Function.update (fun _ => none) ["qb_wild.json"] (some ⟨[1, 2], 0⟩),
    Function.update (fun _ => none) ["qb_wild.json"] (some [1, 2]),
    some (Function.update (fun _ => none) ["qb_wild.json"] (some ⟨2, 0⟩)), 120⟩, .down⟩

/-- The file comes back onto a new disk. -/
theorem container_restores :
    ∃ m₁ m₂, After 120 (fun _ => false) container (.sync true [["qb_wild.json"]]) m₁ ∧
      After 120 (fun _ => false) m₁.lost (.restore true [["qb_wild.json"]]) m₂ ∧
      (m₂.tree ["qb_wild.json"]).map File.content = some [1, 2] := by
  have hfile : ∀ rel f, container.tree rel = some f → rel = ["qb_wild.json"] ∧ f = ⟨[1, 2], 0⟩ := by
    intro rel f hf
    by_cases hrel : rel = ["qb_wild.json"]
    · subst hrel
      exact ⟨rfl, (Option.some.inj hf).symm⟩
    · simp [container, hrel] at hf
  have hm : (mirror 120 fun _ => false).Reachable container := by
    refine ⟨container, ⟨rfl, rfl, fun rel f hf => ?_⟩, .refl⟩
    obtain ⟨-, rfl⟩ := hfile rel f hf
    exact Nat.zero_le _
  have hquiet : ∀ rel f, container.tree rel = some f → f.mtime_ns + 120 ≤ container.now := by
    intro rel f hf
    obtain ⟨-, rfl⟩ := hfile rel f hf
    decide
  have hwalk : ∀ rel f, container.tree rel = some f → listed (fun _ => false) rel = true →
      rel ∈ [["qb_wild.json"]] := by
    intro rel f hf _
    obtain ⟨rfl, -⟩ := hfile rel f hf
    exact List.mem_cons_self
  obtain ⟨m₁, hafter₁, -, hrestore⟩ := backup_restores (by decide) hm rfl hquiet hwalk
  -- the pass ends in one way
  obtain rfl : m₁ = copied := by
    obtain ⟨s, -, hact, hends⟩ := hafter₁
    obtain rfl := Option.some.inj hact
    exact hends.unique ⟨6, rfl⟩
  have hback : ∀ rel, rel ∈ [["qb_wild.json"]] ↔ (copied.archive rel).isSome := by
    intro rel
    by_cases hrel : rel = ["qb_wild.json"] <;> simp [hrel, copied]
  obtain ⟨m₂, hafter₂, htree, -⟩ := hrestore _ hback
  exact ⟨copied, m₂, hafter₁, hafter₂, (htree _).trans rfl⟩

end VllmExl3.SyncOutputs
