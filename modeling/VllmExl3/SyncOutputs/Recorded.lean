/-
# VllmExl3.SyncOutputs.Recorded — what the record says is archived is archived

A pass trusts the record: a file whose stat is its recorded one is skipped. Whatever the workload, crashes and
restores do, a record that is a file's own says that the archive holds its content, and this rests on
the settling time: a file is recorded at the stat it had before its copy, and a write after that stat
has to have a later mtime (`recorded_iff`).

The invariant says where a copy stands against the file: since the pass looked, the file is either as it was or
newer than everything recorded.
-/
import Mathlib.Order.Basic
import Mathlib.Tactic.SplitIfs
import VllmExl3.Lib.Reach
import VllmExl3.SyncOutputs.Model

namespace VllmExl3.SyncOutputs

/-! ## The system -/

/-- No file has the size of its archived copy and another content. -/
def Volumes.Restorable (v : Volumes) : Prop :=
  ∀ rel f content, v.tree rel = some f → v.archive rel = some content →
    f.content.length = content.length → f.content = content

/-- `restore` is for a tree that does not differ from the archive at the same size: a new disk, or what an
interrupted restore left. -/
def Machine.Allows (m : Machine) : Act → Prop
  | .restore _ _ => m.Restorable
  | _ => True

/-- The runs of a container with a working tree, its archive and the process between them. -/
def mirror (settle : Nat) (exclude : String → Bool) : System Machine where
  init m := m.process = .down ∧ m.saved = none ∧ ∀ rel f, m.tree rel = some f → f.mtime_ns ≤ m.now
  step m m' := ∃ a, m.Allows a ∧ act settle exclude m a = some m'

/-- A key of this record that is a file's own says that the archive holds the file's content. -/
def Volumes.Truthful (v : Volumes) (state : Record) : Prop :=
  ∀ rel key f, state rel = some key → v.tree rel = some f → f.key = key → v.archive rel = some f.content

/-! ## The invariant -/

/-- Everything recorded is of a time before `t`. -/
def Record.Before (state : Record) (t : Nat) : Prop := ∀ rel key, state rel = some key → key.mtime_ns < t

/-- What is recorded here is recorded there. -/
def Record.Within (state whole : Record) : Prop := ∀ rel key, state rel = some key → whole rel = some key

/-- Where the file a pass is at stands: as it was when the pass looked, or newer than everything recorded. -/
structure Volumes.At (v : Volumes) (c : Copying) : Prop where
  settled : c.key.mtime_ns < c.since
  looked : c.since ≤ v.now
  recorded : v.record.Before c.since
  changed : ∀ f, v.tree c.rel = some f → f.key = c.key ∨ c.since ≤ f.mtime_ns

/-- What holds of the process. -/
def Process.Working (v : Volumes) : Process → Prop
  | .down => True
  | .walking p => p.state.Within v.record
  | .reading p c => p.state.Within v.record ∧ v.At c
  | .staged p c content => p.state.Within v.record ∧ v.At c ∧
      ∀ f, v.tree c.rel = some f → f.key = c.key → content = f.content
  | .placed p c => p.state.Within v.record ∧ v.At c ∧
      ∀ f, v.tree c.rel = some f → f.key = c.key → v.archive c.rel = some f.content
  | .restoring p => v.Restorable ∧ v.Truthful p.state ∧ p.state.Before (v.now + 1)

/-- What holds of the volumes. -/
structure Volumes.Sound (v : Volumes) : Prop where
  past : ∀ rel f, v.tree rel = some f → f.mtime_ns ≤ v.now
  truthful : v.Truthful v.record
  before : v.record.Before v.now

structure Machine.Inv (m : Machine) : Prop where
  sound : m.Sound
  working : m.process.Working m.toVolumes

variable {settle : Nat} {exclude : String → Bool} {v : Volumes} {m m' : Machine} {state whole : Record}
    {t u : Nat}

theorem Record.Before.mono (h : state.Before t) (htu : t ≤ u) : state.Before u :=
  fun rel key hkey => Nat.lt_of_lt_of_le (h rel key hkey) htu

theorem Record.Within.before (h : state.Within whole) (hwhole : whole.Before t) : state.Before t :=
  fun rel key hkey => hwhole rel key (h rel key hkey)

theorem Record.Within.truthful (h : state.Within whole) (hwhole : v.Truthful whole) : v.Truthful state :=
  fun rel key f hkey => hwhole rel key f (h rel key hkey)

theorem Record.Within.refl (state : Record) : state.Within state := fun _ _ h => h

theorem read_within (v : Volumes) (readable : Bool) : (v.read readable).Within v.record := by
  cases readable with
  | true => exact .refl _
  | false => exact fun _ _ h => nomatch h

/-- What is found after one path has been set: what was set there, or what was found elsewhere. -/
theorem update_eq_some {α : Type} {g : Path → Option α} {rel r : Path} {x : Option α} {y : α}
    (h : Function.update g rel x r = some y) : (r = rel ∧ x = some y) ∨ (r ≠ rel ∧ g r = some y) := by
  by_cases hr : r = rel
  · rw [hr, Function.update_self] at h
    exact .inl ⟨hr, h⟩
  · rw [Function.update_of_ne hr] at h
    exact .inr ⟨hr, h⟩

/-! ## What the workload and the clock keep -/

/-- A file at the time of a write is none that is recorded. -/
theorem Volumes.At.fresh {c : Copying} {f : File} (h : v.At c) (hf : f.mtime_ns = v.now) : f.key ≠ c.key := by
  intro heq
  have hmtime : f.mtime_ns = c.key.mtime_ns := congrArg Key.mtime_ns heq
  have hsettled := h.settled
  have hlooked := h.looked
  omega

/-- Time passes. -/
theorem Machine.Inv.tick (h : m.Inv) (ns : Nat) : ({ m with now := m.now + ns } : Machine).Inv := by
  have hlater : m.now ≤ m.now + ns := Nat.le_add_right _ _
  have hat : ∀ c, m.At c → ({ m.toVolumes with now := m.now + ns } : Volumes).At c := fun c hc =>
    ⟨hc.settled, Nat.le_trans hc.looked hlater, hc.recorded, hc.changed⟩
  refine ⟨⟨fun rel f hf => Nat.le_trans (h.sound.past rel f hf) hlater, h.sound.truthful,
    h.sound.before.mono hlater⟩, ?_⟩
  have hworking := h.working
  revert hworking
  cases m.process with
  | down => exact id
  | walking p => exact id
  | reading p c => exact fun ⟨hwithin, hc⟩ => ⟨hwithin, hat c hc⟩
  | staged p c content => exact fun ⟨hwithin, hc, hread⟩ => ⟨hwithin, hat c hc, hread⟩
  | placed p c => exact fun ⟨hwithin, hc, hcopied⟩ => ⟨hwithin, hat c hc, hcopied⟩
  | restoring p => exact fun ⟨hrest, htrue, hbefore⟩ => ⟨hrest, htrue, hbefore.mono (Nat.succ_le_succ hlater)⟩

/-- The workload moves: what is new in the tree is of now. -/
theorem Machine.Inv.moves (h : m.Inv) (hprocess : m.process.isRestoring = false) {tree : Path → Option File}
    (hnew : ∀ rel f, tree rel = some f → m.tree rel = some f ∨ f.mtime_ns = m.now) :
    ({ m with tree := tree } : Machine).Inv := by
  have hat : ∀ c, m.At c → ({ m.toVolumes with tree := tree } : Volumes).At c := by
    intro c hc
    refine ⟨hc.settled, hc.looked, hc.recorded, fun f hf => ?_⟩
    obtain hold | hnow := hnew _ f hf
    · exact hc.changed f hold
    · exact .inr (hnow ▸ hc.looked)
  constructor
  · refine ⟨fun rel f hf => ?_, fun rel key f hkey hf heq => ?_, h.sound.before⟩
    · obtain hold | hnow := hnew rel f hf
      · exact h.sound.past rel f hold
      · exact Nat.le_of_eq hnow
    · obtain hold | hnow := hnew rel f hf
      · exact h.sound.truthful rel key f hkey hold heq
      · have hbefore := h.sound.before rel key hkey
        rw [← heq] at hbefore
        exact absurd hnow (Nat.ne_of_lt hbefore)
  · have hworking := h.working
    revert hworking hprocess
    show _ → m.process.Working _ → m.process.Working _
    cases m.process with
    | down => exact fun _ => id
    | walking p => exact fun _ => id
    | reading p c => exact fun _ ⟨hwithin, hc⟩ => ⟨hwithin, hat c hc⟩
    | staged p c content =>
      rintro - ⟨hwithin, hc, hread⟩
      refine ⟨hwithin, hat c hc, fun f hf heq => ?_⟩
      obtain hold | hnow := hnew _ f hf
      · exact hread f hold heq
      · exact absurd heq (hc.fresh hnow)
    | placed p c =>
      rintro - ⟨hwithin, hc, hcopied⟩
      refine ⟨hwithin, hat c hc, fun f hf heq => ?_⟩
      obtain hold | hnow := hnew _ f hf
      · exact hcopied f hold heq
      · exact absurd heq (hc.fresh hnow)
    | restoring p => exact fun hprocess => nomatch hprocess

/-! ## What a pass keeps -/

/-- The file gets its real name: the record of its own key has to be of another time. -/
theorem Volumes.Sound.place {c : Copying} {content : Content} (h : v.Sound) (hc : v.At c)
    (hread : ∀ f, v.tree c.rel = some f → f.key = c.key → content = f.content) :
    ({ v with archive := Function.update v.archive c.rel (some content) } : Volumes).Sound := by
  refine ⟨h.past, fun rel key f hkey hf heq => ?_, h.before⟩
  by_cases hrel : rel = c.rel
  · subst hrel
    obtain hsame | hnewer := hc.changed f hf
    · simp only [Function.update_self, hread f hf hsame]
    · -- a file changed since the pass looked is newer than everything recorded
      have hrecorded := hc.recorded c.rel key hkey
      rw [← heq] at hrecorded
      exact absurd hnewer (Nat.not_le_of_lt hrecorded)
  · simp only [Function.update_of_ne hrel]
    exact h.truthful rel key f hkey hf heq

/-- The key the pass saw is recorded, where it is still the file's. -/
theorem Volumes.Sound.record {c : Copying} (h : v.Sound) (hwithin : state.Within v.record) (hc : v.At c)
    (hcopied : ∀ f, v.tree c.rel = some f → f.key = c.key → v.archive c.rel = some f.content) :
    ({ v with saved := some (Function.update state c.rel (some c.key)) } : Volumes).Sound := by
  have hcases : ∀ rel key, Function.update state c.rel (some c.key) rel = some key →
      (rel = c.rel ∧ key = c.key) ∨ v.record rel = some key := by
    intro rel key hkey
    obtain ⟨hrel, hself⟩ | ⟨-, hother⟩ := update_eq_some hkey
    · exact .inl ⟨hrel, (Option.some.inj hself).symm⟩
    · exact .inr (hwithin rel key hother)
  refine ⟨h.past, fun rel key f hkey hf heq => ?_, fun rel key hkey => ?_⟩
  · obtain ⟨rfl, rfl⟩ | hold := hcases rel key hkey
    · exact hcopied f hf heq
    · exact h.truthful rel key f hold hf heq
  · obtain ⟨rfl, rfl⟩ | hold := hcases rel key hkey
    · exact Nat.lt_of_lt_of_le hc.settled hc.looked
    · exact h.before rel key hold

theorem Volumes.restored_cases (v : Volumes) (rel : Path) (content : Content) :
    (∃ f, v.tree rel = some f ∧ f.content.length = content.length ∧ v.restored rel content = f) ∨
      v.restored rel content = ⟨content, v.now⟩ := by
  cases hf : v.tree rel with
  | none => exact .inr (by simp [restored, hf])
  | some f =>
    by_cases hsize : f.content.length = content.length
    · exact .inl ⟨f, rfl, hsize, by simp [restored, hf, Option.filter, hsize]⟩
    · exact .inr (by simp [restored, hf, Option.filter, hsize])

/-- One file of a restore. -/
theorem Volumes.Sound.restore {rel : Path} {content : Content} (h : v.Sound) (hrest : v.Restorable)
    (htrue : v.Truthful state) (hbefore : state.Before (v.now + 1)) (harchive : v.archive rel = some content) :
    let v' : Volumes := { v with tree := Function.update v.tree rel (some (v.restored rel content)) }
    v'.Sound ∧ v'.Restorable ∧ v'.Truthful (Function.update state rel (some (v.restored rel content).key)) ∧
      Record.Before (Function.update state rel (some (v.restored rel content).key)) (v.now + 1) := by
  have hpast : (v.restored rel content).mtime_ns ≤ v.now := by
    obtain ⟨f, hf, -, heq⟩ | heq := v.restored_cases rel content
    · exact heq ▸ h.past rel f hf
    · exact heq ▸ Nat.le_refl _
  have hcontent : (v.restored rel content).content = content := by
    obtain ⟨f, hf, hsize, heq⟩ | heq := v.restored_cases rel content
    · exact heq ▸ hrest rel f content hf harchive hsize
    · rw [heq]
  -- a file of the new tree is the restored one, or one of the old tree elsewhere
  have hnew : ∀ r f, Function.update v.tree rel (some (v.restored rel content)) r = some f →
      (r = rel ∧ f = v.restored rel content) ∨ (r ≠ rel ∧ v.tree r = some f) := by
    intro r f hf
    obtain ⟨hr, hself⟩ | hother := update_eq_some hf
    · exact .inl ⟨hr, (Option.some.inj hself).symm⟩
    · exact .inr hother
  refine ⟨⟨fun r f hf => ?_, fun r key f hkey hf heq => ?_, h.before⟩, fun r f c hf hc hsize => ?_,
    fun r key f hkey hf heq => ?_, fun r key hkey => ?_⟩
  · obtain ⟨rfl, rfl⟩ | ⟨-, hold⟩ := hnew r f hf
    · exact hpast
    · exact h.past r f hold
  · obtain ⟨rfl, rfl⟩ | ⟨-, hold⟩ := hnew r f hf
    · rw [hcontent]
      exact harchive
    · exact h.truthful r key f hkey hold heq
  · obtain ⟨rfl, rfl⟩ | ⟨-, hold⟩ := hnew r f hf
    · rw [hcontent]
      exact Option.some.inj (harchive.symm.trans hc)
    · exact hrest r f c hold hc hsize
  · obtain ⟨rfl, rfl⟩ | ⟨hr, hold⟩ := hnew r f hf
    · rw [hcontent]
      exact harchive
    · rw [Function.update_of_ne hr] at hkey
      exact htrue r key f hkey hold heq
  · obtain ⟨-, hself⟩ | ⟨-, hother⟩ := update_eq_some hkey
    · obtain rfl := Option.some.inj hself
      exact Nat.lt_succ_of_le hpast
    · exact hbefore r key hother

/-- A pass, or a restore, takes its next step. -/
theorem Machine.Inv.next {torn : Content} (hsettle : 0 < settle) (hm : m.Inv)
    (h : m.next settle torn = some m') :
    m'.Inv := by
  obtain ⟨v, process⟩ := m
  obtain ⟨hsound, hworking⟩ := hm
  cases moves_of_next h with
  | finish => exact ⟨hsound, trivial⟩
  | gone _ => exact ⟨hsound, hworking⟩
  | skip _ _ => exact ⟨hsound, hworking⟩
  | look hf _ hsettled =>
    refine ⟨hsound, hworking, Nat.lt_of_lt_of_le (Nat.lt_add_of_pos_right hsettle) hsettled, Nat.le_refl _,
      hsound.before, fun g hg => .inl ?_⟩
    rw [Option.some.inj (hg.symm.trans hf)]
  | vanish _ => exact ⟨hsound, hworking.1⟩
  | read hf =>
    obtain ⟨hwithin, hc⟩ := hworking
    refine ⟨hsound, hwithin, hc, fun g hg heq => ?_⟩
    obtain rfl := Option.some.inj (hg.symm.trans hf)
    rw [if_pos heq]
  | place =>
    obtain ⟨hwithin, hc, hread⟩ := hworking
    refine ⟨hsound.place hc hread, hwithin, ⟨hc.settled, hc.looked, hc.recorded, hc.changed⟩,
      fun f hf heq => ?_⟩
    simp only [Function.update_self, hread f hf heq]
  | die _ => exact ⟨hsound, trivial⟩
  | record _ _ =>
    obtain ⟨hwithin, hc, hcopied⟩ := hworking
    exact ⟨hsound.record hwithin hc hcopied, .refl _⟩
  | changed _ _ => exact ⟨hsound, hworking.1⟩
  | restored =>
    obtain ⟨-, htrue, hbefore⟩ := hworking
    exact ⟨⟨fun rel f hf => Nat.le_succ_of_le (hsound.past rel f hf), htrue, hbefore⟩, trivial⟩
  | missing _ => exact ⟨hsound, trivial⟩
  | restore harchive =>
    obtain ⟨hrest, htrue, hbefore⟩ := hworking
    obtain ⟨hsound', hrest', htrue', hbefore'⟩ := hsound.restore hrest htrue hbefore harchive
    exact ⟨hsound', hrest', htrue', hbefore'⟩

/-! ## Every run -/

theorem Process.not_restoring {p : Process} (h : ¬p.isRestoring = true) : p.isRestoring = false := by
  simpa using h

theorem act_inv {a : Act} (hsettle : 0 < settle) (hm : m.Inv) (hallows : m.Allows a)
    (h : act settle exclude m a = some m') : m'.Inv := by
  cases a with
  | tick ns =>
    obtain rfl := Option.some.inj h
    exact hm.tick ns
  | write rel content =>
    simp only [act] at h
    split_ifs at h with hp
    obtain rfl := Option.some.inj h
    refine hm.moves (Process.not_restoring hp) fun r f hf => ?_
    obtain ⟨-, hself⟩ | ⟨-, hother⟩ := update_eq_some hf
    · obtain rfl := Option.some.inj hself
      exact .inr rfl
    · exact .inl hother
  | delete rel =>
    simp only [act] at h
    split_ifs at h with hp
    obtain rfl := Option.some.inj h
    refine hm.moves (Process.not_restoring hp) fun r f hf => ?_
    obtain ⟨-, hself⟩ | ⟨-, hother⟩ := update_eq_some hf
    · cases hself
    · exact .inl hother
  | sync readable walk =>
    simp only [act] at h
    split at h
    · obtain rfl := Option.some.inj h
      exact ⟨hm.sound, read_within m.toVolumes readable⟩
    · cases h
  | restore readable walk =>
    simp only [act] at h
    split at h
    · obtain rfl := Option.some.inj h
      have hwithin := read_within m.toVolumes readable
      exact ⟨hm.sound, hallows, hwithin.truthful hm.sound.truthful,
        (hwithin.before hm.sound.before).mono (Nat.le_succ _)⟩
    · cases h
  | next torn => exact hm.next hsettle h
  | fail =>
    have hworking := hm.working
    simp only [act] at h
    split at h
    · next p c hp =>
      obtain rfl := Option.some.inj h
      rw [hp] at hworking
      exact ⟨hm.sound, hworking.1⟩
    · next p c content hp =>
      obtain rfl := Option.some.inj h
      rw [hp] at hworking
      exact ⟨hm.sound, hworking.1⟩
    · cases h
  | kill truncated =>
    simp only [act] at h
    split at h
    · obtain rfl := Option.some.inj h
      cases truncated with
      | false => exact ⟨hm.sound, trivial⟩
      | true =>
        exact ⟨⟨hm.sound.past, (fun _ _ _ hkey => nomatch hkey), (fun _ _ hkey => nomatch hkey)⟩, trivial⟩
    · obtain rfl := Option.some.inj h
      exact ⟨hm.sound, trivial⟩
  | lose =>
    obtain rfl := Option.some.inj h
    exact ⟨⟨(fun _ _ hf => nomatch hf), (fun _ _ _ hkey => nomatch hkey), (fun _ _ hkey => nomatch hkey)⟩,
      trivial⟩

theorem inv_of_reachable (hsettle : 0 < settle) (h : (mirror settle exclude).Reachable m) : m.Inv := by
  refine System.invariant ?_ ?_ h
  · rintro s ⟨hdown, hsaved, hpast⟩
    have hrecord : s.record = fun _ => none := by simp [Volumes.record, hsaved]
    refine ⟨⟨hpast, ?_, ?_⟩, ?_⟩
    · rw [hrecord]
      exact fun _ _ _ hkey => nomatch hkey
    · rw [hrecord]
      exact fun _ _ hkey => nomatch hkey
    · rw [hdown]
      trivial
  · rintro s t hs ⟨a, hallows, hact⟩
    exact act_inv hsettle hs hallows hact

/-- A record a pass goes by, the one it has read or the one the next reads. -/
def Machine.Trusts (m : Machine) (state : Record) : Prop :=
  state = m.record ∨ ∃ p, m.process = .walking p ∧ state = p.state

/-- A tree of equal files that have just settled, and nothing archived. -/
def settled (settle : Nat) : Machine := ⟨⟨fun _ => some ⟨[0], 0⟩, fun _ => none, none, settle⟩, .down⟩

/-- What a pass makes of it, with one file copied. -/
def recorded (settle : Nat) (name : String) : Machine :=
  ⟨⟨fun _ => some ⟨[0], 0⟩, Function.update (fun _ => none) [name] (some [0]),
    some (Function.update (fun _ => none) [name] (some ⟨1, 0⟩)), settle⟩,
    .walking ⟨Function.update (fun _ => none) [name] (some ⟨1, 0⟩), []⟩⟩

theorem recorded_reachable {name : String} (hname : exclude name = false) :
    (mirror settle exclude).Reachable (recorded settle name) := by
  have hlisted : listed exclude [name] = true := by simp [listed, hname]
  have hlook : act settle exclude ⟨(settled settle).toVolumes, .walking ⟨fun _ => none, [[name]]⟩⟩ (.next [])
      = some ⟨(settled settle).toVolumes, .reading ⟨fun _ => none, []⟩ ⟨[name], ⟨1, 0⟩, settle⟩⟩ := by
    simp [act, Machine.next, settled, File.key]
  refine ⟨settled settle, ⟨rfl, rfl, fun _ f hf => ?_⟩, ?_⟩
  · obtain rfl := Option.some.inj hf
    exact Nat.zero_le _
  · refine .head ⟨.sync true [[name]], trivial, rfl⟩ ?_
    simp only [Volumes.pass, List.filter_cons_of_pos, hlisted, List.filter_nil]
    refine .head ⟨.next [], trivial, hlook⟩ ?_
    exact .head ⟨.next [], trivial, rfl⟩ (.head ⟨.next [], trivial, rfl⟩ (.head ⟨.next [], trivial, rfl⟩ .refl))

/-- Without a settling time a write of the same tick goes unseen. -/
theorem unseen_write {name : String} (hname : exclude name = false) :
    ∃ m, (mirror 0 exclude).Reachable m ∧ m.record [name] = some ⟨1, 0⟩ ∧ m.tree [name] = some ⟨[1], 0⟩ ∧
      m.archive [name] = some [0] := by
  have hreachable : (mirror 0 exclude).Reachable (recorded 0 name) := recorded_reachable hname
  obtain ⟨start, hstart, hrun⟩ := hreachable
  refine ⟨_, ⟨start, hstart, hrun.tail ⟨.write [name] [1], trivial, rfl⟩⟩, ?_, ?_, ?_⟩
  all_goals simp [recorded, Volumes.record]

/-- What a pass takes for archived is archived, in every run of the workload, the passes, the restores and what
interrupts them, exactly if a file has to settle for some time before it is copied. -/
theorem recorded_iff (hname : ∃ name, exclude name = false) :
    (∀ m, (mirror settle exclude).Reachable m → ∀ state, m.Trusts state → m.Truthful state) ↔ 0 < settle := by
  constructor
  · intro h
    by_contra hzero
    obtain rfl : settle = 0 := by omega
    obtain ⟨name, hname⟩ := hname
    obtain ⟨m, hm, hrecord, htree, harchive⟩ := unseen_write hname
    have hcontent := h m hm m.record (.inl rfl) [name] _ _ hrecord htree rfl
    rw [harchive] at hcontent
    cases hcontent
  · intro hsettle m hm state htrusts
    have hinv := inv_of_reachable hsettle hm
    obtain rfl | ⟨p, hp, rfl⟩ := htrusts
    · exact hinv.sound.truthful
    · have hworking := hinv.working
      rw [hp] at hworking
      exact Record.Within.truthful hworking hinv.sound.truthful

/-- The tool's own settling time: the file a pass has copied is archived as recorded. -/
theorem recorded_truthful :
    (mirror 120000000000 fun name => name = "_logit_cache").Reachable (recorded 120000000000 "qb_wild.json") ∧
      (recorded 120000000000 "qb_wild.json").record ["qb_wild.json"] = some ⟨1, 0⟩ ∧
      (recorded 120000000000 "qb_wild.json").Truthful (recorded 120000000000 "qb_wild.json").record := by
  have hm : (mirror 120000000000 fun name => name = "_logit_cache").Reachable
      (recorded 120000000000 "qb_wild.json") := recorded_reachable (by decide)
  refine ⟨hm, by simp [recorded, Volumes.record], ?_⟩
  exact (recorded_iff ⟨"qb_wild.json", by decide⟩).mpr (by decide) _ hm _ (.inl rfl)

end VllmExl3.SyncOutputs
