/-
# VllmExl3.Bench.FreezeTune — freezing the autotune cache (`bench/run.py`)

`cmd_freeze_tune` runs the entries of a tier one after the other, each in child processes that leave the
shared blob as they please, and copies what is there at the end over the fixture. After an entry whose
capture succeeded it compares the records with those before that entry and refuses to freeze a blob that
lost one. After an entry whose capture failed it compares nothing, so what such an entry drops is gone
unless a later one brings it back (`freezeTune_keeps_iff`).
-/
import VllmExl3.Bench.TuneBlob
import Mathlib.Data.Finset.Card

namespace VllmExl3.Bench

/-! ## The code -/

/-- The blob; `none` where there is no such file. -/
abbrev Blob := Option Bytes

/-- An entry of a tier, as far as freezing reads it. -/
structure Entry where
  name : String
  known_broken : Option String
  deriving DecidableEq

/-- `if e.known_broken` -/
def Entry.isBroken (e : Entry) : Bool := e.known_broken.any fun reason => reason ≠ ""

/-- How `run_entry` ends: it returns, it raises `SystemExit` as a capture that fails does, or something else
is raised in it, such as a timeout. -/
inductive Ending where
  | captured
  | systemExit (text : String)
  | raised (text : String)
  deriving DecidableEq

/-- The child runs of an entry: what the warmup and the measured run make of the blob, and how they end. -/
structure ChildRuns where
  warmup : Blob → Blob
  measured : Blob → Blob
  ending : Ending

/-- The blob that `run_entry` leaves. -/
def ChildRuns.left (runs : ChildRuns) (blob : Blob) : Blob := runs.measured (runs.warmup blob)

/-- What the command comes to: it freezes a blob, finds none, refuses one that lost records during an entry,
or lets an exception through. -/
inductive Outcome where
  | froze (fixture : Bytes)
  | nothing
  | vanished (lost : Nat) (entry : String)
  | raised (text : String)
  deriving DecidableEq

/-- What the command returns. -/
def Outcome.code : Outcome → Option Nat
  | .froze _ => some 0
  | .nothing => some 1
  | .vanished _ _ => some 1
  | .raised _ => none

/-- The loop over the entries and what comes after it, with fuel for each reading of the blob. -/
def freezeLoop (fuel : Nat) : List (Entry × ChildRuns) → Blob → Option Outcome
  | [], none => some .nothing
  | [], some blob => some (.froze blob)
  | (e, runs) :: rest, blob =>
    if e.isBroken then freezeLoop fuel rest blob
    else match blobKeys fuel blob with
      | none => none
      | some (.error err) => some (.raised err.text)
      | some (.ok before) =>
        match runs.ending with
        | .raised text => some (.raised text)
        | .systemExit _ => freezeLoop fuel rest (runs.left blob)
        | .captured =>
          match blobKeys fuel (runs.left blob) with
          | none => none
          | some (.error err) => some (.raised err.text)
          | some (.ok after) =>
            let lost := before \ after
            if lost.Nonempty then some (.vanished lost.card e.name)
            else freezeLoop fuel rest (runs.left blob)

/-- `cmd_freeze_tune`: the caches are a new temporary directory. -/
def freezeTune (fuel : Nat) (entries : List (Entry × ChildRuns)) : Option Outcome :=
  freezeLoop fuel entries none

/-! ## Records -/

/-- `_blob_keys` would read this key. -/
def HasKey (blob : Blob) (key : Nat) : Prop := ∃ keys, Reads blob keys ∧ key ∈ keys

/-- The blobs after each entry that ran, in order. -/
def blobsAfter : List (Entry × ChildRuns) → Blob → List Blob
  | [], _ => []
  | (e, runs) :: rest, blob =>
    if e.isBroken then blobsAfter rest blob
    else runs.left blob :: blobsAfter rest (runs.left blob)

/-- The entries whose capture failed: the blob before each, and the blob it left. -/
def failures : List (Entry × ChildRuns) → Blob → List (Blob × Blob)
  | [], _ => []
  | (e, runs) :: rest, blob =>
    if e.isBroken then failures rest blob
    else match runs.ending with
      | .systemExit _ => (blob, runs.left blob) :: failures rest (runs.left blob)
      | _ => failures rest (runs.left blob)

/-- The blob that the last entry leaves. -/
def finalBlob : List (Entry × ChildRuns) → Blob → Blob
  | [], blob => blob
  | (e, runs) :: rest, blob =>
    if e.isBroken then finalBlob rest blob else finalBlob rest (runs.left blob)

/-- The command returns 0 with this fixture. -/
def Freezes (entries : List (Entry × ChildRuns)) (fixture : Bytes) : Prop :=
  ∃ fuel, freezeTune fuel entries = some (.froze fixture)

/-- Every record that was there after some entry is in the fixture. -/
def KeepsRecords (entries : List (Entry × ChildRuns)) (fixture : Bytes) : Prop :=
  ∀ left ∈ blobsAfter entries none, ∀ key, HasKey left key → HasKey (some fixture) key

/-- What the failing entries drop is there again in the end. -/
def RestoresDropped (entries : List (Entry × ChildRuns)) : Prop :=
  ∀ p ∈ failures entries none, ∀ key, HasKey p.1 key → ¬ HasKey p.2 key →
    HasKey (finalBlob entries none) key

variable {entries rest : List (Entry × ChildRuns)} {e : Entry} {runs : ChildRuns} {blob : Blob}
  {fixture : Bytes} {fuel key : Nat}

theorem not_hasKey_none : ¬ HasKey none key := by
  rintro ⟨keys, ⟨fuel, hreads⟩, hkey⟩
  obtain rfl := Except.ok.inj (Option.some.inj hreads)
  simp at hkey

/-! ## Rounds -/

/-- A round on the way to a fixture: a capture that succeeded lost nothing, one that failed is passed over. -/
theorem freezeLoop_cons (h : freezeLoop fuel ((e, runs) :: rest) blob = some (.froze fixture))
    (hbroken : e.isBroken = false) : freezeLoop fuel rest (runs.left blob) = some (.froze fixture) ∧
      ((runs.ending = .captured ∧ ∀ key, HasKey blob key → HasKey (runs.left blob) key) ∨
        ∃ text, runs.ending = .systemExit text) := by
  rw [freezeLoop, if_neg (by rw [hbroken]; decide)] at h
  rcases hbefore : blobKeys fuel blob with _ | _ | before
  · rw [hbefore] at h
    cases h
  · rw [hbefore] at h
    cases h
  rw [hbefore] at h
  cases hending : runs.ending with
  | raised text =>
    rw [hending] at h
    cases h
  | systemExit text =>
    rw [hending] at h
    exact ⟨h, .inr ⟨text, rfl⟩⟩
  | captured =>
    rw [hending] at h
    rcases hafter : blobKeys fuel (runs.left blob) with _ | _ | after
    · rw [hafter] at h
      cases h
    · rw [hafter] at h
      cases h
    rw [hafter] at h
    dsimp only at h
    by_cases hlost : (before \ after).Nonempty
    · rw [if_pos hlost] at h
      cases h
    rw [if_neg hlost] at h
    have hsub : before ⊆ after :=
      Finset.sdiff_eq_empty_iff_subset.mp (Finset.not_nonempty_iff_eq_empty.mp hlost)
    refine ⟨h, .inl ⟨rfl, ?_⟩⟩
    rintro key ⟨keys, hreads, hkey⟩
    obtain rfl := hreads.unique ⟨fuel, hbefore⟩
    exact ⟨after, ⟨fuel, hafter⟩, hsub hkey⟩

/-- After the last entry the blob itself is frozen. -/
theorem freezeLoop_nil (h : freezeLoop fuel [] blob = some (.froze fixture)) : blob = some fixture := by
  cases blob with
  | none => cases h
  | some b =>
    rw [freezeLoop, Option.some.injEq, Outcome.froze.injEq] at h
    rw [h]

/-- What is frozen is what the last entry left. -/
theorem freezeLoop_final (h : freezeLoop fuel entries blob = some (.froze fixture)) :
    finalBlob entries blob = some fixture := by
  induction entries generalizing blob with
  | nil => exact freezeLoop_nil h
  | cons p rest ih =>
    obtain ⟨e, runs⟩ := p
    cases hbroken : e.isBroken with
    | true =>
      rw [freezeLoop, if_pos hbroken] at h
      rw [finalBlob, if_pos hbroken]
      exact ih h
    | false =>
      rw [finalBlob, if_neg (by rw [hbroken]; decide)]
      exact ih (freezeLoop_cons h hbroken).1

/-- Where the fixture has back what the failing entries dropped, it has every record that was there from
some entry on. -/
theorem freezeLoop_keeps (h : freezeLoop fuel entries blob = some (.froze fixture))
    (hback : ∀ p ∈ failures entries blob, ∀ key, HasKey p.1 key → ¬ HasKey p.2 key →
      HasKey (some fixture) key) :
    ∀ left ∈ blob :: blobsAfter entries blob, ∀ key, HasKey left key → HasKey (some fixture) key := by
  induction entries generalizing blob with
  | nil =>
    intro left hleft key hkey
    obtain rfl : left = blob := List.mem_singleton.mp hleft
    rwa [freezeLoop_nil h] at hkey
  | cons p rest ih =>
    obtain ⟨e, runs⟩ := p
    cases hbroken : e.isBroken with
    | true =>
      rw [freezeLoop, if_pos hbroken] at h
      rw [failures, if_pos hbroken] at hback
      rw [blobsAfter, if_pos hbroken]
      exact ih h hback
    | false =>
      have hrun : ¬ e.isBroken = true := by rw [hbroken]; decide
      obtain ⟨hnext, hround⟩ := freezeLoop_cons h hbroken
      rw [failures, if_neg hrun] at hback
      rw [blobsAfter, if_neg hrun]
      rcases hround with ⟨hending, hkeep⟩ | ⟨text, hending⟩
      · rw [hending] at hback
        have hlater := ih hnext hback
        intro left hleft
        rcases List.mem_cons.mp hleft with rfl | hleft
        · exact fun key hkey => hlater _ List.mem_cons_self key (hkeep key hkey)
        · exact hlater left hleft
      · rw [hending] at hback
        have hlater := ih hnext fun p hp => hback p (List.mem_cons_of_mem _ hp)
        intro left hleft
        rcases List.mem_cons.mp hleft with rfl | hleft
        · intro key hkey
          by_cases hthere : HasKey (runs.left left) key
          · exact hlater _ List.mem_cons_self key hthere
          · exact hback _ List.mem_cons_self key hkey hthere
        · exact hlater left hleft

/-- A failing entry found the blob as an earlier one had left it, or none. -/
theorem fst_of_mem_failures {p : Blob × Blob} (h : p ∈ failures entries blob) :
    p.1 = blob ∨ p.1 ∈ blobsAfter entries blob := by
  induction entries generalizing blob with
  | nil => cases h
  | cons entry rest ih =>
    obtain ⟨e, runs⟩ := entry
    rw [failures] at h
    rw [blobsAfter]
    by_cases hbroken : e.isBroken = true
    · rw [if_pos hbroken] at h ⊢
      exact ih h
    · rw [if_neg hbroken] at h ⊢
      have hlater : p ∈ failures rest (runs.left blob) → p.1 = blob ∨
          p.1 ∈ runs.left blob :: blobsAfter rest (runs.left blob) := by
        intro hp
        rcases ih hp with hleft | hmem
        · exact .inr (List.mem_cons.mpr (.inl hleft))
        · exact .inr (List.mem_cons_of_mem _ hmem)
      cases hending : runs.ending with
      | systemExit text =>
        rw [hending] at h
        rcases List.mem_cons.mp h with rfl | hp
        · exact .inl rfl
        · exact hlater hp
      | captured =>
        rw [hending] at h
        exact hlater h
      | raised text =>
        rw [hending] at h
        exact hlater h

/-- **When freezing loses no record.** -/
theorem freezeTune_keeps_iff (h : Freezes entries fixture) :
    KeepsRecords entries fixture ↔ RestoresDropped entries := by
  obtain ⟨fuel, hrun⟩ := h
  have hfinal := freezeLoop_final hrun
  rw [RestoresDropped, hfinal]
  constructor
  · intro hkeeps p hp key hkey _
    rcases fst_of_mem_failures hp with hnone | hmem
    · rw [hnone] at hkey
      exact absurd hkey not_hasKey_none
    · exact hkeeps _ hmem key hkey
  · intro hback left hleft
    exact freezeLoop_keeps hrun hback left (List.mem_cons_of_mem _ hleft)

/-! ## An entry that fails -/

/-- A blob of records of eight bytes: the header, and a record for each byte. -/
def smallBlob (records : List UInt8) : Bytes :=
  List.replicate 8 69 ++ [1, 0, 0, 0, 8, 0, 0, 0] ++ records.flatMap (List.replicate 8)

/-- An entry that tunes one record, and then one whose capture fails and leaves these. -/
def failingRun (records : List UInt8) : List (Entry × ChildRuns) :=
  [(⟨"qwen3-0.6b", none⟩, ⟨fun _ => some (smallBlob [1]), id, .captured⟩),
    (⟨"qwen3-moe", none⟩, ⟨id, fun _ => some (smallBlob records), .systemExit "capture failed"⟩)]

/-- After such a failure, an entry that tunes the record again. -/
def retunedRun : List (Entry × ChildRuns) :=
  failingRun [] ++ [(⟨"qwen3-4b", none⟩, ⟨id, fun _ => some (smallBlob [1]), .captured⟩)]

/-- What the failing entry dropped is frozen all the same. -/
theorem retunedRun_keeps : Freezes retunedRun (smallBlob [1]) ∧
    KeepsRecords retunedRun (smallBlob [1]) := by
  have hfreezes : Freezes retunedRun (smallBlob [1]) := ⟨3, by decide⟩
  refine ⟨hfreezes, (freezeTune_keeps_iff hfreezes).mpr fun p hp key hkey _ => ?_⟩
  obtain rfl : p = (some (smallBlob [1]), some (smallBlob [])) := List.mem_singleton.mp hp
  exact hkey

/-- An entry that fails deletes the record that the one before it had tuned, and the rest is frozen. -/
theorem failingRun_loses : Freezes (failingRun []) (smallBlob []) ∧
    ¬ KeepsRecords (failingRun []) (smallBlob []) := by
  have hfixture : Reads (some (smallBlob [])) ∅ := ⟨1, by decide⟩
  have hone : HasKey (some (smallBlob [1])) (leNat (List.replicate 8 1)) :=
    ⟨{leNat (List.replicate 8 1)}, ⟨2, by decide⟩, Finset.mem_singleton_self _⟩
  refine ⟨⟨2, by decide⟩, fun hkeeps => ?_⟩
  obtain ⟨keys, hreads, hkey⟩ := hkeeps (some (smallBlob [1])) List.mem_cons_self _ hone
  obtain rfl := hreads.unique hfixture
  exact absurd hkey (Finset.notMem_empty _)

end VllmExl3.Bench
