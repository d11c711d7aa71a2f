/-
# VllmExl3.Qbench.Parallel — scoring on several GPUs gives the serial pass's results

The parts are strided, so that neighbouring rates spread over the GPUs, and they come back in no particular
order. Put together by label they are the rows of the serial pass in its order, whatever `run_jobs` does with
them (`qbenchParallel_serial`), as long as no two quants of one label score differently.
-/
import VllmExl3.Lib.Except
import VllmExl3.Qbench.Results

namespace VllmExl3.Qbench

open Quant

variable {ρ : Type} {S : Scorer ρ} {sl : String} {slots : List String} {arms : List Arm} {ran : Nat → Bool}
  {e : Execution}

/-! ## The parts -/

theorem mem_stride {α : Type} {i k : Nat} {xs : List α} {x : α} :
    x ∈ stride i k xs ↔ ∃ j, xs[j]? = some x ∧ i ≤ j ∧ (j - i) % k = 0 := by
  simp [stride, List.mem_zipIdx_iff_getElem?]

/-- Every element is in one of the strides. -/
theorem exists_stride {α : Type} {k : Nat} (hk : 0 < k) {xs : List α} {x : α} (h : x ∈ xs) :
    ∃ i < k, x ∈ stride i k xs := by
  obtain ⟨j, hj⟩ := List.mem_iff_getElem?.mp h
  refine ⟨j % k, Nat.mod_lt j hk, mem_stride.mpr ⟨j, hj, Nat.mod_le j k, ?_⟩⟩
  rw [Nat.sub_mod_eq_zero_of_mod_eq (Nat.mod_mod j k).symm]

theorem mem_of_mem_stride {α : Type} {i k : Nat} {xs : List α} {x : α} (h : x ∈ stride i k xs) : x ∈ xs := by
  obtain ⟨j, hj, -⟩ := mem_stride.mp h
  exact List.mem_of_getElem? hj

/-! ## What the script writes -/

theorem Scorer.filter_isReference (S : Scorer ρ) (arms : List Arm) :
    (S.script arms).filter Row.isReference = S.references := by
  rw [script, List.filter_append, List.filter_eq_self.mpr S.isReference_references, List.filter_map]
  simp [Function.comp_def, S.isReference_row]

theorem Scorer.filter_not_isReference (S : Scorer ρ) (arms : List Arm) :
    ((S.script arms).filter fun r => !r.isReference) = arms.map S.row := by
  rw [script, List.filter_append, List.filter_map]
  have hnone : (S.references.filter fun r => !r.isReference) = [] := by
    rw [List.filter_eq_nil_iff]
    intro r hr
    simp [S.isReference_references r hr]
  simp [hnone, Function.comp_def, S.isReference_row]

/-- The parts' rows, as the script writes them. -/
def scriptParts (S : Scorer ρ) (slots : List String) (arms : List Arm) : List (List (Row ρ)) :=
  (List.range (partCount slots arms)).map fun i => S.script (stride i (partCount slots arms) arms)

/-- Put together by label, a label has the row of one of the quants that carry it. -/
theorem byLabel_of_arm (hslots : slots ≠ []) {a : Arm} (ha : a ∈ arms) :
    ∃ b ∈ arms, b.label = a.label ∧ (byLabel (scriptParts S slots arms)).get? a.label = some (S.row b) := by
  have hk : 0 < partCount slots arms :=
    lt_min (List.length_pos_of_ne_nil hslots) (List.length_pos_of_mem ha)
  -- what is put together are the rows of the quants
  have hmem : ∀ p, p ∈ ((scriptParts S slots arms).flatMap (·.filter fun r => !r.isReference)).map
      (fun r => (r.label, r)) ↔ ∃ b ∈ arms, p = (b.label, S.row b) := by
    intro p
    simp only [List.mem_map, List.mem_flatMap, scriptParts, List.mem_range]
    constructor
    · rintro ⟨r, ⟨_, ⟨i, -, rfl⟩, hr⟩, rfl⟩
      rw [S.filter_not_isReference, List.mem_map] at hr
      obtain ⟨b, hb, rfl⟩ := hr
      exact ⟨b, mem_of_mem_stride hb, by rw [S.label_row]⟩
    · rintro ⟨b, hb, rfl⟩
      obtain ⟨i, hi, hb⟩ := exists_stride hk hb
      refine ⟨S.row b, ⟨_, ⟨i, hi, rfl⟩, ?_⟩, by rw [S.label_row]⟩
      rw [S.filter_not_isReference]
      exact List.mem_map_of_mem hb
  have hkey : a.label ∈ (byLabel (scriptParts S slots arms)).keys := by
    rw [byLabel, PyDict.mem_keys_ofList, List.mem_map]
    exact ⟨(a.label, S.row a), (hmem _).mpr ⟨a, ha, rfl⟩, rfl⟩
  obtain ⟨r, hr⟩ := Option.isSome_iff_exists.mp (PyDict.isSome_get?_iff.mpr hkey)
  obtain ⟨b, hb, heq⟩ := (hmem _).mp (PyDict.mem_of_get?_ofList hr)
  obtain ⟨hlabel, rfl⟩ := Prod.mk.inj heq
  exact ⟨b, hb, hlabel.symm, hr⟩

/-! ## The batch -/

/-- Where every task returns, a run of several slots ends the call of each, and returns the failures. -/
theorem runJobs_returned {slots : List String} {tasks : List Task} (hslots : 2 ≤ slots.length)
    (hreturns : ∀ t ∈ tasks, t.outcome.returns = true) (h : RunJobs slots tasks e) :
    (ends e.log).Perm tasks ∧ ∃ failed, e.result = .ok failed ∧
      failed.Perm ((tasks.filter fun t => t.outcome.failed).map Task.name) := by
  have hne : slots ≠ [] := by
    rintro rfl
    simp at hslots
  obtain ⟨share, hdeal, -, hperm⟩ := deal_spec hne tasks
  obtain ⟨s, hs, hj, rfl⟩ := (runJobs_lanes (by omega) hdeal e).mp h
  have account := account_of_reachable hperm hs
  have hcontained : ∀ t ∈ tasks, t.outcome.contained = true := by
    intro t ht
    have hreturned := hreturns t ht
    revert hreturned
    cases t.outcome <;> simp [Outcome.returns, Outcome.contained]
  obtain ⟨hall, hopen, hfail⟩ := account.of_joined hj
  rw [account.nothing_left hj hcontained, List.append_nil] at hall
  have hends := hopen.symm.trans hall
  exact ⟨hends, _, rfl, hfail.trans ((hends.filter _).map _)⟩

/-- `run_jobs` reports no failure exactly where every scorer succeeded, and every part's task was called. -/
theorem result_eq_ok_nil_iff (hslots : 2 ≤ slots.length) (harms : 2 ≤ arms.length)
    (h : RunJobs (slots.take (partCount slots arms)) (partTasks sl slots arms ran) e) :
    (e.result = .ok [] ↔ ∀ i < partCount slots arms, ran i = true) ∧
      ∀ i < partCount slots arms, partTask sl slots arms ran i ∈ ends e.log := by
  have htake : 2 ≤ (slots.take (partCount slots arms)).length := by
    rw [List.length_take, partCount]
    omega
  have hreturns : ∀ t ∈ partTasks sl slots arms ran, t.outcome.returns = true := by
    intro t ht
    obtain ⟨i, -, rfl⟩ := List.mem_map.mp ht
    rfl
  obtain ⟨hends, failed, hresult, hfailed⟩ := runJobs_returned htake hreturns h
  constructor
  · have hnil : failed = [] ↔ (partTasks sl slots arms ran).filter (fun t => t.outcome.failed) = [] := by
      rw [← List.length_eq_zero_iff, hfailed.length_eq, List.length_map, List.length_eq_zero_iff]
    rw [hresult, Except.ok.injEq, hnil, List.filter_eq_nil_iff]
    simp [partTasks, partTask, Outcome.failed]
  · intro i hi
    exact hends.mem_iff.mpr (List.mem_map_of_mem (List.mem_range.mpr hi))

/-- Each part is what the script writes for its quants, where all of them ran. -/
theorem mapM_partRows (hends : ∀ i < partCount slots arms, partTask sl slots arms ran i ∈ ends e.log)
    (hran : ∀ i < partCount slots arms, ran i = true) :
    (List.range (partCount slots arms)).mapM (partRows S sl slots arms ran e) =
      some (scriptParts S slots arms) := by
  refine mapM_some fun i hi => ?_
  have hi : i < partCount slots arms := List.mem_range.mp hi
  rw [partRows, if_pos ⟨hends i hi, hran i hi⟩]

/-! ## The slice -/

/-- The row a label has, put together. -/
def rowOf (S : Scorer ρ) (slots : List String) (arms : List Arm) (a : Arm) : Row ρ :=
  ((byLabel (scriptParts S slots arms)).get? a.label).getD (S.row a)

/-- Where every scorer succeeds, the slice has the rows of the reference and one for each quant. -/
theorem qbenchParallel_of_ran (hslots : 2 ≤ slots.length) (harms : 2 ≤ arms.length)
    (h : RunJobs (slots.take (partCount slots arms)) (partTasks sl slots arms ran) e)
    (hran : ∀ i < partCount slots arms, ran i = true) :
    qbenchParallel S sl slots arms true ran e = some (S.references ++ arms.map (rowOf S slots arms)) := by
  obtain ⟨hresult, hends⟩ := result_eq_ok_nil_iff hslots harms h
  have hne : slots ≠ [] := by
    rintro rfl
    simp at hslots
  have hrows : arms.mapM (fun a => (byLabel (scriptParts S slots arms)).get? a.label)
      = some (arms.map (rowOf S slots arms)) := by
    refine mapM_some fun a ha => ?_
    obtain ⟨b, -, -, hget⟩ := byLabel_of_arm (S := S) hne ha
    rw [rowOf, hget, Option.getD_some]
  simp only [qbenchParallel, hresult.mpr hran, mapM_partRows hends hran, Option.bind_eq_bind,
    Option.bind_some, hrows, S.filter_isReference]
  rfl

/-- The rows put together are the serial pass's exactly where quants of one label score the same. -/
theorem rowOf_eq_iff (hslots : slots ≠ []) :
    (∀ a ∈ arms, rowOf S slots arms a = S.row a) ↔
      ∀ a ∈ arms, ∀ b ∈ arms, a.label = b.label → S.row a = S.row b := by
  constructor
  · intro h a ha b hb hlabel
    have hsame : rowOf S slots arms a = rowOf S slots arms b := by
      obtain ⟨c, -, -, hget⟩ := byLabel_of_arm (S := S) hslots ha
      rw [rowOf, rowOf, ← hlabel, hget, Option.getD_some, Option.getD_some]
    rw [← h a ha, hsame, h b hb]
  · intro h a ha
    obtain ⟨b, hb, hlabel, hget⟩ := byLabel_of_arm (S := S) hslots ha
    rw [rowOf, hget, Option.getD_some]
    exact h b hb a ha hlabel

/-- Scoring a slice on several GPUs, in every run of `run_jobs` over the parts: nothing is written exactly where
the pass for the reference or a part's scorer fails, and where none does, what is written is the serial pass's
file, in its order, exactly if no two quants of one label score differently. -/
theorem qbenchParallel_serial (hslots : 2 ≤ slots.length) (harms : 2 ≤ arms.length) (ref_ran : Bool)
    (h : RunJobs (slots.take (partCount slots arms)) (partTasks sl slots arms ran) e) :
    (qbenchParallel S sl slots arms ref_ran ran e = none ↔
      ¬(ref_ran = true ∧ ∀ i < partCount slots arms, ran i = true)) ∧
    (ref_ran = true → (∀ i < partCount slots arms, ran i = true) →
      (qbenchParallel S sl slots arms ref_ran ran e = some (S.script arms) ↔
        ∀ a ∈ arms, ∀ b ∈ arms, a.label = b.label → S.row a = S.row b)) := by
  have hne : slots ≠ [] := by
    rintro rfl
    simp at hslots
  constructor
  · constructor
    · rintro hnone ⟨rfl, hran⟩
      rw [qbenchParallel_of_ran hslots harms h hran] at hnone
      cases hnone
    · intro hfailed
      cases ref_ran with
      | false => rfl
      | true =>
        obtain ⟨hresult, -⟩ := result_eq_ok_nil_iff hslots harms h
        have hbad : e.result ≠ .ok [] := fun hok => hfailed ⟨rfl, hresult.mp hok⟩
        simp only [qbenchParallel]
        split
        · next heq => exact absurd heq hbad
        · rfl
  · rintro rfl hran
    rw [qbenchParallel_of_ran hslots harms h hran, ← rowOf_eq_iff hne, Option.some.injEq,
      Scorer.script, List.append_cancel_left_eq, List.map_inj_left]

/-- A scorer that records the path it read. -/
def byPath : Scorer String where
  references := [⟨"bf16", some "reference", "main"⟩, ⟨"bf16 x2", some "noise_floor", "main"⟩]
  row a := ⟨a.label, some "exl3", a.path⟩
  isReference_references := by simp [Row.isReference]
  label_row _ := rfl
  isReference_row _ := by simp [Row.isReference]

/-- Three rungs, on two GPUs. -/
def rungs : List Arm := [⟨"3.00bpw", "/m/3.00bpw"⟩, ⟨"4.00bpw", "/m/4.00bpw"⟩, ⟨"5.00bpw", "/m/5.00bpw"⟩]

def onTwo (ran : Nat → Bool) : List Task := partTasks "wild" ["0", "1"] rungs ran

/-- The second GPU's part is done before the first one's begins. -/
theorem replay_rungs :
    ((deal ["0", "1"] (onTwo fun _ => true)).bind fun share =>
        replay (start ["0", "1"] share) [1, 1, 1, 1, 0, 0, 0, 0]).map (fun s => s.lanes.map Lane.ended)
      = some [true, true] := by
  decide +kernel

/-- The parts come back in the other order, and the file is the serial pass's. -/
theorem rungs_serial :
    ∃ e, RunJobs ["0", "1"] (onTwo fun _ => true) e ∧
      qbenchParallel byPath "wild" ["0", "1"] rungs true (fun _ => true) e = some (byPath.script rungs) := by
  obtain ⟨s, hs, hended⟩ := Option.map_eq_some_iff.mp replay_rungs
  obtain ⟨share, hdeal, hreplay⟩ := Option.bind_eq_some_iff.mp hs
  have hj : s.joined := by
    intro l hl
    have hmem : l.ended ∈ [true, true] := hended ▸ List.mem_map_of_mem hl
    simpa using hmem
  have hrun : RunJobs (["0", "1"].take (partCount ["0", "1"] rungs))
      (partTasks "wild" ["0", "1"] rungs fun _ => true) ⟨s.pool.log, .ok s.pool.failed⟩ :=
    runJobs_of_replay (by decide) hdeal hreplay hj
  obtain ⟨-, hserial⟩ := qbenchParallel_serial (S := byPath) (by decide) (by decide) true hrun
  have hlabels : ∀ a ∈ rungs, ∀ b ∈ rungs, a.label = b.label → byPath.row a = byPath.row b := by decide
  exact ⟨_, hrun, (hserial rfl fun _ _ => rfl).mpr hlabels⟩

end VllmExl3.Qbench
