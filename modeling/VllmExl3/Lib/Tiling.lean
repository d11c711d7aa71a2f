/-
# VllmExl3.Lib.Tiling — intervals laid end to end

A list of half-open intervals tiles `[lo, hi)` when each begins where the one before it ends: no gap,
no overlap, no interval twice. Lists that give one entry for each point of its interval then
concatenate to one entry for each point of the whole, in order. Nothing here names the repository.
-/
import VllmExl3.Lib.Chunks
import Mathlib.Data.List.Induction

namespace VllmExl3

/-- The intervals `[a, b)` of the list cover `[lo, hi)`, in order. -/
def Tiles : Nat → List (Nat × Nat) → Nat → Prop
  | lo, [], hi => lo = hi
  | lo, t :: rest, hi => t.1 = lo ∧ t.1 < t.2 ∧ Tiles t.2 rest hi

variable {lo mid hi : Nat} {ts us : List (Nat × Nat)} {t : Nat × Nat}

theorem Tiles.le (h : Tiles lo ts hi) : lo ≤ hi := by
  induction ts generalizing lo with
  | nil => exact Nat.le_of_eq h
  | cons t rest ih =>
    obtain ⟨hlo, hlt, hrest⟩ := h
    have := ih hrest
    omega

theorem tiles_append : Tiles lo (ts ++ us) hi ↔ ∃ mid, Tiles lo ts mid ∧ Tiles mid us hi := by
  induction ts generalizing lo with
  | nil => simp [Tiles]
  | cons t rest ih =>
    rw [List.cons_append]
    simp only [Tiles, ih]
    constructor
    · rintro ⟨hlo, hlt, mid, hrest, hus⟩
      exact ⟨mid, ⟨hlo, hlt, hrest⟩, hus⟩
    · rintro ⟨mid, ⟨hlo, hlt, hrest⟩, hus⟩
      exact ⟨hlo, hlt, mid, hrest, hus⟩

/-- One more interval at the end. -/
theorem Tiles.concat (h : Tiles lo ts mid) (hlt : mid < hi) : Tiles lo (ts ++ [(mid, hi)]) hi :=
  tiles_append.mpr ⟨mid, h, rfl, hlt, rfl⟩

/-- Each interval lies inside. -/
theorem Tiles.mem (h : Tiles lo ts hi) (ht : t ∈ ts) : lo ≤ t.1 ∧ t.1 < t.2 ∧ t.2 ≤ hi := by
  induction ts generalizing lo with
  | nil => cases ht
  | cons u rest ih =>
    obtain ⟨hlo, hlt, hrest⟩ := h
    rcases List.mem_cons.mp ht with rfl | ht
    · exact ⟨Nat.le_of_eq hlo.symm, hlt, hrest.le⟩
    · obtain ⟨hstart, hne, hstop⟩ := ih hrest ht
      exact ⟨by omega, hne, hstop⟩

/-- Each point lies in an interval. -/
theorem Tiles.exists_mem {x : Nat} (h : Tiles lo ts hi) (hlo : lo ≤ x) (hhi : x < hi) :
    ∃ t ∈ ts, t.1 ≤ x ∧ x < t.2 := by
  induction ts generalizing lo with
  | nil =>
    obtain rfl : lo = hi := h
    omega
  | cons t rest ih =>
    obtain ⟨hstart, -, hrest⟩ := h
    by_cases hin : x < t.2
    · exact ⟨t, List.mem_cons_self, by omega, hin⟩
    · obtain ⟨u, hu, hux⟩ := ih hrest (Nat.not_lt.mp hin)
      exact ⟨u, List.mem_cons_of_mem t hu, hux⟩

/-- The last interval ends the whole. -/
theorem Tiles.getLast (h : Tiles lo ts hi) (ht : ts.getLast? = some t) : t.2 = hi := by
  obtain ⟨init, rfl⟩ := List.getLast?_eq_some_iff.mp ht
  obtain ⟨mid, -, -, -, hend⟩ := tiles_append.mp h
  exact hend

/-- Where the whole ends: at the last interval, or where it begins. -/
theorem Tiles.end_eq (h : Tiles lo ts hi) : (ts.getLast?.map Prod.snd).getD lo = hi := by
  cases hlast : ts.getLast? with
  | none =>
    obtain rfl := List.getLast?_eq_none_iff.mp hlast
    exact h
  | some t => exact h.getLast hlast

/-- `[(a, min(a + c, n)) for a in range(lo, n, c)]` -/
def steps (lo n c : Nat) : List (Nat × Nat) :=
  (rangeStep (n - lo) c).map fun s => (lo + s, min (lo + s + c) n)

/-- The first `k` of them. -/
theorem tiles_range {c n : Nat} (hc : 0 < c) (k : Nat) (hk : k = 0 ∨ lo + (k - 1) * c < n) :
    Tiles lo ((List.range k).map fun r => (lo + r * c, min (lo + r * c + c) n))
      (if k = 0 then lo else min (lo + k * c) n) := by
  induction k with
  | zero => rfl
  | succ k ih =>
    have hlt : lo + k * c < n := by simpa using hk
    have hbefore : k = 0 ∨ lo + (k - 1) * c < n := by
      rcases k with _ | k
      · exact .inl rfl
      · right
        have : k * c ≤ (k + 1) * c := Nat.mul_le_mul_right c (Nat.le_succ k)
        simp only [Nat.add_sub_cancel]
        omega
    have hends : (if k = 0 then lo else min (lo + k * c) n) = lo + k * c := by
      split_ifs with hzero
      · rw [hzero, Nat.zero_mul, Nat.add_zero]
      · exact Nat.min_eq_left (Nat.le_of_lt hlt)
    have htiles := ih hbefore
    rw [hends] at htiles
    have hstep : (k + 1) * c = k * c + c := Nat.succ_mul k c
    have hmin : lo + k * c < min (lo + k * c + c) n := by omega
    rw [List.range_succ, List.map_append, if_neg (Nat.succ_ne_zero k), hstep, ← Nat.add_assoc]
    exact htiles.concat hmin

/-- They tile what there is to cut. -/
theorem tiles_steps {c n : Nat} (hc : 0 < c) : Tiles lo (steps lo n c) (max lo n) := by
  obtain ⟨k, hk⟩ : ∃ k, k = (n - lo + c - 1) / c := ⟨_, rfl⟩
  have hcount : ∀ r, r < k ↔ lo + r * c < n := by
    intro r
    rw [hk, lt_ceilDiv_iff hc]
    omega
  have hlast : k = 0 ∨ lo + (k - 1) * c < n := by
    rcases Nat.eq_zero_or_pos k with hzero | hpos
    · exact .inl hzero
    · exact .inr ((hcount (k - 1)).mp (by omega))
  have htiles := tiles_range hc k hlast
  have hend : (if k = 0 then lo else min (lo + k * c) n) = max lo n := by
    have hcover := (hcount k).not.mp (Nat.lt_irrefl k)
    have hfirst := hcount 0
    rw [Nat.zero_mul, Nat.add_zero] at hfirst
    split_ifs with hzero
    · have := hfirst.not.mp (by omega)
      omega
    · have := hfirst.mp (by omega)
      omega
  rw [hend] at htiles
  rw [steps, rangeStep, tabulate, List.map_map, ← hk]
  exact htiles

section Concat

variable {α β : Type*} {span : α → Nat × Nat} {g : α → List β} {xs : List α}

theorem Tiles.length_flatMap (h : Tiles lo (xs.map span) hi)
    (hlen : ∀ x ∈ xs, (g x).length = (span x).2 - (span x).1) : (xs.flatMap g).length = hi - lo := by
  induction xs generalizing lo with
  | nil =>
    obtain rfl : lo = hi := h
    simp
  | cons x rest ih =>
    obtain ⟨hlo, hlt, hrest⟩ := h
    have := hrest.le
    have hx := hlen x List.mem_cons_self
    have hrec := ih hrest fun y hy => hlen y (List.mem_cons_of_mem x hy)
    rw [List.flatMap_cons, List.length_append, hx, hrec]
    omega

/-- The entry for a point is the one its interval's list has for it. -/
theorem Tiles.getElem?_flatMap (h : Tiles lo (xs.map span) hi)
    (hlen : ∀ x ∈ xs, (g x).length = (span x).2 - (span x).1) {p : Nat} (hlo : lo ≤ p) (hhi : p < hi) :
    (xs.flatMap g)[p - lo]? =
      (xs.find? fun x => (span x).1 ≤ p ∧ p < (span x).2).bind fun x => (g x)[p - (span x).1]? := by
  induction xs generalizing lo with
  | nil =>
    obtain rfl : lo = hi := h
    omega
  | cons x rest ih =>
    obtain ⟨hstart, hlt, hrest⟩ := h
    have hx := hlen x List.mem_cons_self
    rw [List.flatMap_cons]
    rcases Nat.lt_or_ge p (span x).2 with hhere | hlater
    · rw [List.find?_cons_of_pos (by simpa using ⟨by omega, hhere⟩), Option.bind_some, hstart,
        List.getElem?_append_left (by omega)]
    · have hrec := ih hrest (fun y hy => hlen y (List.mem_cons_of_mem x hy)) hlater
      rw [List.find?_cons_of_neg (by simpa using fun _ => hlater), ← hrec,
        List.getElem?_append_right (by omega)]
      congr 1
      omega

end Concat

end VllmExl3
