/-
# VllmExl3.Measure.Tiles — measured chunks tile each category

A file name says which rows of which category it holds, and no other name of the directory does
(`chunkOf_outName`, `stem_eq_of_chunkOf`). Only the renaming of a finished child's output adds a chunk,
at the end of its category's (`categoryChunks_set_new`), and the plan continues where the chunks end,
so along the loop the chunks and what is still planned tile up to the goal (`runPlan_spec`). What
`category_klds` then concatenates is one KL for each row, in order (`each_chunk_once`).
-/
import VllmExl3.Measure.Chunks

namespace VllmExl3.Measure

open PyStr

variable {ρ κ : Type}

/-! ## Names -/

theorem digits_toString (n : Nat) : digits (toString n).toList = some n := by
  have hne : (toString n).toList ≠ [] := by
    rw [Nat.toString_eq_repr, Nat.toList_repr]
    exact List.ne_nil_of_length_pos Nat.length_toDigits_pos
  have hall : (toString n).toList.all Char.isDigit = true :=
    List.all_eq_true.mpr fun c hc => isDigit_of_mem_toString hc
  rw [digits, if_pos ⟨hne, hall⟩, Nat.toString_eq_repr, Nat.toList_repr,
    Nat.ofDigitChars_ten_toDigits]

theorem isDigit_of_digits {cs : List Char} {n : Nat} (h : digits cs = some n) :
    ∀ c ∈ cs, c.isDigit = true := by
  unfold digits at h
  split_ifs at h with hdigits
  exact List.all_eq_true.mp hdigits.2

theorem minus_notMem_toString (n : Nat) : '-' ∉ (toString n).toList :=
  fun h => absurd (isDigit_of_mem_toString h) (by decide)

/-- A chunk's name is read as the chunk it is. -/
theorem matchRange_chunkName (cat : String) (a b : Nat) :
    matchRange (stem cat) (outName cat a b) = some (a, b) := by
  have hname : outName cat a b =
      stem cat ++ "." ++ ((toString a ++ "-" ++ toString b) ++ ".json") := by
    simp only [outName, chunkName, String.append_assoc]
  have hstart : startswith (outName cat a b) (stem cat ++ ".") = true :=
    startswith_iff.mpr ⟨_, hname⟩
  have hend : endswith (outName cat a b) ".json" = true := endswith_append _ _
  have hmiddle : dropEnd (dropStart (outName cat a b) (stem cat ++ ".").toList.length)
      ".json".toList.length = toString a ++ "-" ++ toString b := by
    rw [hname, dropStart_append, dropEnd_append]
  have hsplit : (toString a ++ "-" ++ toString b).toList.splitOn '-' =
      [(toString a).toList, (toString b).toList] := by
    have hjoin : (toString a ++ "-" ++ toString b).toList =
        ['-'].intercalate [(toString a).toList, (toString b).toList] := by
      simp [String.toList_append]
    have hfree : ∀ l ∈ [(toString a).toList, (toString b).toList], '-' ∉ l := by
      intro l hl
      rcases List.mem_cons.mp hl with rfl | hl
      · exact minus_notMem_toString a
      · obtain rfl := List.mem_singleton.mp hl
        exact minus_notMem_toString b
    rw [hjoin, List.splitOn_intercalate '-' hfree (by simp)]
  rw [matchRange, hstart, hend, hmiddle]
  simp only [hsplit, digits_toString]
  rfl

/-- A name that is read as a chunk is one: the stem, two numbers and the extension. -/
theorem matchRange_eq_some {s f : String} {r : Nat × Nat} (h : matchRange s f = some r) :
    ∃ x y : List Char, (∀ c ∈ x, c.isDigit = true) ∧ (∀ c ∈ y, c.isDigit = true) ∧
      f.toList = s.toList ++ '.' :: (x ++ '-' :: y) ++ ".json".toList := by
  unfold matchRange at h
  split_ifs at h with hfits
  obtain ⟨hstart, hend⟩ := Bool.and_eq_true_iff.mp hfits
  obtain ⟨rest, rfl⟩ := startswith_iff.mp hstart
  rw [dropStart_append] at h
  dsimp only at h
  split at h
  · next a b hsplit =>
    -- the text between is not empty, so the extension is behind it
    have hmiddle : (dropEnd rest ".json".toList.length).toList = a ++ '-' :: b := by
      have hjoin : ['-'].intercalate ((dropEnd rest ".json".toList.length).toList.splitOn '-') = _ :=
        List.intercalate_splitOn '-'
      rw [← hjoin, hsplit]
      simp
    have hrest : endswith rest ".json" = true := by
      rw [endswith, List.isSuffixOf_iff_suffix] at hend ⊢
      have hsuffix : rest.toList <:+ (s ++ "." ++ rest).toList := by
        rw [String.toList_append]
        exact List.suffix_append _ _
      rcases List.suffix_or_suffix_of_suffix hend hsuffix with hext | hshort
      · exact hext
      · have hlen := hshort.length_le
        have hnil : (dropEnd rest ".json".toList.length).toList = [] := by
          rw [dropEnd, String.toList_ofList, Nat.sub_eq_zero_of_le hlen, List.take_zero]
        rw [hnil] at hmiddle
        exact absurd hmiddle.symm (by simp)
    obtain ⟨middle, rfl⟩ := endswith_iff.mp hrest
    rw [dropEnd_append] at hmiddle
    split at h
    · next m n hm hn =>
      refine ⟨a, b, isDigit_of_digits hm, isDigit_of_digits hn, ?_⟩
      simp [String.toList_append, hmiddle]
    · cases h
  · cases h

theorem chunkOf_outName (cat : String) (a b : Nat) :
    chunkOf cat (outName cat a b) = some ⟨a, b, outName cat a b⟩ := by
  rw [chunkOf, matchRange_chunkName]
  rfl

/-- A chunk's name is read for no other stem. -/
theorem stem_eq_of_chunkOf {cat cat' : String} {a b : Nat} {x : Chunk}
    (h : chunkOf cat (outName cat' a b) = some x) : stem cat = stem cat' := by
  obtain ⟨r, hr, -⟩ := Option.map_eq_some_iff.mp h
  obtain ⟨m, n, hm, hn, hname⟩ := matchRange_eq_some hr
  have hdot : ∀ x y : List Char, (∀ c ∈ x, c.isDigit = true) → (∀ c ∈ y, c.isDigit = true) →
      '.' ∉ x ++ '-' :: y := by
    intro x y hx hy hmem
    rcases List.mem_append.mp hmem with hmem | hmem
    · exact absurd (hx _ hmem) (by decide)
    · rcases List.mem_cons.mp hmem with heq | hmem
      · exact absurd heq (by decide)
      · exact absurd (hy _ hmem) (by decide)
  have hout : (outName cat' a b).toList = (stem cat').toList ++
      '.' :: ((toString a).toList ++ '-' :: (toString b).toList) ++ ".json".toList := by
    simp [outName, chunkName, String.toList_append]
  rw [hout] at hname
  have hcancel := List.append_cancel_right hname
  have hboth := eq_of_append_sep (hdot _ _ (fun _ => isDigit_of_mem_toString)
    (fun _ => isDigit_of_mem_toString)) (hdot m n hm hn) hcancel
  exact String.toList_injective hboth.1.symm

/-- Nothing else has a chunk's extension. -/
theorem chunkOf_other {cat f ext : String} (hext : endswith f ext = true)
    (hne : (endswith ext ".json" || endswith ".json" ext) = false) : chunkOf cat f = none := by
  rw [chunkOf, matchRange, not_endswith hext hne, Bool.and_false]
  rfl

theorem chunkOf_partName (cat cat' : String) (a b : Nat) : chunkOf cat (partName cat' a b) = none :=
  chunkOf_other (endswith_append _ ".part") (by decide)

theorem chunkOf_rowsName (cat cat' : String) (a b : Nat) : chunkOf cat (rowsName cat' a b) = none :=
  chunkOf_other (endswith_append _ ".safetensors") (by decide)

/-! ## Files that come and go -/

theorem Chunk.le_trans {x y z : Chunk} (hxy : x.le y) (hyz : y.le z) : x.le z := by
  rcases hxy with hlt | ⟨hstart, hxy⟩
  · rcases hyz with hlt' | ⟨hstart', -⟩
    · exact .inl (Nat.lt_trans hlt hlt')
    · exact .inl (hstart' ▸ hlt)
  · rcases hyz with hlt' | ⟨hstart', hyz⟩
    · exact .inl (hstart ▸ hlt')
    · refine .inr ⟨hstart.trans hstart', ?_⟩
      rcases hxy with hlt | ⟨hstop, hfile⟩
      · rcases hyz with hlt' | ⟨hstop', -⟩
        · exact .inl (Nat.lt_trans hlt hlt')
        · exact .inl (hstop' ▸ hlt)
      · rcases hyz with hlt' | ⟨hstop', hfile'⟩
        · exact .inl (hstop ▸ hlt')
        · exact .inr ⟨hstop.trans hstop', String.le_trans hfile hfile'⟩

theorem Chunk.le_total (x y : Chunk) : x.le y ∨ y.le x := by
  rcases Nat.lt_trichotomy x.start y.start with hlt | hstart | hlt
  · exact .inl (.inl hlt)
  · rcases Nat.lt_trichotomy x.stop y.stop with hlt | hstop | hlt
    · exact .inl (.inr ⟨hstart, .inl hlt⟩)
    · rcases String.le_total x.file y.file with hfile | hfile
      · exact .inl (.inr ⟨hstart, .inr ⟨hstop, hfile⟩⟩)
      · exact .inr (.inr ⟨hstart.symm, .inr ⟨hstop.symm, hfile⟩⟩)
    · exact .inr (.inr ⟨hstart.symm, .inl hlt⟩)
  · exact .inr (.inl hlt)

theorem Chunk.le_antisymm {x y : Chunk} (hxy : x.le y) (hyx : y.le x) : x = y := by
  obtain ⟨a, b, f⟩ := x
  obtain ⟨a', b', f'⟩ := y
  simp only [Chunk.le] at hxy hyx
  have hstart : a = a' := by omega
  have hstop : b = b' := by omega
  subst hstart hstop
  have hfile : f = f' := String.le_antisymm (by simpa using hxy) (by simpa using hyx)
  rw [hfile]

instance : IsTrans Chunk Chunk.le := ⟨fun _ _ _ => Chunk.le_trans⟩
instance : Std.Total Chunk.le := ⟨Chunk.le_total⟩
instance : Std.Antisymm Chunk.le := ⟨fun _ _ => Chunk.le_antisymm⟩

variable {dir : Dir ρ κ} {cat name : String} {file : File ρ κ} {x : Chunk}

theorem mem_categoryChunks : x ∈ categoryChunks dir cat ↔ ∃ f ∈ dir.keys, chunkOf cat f = some x := by
  rw [categoryChunks, List.mem_insertionSort, List.mem_filterMap]

/-- A new chunk that comes after those of its category is listed last. -/
theorem categoryChunks_set_new (hx : chunkOf cat name = some x) (hnew : name ∉ dir.keys)
    (hlast : ∀ y ∈ categoryChunks dir cat, y.le x) :
    categoryChunks (dir.set name file) cat = categoryChunks dir cat ++ [x] := by
  have hkeys : (dir.set name file).keys.filterMap (chunkOf cat) =
      dir.keys.filterMap (chunkOf cat) ++ [x] := by
    rw [PyDict.keys_set, if_neg hnew, List.filterMap_append]
    simp [hx]
  have hsorted := List.pairwise_insertionSort Chunk.le (dir.keys.filterMap (chunkOf cat))
  rw [categoryChunks, hkeys]
  apply List.Perm.eq_of_pairwise' (r := Chunk.le)
  · exact List.pairwise_insertionSort Chunk.le _
  · refine List.pairwise_append.mpr ⟨hsorted, List.pairwise_singleton _ _, fun y hy z hz => ?_⟩
    obtain rfl := List.mem_singleton.mp hz
    exact hlast y hy
  · refine (List.perm_insertionSort _ _).trans ?_
    exact (List.perm_insertionSort Chunk.le _).symm.append_right [x]

theorem categoryChunks_set_other (h : chunkOf cat name = none) :
    categoryChunks (dir.set name file) cat = categoryChunks dir cat := by
  rw [categoryChunks, PyDict.keys_set, categoryChunks]
  split_ifs
  · rfl
  · rw [List.filterMap_append]
    simp [h]

theorem categoryChunks_pop_other (h : chunkOf cat name = none) :
    categoryChunks (dir.pop name) cat = categoryChunks dir cat := by
  rw [categoryChunks, PyDict.keys_pop, List.filterMap_filter, categoryChunks]
  congr 1
  apply List.filterMap_congr
  intro f _
  by_cases hf : f = name
  · simp [hf, h]
  · simp [hf]

theorem categoryChunks_leave (h : chunkOf cat name = none) (part : Option (File ρ κ)) :
    categoryChunks (leave dir name part) cat = categoryChunks dir cat := by
  cases part with
  | none => rfl
  | some file => exact categoryChunks_set_other h

/-! ## Along the plan -/

/-- The category's chunks are `[0,a1), [a1,a2), ..., [a(m-1),n)`. -/
def Tiled (dir : Dir ρ κ) (cat : String) (n : Nat) : Prop :=
  Tiles 0 ((categoryChunks dir cat).map Chunk.range) n

/-- The ranges planned of a category, in order. -/
def ranges (cat : String) (todo : List Planned) : List (Nat × Nat) :=
  (todo.filter fun p => p.cat = cat).map fun p => (p.a, p.b)

/-- A category's chunks, and what is still planned of it, tile up to its goal at least. -/
def Continues (cats : Categories ρ) (want : PyDict String Int) (dir : Dir ρ κ) (todo : List Planned)
    (cat : String) : Prop :=
  ∃ n m, Tiled dir cat n ∧ Tiles n (ranges cat todo) m ∧ goal cats want cat ≤ m

variable {cats : Categories ρ} {want : PyDict String Int} {todo : List Planned} {hess : List ρ}
  {n a b : Nat}

theorem Tiled.of_eq {dir' : Dir ρ κ} (h : Tiled dir cat n)
    (heq : categoryChunks dir' cat = categoryChunks dir cat) : Tiled dir' cat n := by
  rw [Tiled, heq]
  exact h

/-- Where the chunks end is where the plan starts. -/
theorem Tiled.start_eq (h : Tiled dir cat n) :
    ((categoryChunks dir cat).getLast?.map (·.stop)).getD 0 = n := by
  have hend := Tiles.end_eq h
  rw [List.getLast?_map, Option.map_map] at hend
  exact hend

/-- The next chunk of its category: named after the rows that follow, it comes last. -/
theorem Tiled.set_out (h : Tiled dir cat a) (hab : a < b) :
    Tiled (dir.set (outName cat a b) file) cat b := by
  have hx := chunkOf_outName cat a b
  have hbefore : ∀ y ∈ categoryChunks dir cat, y.start < a := by
    intro y hy
    have hy := Tiles.mem h (List.mem_map_of_mem (f := Chunk.range) hy)
    exact Nat.lt_of_lt_of_le hy.2.1 hy.2.2
  have hnew : outName cat a b ∉ dir.keys := by
    intro hmem
    exact absurd (hbefore _ (mem_categoryChunks.mpr ⟨_, hmem, hx⟩)) (Nat.lt_irrefl a)
  rw [Tiled, categoryChunks_set_new hx hnew fun y hy => .inl (hbefore y hy), List.map_append]
  exact Tiles.concat h hab

/-- What a run plans of a category continues its chunks. -/
theorem tiles_planCategory (h : Tiled dir cat n) :
    Tiles n ((planCategory cats want dir cat).map fun p => (p.a, p.b))
      (max n (goal cats want cat).toNat) := by
  have hmap : (planCategory cats want dir cat).map (fun p => (p.a, p.b)) =
      steps n (goal cats want cat).toNat MEASURE_CHUNK := by
    rw [planCategory, h.start_eq, List.map_map]
    exact List.map_id _
  rw [hmap]
  exact tiles_steps (by decide)

theorem cat_of_mem_planCategory {p : Planned} (h : p ∈ planCategory cats want dir cat) :
    p.cat = cat := by
  obtain ⟨r, -, rfl⟩ := List.mem_map.mp h
  rfl

/-- The plan holds of each category what is planned of it. -/
theorem ranges_plan (hcat : cat ∈ cats.rows.keys) : ranges cat (plan cats want dir) =
    (planCategory cats want dir cat).map fun p => (p.a, p.b) := by
  have hsingle : ∀ cs : List String, cs.Nodup → ∀ f : String → List Planned,
      (∀ c, ∀ p ∈ f c, p.cat = c) →
      (cs.flatMap f).filter (fun p => p.cat = cat) = if cat ∈ cs then f cat else [] := by
    intro cs hnodup f hf
    induction cs with
    | nil => rfl
    | cons c rest ih =>
      rw [List.nodup_cons] at hnodup
      rw [List.flatMap_cons, List.filter_append, ih hnodup.2]
      by_cases hc : c = cat
      · subst hc
        have hall : (f c).filter (fun p => p.cat = c) = f c :=
          List.filter_eq_self.mpr fun p hp => by simpa using hf c p hp
        simp [hall, hnodup.1]
      · have hnone : (f c).filter (fun p => p.cat = cat) = [] :=
          List.filter_eq_nil_iff.mpr fun p hp => by simpa [hf c p hp] using hc
        simp [hnone, Ne.symm hc]
  have hnodup : (cats.rows.keys.insertionSort (· ≤ ·)).Nodup :=
    (List.perm_insertionSort _ _).nodup_iff.mpr cats.rows.nodup
  rw [ranges, plan, hsingle _ hnodup _ fun c p hp => cat_of_mem_planCategory hp,
    if_pos ((List.mem_insertionSort _).mpr hcat)]

/-- A run starts with a plan that continues every category. -/
theorem continues_plan (hcat : cat ∈ cats.rows.keys) (h : Tiled dir cat n) :
    Continues cats want dir (plan cats want dir) cat := by
  refine ⟨n, max n (goal cats want cat).toNat, h, ?_, ?_⟩
  · rw [ranges_plan hcat]
    exact tiles_planCategory h
  · omega

/-- Files without a chunk's name change nothing. -/
theorem Continues.of_eq {dir' : Dir ρ κ} (h : Continues cats want dir todo cat)
    (heq : categoryChunks dir' cat = categoryChunks dir cat) :
    Continues cats want dir' todo cat := by
  obtain ⟨n, m, htiled, hrest, hgoal⟩ := h
  exact ⟨n, m, htiled.of_eq heq, hrest, hgoal⟩

/-- The renaming of a planned chunk's file takes it from the plan to the chunks. -/
theorem Continues.set_out {cat' : String} (hcat : cat ∈ cats.rows.keys)
    (hcat' : cat' ∈ cats.rows.keys) (h : Continues cats want dir (⟨cat', a, b⟩ :: todo) cat) :
    Continues cats want (dir.set (outName cat' a b) file) todo cat := by
  obtain ⟨n, m, htiled, hrest, hgoal⟩ := h
  by_cases hsame : cat' = cat
  · subst hsame
    rw [ranges, List.filter_cons_of_pos (by simp), List.map_cons] at hrest
    obtain ⟨rfl, hlt, hrest⟩ := hrest
    exact ⟨b, m, htiled.set_out hlt, hrest, hgoal⟩
  · have hother : chunkOf cat (outName cat' a b) = none := by
      by_contra hsome
      obtain ⟨x, hx⟩ := Option.ne_none_iff_exists'.mp hsome
      exact hsame (cats.stems cat' hcat' cat hcat (stem_eq_of_chunkOf hx).symm)
    refine ⟨n, m, htiled.of_eq (categoryChunks_set_other hother), ?_, hgoal⟩
    rwa [ranges, List.filter_cons_of_neg (by simpa using hsame)] at hrest

/-- The loop: wherever it ends, each category's chunks tile, and up to the goal if it returns true. -/
theorem runPlan_spec (attempts : List (Attempt ρ κ)) (htodo : ∀ p ∈ todo, p.cat ∈ cats.rows.keys)
    (h : ∀ cat ∈ cats.rows.keys, Continues cats want dir todo cat) :
    ∀ cat ∈ cats.rows.keys, ∃ n, Tiled (runPlan cats hess todo attempts dir).1 cat n ∧
      ((runPlan cats hess todo attempts dir).2 = some true → goal cats want cat ≤ n) := by
  intro cat hcat
  induction todo generalizing attempts dir with
  | nil =>
    obtain ⟨n, m, htiled, hrest, hgoal⟩ := h cat hcat
    obtain rfl : n = m := hrest
    exact ⟨n, htiled, fun _ => hgoal⟩
  | cons p rest ih =>
    obtain ⟨cat', a, b⟩ := p
    have hcat' : cat' ∈ cats.rows.keys := htodo ⟨cat', a, b⟩ List.mem_cons_self
    -- until a finished output is renamed nothing happens to the chunks
    have hstay : ∀ dir' : Dir ρ κ, categoryChunks dir' cat = categoryChunks dir cat →
        ∀ result : Option Bool, result ≠ some true →
        ∃ n, Tiled dir' cat n ∧ (result = some true → goal cats want cat ≤ n) := by
      intro dir' heq result hresult
      obtain ⟨n, -, htiled, -, -⟩ := h cat hcat
      exact ⟨n, htiled.of_eq heq, fun htrue => absurd htrue hresult⟩
    have hsaved : ∀ (c : String) (f : File ρ κ),
        categoryChunks (dir.set (rowsName cat' a b) f) c = categoryChunks dir c :=
      fun c f => categoryChunks_set_other (chunkOf_rowsName c cat' a b)
    have hchild : ∀ (c : String) (f : File ρ κ) (part : Option (File ρ κ)),
        categoryChunks (leave (dir.set (rowsName cat' a b) f) (partName cat' a b) part) c =
          categoryChunks dir c := by
      intro c f part
      rw [categoryChunks_leave (chunkOf_partName c cat' a b), hsaved]
    have hremoved : ∀ (c : String) (f : File ρ κ) (part : Option (File ρ κ)),
        categoryChunks ((leave (dir.set (rowsName cat' a b) f) (partName cat' a b) part).pop
          (rowsName cat' a b)) c = categoryChunks dir c := by
      intro c f part
      rw [categoryChunks_pop_other (chunkOf_rowsName c cat' a b), hchild]
    cases attempts with
    | nil => exact hstay dir rfl none (by simp)
    | cons attempt attempts =>
      cases attempt with
      | killedSaving => exact hstay _ (hsaved cat _) none (by simp)
      | killedMeasuring part => exact hstay _ (hchild cat _ part) none (by simp)
      | killedRemoved part => exact hstay _ (hremoved cat _ part) none (by simp)
      | ended rc part =>
        rw [runPlan]
        dsimp only
        split
        · exact hstay _ (hremoved cat _ part) (some false) (by simp)
        · next measured _ =>
          split_ifs with hrc
          · exact hstay _ (hremoved cat _ part) (some false) (by simp)
          · refine ih attempts (fun q hq => htodo q (List.mem_cons_of_mem _ hq)) fun c hc => ?_
            refine Continues.set_out hc hcat' ((h c hc).of_eq ?_)
            rw [categoryChunks_pop_other (chunkOf_partName c cat' a b), hremoved]

/-! ## Over all runs -/

theorem tiled_empty (cat : String) : Tiled (.empty : Dir ρ κ) cat 0 := rfl

theorem doMeasure_spec (run : Run ρ κ) (h : ∀ cat ∈ cats.rows.keys, ∃ n, Tiled dir cat n) :
    ∀ cat ∈ cats.rows.keys, ∃ n, Tiled (doMeasure cats hess dir run).1 cat n ∧
      ((doMeasure cats hess dir run).2 = some true → goal cats run.want cat ≤ n) := by
  intro cat hcat
  obtain ⟨n, htiled⟩ := h cat hcat
  unfold doMeasure
  split
  · have htodo : ∀ p ∈ plan cats run.want dir, p.cat ∈ cats.rows.keys := by
      intro p hp
      obtain ⟨c, hc, hp⟩ := List.mem_flatMap.mp hp
      rw [cat_of_mem_planCategory hp]
      exact (List.mem_insertionSort _).mp hc
    apply runPlan_spec run.attempts htodo _ cat hcat
    intro c hc
    obtain ⟨m, hm⟩ := h c hc
    exact continues_plan hc hm
  · next returned hreturned =>
    exact ⟨n, htiled, fun htrue => absurd htrue (by simpa using hreturned)⟩

theorem tiled_afterRuns (runs : List (Run ρ κ)) :
    ∀ cat ∈ cats.rows.keys, ∃ n, Tiled (afterRuns cats hess runs) cat n := by
  induction runs using List.reverseRecOn with
  | nil => exact fun cat _ => ⟨0, tiled_empty cat⟩
  | append_singleton runs run ih =>
    intro cat hcat
    rw [afterRuns, List.foldl_append, ← afterRuns]
    obtain ⟨n, htiled, -⟩ := doMeasure_spec run ih cat hcat
    exact ⟨n, htiled⟩

/-! ## Reading the chunks back -/

/-- The measurement in a chunk's file. -/
def Chunk.measurement (dir : Dir ρ κ) (x : Chunk) : Option (Measurement κ) :=
  match dir.get? x.file with
  | some (.json d) => some d
  | _ => none

/-- The levels a measurement lists of a tensor. -/
def Measurement.levels (d : Measurement κ) (key : String) : Option (List (List κ)) :=
  (d.results.find? fun r => r.key = key).map (·.levels)

/-- The KLs a chunk lists of a tensor at a level. -/
def kldRows (dir : Dir ρ κ) (key : String) (i : Nat) (x : Chunk) : List κ :=
  (((x.measurement dir).bind (·.levels key)).bind (·[i]?)).getD []

/-- The KL of a row: the one that is listed for it by the chunk it is in. -/
def rowKl (dir : Dir ρ κ) (cat key : String) (i row : Nat) : Option κ :=
  ((categoryChunks dir cat).find? fun x => x.start ≤ row ∧ row < x.stop).bind fun x =>
    (kldRows dir key i x)[row - x.start]?

/-- Each chunk lists the same tensors, each once, with the same number of levels, and one KL for each of
its rows. -/
def SameTensors (dir : Dir ρ κ) (cat : String) (tensors : String → Option Nat) : Prop :=
  ∀ x ∈ categoryChunks dir cat, ∃ d, x.measurement dir = some d ∧
    (d.results.map (·.key)).Nodup ∧ (∀ key, (d.levels key).map List.length = tensors key) ∧
    ∀ r ∈ d.results, ∀ l ∈ r.levels, l.length = x.stop - x.start

theorem extendLevels_ok {lv levels : List (List κ)} (h : lv.length = levels.length) :
    extendLevels lv levels = .ok (List.zipWith (· ++ ·) lv levels) := by
  induction levels generalizing lv with
  | nil =>
    obtain rfl := List.length_eq_zero_iff.mp h
    rfl
  | cons kld_rows levels ih =>
    cases lv with
    | nil => cases h
    | cons l lv =>
      have hrest : lv.length = levels.length := Nat.succ.inj h
      rw [extendLevels, ih hrest]
      rfl

/-- Of results that list each tensor once, the one that is found by a result's key is this result. -/
theorem find?_key {results : List (Result κ)} (hkeys : (results.map (·.key)).Nodup) {r : Result κ}
    (hr : r ∈ results) : (results.find? fun r' => r'.key = r.key) = some r := by
  have hsome : (results.find? fun r' => r'.key = r.key).isSome :=
    List.find?_isSome.mpr ⟨r, hr, by simp⟩
  obtain ⟨r', hr'⟩ := Option.isSome_iff_exists.mp hsome
  have hkey : r'.key = r.key := by simpa using List.find?_some hr'
  rw [hr', List.inj_on_of_nodup_map hkeys (List.mem_of_find?_eq_some hr') hr hkey]

/-- One chunk's tensors: those it lists are extended, each by its own rows. -/
theorem addResults_spec {results : List (Result κ)} {per : PyDict String (List (List κ))}
    (hkeys : (results.map (·.key)).Nodup)
    (hlen : ∀ r ∈ results, ∀ lv, per.get? r.key = some lv → lv.length = r.levels.length) :
    ∃ per', results.foldlM addResult per = .ok per' ∧
      ∀ key, per'.get? key = match results.find? fun r => r.key = key with
        | some r => some (List.zipWith (· ++ ·)
            ((per.get? key).getD (r.levels.map fun _ => [])) r.levels)
        | none => per.get? key := by
  have hupdate : ∀ r ∈ results, ∀ per' : PyDict String (List (List κ)),
      per'.get? r.key = per.get? r.key →
      addResult per' r = .ok (per'.set r.key (List.zipWith (· ++ ·)
        ((per.get? r.key).getD (r.levels.map fun _ => [])) r.levels)) := by
    intro r hr per' hper'
    have hfits : ((per.get? r.key).getD (r.levels.map fun _ => [])).length = r.levels.length := by
      cases hper : per.get? r.key with
      | none => simp
      | some lv => exact hlen r hr lv hper
    rw [addResult, hper', extendLevels_ok hfits]
    rfl
  obtain ⟨per', hfold, hget⟩ := @PyDict.foldlM_update _ _ _ _ _ addResult (fun r => r.key)
    (fun r lv => List.zipWith (· ++ ·) (lv.getD (r.levels.map fun _ => [])) r.levels) _ _ hupdate hkeys
  refine ⟨per', hfold, fun key => ?_⟩
  rw [hget key]
  cases results.find? fun r => r.key = key with
  | none => rfl
  | some r => rfl

/-- What the chunks so far have given: for each tensor and level their KLs, one after the other. -/
def Gathered (dir : Dir ρ κ) (tensors : String → Option Nat) (chunks : List Chunk)
    (per : PyDict String (List (List κ))) : Prop :=
  ∀ key, per.get? key = if chunks = [] then none else
    (tensors key).map fun levels => (List.range levels).map fun i => chunks.flatMap (kldRows dir key i)

/-- The rows a chunk gives of a tensor are its levels there. -/
theorem levels_eq_kldRows {x : Chunk} {d : Measurement κ} {levels : List (List κ)} {key : String}
    (hd : x.measurement dir = some d) (hlevels : d.levels key = some levels) :
    levels = (List.range levels.length).map fun i => kldRows dir key i x := by
  apply List.ext_getElem
  · simp
  · intro i hi _
    simp [kldRows, hd, hlevels, hi]

/-- Rows put behind those that are there, level by level. -/
theorem zipWith_kldRows {x : Chunk} {d : Measurement κ} {levels : List (List κ)} {key : String}
    (hd : x.measurement dir = some d) (hlevels : d.levels key = some levels) (f : Nat → List κ) :
    List.zipWith (· ++ ·) ((List.range levels.length).map f) levels =
      (List.range levels.length).map fun i => f i ++ kldRows dir key i x := by
  conv_lhs =>
    arg 3
    rw [levels_eq_kldRows hd hlevels]
  simp [List.zipWith_map]

/-- One chunk more. -/
theorem Gathered.addChunk {tensors : String → Option Nat} {chunks : List Chunk}
    {per : PyDict String (List (List κ))} {x : Chunk} {d : Measurement κ}
    (h : Gathered dir tensors chunks per) (hd : x.measurement dir = some d)
    (hkeys : (d.results.map (·.key)).Nodup)
    (hlevels : ∀ key, (d.levels key).map List.length = tensors key) :
    ∃ per', d.results.foldlM addResult per = .ok per' ∧
      Gathered dir tensors (chunks ++ [x]) per' := by
  have hlen : ∀ r ∈ d.results, ∀ lv, per.get? r.key = some lv → lv.length = r.levels.length := by
    intro r hr lv hlv
    have htensor := hlevels r.key
    rw [Measurement.levels, find?_key hkeys hr] at htensor
    rw [h r.key, ← htensor] at hlv
    split_ifs at hlv
    obtain rfl := Option.some.inj hlv
    simp
  obtain ⟨per', hfold, hget⟩ := addResults_spec hkeys hlen
  refine ⟨per', hfold, fun key => ?_⟩
  rw [hget key, if_neg (by simp)]
  have htensor := hlevels key
  cases hr : d.results.find? fun r => r.key = key with
  | none =>
    rw [Measurement.levels, hr] at htensor
    have hnone : tensors key = none := htensor.symm
    rw [h key, hnone]
    simp
  | some r =>
    have hdlevels : d.levels key = some r.levels := by rw [Measurement.levels, hr]; rfl
    rw [hdlevels] at htensor
    have hsome : tensors key = some r.levels.length := htensor.symm
    have hempty : (r.levels.map fun _ => []) =
        (List.range r.levels.length).map fun _ => ([] : List κ) := by simp
    rw [h key, hsome]
    show some _ = some _
    congr 1
    split_ifs with hnil
    · subst hnil
      rw [Option.getD_none, hempty, zipWith_kldRows hd hdlevels]
      simp
    · rw [Option.map_some, Option.getD_some, zipWith_kldRows hd hdlevels]
      simp

/-- All chunks: the first is the template, and of every tensor that is listed there is the concatenation
of its rows. -/
theorem addChunks_spec {tensors : String → Option Nat} {todo done : List Chunk}
    {tmpl : Option (Measurement κ)} {per : PyDict String (List (List κ))}
    (h : Gathered dir tensors done per)
    (hsame : ∀ x ∈ todo, ∃ d, x.measurement dir = some d ∧ (d.results.map (·.key)).Nodup ∧
      ∀ key, (d.levels key).map List.length = tensors key) :
    ∃ per', todo.foldlM (addChunk dir) (tmpl, per) =
        .ok (tmpl.or (todo.head?.bind (·.measurement dir)), per') ∧
      Gathered dir tensors (done ++ todo) per' := by
  induction todo generalizing done tmpl per with
  | nil => exact ⟨per, by rw [List.head?_nil, Option.bind_none, Option.or_none]; rfl,
      by rwa [List.append_nil]⟩
  | cons x rest ih =>
    obtain ⟨d, hd, hkeys, hlevels⟩ := hsame x List.mem_cons_self
    obtain ⟨per₁, hfold, hper₁⟩ := h.addChunk hd hkeys hlevels
    have hfile : dir.get? x.file = some (.json d) := by
      unfold Chunk.measurement at hd
      split at hd
      · next d' hfile =>
        obtain rfl := Option.some.inj hd
        exact hfile
      · cases hd
    have hstep : addChunk dir (tmpl, per) x = .ok (tmpl.or (some d), per₁) := by
      rw [addChunk, hfile]
      show (d.results.foldlM addResult per >>= _) = _
      rw [hfold]
      rfl
    obtain ⟨per', hrest, hper'⟩ : ∃ per', rest.foldlM (addChunk dir) (tmpl.or (some d), per₁) =
          .ok ((tmpl.or (some d)).or (rest.head?.bind (·.measurement dir)), per') ∧
        Gathered dir tensors (done ++ [x] ++ rest) per' :=
      ih hper₁ fun y hy => hsame y (List.mem_cons_of_mem x hy)
    have htmpl : (tmpl.or (some d)).or (rest.head?.bind (·.measurement dir)) = tmpl.or (some d) := by
      cases tmpl <;> rfl
    rw [htmpl] at hrest
    refine ⟨per', ?_, by simpa using hper'⟩
    rw [List.foldlM_cons, hstep, List.head?_cons, Option.bind_some, hd]
    exact hrest

/-- The chunks of a category. -/
theorem gathered_categoryChunks {tensors : String → Option Nat} (hsame : SameTensors dir cat tensors) :
    ∃ per, (categoryChunks dir cat).foldlM (addChunk dir) (none, .empty) =
        .ok ((categoryChunks dir cat).head?.bind (·.measurement dir), per) ∧
      Gathered dir tensors (categoryChunks dir cat) per := by
  have hstart : Gathered dir tensors [] (.empty : PyDict String (List (List κ))) := fun _ => rfl
  have hlisted : ∀ x ∈ categoryChunks dir cat, ∃ d, x.measurement dir = some d ∧
      (d.results.map (·.key)).Nodup ∧ ∀ key, (d.levels key).map List.length = tensors key := by
    intro x hx
    obtain ⟨d, hd, hkeys, hlevels, -⟩ := hsame x hx
    exact ⟨d, hd, hkeys, hlevels⟩
  exact addChunks_spec hstart hlisted

/-- One KL for each row of a chunk. -/
theorem length_kldRows {tensors : String → Option Nat} (hsame : SameTensors dir cat tensors)
    {key : String} {levels i : Nat} (hkey : tensors key = some levels) (hi : i < levels) :
    ∀ x ∈ categoryChunks dir cat, (kldRows dir key i x).length = x.stop - x.start := by
  intro x hx
  obtain ⟨d, hd, -, hlevels, hrows⟩ := hsame x hx
  have htensor := hlevels key
  rw [hkey] at htensor
  obtain ⟨ls, hls, hcount⟩ := Option.map_eq_some_iff.mp htensor
  obtain ⟨r, hr, rfl⟩ := Option.map_eq_some_iff.mp hls
  have hlt : i < r.levels.length := by omega
  have hrow : kldRows dir key i x = r.levels[i] := by simp [kldRows, hd, hls, hlt]
  rw [hrow]
  exact hrows r (List.mem_of_find?_eq_some hr) _ (List.getElem_mem hlt)

/-- The concatenation of the chunks' rows is one KL for each row, in order. -/
theorem each_row_once {tensors : String → Option Nat} (htiled : Tiled dir cat n)
    (hsame : SameTensors dir cat tensors) {key : String} {levels i : Nat}
    (hkey : tensors key = some levels) (hi : i < levels) :
    ((categoryChunks dir cat).flatMap (kldRows dir key i)).length = n ∧
      ∀ row < n, ((categoryChunks dir cat).flatMap (kldRows dir key i))[row]? =
        rowKl dir cat key i row := by
  have hlen := length_kldRows hsame hkey hi
  refine ⟨Tiles.length_flatMap htiled hlen, fun row hrow => ?_⟩
  exact Tiles.getElem?_flatMap htiled hlen (Nat.zero_le row) hrow

/-! ## The runs -/

/-- What a run leaves of each category: its chunks tile the rows up to a number, at least the goal if
the run returned true; and where the chunks list the same tensors, `category_klds` returns for every
tensor and level one KL for each of these rows, in order, and the first of them where a number is
given. -/
structure Measured (cats : Categories ρ) (want : PyDict String Int) (dir : Dir ρ κ)
    (returned : Option Bool) : Prop where
  tiled : ∀ cat ∈ cats.rows.keys, ∃ n, Tiled dir cat n ∧
    (returned = some true → goal cats want cat ≤ n)
  klds : ∀ cat n tensors, Tiled dir cat n → SameTensors dir cat tensors →
    ∃ tmpl per, (∀ first, categoryKlds dir cat first = .ok (tmpl, firstRows first per)) ∧
      (∀ key, (per.get? key).map List.length = if n = 0 then none else tensors key) ∧
      ∀ key lv i l, per.get? key = some lv → lv[i]? = some l →
        l.length = n ∧ ∀ row < n, l[row]? = rowKl dir cat key i row

theorem klds_of_tiled {tensors : String → Option Nat} (htiled : Tiled dir cat n)
    (hsame : SameTensors dir cat tensors) :
    ∃ tmpl per, (∀ first, categoryKlds dir cat first = .ok (tmpl, firstRows first per)) ∧
      (∀ key, (per.get? key).map List.length = if n = 0 then none else tensors key) ∧
      ∀ key lv i l, per.get? key = some lv → lv[i]? = some l →
        l.length = n ∧ ∀ row < n, l[row]? = rowKl dir cat key i row := by
  obtain ⟨tmpl, per, hfold, hper⟩ : ∃ tmpl per,
      (categoryChunks dir cat).foldlM (addChunk dir) (none, .empty) = .ok (tmpl, per) ∧
        Gathered dir tensors (categoryChunks dir cat) per := by
    obtain ⟨per, hfold, hper⟩ := gathered_categoryChunks hsame
    exact ⟨_, per, hfold, hper⟩
  -- there are chunks exactly where there are rows
  have hzero : categoryChunks dir cat = [] ↔ n = 0 := by
    constructor
    · intro hnil
      rw [Tiled, hnil] at htiled
      exact htiled.symm
    · rintro rfl
      rw [List.eq_nil_iff_forall_not_mem]
      intro x hx
      obtain ⟨-, hlt, hle⟩ := Tiles.mem htiled (List.mem_map_of_mem (f := Chunk.range) hx)
      omega
  refine ⟨tmpl, per, fun first => ?_, fun key => ?_, fun key lv i l hlv hl => ?_⟩
  · rw [categoryKlds, hfold]
    rfl
  · rw [hper key]
    by_cases hn : n = 0
    · rw [if_pos (hzero.mpr hn), if_pos hn]
      rfl
    · rw [if_neg (hzero.not.mpr hn), if_neg hn, Option.map_map]
      simp [Function.comp_def]
  · rw [hper key] at hlv
    split_ifs at hlv
    obtain ⟨levels, hkey, rfl⟩ := Option.map_eq_some_iff.mp hlv
    have hi : i < levels := by
      have := (List.getElem?_eq_some_iff.mp hl).1
      simpa using this
    obtain rfl : (categoryChunks dir cat).flatMap (kldRows dir key i) = l := by
      simpa [hi] using hl
    exact each_row_once htiled hsame hkey hi

/-- Measured chunks tile each category, whatever sequence of runs made them: for every row counts
wanted, every child's end and every kill. -/
theorem do_measure_tiles (cats : Categories ρ) (hess : List ρ) (runs : List (Run ρ κ))
    (run : Run ρ κ) :
    Measured cats run.want (doMeasure cats hess (afterRuns cats hess runs) run).1
      (doMeasure cats hess (afterRuns cats hess runs) run).2 where
  tiled := doMeasure_spec run (tiled_afterRuns runs)
  klds _ _ _ htiled hsame := klds_of_tiled htiled hsame

/-! Two categories of one-token rows, and a run killed in the middle of its plan. -/

/-- 25 rows of own voice, 21 of source files in a user turn. -/
def twoSlices : Categories (List Nat) :=
  .ofTrace (List.map fun t => [t])
    [⟨"self", "", List.range 25, ⟨by decide, by decide⟩, by decide⟩,
      ⟨"ctx_user", "code", List.range 21, ⟨by decide, by decide⟩, by decide⟩] []

/-- A measurement of one tensor at one level: the KL of row `i` is `i`. -/
def rowNumbers (a b : Nat) : File (List Nat) Nat := .json ⟨[⟨"a", [List.range' a (b - a)]⟩]⟩

/-- Killed while rows 20 to 25 of its second category are measured. -/
def killedRun : Run (List Nat) Nat where
  want := .ofList [("self", 25), ("ctx_user:code", 5)]
  setup := some true
  attempts := [.ended 0 (some (rowNumbers 0 5)), .ended 0 (some (rowNumbers 0 20)), .killedMeasuring none]

/-- Every row wanted, and every child ends well. -/
def resumedRun : Run (List Nat) Nat where
  want := .ofList [("self", 25), ("ctx_user:code", 21)]
  setup := some true
  attempts := [.ended 0 (some (rowNumbers 5 21)), .ended 0 (some (rowNumbers 20 25))]

/-- The run after it measures the rows that are left of both. -/
theorem killedRun_resumed : ∀ cat ∈ ["self", "ctx_user:code"], ∃ n,
    Tiled (doMeasure twoSlices [] (afterRuns twoSlices [] [killedRun]) resumedRun).1 cat n ∧
      (twoSlices.available cat).length ≤ n := by
  have hreturned : (doMeasure twoSlices [] (afterRuns twoSlices [] [killedRun]) resumedRun).2 =
      some true := by decide +kernel
  have hgoal : ∀ cat ∈ ["self", "ctx_user:code"], cat ∈ twoSlices.rows.keys ∧
      goal twoSlices resumedRun.want cat = (twoSlices.available cat).length := by decide +kernel
  intro cat hcat
  obtain ⟨hkey, hall⟩ := hgoal cat hcat
  obtain ⟨n, htiled, hn⟩ := (do_measure_tiles twoSlices [] [killedRun] resumedRun).tiled cat hkey
  have hle := hn hreturned
  rw [hall] at hle
  exact ⟨n, htiled, by omega⟩

/-- The chunks of both categories. -/
example : (["self", "ctx_user:code"].map fun cat => ((categoryChunks
    (doMeasure twoSlices [] (afterRuns twoSlices [] [killedRun]) resumedRun).1 cat).map Chunk.range)) =
      [[(0, 20), (20, 25)], [(0, 5), (5, 21)]] := by
  decide +kernel

end VllmExl3.Measure
