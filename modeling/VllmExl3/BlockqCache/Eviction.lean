/-
# VllmExl3.BlockqCache.Eviction — what an undisturbed `evict` leaves behind

`evict` walks the entries from the least recently used on, checks the ceiling before each, passes over
the one it keeps, and deletes the others. Here the system calls of `VllmExl3.BlockqCache.Model` are run
without anyone else's steps between them: `evictFrom` is the loop, `evict` the function, and
`evict_trace` says that a process takes exactly these steps.
-/
import VllmExl3.BlockqCache.Model
import Mathlib.Data.List.Perm.Subperm

namespace VllmExl3.BlockqCache

open PyStr

/-! ## Listing and statting -/

/-- What `os.listdir` returns for a directory that nobody else changes: the name of every file in it,
once. -/
structure Listing (root : String) (fs : FileSystem String) where
  names : List String
  nodup : names.Nodup
  no_slash : ∀ name ∈ names, '/' ∉ name.toList
  linked : ∀ name ∈ names, fs.lookup (PyPath.join root name) ≠ none
  complete : ∀ name, '/' ∉ name.toList → fs.lookup (PyPath.join root name) ≠ none → name ∈ names

/-- `(st.st_mtime_ns, st.st_size, path)` for one name; `none` where the name is skipped. -/
def statEntry (root : String) (fs : FileSystem String) (name : String) : Option Found :=
  if endswith name ".safetensors" then
    (fs.lookup (PyPath.join root name)).map fun ino =>
      ⟨(fs.inode ino).mtime, (fs.inode ino).data.length, PyPath.join root name⟩
  else none

/-- `found` -/
def statEntries (root : String) (fs : FileSystem String) (names : List String) : List Found :=
  names.filterMap (statEntry root fs)

/-! ## The loop -/

/-- The entries a run of the loop deleted, in order, and the directory it left. -/
structure EvictResult where
  deleted : List Found
  fs : FileSystem String

/-- The loop over `sorted(found)`, with `total` as it goes. A delete that finds no file is passed over. -/
def evictFrom (keep : String) (limit : Nat) : List Found → Int → FileSystem String → EvictResult
  | [], _, fs => ⟨[], fs⟩
  | f :: todo, total, fs =>
    if total ≤ limit then ⟨[], fs⟩
    else if f.path = keep then evictFrom keep limit todo total fs
    else if fs.lookup f.path = none then evictFrom keep limit todo (total - f.size) fs
    else
      let rest := evictFrom keep limit todo (total - f.size) (fs.unlink f.path)
      ⟨f :: rest.deleted, rest.fs⟩

/-- `evict(keep)` under the ceiling `limit` -/
def evict (root keep : String) (limit : Option Nat) (names : List String)
    (fs : FileSystem String) : EvictResult :=
  match limit with
  | none => ⟨[], fs⟩
  | some limit =>
    let found := statEntries root fs names
    evictFrom keep limit (sortFound found) (totalSize found) fs

/-! ## The loop as steps of a process -/

section Trace

variable {ρ : Type} {root : String} {codec : SafeTensors ρ} {pid : Nat}

/-- The path a step deletes. -/
def Label.deletes : Label ρ → List String
  | .evicted _ path => [path]
  | _ => []

/-- Steps of one process with nobody else's between them, and what they delete. -/
inductive Trace (root : String) (codec : SafeTensors ρ) (pid : Nat) :
    Pc ρ → FileSystem String → List String → Pc ρ → FileSystem String → Prop where
  | done (pc : Pc ρ) (fs : FileSystem String) : Trace root codec pid pc fs [] pc fs
  | step {pc pc' pc'' : Pc ρ} {fs fs' fs'' : FileSystem String} {label : Label ρ}
      {paths : List String} (h : Step root codec pid pc fs label pc' fs')
      (rest : Trace root codec pid pc' fs' paths pc'' fs'') :
      Trace root codec pid pc fs (label.deletes ++ paths) pc'' fs''

theorem evictFrom_trace (ev : EvictCall) (limit : Nat) (todo : List Found) (total : Int)
    (fs : FileSystem String) :
    Trace root codec pid (.evicting ev limit todo total) fs
      ((evictFrom ev.keep limit todo total fs).deleted.map Found.path) .idle
      (evictFrom ev.keep limit todo total fs).fs := by
  induction todo generalizing total fs with
  | nil => exact .step (.all_seen fs ev limit total) (.done _ fs)
  | cons f todo ih =>
    unfold evictFrom
    split_ifs with hfits hkeep hgone
    · exact .step (.fits fs ev limit f todo total hfits) (.done _ fs)
    · exact .step (.kept fs ev limit f todo total hfits hkeep) (ih total fs)
    · exact .step (.unlink_fails fs ev limit f todo total hfits hkeep) (ih _ fs)
    · exact .step (.unlink fs ev limit f todo total hfits hkeep hgone) (ih _ _)

theorem statEntries_trace (ev : EvictCall) (limit : Nat) (names : List String) (found : List Found)
    (fs : FileSystem String) {paths : List String} {pc : Pc ρ} {fs' : FileSystem String}
    (h : Trace root codec pid (.stating ev limit [] (found ++ statEntries root fs names)) fs paths
      pc fs') :
    Trace root codec pid (.stating ev limit names found) fs paths pc fs' := by
  induction names generalizing found with
  | nil => simpa [statEntries] using h
  | cons name names ih =>
    have hskip : statEntry root fs name = none →
        statEntries root fs (name :: names) = statEntries root fs names := by
      intro hnone
      rw [statEntries, List.filterMap_cons_none hnone, statEntries]
    by_cases hname : endswith name ".safetensors" = true
    · cases hino : fs.lookup (PyPath.join root name) with
      | none =>
        rw [hskip (by simp [statEntry, hino])] at h
        exact .step (.stat_fails fs ev limit name names found hname) (ih found h)
      | some ino =>
        have hstat : statEntry root fs name =
            some ⟨(fs.inode ino).mtime, (fs.inode ino).data.length, PyPath.join root name⟩ := by
          simp [statEntry, hname, hino]
        rw [statEntries, List.filterMap_cons_some hstat, ← statEntries, ← List.singleton_append,
          ← List.append_assoc] at h
        exact .step (.stat fs ev limit name names found ino hname hino) (ih _ h)
    · rw [hskip (by simp [statEntry, hname])] at h
      exact .step (.not_an_entry fs ev limit name names found (by simpa using hname)) (ih found h)

/-- A process that lists, stats and deletes undisturbed does what `evict` does. -/
theorem evict_trace (ev : EvictCall) (limit : Nat) (names : List String) (fs : FileSystem String) :
    Trace root codec pid (.listing ev limit) fs
      ((evict root ev.keep (some limit) names fs).deleted.map Found.path) .idle
      (evict root ev.keep (some limit) names fs).fs := by
  refine .step (.listdir fs ev limit names) (statEntries_trace ev limit names [] fs ?_)
  rw [List.nil_append]
  exact .step (.sort fs ev limit _) (evictFrom_trace ev limit _ _ fs)

end Trace

/-! ## What the loop deletes -/

section Loop

variable {keep : String} {limit : Nat}

/-- `sorted(found)` is the entries, in order. -/
theorem sortFound_perm (found : List Found) : (sortFound found).Perm found :=
  List.perm_insertionSort Found.le found

theorem totalSize_cons (f : Found) (found : List Found) :
    totalSize (f :: found) = f.size + totalSize found := by
  rw [totalSize, List.map_cons, List.sum_cons, totalSize]

theorem totalSize_perm {found found' : List Found} (h : found.Perm found') :
    totalSize found = totalSize found' := (h.map _).sum_eq

/-- What the loop has done, from any point of the walk on which every entry is still there. -/
structure Walked (keep : String) (limit : Nat) (todo : List Found) (total : Int)
    (fs : FileSystem String) (r : EvictResult) : Prop where
  /-- It deleted the first of the entries it does not keep, -/
  leading : r.deleted <+: todo.filter fun f => f.path ≠ keep
  /-- until what is left fits or none of them is left, -/
  enough : total - totalSize r.deleted ≤ limit ∨
    r.deleted = todo.filter fun f => f.path ≠ keep
  /-- and did not fit before the last of them was deleted. -/
  needed : ∀ f, r.deleted.getLast? = some f → limit < total - totalSize r.deleted + f.size
  lookup : ∀ path, r.fs.lookup path =
    if path ∈ r.deleted.map Found.path then none else fs.lookup path
  inode : r.fs.inode = fs.inode

/-- Passing over the entry kept. -/
theorem Walked.pass {f : Found} {todo : List Found} {total : Int} {fs : FileSystem String}
    {r : EvictResult} (hkeep : f.path = keep) (h : Walked keep limit todo total fs r) :
    Walked keep limit (f :: todo) total fs r := by
  have hfilter : ((f :: todo).filter fun f => f.path ≠ keep) =
      todo.filter fun f => f.path ≠ keep := by
    simp [hkeep]
  constructor
  · rw [hfilter]
    exact h.leading
  · rw [hfilter]
    exact h.enough
  · exact h.needed
  · exact h.lookup
  · exact h.inode

/-- Deleting an entry while the ceiling is exceeded. -/
theorem Walked.delete {f : Found} {todo : List Found} {total : Int} {fs : FileSystem String}
    {r : EvictResult} (hover : limit < total) (hkeep : f.path ≠ keep)
    (h : Walked keep limit todo (total - f.size) (fs.unlink f.path) r) :
    Walked keep limit (f :: todo) total fs ⟨f :: r.deleted, r.fs⟩ := by
  have hfilter : ((f :: todo).filter fun f => f.path ≠ keep) =
      f :: todo.filter fun f => f.path ≠ keep := by
    simp [hkeep]
  constructor
  · rw [hfilter]
    exact List.cons_prefix_cons.mpr ⟨rfl, h.leading⟩
  · rw [hfilter, totalSize_cons]
    rcases h.enough with henough | hall
    · exact .inl (by omega)
    · exact .inr (by rw [hall])
  · intro g hg
    rw [totalSize_cons]
    cases hrest : r.deleted with
    | nil =>
      -- the last entry deleted is this one
      rw [hrest] at hg
      obtain rfl : f = g := by simpa using hg
      have hnone : totalSize [] = 0 := rfl
      omega
    | cons e tail =>
      rw [hrest] at hg
      have hlast := h.needed g (by rw [hrest]; simpa using hg)
      rw [hrest] at hlast
      omega
  · intro path
    rw [h.lookup, FileSystem.lookup_unlink, List.map_cons]
    by_cases hpath : path = f.path
    · simp [hpath]
    · simp [hpath]
  · exact h.inode

/-- The induction over the walk: the entries ahead have different names and are all there. -/
theorem evictFrom_walked {todo : List Found} (hnodup : (todo.map Found.path).Nodup)
    {fs : FileSystem String} (hthere : ∀ f ∈ todo, fs.lookup f.path ≠ none) (total : Int) :
    Walked keep limit todo total fs (evictFrom keep limit todo total fs) := by
  induction todo generalizing total fs with
  | nil => exact ⟨List.prefix_rfl, .inr rfl, by simp [evictFrom], by simp [evictFrom], rfl⟩
  | cons f todo ih =>
    rw [List.map_cons, List.nodup_cons] at hnodup
    unfold evictFrom
    split_ifs with hfits hkeep hgone
    · refine ⟨List.nil_prefix, .inl ?_, by simp, by simp, rfl⟩
      simpa [totalSize] using hfits
    · apply Walked.pass hkeep
      exact ih hnodup.2 (fun g hg => hthere g (List.mem_cons_of_mem f hg)) total
    · exact absurd hgone (hthere f List.mem_cons_self)
    · apply Walked.delete (not_le.mp hfits) hkeep
      apply ih hnodup.2
      intro g hg
      have hne : g.path ≠ f.path := fun heq => hnodup.1 (List.mem_map.mpr ⟨g, hg, heq⟩)
      rw [FileSystem.lookup_unlink, if_neg hne]
      exact hthere g (List.mem_cons_of_mem f hg)

end Loop

/-! ## What `evict` guarantees -/

section Listed

variable {root : String} {fs : FileSystem String}

/-- Names without a slash give different paths. -/
theorem join_injective {name name' : String} (h : '/' ∉ name.toList) (h' : '/' ∉ name'.toList)
    (heq : PyPath.join root name = PyPath.join root name') : name = name' := by
  have hplain : ∀ n : String, '/' ∉ n.toList → startswith n "/" = false := by
    intro n hn
    by_contra hstart
    obtain ⟨rest, rfl⟩ := startswith_iff.mp (by simpa using hstart)
    exact hn (by simp)
  have hcancel : ∀ stem : String, stem ++ name = stem ++ name' → name = name' := by
    intro stem hstem
    apply String.toList_injective
    have hlist := congrArg String.toList hstem
    rw [String.toList_append, String.toList_append] at hlist
    exact List.append_cancel_left hlist
  unfold PyPath.join at heq
  rw [hplain name h, hplain name' h'] at heq
  simp only [Bool.false_eq_true, if_false] at heq
  split_ifs at heq
  · exact hcancel root heq
  · exact hcancel (root ++ "/") heq

theorem mem_statEntries {names : List String} {f : Found} (h : f ∈ statEntries root fs names) :
    ∃ name ∈ names, ∃ ino, fs.lookup f.path = some ino ∧ f.path = PyPath.join root name ∧
      statEntry root fs name = some f := by
  obtain ⟨name, hname, hstat⟩ := List.mem_filterMap.mp h
  refine ⟨name, hname, ?_⟩
  have hf := hstat
  unfold statEntry at hf
  split_ifs at hf
  obtain ⟨ino, hino, rfl⟩ := Option.map_eq_some_iff.mp hf
  exact ⟨ino, hino, rfl, hstat⟩

/-- The entries of a directory have different paths. -/
theorem statEntries_nodup (L : Listing root fs) :
    ((statEntries root fs L.names).map Found.path).Nodup := by
  apply List.pairwise_map.mpr
  apply List.pairwise_filterMap.mpr
  apply L.nodup.imp_of_mem
  intro name name' hname hname' hne f hf f' hf' heq
  apply hne
  have hpath : ∀ {n : String} {g : Found}, statEntry root fs n = some g →
      g.path = PyPath.join root n := by
    intro n g hg
    unfold statEntry at hg
    split_ifs at hg
    obtain ⟨ino, _, rfl⟩ := Option.map_eq_some_iff.mp hg
    rfl
  rw [hpath hf, hpath hf'] at heq
  exact join_injective (L.no_slash name hname) (L.no_slash name' hname') heq

/-- After some names are unlinked, the entries are those that were not. -/
theorem statEntries_unlinked {fs' : FileSystem String} {gone : List String}
    (hlookup : ∀ path, fs'.lookup path = if path ∈ gone then none else fs.lookup path)
    (hinode : fs'.inode = fs.inode) (names : List String) :
    statEntries root fs' names =
      (statEntries root fs names).filter fun f => f.path ∉ gone := by
  rw [statEntries, statEntries, List.filter_filterMap]
  apply List.filterMap_congr
  intro name _
  unfold statEntry
  rw [hlookup, hinode]
  split_ifs with hentry hgone
  · cases fs.lookup (PyPath.join root name) <;> simp [Option.filter, hgone]
  · cases fs.lookup (PyPath.join root name) <;> simp [Option.filter, hgone]
  · rfl

/-- The sizes of what is left and of what was deleted add up. -/
theorem totalSize_split {found deleted : List Found} (hnodup : (found.map Found.path).Nodup)
    (hsub : deleted.Sublist (sortFound found)) :
    totalSize (found.filter fun f => f.path ∉ deleted.map Found.path) + totalSize deleted =
      totalSize found := by
  have hsubset : ∀ f ∈ deleted, f ∈ found := fun f hf =>
    (sortFound_perm found).mem_iff.mp (hsub.subset hf)
  have hfound : found.Nodup := List.Nodup.of_map _ hnodup
  have hdeleted : deleted.Nodup := ((sortFound_perm found).nodup_iff.mpr hfound).sublist hsub
  have hinj := List.inj_on_of_nodup_map hnodup
  have hperm : (found.filter fun f => f.path ∈ deleted.map Found.path).Perm deleted := by
    apply (List.perm_ext_iff_of_nodup (hfound.filter _) hdeleted).mpr
    intro f
    simp only [List.mem_filter, List.mem_map, decide_eq_true_eq]
    constructor
    · rintro ⟨hf, g, hg, hpath⟩
      rwa [← hinj (hsubset g hg) hf hpath]
    · exact fun hf => ⟨hsubset f hf, f, hf, rfl⟩
  have hsplit := totalSize_perm
    (List.filter_append_perm (fun f : Found => f.path ∈ deleted.map Found.path) found)
  rw [totalSize, List.map_append, List.sum_append, ← totalSize, ← totalSize,
    totalSize_perm hperm] at hsplit
  have hnot : (found.filter fun f => f.path ∉ deleted.map Found.path) =
      found.filter fun f => !decide (f.path ∈ deleted.map Found.path) :=
    List.filter_congr fun f _ => decide_not
  rw [hnot, ← hsplit, Int.add_comm]

end Listed

/-- What `evict(keep)` under `limit` leaves of a directory: `left` are its entries afterwards. -/
structure Evicted (keep : String) (limit : Nat) (before left : List Found) (fs : FileSystem String)
    (r : EvictResult) : Prop where
  fits : totalSize left ≤ limit ∨ ∀ f ∈ left, f.path = keep
  kept : r.fs.lookup keep = fs.lookup keep
  /-- The least recently used go first: the deleted entries lead the others in order. -/
  leading : r.deleted <+: (sortFound before).filter fun f => f.path ≠ keep
  /-- Nothing but their names changes. -/
  frame : (∀ path, r.fs.lookup path =
    if path ∈ r.deleted.map Found.path then none else fs.lookup path) ∧ r.fs.inode = fs.inode
  needed : ∀ f, r.deleted.getLast? = some f → limit < totalSize left + f.size

/-- Sorted: earlier, then smaller, then by path. -/
theorem sortFound_pairwise (found : List Found) : (sortFound found).Pairwise Found.le := by
  have htotal : Std.Total Found.le := ⟨fun a b => by
    unfold Found.le
    have := le_total a.path b.path
    grind⟩
  have htrans : IsTrans Found Found.le := ⟨fun a b c => by
    unfold Found.le
    have := le_trans (a := a.path) (b := b.path) (c := c.path)
    grind⟩
  exact List.pairwise_insertionSort Found.le found

/-- Undisturbed, `evict` stops at the first point where the entries fit, or at the entry it keeps. -/
theorem evict_postcondition (root keep : String) (limit : Nat) (fs : FileSystem String)
    (L : Listing root fs) :
    Evicted keep limit (statEntries root fs L.names)
      (statEntries root (evict root keep (some limit) L.names fs).fs L.names) fs
      (evict root keep (some limit) L.names fs) := by
  have hnodup := statEntries_nodup L
  have hsorted := sortFound_perm (statEntries root fs L.names)
  have hwalk : Walked keep limit (sortFound (statEntries root fs L.names))
      (totalSize (statEntries root fs L.names)) fs
      (evict root keep (some limit) L.names fs) := by
    apply evictFrom_walked ((hsorted.map _).nodup_iff.mpr hnodup)
    intro f hf
    obtain ⟨_, _, ino, hino, _⟩ := mem_statEntries (hsorted.mem_iff.mp hf)
    simp [hino]
  set r := evict root keep (some limit) L.names fs
  have hothers : ∀ f ∈ r.deleted, f ∈ (sortFound (statEntries root fs L.names)).filter
      fun f => f.path ≠ keep := fun f hf => hwalk.leading.subset hf
  have hsub := hwalk.leading.sublist.trans List.filter_sublist
  have hsize := totalSize_split hnodup hsub
  rw [← statEntries_unlinked hwalk.lookup hwalk.inode] at hsize
  constructor
  · rcases hwalk.enough with henough | hall
    · exact .inl (by omega)
    · refine .inr fun f hf => ?_
      rw [statEntries_unlinked hwalk.lookup hwalk.inode, List.mem_filter] at hf
      by_contra hother
      have hdeleted : f ∈ r.deleted := by
        rw [hall, List.mem_filter]
        exact ⟨hsorted.mem_iff.mpr hf.1, by simpa using hother⟩
      simp only [decide_eq_true_eq] at hf
      exact hf.2 (List.mem_map.mpr ⟨f, hdeleted, rfl⟩)
  · rw [hwalk.lookup, if_neg]
    intro hgone
    obtain ⟨f, hf, hpath⟩ := List.mem_map.mp hgone
    have hne := (List.mem_filter.mp (hothers f hf)).2
    simp [hpath] at hne
  · exact hwalk.leading
  · exact ⟨hwalk.lookup, hwalk.inode⟩
  · intro f hf
    have hneeded := hwalk.needed f hf
    omega

/-! ### Four entries, of which the second oldest is kept -/

/-- A file of this size, written at this time. -/
def filed (fs : FileSystem String) (path : String) (size now : Nat) : FileSystem String :=
  (fs.create path now).append (fs.createIno path) (List.replicate size 0) now

/-- Eighteen bytes in four entries, and a file that is none. -/
def fourEntries : FileSystem String :=
  filed (filed (filed (filed (filed .empty "/cache/d.safetensors" 6 40) "/cache/b.safetensors" 4 20)
    "/cache/README" 9 5) "/cache/a.safetensors" 3 10) "/cache/c.safetensors" 5 30

def fourNames : List String :=
  ["README", "a.safetensors", "b.safetensors", "c.safetensors", "d.safetensors"]

def fourListing : Listing "/cache" fourEntries where
  names := fourNames
  nodup := by decide
  no_slash := by decide
  linked := by decide
  complete := by
    intro name hname hlinked
    obtain ⟨ino, hino⟩ := Option.ne_none_iff_exists'.mp hlinked
    have hkeys : fourEntries.names.keys ⊆ fourNames.map (PyPath.join "/cache") := by decide
    obtain ⟨listed, hlisted, heq⟩ := List.mem_map.mp (hkeys (PyDict.mem_keys_of_get? hino))
    have hplain : ∀ listed ∈ fourNames, '/' ∉ listed.toList := by decide
    rwa [← join_injective (hplain listed hlisted) hname heq]

/-- The oldest goes, the one that is kept is passed over, the third goes, and the rest fits. -/
theorem fourEntries_evicted :
    Evicted "/cache/b.safetensors" 12 (statEntries "/cache" fourEntries fourNames)
      (statEntries "/cache"
        (evict "/cache" "/cache/b.safetensors" (some 12) fourNames fourEntries).fs fourNames)
      fourEntries (evict "/cache" "/cache/b.safetensors" (some 12) fourNames fourEntries) ∧
    (evict "/cache" "/cache/b.safetensors" (some 12) fourNames fourEntries).deleted.map Found.path =
      ["/cache/a.safetensors", "/cache/c.safetensors"] :=
  ⟨evict_postcondition "/cache" "/cache/b.safetensors" 12 fourEntries fourListing, by decide⟩

end VllmExl3.BlockqCache
