/-
# VllmExl3.Lib.PyLines — lines and words of a text

`bytes.splitlines`, and the lines that begin with a marker: appending after a line break adds lines and
changes none, whatever the text before ends with, and a text that is cut off has no marked line where
the whole has none. Then words with a space before each, and where a pattern that begins with a space
can occur among them. Nothing here names the repository.
-/
import VllmExl3.Lib.PyStr

namespace VllmExl3.PyLines

/-- A text of two parts, cut off: in the first part, or in the second. -/
theorem prefix_append {α : Type*} {p u v : List α} (h : p <+: u ++ v) :
    p <+: u ∨ ∃ t, p = u ++ t ∧ t <+: v := by
  rcases List.prefix_or_prefix_of_prefix h (List.prefix_append u v) with hshort | ⟨t, rfl⟩
  · exact .inl hshort
  · exact .inr ⟨t, rfl, (List.prefix_append_right_inj u).mp h⟩

/-! ## Lines -/

/-- `bytes.splitlines()`: a line ends at `\n`, `\r` or `\r\n`, and there is none after the last end. -/
def splitlines : List Char → List (List Char)
  | [] => []
  | c :: rest =>
    -- the two characters `\r\n` are one end
    if c = '\r' ∧ rest.head? = some '\n' then splitlines rest
    else if c = '\n' ∨ c = '\r' then [] :: splitlines rest
    else match splitlines rest with
      | [] => [[c]]
      | l :: ls => (c :: l) :: ls

theorem splitlines_ne_nil {s : List Char} (h : s ≠ []) : splitlines s ≠ [] := by
  induction s with
  | nil => exact absurd rfl h
  | cons c rest ih =>
    rw [splitlines]
    split_ifs with hcrlf
    · apply ih
      rintro rfl
      cases hcrlf.2
    · exact List.cons_ne_nil _ _
    · split <;> exact List.cons_ne_nil _ _

/-- What follows a line break begins a line; at most an empty one is between. -/
theorem splitlines_append_newline (s t : List Char) : ∃ e, (e = [] ∨ e = [[]]) ∧
    splitlines (s ++ '\n' :: t) = splitlines s ++ e ++ splitlines t := by
  induction s with
  | nil => exact ⟨[[]], .inr rfl, rfl⟩
  | cons c rest ih =>
    obtain ⟨e, he, h⟩ := ih
    rw [List.cons_append, splitlines, splitlines]
    cases rest with
    | nil =>
      by_cases hr : c = '\r'
      · subst hr
        exact ⟨[], .inl rfl, rfl⟩
      · by_cases hn : c = '\n'
        · subst hn
          exact ⟨[[]], .inr rfl, rfl⟩
        · refine ⟨[], .inl rfl, ?_⟩
          simp [splitlines, hr, hn]
    | cons c' rest =>
      refine ⟨e, he, ?_⟩
      have hhead : ((c' :: rest) ++ '\n' :: t).head? = (c' :: rest).head? := rfl
      rw [hhead, h]
      split_ifs
      · rfl
      · rfl
      · cases hlines : splitlines (c' :: rest) with
        | nil => exact absurd hlines (splitlines_ne_nil (List.cons_ne_nil _ _))
        | cons l ls => rfl

/-- A text without line breaks is one line, if there is anything. -/
theorem splitlines_line {s : List Char} (hn : '\n' ∉ s) (hr : '\r' ∉ s) :
    splitlines s = if s = [] then [] else [s] := by
  induction s with
  | nil => rfl
  | cons c rest ih =>
    rw [List.mem_cons, not_or] at hn hr
    rw [splitlines, if_neg (fun h => hr.1 h.1.symm), if_neg (by simp [Ne.symm hn.1, Ne.symm hr.1]),
      ih hn.2 hr.2, if_neg (List.cons_ne_nil _ _)]
    cases rest with
    | nil => rfl
    | cons c' rest => rfl

/-- The lines of a text that is cut off: the first lines of the whole, the last of them perhaps cut. -/
theorem splitlines_take {p s : List Char} (h : p <+: s) :
    ∃ ls, List.Forall₂ (· <+: ·) (splitlines p) ls ∧ ls <+: splitlines s := by
  induction s generalizing p with
  | nil =>
    obtain rfl := List.prefix_nil.mp h
    exact ⟨[], .nil, List.nil_prefix⟩
  | cons c rest ih =>
    cases p with
    | nil => exact ⟨[], .nil, List.nil_prefix⟩
    | cons c' p =>
      obtain ⟨rfl, hp⟩ := List.cons_prefix_cons.mp h
      obtain ⟨ls, hls, hfirst⟩ := ih hp
      have hhead : p.head? = some '\n' → rest.head? = some '\n' := by
        intro hnewline
        obtain ⟨tail, rfl⟩ := hp
        cases p with
        | nil => cases hnewline
        | cons _ _ => exact hnewline
      rw [splitlines, splitlines]
      by_cases hcrlf : c' = '\r' ∧ rest.head? = some '\n'
      · rw [if_pos hcrlf]
        cases p with
        | nil =>
          -- cut between `\r` and `\n`: the same line has ended
          obtain ⟨rfl, hnewline⟩ := hcrlf
          obtain ⟨tail, rfl⟩ := List.head?_eq_some_iff.mp hnewline
          exact ⟨[[]], .cons List.nil_prefix .nil, ⟨splitlines tail, rfl⟩⟩
        | cons c p =>
          have hsame : (c :: p).head? = some '\n' := by
            obtain ⟨tail, rfl⟩ := hp
            exact hcrlf.2
          rw [if_pos ⟨hcrlf.1, hsame⟩]
          exact ⟨ls, hls, hfirst⟩
      · rw [if_neg hcrlf, if_neg fun h => hcrlf ⟨h.1, hhead h.2⟩]
        split_ifs with hbreak
        · exact ⟨[] :: ls, .cons List.nil_prefix hls, List.cons_prefix_cons.mpr ⟨rfl, hfirst⟩⟩
        · -- the character joins the first of the lines that follow
          generalize splitlines p = ps at hls
          generalize splitlines rest = rs at hfirst
          cases hls with
          | nil =>
            cases rs with
            | nil => exact ⟨[[c']], .cons List.prefix_rfl .nil, List.prefix_rfl⟩
            | cons r rs =>
              exact ⟨[c' :: r], .cons (List.cons_prefix_cons.mpr ⟨rfl, List.nil_prefix⟩) .nil, ⟨rs, rfl⟩⟩
          | @cons p₀ l₀ ps ls hl hls =>
            obtain ⟨tail, rfl⟩ := hfirst
            refine ⟨(c' :: l₀) :: ls, .cons (List.cons_prefix_cons.mpr ⟨rfl, hl⟩) hls, ⟨tail, rfl⟩⟩

section Marked

variable (pre : List Char)

/-- `[l for l in text.splitlines() if l.startswith(pre)]` -/
def marked (text : List Char) : List (List Char) :=
  (splitlines text).filter fun l => pre.isPrefixOf l

variable {pre}

theorem marked_append_newline (hpre : pre ≠ []) (s t : List Char) :
    marked pre (s ++ '\n' :: t) = marked pre s ++ marked pre t := by
  obtain ⟨e, he, h⟩ := splitlines_append_newline s t
  have hempty : e.filter (fun l => pre.isPrefixOf l) = [] := by
    rcases he with rfl | rfl
    · rfl
    · cases pre with
      | nil => exact absurd rfl hpre
      | cons _ _ => rfl
  rw [marked, h, List.filter_append, List.filter_append, hempty, List.append_nil, marked, marked]

/-- A text without line breaks is a marked line, or there is none. -/
theorem marked_line {s : List Char} (hn : '\n' ∉ s) (hr : '\r' ∉ s) :
    marked pre s = [] ∨ marked pre s = [s] := by
  rw [marked, splitlines_line hn hr]
  split_ifs
  · exact .inl rfl
  · rw [List.filter_singleton]
    cases pre.isPrefixOf s
    · exact .inl rfl
    · exact .inr rfl

theorem marked_self {s : List Char} (hpre : pre ≠ []) (hn : '\n' ∉ s) (hr : '\r' ∉ s) (h : pre <+: s) :
    marked pre s = [s] := by
  have hne : s ≠ [] := by
    rintro rfl
    exact hpre (List.prefix_nil.mp h)
  rw [marked, splitlines_line hn hr, if_neg hne, List.filter_singleton,
    List.isPrefixOf_iff_prefix.mpr h]
  rfl

/-- Where a text has no marked line, it has none wherever it is cut off. -/
theorem marked_eq_nil_of_prefix {p s : List Char} (h : p <+: s) (hs : marked pre s = []) :
    marked pre p = [] := by
  obtain ⟨ls, hls, hfirst⟩ := splitlines_take h
  have hcut : ∀ l ∈ splitlines p, ∃ l' ∈ ls, l <+: l' := by
    clear hfirst
    generalize splitlines p = ps at hls
    induction hls with
    | nil => exact fun l hl => nomatch hl
    | @cons p₀ l₀ ps ls hl₀ _ ih =>
      intro l hl
      rcases List.mem_cons.mp hl with rfl | hl
      · exact ⟨l₀, List.mem_cons_self, hl₀⟩
      · obtain ⟨l', hl', hcut⟩ := ih l hl
        exact ⟨l', List.mem_cons_of_mem l₀ hl', hcut⟩
  rw [marked, List.filter_eq_nil_iff] at hs ⊢
  intro l hl hmarked
  obtain ⟨l', hl', hlonger⟩ := hcut l hl
  apply hs l' (hfirst.subset hl')
  exact List.isPrefixOf_iff_prefix.mpr ((List.isPrefixOf_iff_prefix.mp hmarked).trans hlonger)

end Marked

/-! ## Words -/

/-- `part in text` -/
def occurs (part text : List Char) : Bool := part <:+: text

theorem occurs_iff {part text : List Char} : occurs part text = true ↔ part <:+: text :=
  decide_eq_true_iff

theorem occurs_eq_false {part text : List Char} : occurs part text = false ↔ ¬ part <:+: text :=
  decide_eq_false_iff_not

/-- The words, each after a space. -/
def spaced (ws : List String) : List Char := ws.flatMap fun w => ' ' :: w.toList

@[simp] theorem spaced_nil : spaced [] = [] := rfl

@[simp] theorem spaced_cons (w : String) (ws : List String) :
    spaced (w :: ws) = ' ' :: w.toList ++ spaced ws := rfl

theorem spaced_append (ws vs : List String) : spaced (ws ++ vs) = spaced ws ++ spaced vs :=
  List.flatMap_append

theorem spaced_starts (ws : List String) : spaced ws = [] ∨ (spaced ws).head? = some ' ' := by
  cases ws with
  | nil => exact .inl rfl
  | cons w ws => exact .inr rfl

/-- `" " + " ".join(ws)` -/
theorem space_join {ws : List String} (h : ws ≠ []) :
    ' ' :: (" ".intercalate ws).toList = spaced ws := by
  cases ws with
  | nil => exact absurd rfl h
  | cons w ws =>
    have hsep : " " = String.singleton ' ' := by decide
    rw [hsep, PyStr.toList_intercalate_cons, List.flatMap_map]
    rfl

/-- A space, a word and a space, in two texts of which the second begins with a space: they are in the
second, or the word ends the first. -/
theorem cut_word {w u v x y : List Char} (hw : ' ' ∉ w) (hu : ¬ ' ' :: (w ++ [' ']) <:+: u)
    (hv : v = [] ∨ v.head? = some ' ') (h : x ++ ' ' :: (w ++ ' ' :: y) = u ++ v) :
    (∃ x', x = u ++ x' ∧ v = x' ++ ' ' :: (w ++ ' ' :: y)) ∨ u = x ++ ' ' :: w ∧ v = ' ' :: y := by
  rcases List.append_eq_append_iff.mp h with ⟨k, hk, hrest⟩ | ⟨x', hx', hrest⟩
  · cases k with
    | nil =>
      left
      refine ⟨[], ?_, hrest.symm⟩
      rw [List.append_nil] at hk ⊢
      exact hk.symm
    | cons c k =>
      obtain ⟨rfl, hword⟩ := List.cons.inj hrest
      rcases List.append_eq_append_iff.mp hword with ⟨k', rfl, hspace⟩ | ⟨k', rfl, hspace⟩
      · cases k' with
        | nil =>
          rw [List.append_nil] at hk
          exact .inr ⟨hk, hspace.symm⟩
        | cons c k' =>
          obtain ⟨rfl, -⟩ := List.cons.inj hspace
          refine absurd ⟨x, k', ?_⟩ hu
          rw [hk]
          simp
      · cases k' with
        | nil =>
          rw [List.append_nil]
          exact .inr ⟨hk, hspace⟩
        | cons c k' =>
          -- the second text would begin inside the word
          rcases hv with rfl | hv
          · cases hspace
          · rw [hspace] at hv
            obtain rfl := Option.some.inj hv
            simp at hw
  · exact .inl ⟨x', hx', hrest⟩

/-- Where a character of the word is not in the first text, they are in the second. -/
theorem infix_of_append {w u v rest : List Char} {c : Char} (hw : ' ' ∉ w) (hc : c ∈ w) (hu : c ∉ u)
    (hv : v = [] ∨ v.head? = some ' ') (h : ' ' :: (w ++ ' ' :: rest) <:+: u ++ v) :
    ' ' :: (w ++ ' ' :: rest) <:+: v := by
  obtain ⟨x, y, hxy⟩ := h
  have hnot : ¬ ' ' :: (w ++ [' ']) <:+: u := fun hin => hu (hin.subset (by simp [hc]))
  have hocc : x ++ ' ' :: (w ++ ' ' :: (rest ++ y)) = u ++ v := by simpa using hxy
  rcases cut_word hw hnot hv hocc with ⟨x', -, hv'⟩ | ⟨hu', -⟩
  · exact ⟨x', y, by rw [hv']; simp⟩
  · rw [hu'] at hu
    simp [hc] at hu

/-- Among words they are at the end of one and the beginning of the next, where no word has them inside. -/
theorem cut_words {w x y : List Char} {ws : List String} (hw : ' ' ∉ w)
    (hws : ∀ v ∈ ws, ¬ ' ' :: (w ++ [' ']) <:+: ' ' :: v.toList)
    (h : x ++ ' ' :: (w ++ ' ' :: y) = spaced ws) :
    ∃ ws₁ v v' ws₂, ws = ws₁ ++ v :: v' :: ws₂ ∧ ' ' :: w <:+ ' ' :: v.toList ∧
      y = v'.toList ++ spaced ws₂ := by
  induction ws generalizing x with
  | nil => simp at h
  | cons v ws ih =>
    rcases cut_word hw (hws v List.mem_cons_self) (spaced_starts ws) h with ⟨x', -, hrest⟩ | ⟨hv, hrest⟩
    · obtain ⟨ws₁, v₁, v₂, ws₂, rfl, hend, hy⟩ :=
        ih (fun v' hv' => hws v' (List.mem_cons_of_mem v hv')) hrest.symm
      exact ⟨v :: ws₁, v₁, v₂, ws₂, rfl, hend, hy⟩
    · cases ws with
      | nil => cases hrest
      | cons v' ws₂ =>
        rw [spaced_cons, List.cons_append] at hrest
        exact ⟨[], v, v', ws₂, rfl, ⟨x, hv.symm⟩, (List.cons.inj hrest).2.symm⟩

/-- What comes before the first separator. -/
theorem eq_of_sep_append {α : Type*} {sep : α} {a b m n : List α} (ha : sep ∉ a) (hb : sep ∉ b)
    (h : a ++ sep :: m = b ++ sep :: n) : a = b ∧ m = n := by
  rcases List.append_eq_append_iff.mp h with ⟨k, rfl, hk⟩ | ⟨k, rfl, hk⟩
  · cases k with
    | nil => exact ⟨(List.append_nil a).symm, (List.cons.inj hk).2⟩
    | cons c k =>
      obtain ⟨rfl, -⟩ := List.cons.inj hk
      simp at hb
  · cases k with
    | nil => exact ⟨List.append_nil b, (List.cons.inj hk).2.symm⟩
    | cons c k =>
      obtain ⟨rfl, -⟩ := List.cons.inj hk
      simp at ha

end VllmExl3.PyLines
