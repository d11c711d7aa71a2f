/-
# VllmExl3.Lib.PyStr — the string operations of Python the development needs

`endswith`, `startswith`, `removesuffix`, `replace`, and dotted paths: `split(".")` and `".".join`.
They are defined on the characters, so they evaluate, and each has the one lemma its uses rest on: a
string ends with a suffix when it is a stem followed by it, splitting and joining are inverse on
components without a dot, and fields joined by a character they do not contain are read off from the
end. Nothing here names the repository.
-/
import Mathlib.Data.List.Infix
import Mathlib.Data.List.Induction
import Mathlib.Data.String.Basic

namespace VllmExl3.PyStr

/-! ## Affixes -/

/-- `s.endswith(suffix)` -/
def endswith (s suffix : String) : Bool := suffix.toList.isSuffixOf s.toList

/-- `s.startswith(pre)` -/
def startswith (s pre : String) : Bool := pre.toList.isPrefixOf s.toList

/-- `part in s` -/
def occursIn (part s : String) : Bool := part.toList <:+: s.toList

/-- `s[:-n]` for a positive `n`. -/
def dropEnd (s : String) (n : Nat) : String := String.ofList (s.toList.take (s.toList.length - n))

/-- `s[n:]` -/
def dropStart (s : String) (n : Nat) : String := String.ofList (s.toList.drop n)

/-- `s.removesuffix(suffix)` -/
def removesuffix (s suffix : String) : String :=
  if endswith s suffix then dropEnd s suffix.toList.length else s

/-- `s.lower()`, of ASCII. -/
def lower (s : String) : String := String.ofList (s.toList.map Char.toLower)

/-- The leftmost occurrences of `old`, none overlapping another, are replaced; `skip` characters of the
last one are still to come. -/
def replaceChars (old new : List Char) : Nat → List Char → List Char
  | _, [] => []
  | skip + 1, _ :: rest => replaceChars old new skip rest
  | 0, c :: rest =>
    if old.isPrefixOf (c :: rest) then new ++ replaceChars old new (old.length - 1) rest
    else c :: replaceChars old new 0 rest

/-- `s.replace(old, new)`, for an `old` that is not empty. -/
def replace (s old new : String) : String :=
  String.ofList (replaceChars old.toList new.toList 0 s.toList)

/-- A single character is replaced wherever it stands. -/
theorem toList_replace_char (s : String) (c : Char) (new : String) :
    (replace s (String.singleton c) new).toList =
      s.toList.flatMap fun x => if x = c then new.toList else [x] := by
  rw [replace, String.toList_ofList, String.toList_singleton]
  induction s.toList with
  | nil => rfl
  | cons x rest ih =>
    rw [List.flatMap_cons, ← ih]
    by_cases hx : x = c
    · subst hx
      simp [replaceChars]
    · have hne : c ≠ x := Ne.symm hx
      simp [replaceChars, hx, hne]

theorem endswith_iff {s suffix : String} : endswith s suffix = true ↔ ∃ stem, s = stem ++ suffix := by
  rw [endswith, List.isSuffixOf_iff_suffix]
  constructor
  · rintro ⟨stem, h⟩
    refine ⟨String.ofList stem, String.toList_injective ?_⟩
    rw [String.toList_append, String.toList_ofList, h]
  · rintro ⟨stem, rfl⟩
    exact ⟨stem.toList, String.toList_append.symm⟩

@[simp] theorem endswith_append (stem suffix : String) : endswith (stem ++ suffix) suffix = true :=
  endswith_iff.mpr ⟨stem, rfl⟩

theorem startswith_iff {s pre : String} : startswith s pre = true ↔ ∃ rest, s = pre ++ rest := by
  rw [startswith, List.isPrefixOf_iff_prefix]
  constructor
  · rintro ⟨rest, h⟩
    refine ⟨String.ofList rest, String.toList_injective ?_⟩
    rw [String.toList_append, String.toList_ofList, h]
  · rintro ⟨rest, rfl⟩
    exact ⟨rest.toList, String.toList_append.symm⟩

@[simp] theorem dropEnd_append (stem suffix : String) :
    dropEnd (stem ++ suffix) suffix.toList.length = stem := by
  apply String.toList_injective
  simp [dropEnd]

@[simp] theorem dropStart_append (pre rest : String) :
    dropStart (pre ++ rest) pre.toList.length = rest := by
  apply String.toList_injective
  simp [dropStart]

theorem append_right_cancel {a b suffix : String} (h : a ++ suffix = b ++ suffix) : a = b := by
  rw [← dropEnd_append a suffix, h, dropEnd_append]

/-- Of two suffixes of one string, one is a suffix of the other. -/
theorem endswith_comparable {s a b : String} (ha : endswith s a = true) (hb : endswith s b = true) :
    (endswith a b || endswith b a) = true := by
  rw [endswith, List.isSuffixOf_iff_suffix] at ha hb
  rw [Bool.or_eq_true, endswith, endswith, List.isSuffixOf_iff_suffix, List.isSuffixOf_iff_suffix]
  exact (List.suffix_or_suffix_of_suffix ha hb).symm

/-- Two different endings of one length do not fit the same string. -/
theorem not_endswith {s a b : String} (ha : endswith s a = true)
    (hab : (endswith a b || endswith b a) = false) : endswith s b = false := by
  cases hb : endswith s b with
  | false => rfl
  | true => exact absurd (endswith_comparable ha hb) (by rw [hab]; decide)

/-! ## Numbers -/

theorem toString_nat_injective {m n : Nat} (h : toString m = toString n) : m = n := by
  have hdigits : Nat.toDigits 10 m = Nat.toDigits 10 n := by
    rw [← Nat.toList_repr, ← Nat.toList_repr]
    exact congrArg String.toList h
  rw [← Nat.ofDigitChars_ten_toDigits (n := m), hdigits, Nat.ofDigitChars_ten_toDigits]

/-- A number filled up with zeros to `width` digits at least: `f"{n:0{width}d}"`. -/
def zeroPad (width n : Nat) : String :=
  let digits := (toString n).toList
  String.ofList (List.replicate (width - digits.length) '0' ++ digits)

theorem zeroPad_injective {width m n : Nat} (h : zeroPad width m = zeroPad width n) : m = n := by
  -- leading zeros do not change the number the digits stand for
  have value : ∀ n, Nat.ofDigitChars 10 (zeroPad width n).toList 0 = n := by
    intro n
    have zeros : ∀ k, List.foldl (fun sofar c => 10 * sofar + (Char.toNat c - '0'.toNat)) 0
        (List.replicate k '0') = 0 := by
      intro k
      induction k with
      | zero => rfl
      | succ k ih => simpa [List.replicate_succ] using ih
    have digits : (toString n).toList = Nat.toDigits 10 n := by
      rw [Nat.toString_eq_repr, Nat.toList_repr]
    rw [zeroPad, String.toList_ofList, digits, Nat.ofDigitChars_eq_foldl, List.foldl_append, zeros,
      ← Nat.ofDigitChars_eq_foldl, Nat.ofDigitChars_ten_toDigits]
  rw [← value m, h, value]

theorem isDigit_of_mem_toString {n : Nat} {c : Char} (h : c ∈ (toString n).toList) :
    c.isDigit = true := by
  rw [Nat.toString_eq_repr, Nat.toList_repr] at h
  exact Nat.isDigit_of_mem_toDigits (by decide) (by decide) h

theorem dot_notMem_toString (n : Nat) : '.' ∉ (toString n).toList :=
  fun h => absurd (isDigit_of_mem_toString h) (by decide)

/-- `str(a)` of an integer: digits, after a minus sign where it is negative. -/
theorem toString_int_eq (a : Int) : toString a =
    if 0 ≤ a then toString a.toNat else "-" ++ toString (-a).toNat := by
  rw [Int.toString_eq_repr, Int.repr_eq_if]
  rfl

theorem mem_toString_int {a : Int} {c : Char} (h : c ∈ (toString a).toList) :
    c = '-' ∨ c.isDigit = true := by
  rw [toString_int_eq] at h
  split_ifs at h
  · exact .inr (isDigit_of_mem_toString h)
  · rw [String.toList_append] at h
    rcases List.mem_append.mp h with hsign | hdigit
    · exact .inl (List.mem_singleton.mp hsign)
    · exact .inr (isDigit_of_mem_toString hdigit)

theorem toString_int_injective {a b : Int} (h : toString a = toString b) : a = b := by
  -- a number without a sign is not one with it
  have hsign : ∀ m n : Nat, toString m ≠ "-" ++ toString n := by
    intro m n heq
    have hmem : '-' ∈ (toString m).toList := by
      rw [heq, String.toList_append]
      exact List.mem_append_left _ (List.mem_singleton.mpr rfl)
    exact absurd (isDigit_of_mem_toString hmem) (by decide)
  rw [toString_int_eq a, toString_int_eq b] at h
  split_ifs at h with ha hb hb
  · have hnat := toString_nat_injective h
    omega
  · exact absurd h (hsign _ _)
  · exact absurd h.symm (hsign _ _)
  · have hdigits := congrArg String.toList h
    rw [String.toList_append, String.toList_append] at hdigits
    have hnat := toString_nat_injective (String.toList_injective (List.append_cancel_left hdigits))
    omega

/-! ## Fields -/

/-- What follows the last separator. -/
theorem eq_of_append_sep {α : Type*} {sep : α} {a b m n : List α} (hm : sep ∉ m) (hn : sep ∉ n)
    (h : a ++ sep :: m = b ++ sep :: n) : a = b ∧ m = n := by
  rcases List.append_eq_append_iff.mp h with ⟨mid, hmid, hrest⟩ | ⟨mid, hmid, hrest⟩
  · cases mid with
    | nil => exact ⟨by rw [hmid, List.append_nil], (List.cons.inj hrest).2⟩
    | cons c mid =>
      rw [List.cons_append, List.cons.injEq] at hrest
      exact absurd (by rw [hrest.2]; simp) hm
  · cases mid with
    | nil => exact ⟨by rw [hmid, List.append_nil], (List.cons.inj hrest).2.symm⟩
    | cons c mid =>
      rw [List.cons_append, List.cons.injEq] at hrest
      exact absurd (by rw [hrest.2]; simp) hn

/-- Text before fields that do not contain their separator: the fields are read off from the end, and
the text may contain anything. -/
theorem fields_injective {α : Type*} {sep : α} {a b : List α} {fs gs : List (List α)}
    (hlen : fs.length = gs.length) (hfs : ∀ f ∈ fs, sep ∉ f) (hgs : ∀ g ∈ gs, sep ∉ g)
    (h : a ++ fs.flatMap (sep :: ·) = b ++ gs.flatMap (sep :: ·)) : a = b ∧ fs = gs := by
  induction fs using List.reverseRecOn generalizing gs with
  | nil =>
    obtain rfl := List.length_eq_zero_iff.mp hlen.symm
    simpa using h
  | append_singleton fs f ih =>
    rcases List.eq_nil_or_concat gs with rfl | ⟨gs, g, rfl⟩
    · simp at hlen
    · rw [List.concat_eq_append] at hlen hgs h ⊢
      simp only [List.flatMap_append, List.flatMap_singleton, ← List.append_assoc] at h
      obtain ⟨hinit, rfl⟩ := eq_of_append_sep (hfs f (by simp)) (hgs g (by simp)) h
      have hshort : fs.length = gs.length := by simpa using hlen
      obtain ⟨rfl, rfl⟩ := ih hshort (fun f' hf' => hfs f' (List.mem_append_left _ hf'))
        (fun g' hg' => hgs g' (List.mem_append_left _ hg')) hinit
      exact ⟨rfl, rfl⟩

/-- `sep.join(parts)`, part by part. -/
theorem toList_intercalate_cons (sep : Char) (first : String) (parts : List String) :
    ((String.singleton sep).intercalate (first :: parts)).toList =
      first.toList ++ (parts.map String.toList).flatMap (sep :: ·) := by
  rw [String.toList_intercalate, String.toList_singleton, List.map_cons]
  induction parts generalizing first with
  | nil => simp
  | cons part rest ih =>
    rw [List.map_cons, List.intercalate_cons_cons, ih part, List.flatMap_cons]
    simp

/-! ## Dotted paths -/

/-- `s.split(".")` -/
def split (s : String) : List String := (s.toList.splitOn '.').map String.ofList

/-- `".".join(parts)` -/
def join (parts : List String) : String :=
  String.ofList (['.'].intercalate (parts.map String.toList))

@[simp] theorem join_split (s : String) : join (split s) = s := by
  rw [join, split, List.map_map]
  have hid : String.toList ∘ String.ofList = id := funext fun _ => String.toList_ofList
  rw [hid, List.map_id, List.intercalate_splitOn, String.ofList_toList]

theorem split_join {parts : List String} (hdot : ∀ p ∈ parts, '.' ∉ p.toList) (hne : parts ≠ []) :
    split (join parts) = parts := by
  rw [join, split, String.toList_ofList, List.splitOn_intercalate]
  · rw [List.map_map]
    have hid : String.ofList ∘ String.toList = id := funext fun _ => String.ofList_toList
    rw [hid, List.map_id]
  · intro l hl
    obtain ⟨p, hp, rfl⟩ := List.mem_map.mp hl
    exact hdot p hp
  · simpa using hne

theorem notMem_of_mem_splitOn {c : Char} {xs : List Char} {piece : List Char}
    (h : piece ∈ xs.splitOn c) : c ∉ piece := by
  induction xs generalizing piece with
  | nil => simp_all
  | cons x rest ih =>
    rw [List.splitOn_cons_eq_if_modifyHead] at h
    split_ifs at h with hx
    · rcases List.mem_cons.mp h with rfl | hrest
      · exact List.not_mem_nil
      · exact ih hrest
    · obtain ⟨first, others, hsplit⟩ := List.exists_cons_of_ne_nil (List.splitOn_ne_nil c rest)
      rw [hsplit, List.modifyHead_cons] at h
      rcases List.mem_cons.mp h with rfl | hother
      · have hfirst := ih (hsplit ▸ List.mem_cons_self)
        have hne : x ≠ c := by simpa using hx
        simp [hfirst, hne.symm]
      · exact ih (hsplit ▸ List.mem_cons_of_mem first hother)

/-- No component of a split path contains a dot. -/
theorem notMem_of_mem_split {s p : String} (h : p ∈ split s) : '.' ∉ p.toList := by
  obtain ⟨piece, hpiece, rfl⟩ := List.mem_map.mp h
  rw [String.toList_ofList]
  exact notMem_of_mem_splitOn hpiece

@[simp] theorem split_ne_nil (s : String) : split s ≠ [] := by
  simp [split]

theorem split_injective {a b : String} (h : split a = split b) : a = b := by
  rw [← join_split a, h, join_split]

/-- A path made of components of another splits back into them. -/
theorem split_join_of_subset {parts : List String} {s : String} (hsub : parts ⊆ split s)
    (hne : parts ≠ []) : split (join parts) = parts :=
  split_join (fun _ hp => notMem_of_mem_split (hsub hp)) hne

/-! ## Paths above one another -/

/-- The path `a` is `b` or one of its ancestors. -/
def AtOrAbove (a b : String) : Prop := split a <+: split b

/-- The path `a` is an ancestor of `b`. -/
def Above (a b : String) : Prop := AtOrAbove a b ∧ a ≠ b

instance (a b : String) : Decidable (AtOrAbove a b) := inferInstanceAs (Decidable (_ <+: _))
instance (a b : String) : Decidable (Above a b) := inferInstanceAs (Decidable (_ ∧ _))

theorem atOrAbove_iff {a b : String} : AtOrAbove a b ↔ a = b ∨ Above a b := by
  constructor
  · intro h
    by_cases heq : a = b
    · exact .inl heq
    · exact .inr ⟨h, heq⟩
  · rintro (rfl | h)
    · exact List.prefix_refl _
    · exact h.1

/-- The ancestors of a path are the joins of its proper, non-empty prefixes. -/
theorem above_iff {a b : String} :
    Above a b ↔ ∃ i, 1 ≤ i ∧ i < (split b).length ∧ a = join ((split b).take i) := by
  constructor
  · rintro ⟨hbegin, hne⟩
    have htake := List.prefix_iff_eq_take.mp hbegin
    refine ⟨(split a).length, List.length_pos_iff.mpr (split_ne_nil a), ?_, ?_⟩
    · refine lt_of_le_of_ne hbegin.length_le fun hlen => hne (split_injective ?_)
      exact hbegin.eq_of_length hlen
    · rw [← htake, join_split]
  · rintro ⟨i, hpos, hlt, rfl⟩
    have hne : (split b).take i ≠ [] := by
      rw [← List.length_pos_iff, List.length_take]
      omega
    have hsplit := split_join_of_subset (List.take_subset i (split b)) hne
    refine ⟨?_, fun heq => ?_⟩
    · rw [AtOrAbove, hsplit]
      exact List.take_prefix i _
    · rw [heq] at hsplit
      have hlen := congrArg List.length hsplit
      rw [List.length_take] at hlen
      omega

end VllmExl3.PyStr
