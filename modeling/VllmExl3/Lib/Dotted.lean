/-
# VllmExl3.Lib.Dotted — a dotted name as a path and its last component

Every string with a dot is `path.name` for exactly one `name` without one. Affix questions about such
a string then split into one about the path and one about the last component. Nothing here names the
repository.
-/
import VllmExl3.Lib.PyStr

namespace VllmExl3.PyStr

/-- `f"{path}.{name}"` -/
def dotted (path name : String) : String := path ++ "." ++ name

/-- A string without a dot. -/
def Undotted (s : String) : Prop := '.' ∉ s.toList

instance (s : String) : Decidable (Undotted s) := inferInstanceAs (Decidable (¬_))

variable {p q s x y name suffix : String}

theorem toList_dotted : (dotted p x).toList = p.toList ++ '.' :: x.toList := by
  rw [dotted, String.toList_append, String.toList_append, List.append_assoc]
  rfl

/-- Extending the path to the left. -/
theorem append_dotted (stem : String) : stem ++ dotted s y = dotted (stem ++ s) y := by
  rw [dotted, dotted, String.append_assoc, String.append_assoc, String.append_assoc]

theorem not_undotted_dotted : ¬Undotted (dotted p x) := by
  intro h
  apply h
  rw [toList_dotted]
  exact List.mem_append_right _ List.mem_cons_self

/-- The last separator cuts a list in one way only. -/
theorem append_cons_inj {α : Type*} {c : α} {a b u v : List α} (hu : c ∉ u) (hv : c ∉ v)
    (h : a ++ c :: u = b ++ c :: v) : a = b ∧ u = v := by
  rcases List.append_eq_append_iff.mp h with ⟨w, rfl, hw⟩ | ⟨w, rfl, hw⟩
  · cases w with
    | nil => exact ⟨(List.append_nil a).symm, (List.cons.inj hw).2⟩
    | cons d rest =>
      obtain ⟨rfl, rfl⟩ := List.cons.inj hw
      exact absurd (List.mem_append_right rest List.mem_cons_self) hu
  · cases w with
    | nil => exact ⟨List.append_nil b, (List.cons.inj hw).2.symm⟩
    | cons d rest =>
      obtain ⟨rfl, rfl⟩ := List.cons.inj hw
      exact absurd (List.mem_append_right rest List.mem_cons_self) hv

theorem dotted_inj (hx : Undotted x) (hy : Undotted y) :
    dotted p x = dotted q y ↔ p = q ∧ x = y := by
  constructor
  · intro h
    have hlist := congrArg String.toList h
    rw [toList_dotted, toList_dotted] at hlist
    obtain ⟨hpath, hname⟩ := append_cons_inj hx hy hlist
    exact ⟨String.toList_injective hpath, String.toList_injective hname⟩
  · rintro ⟨rfl, rfl⟩
    rfl

theorem dotted_name_inj : dotted p x = dotted p y ↔ x = y := by
  constructor
  · intro h
    have hlist := congrArg String.toList h
    rw [toList_dotted, toList_dotted] at hlist
    exact String.toList_injective (List.cons.inj (List.append_cancel_left hlist)).2
  · rintro rfl
    rfl

/-- A string with a dot is a path and a last component. -/
theorem exists_dotted (h : ¬Undotted s) : ∃ p x, Undotted x ∧ s = dotted p x := by
  have hmem : '.' ∈ s.toList.reverse := List.mem_reverse.mpr (not_not.mp h)
  obtain ⟨first, rest, hsplit, hfirst⟩ := List.eq_append_cons_of_mem hmem
  refine ⟨String.ofList rest.reverse, String.ofList first.reverse, ?_, ?_⟩
  · rw [Undotted, String.toList_ofList, List.mem_reverse]
    exact hfirst
  · apply String.toList_injective
    rw [toList_dotted, String.toList_ofList, String.toList_ofList, ← List.reverse_reverse s.toList,
      hsplit]
    simp

/-! ## Affixes -/

theorem endswith_dotted (hx : Undotted x) (hy : Undotted y) :
    endswith (dotted p x) (dotted s y) = true ↔ endswith p s = true ∧ x = y := by
  constructor
  · intro h
    obtain ⟨stem, hstem⟩ := endswith_iff.mp h
    rw [append_dotted, dotted_inj hx hy] at hstem
    exact ⟨endswith_iff.mpr ⟨stem, hstem.1⟩, hstem.2⟩
  · rintro ⟨hpath, rfl⟩
    obtain ⟨stem, rfl⟩ := endswith_iff.mp hpath
    rw [← append_dotted]
    exact endswith_append _ _

/-- A suffix without a dot lies in the last component. -/
theorem endswith_of_dotted (hsuffix : Undotted suffix)
    (h : endswith (dotted p x) suffix = true) : endswith x suffix = true := by
  have hx : endswith (dotted p x) x = true := endswith_append _ x
  have hboth := endswith_comparable hx h
  rcases Bool.or_eq_true_iff.mp hboth with hle | hle
  · exact hle
  · -- a longer suffix would hold the dot
    obtain ⟨longer, rfl⟩ := endswith_iff.mp hle
    obtain ⟨stem, hstem⟩ := endswith_iff.mp h
    rw [dotted, ← String.append_assoc] at hstem
    have hcut : p ++ "." = stem ++ longer := append_right_cancel hstem
    have hlist := congrArg String.toList hcut
    rw [String.toList_append, String.toList_append] at hlist
    rcases List.eq_nil_or_concat longer.toList with hnil | ⟨init, last, hlast⟩
    · rw [String.toList_eq_nil_iff.mp hnil, String.empty_append]
      exact endswith_iff.mpr ⟨"", (String.empty_append).symm⟩
    · rw [hlast, List.concat_eq_append, ← List.append_assoc] at hlist
      have hdot : ['.'] = [last] := (List.append_inj' hlist rfl).2
      refine absurd ?_ hsuffix
      rw [String.toList_append, hlast, ← (List.cons.inj hdot).1]
      simp

theorem endswith_dotted_of_name (h : endswith x suffix = true) :
    endswith (dotted p x) suffix = true := by
  obtain ⟨stem, rfl⟩ := endswith_iff.mp h
  refine endswith_iff.mpr ⟨p ++ "." ++ stem, ?_⟩
  rw [dotted, ← String.append_assoc]

/-- What begins with the component `q` is named directly under it or lies deeper. -/
theorem startswith_dotted (hq : Undotted q) (h : startswith (dotted p x) (q ++ ".") = true) :
    p = q ∨ startswith p (q ++ ".") = true := by
  obtain ⟨rest, hrest⟩ := startswith_iff.mp h
  have hlist := congrArg String.toList hrest
  rw [toList_dotted, String.toList_append] at hlist
  rcases List.append_eq_append_iff.mp hlist with ⟨w, hw, hcut⟩ | ⟨w, hw, hcut⟩
  · rw [String.toList_append] at hw
    cases w with
    | nil =>
      right
      refine startswith_iff.mpr ⟨"", String.toList_injective ?_⟩
      rw [String.toList_append, String.toList_append, hw]
      simp
    | cons c more =>
      obtain ⟨rfl, hmore⟩ := List.cons.inj hcut
      have hdot : ".".toList = '.' :: [] := rfl
      rw [hdot] at hw
      rcases List.append_eq_append_iff.mp hw with ⟨v, hv, hv'⟩ | ⟨v, hv, hv'⟩
      · cases v with
        | nil => exact .inl (String.toList_injective (by rw [hv, List.append_nil]))
        | cons d deeper =>
          have hlen := congrArg List.length hv'
          simp at hlen
      · cases v with
        | nil => exact .inl (String.toList_injective (by rw [hv, List.append_nil]))
        | cons d deeper =>
          obtain ⟨rfl, _⟩ := List.cons.inj hv'
          refine absurd ?_ hq
          rw [hv]
          simp
  · right
    refine startswith_iff.mpr ⟨String.ofList w, String.toList_injective ?_⟩
    rw [String.toList_append, String.toList_ofList, hw]

end VllmExl3.PyStr
