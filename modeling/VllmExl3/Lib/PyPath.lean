/-
# VllmExl3.Lib.PyPath — `posixpath`

`normpath` and `join` as the standard library documents them. Nothing here names the repository.
-/
import VllmExl3.Lib.PyStr

namespace VllmExl3.PyPath

open PyStr

/-- The root of a path: two leading slashes stay, any other number is one. -/
def splitroot (path : String) : String :=
  if startswith path "//" && !startswith path "///" then "//"
  else if startswith path "/" then "/" else ""

/-- One component of `normpath`: `.` and the empty one are skipped, `..` takes one back. -/
def normStep (root : String) (new_comps : List String) (comp : String) : List String :=
  if comp = "" || comp = "." then new_comps
  else if comp ≠ ".." || (root.isEmpty && new_comps.isEmpty) || new_comps.getLast? = some ".." then
    new_comps ++ [comp]
  else new_comps.dropLast

/-- `os.path.normpath` -/
def normpath (path : String) : String :=
  if path.isEmpty then "." else
    let root := splitroot path
    let comps := ((dropStart path root.toList.length).toList.splitOn '/').map String.ofList
    let joined := root ++ "/".intercalate (comps.foldl (normStep root) [])
    if joined.isEmpty then "." else joined

example : normpath "arms/./k6//" = "arms/k6" := by decide
example : normpath "/../arms/k4/../k6" = "/arms/k6" := by decide

/-- `os.path.join(path, name)` -/
def join (path name : String) : String :=
  if startswith name "/" then name
  else if path.isEmpty || endswith path "/" then path ++ name
  else path ++ "/" ++ name

/-- A path ends as its last component does. -/
theorem endswith_join {path name suffix : String} (h : endswith name suffix = true) :
    endswith (join path name) suffix = true := by
  obtain ⟨stem, rfl⟩ := endswith_iff.mp h
  unfold join
  split_ifs
  · exact endswith_append _ _
  · rw [← String.append_assoc]
    exact endswith_append _ _
  · rw [← String.append_assoc]
    exact endswith_append _ _

end VllmExl3.PyPath
