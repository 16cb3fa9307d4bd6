/-!
# Paths

A path is a text whose components are separated by slashes. For its name and its parent, empty components
and later `.` components count for nothing, so a path may end in them. To follow a path, a `.` component
does count: what is in front of it has to be a directory.

## Architecture

- `Path.components`: what a walk along the path follows.
- `Path.split`: the last component that counts, and what is in front of it.
- `Path.parent`, `Path.ancestors`: the directories above.
- `Path.withExtension`: another extension in place of the old one.

## Main statements

- `Path.length_parentOf_lt`: a parent is shorter than its path, so that a path has finitely many ancestors.
-/

namespace FieldTree.Path

/-! ## Components -/

/-- The components from the front. -/
def components (path : String) : List String :=
  ((path.toList.splitOnP (· == '/')).filter (· ≠ [])).map String.ofList

/-- Whether a path ends in a slash. What it names has to be a directory. -/
def endsInSlash (path : String) : Bool := path.toList.getLast? == some '/'

/-! ## The last component -/

/-- Drops what does not count from the back of a reversed path: slashes, and `.` components behind a
    slash. -/
def dropTail : List Char → List Char
  | '/' :: rest => dropTail rest
  | '.' :: '/' :: rest => dropTail rest
  | rest => rest

theorem length_dropTail_le (reversed : List Char) :
    (dropTail reversed).length ≤ reversed.length := by
  fun_induction dropTail reversed with
  | case1 rest ih => exact Nat.le_succ_of_le ih
  | case2 rest ih => exact Nat.le_succ_of_le (Nat.le_succ_of_le ih)
  | case3 => exact Nat.le_refl _

/-- What is in front of the last component that counts, with its slashes, and that component. -/
def split (path : List Char) : List Char × List Char :=
  let reversed := dropTail path.reverse
  ((reversed.dropWhile (· != '/')).reverse, (reversed.takeWhile (· != '/')).reverse)

/-- The file name, if the last component is one. -/
def fileName? (path : List Char) : Option (List Char) :=
  let name := (split path).2
  if name = [] ∨ name = ['.'] ∨ name = ['.', '.'] then none else some name

/-! ## Parents -/

/-- The path of the directory that a path lies in; empty where none is named. -/
def parentOf (path : List Char) : List Char :=
  let front := (split path).1
  let parent := (dropTail front.reverse).reverse
  if parent = [] ∧ front ≠ [] then ['/'] else parent

/-- The directory that a path lies in; the empty path where none is named. -/
def parent (path : String) : String := String.ofList (parentOf path.toList)

/-- Helper: what is left after the tail was dropped does not start with a slash. -/
private theorem head?_dropTail_ne (reversed : List Char) : (dropTail reversed).head? ≠ some '/' := by
  fun_induction dropTail reversed with
  | case1 rest ih => exact ih
  | case2 rest ih => exact ih
  | case3 rest hslash _ =>
    intro h
    obtain ⟨rest, rfl⟩ := List.head?_eq_some_iff.mp h
    exact hslash rest rfl

/-- Helper: the last component that counts is not part of what is in front of it. -/
private theorem length_front_lt {path : List Char} (h : (split path).1 ≠ []) :
    (split path).1.length < path.length := by
  have hle := length_dropTail_le path.reverse
  have hhead := head?_dropTail_ne path.reverse
  rw [List.length_reverse] at hle
  unfold split at h ⊢
  dsimp only at h ⊢
  cases hrev : dropTail path.reverse with
  | nil => rw [hrev] at h; exact absurd rfl h
  | cons c rest =>
    rw [hrev] at hle hhead
    have hc : (c != '/') = true := by
      rw [bne_iff_ne]
      intro hc
      exact hhead (by rw [hc, List.head?_cons])
    have hrest := (List.dropWhile_sublist (l := rest) (· != '/')).length_le
    rw [List.length_reverse, List.dropWhile_cons, if_pos hc]
    exact Nat.lt_of_lt_of_le (Nat.lt_succ_of_le hrest) hle

/-- **A parent is shorter than its path.** -/
theorem length_parentOf_lt {path : List Char} (h : parentOf path ≠ []) :
    (parentOf path).length < path.length := by
  have htail := length_dropTail_le (split path).1.reverse
  rw [List.length_reverse] at htail
  unfold parentOf at h ⊢
  dsimp only at h ⊢
  split
  · next hroot =>
    have hfront := length_front_lt hroot.2
    have hone := List.length_pos_iff.mpr hroot.2
    rw [List.length_singleton]
    omega
  · next hroot =>
    rw [if_neg hroot] at h
    rw [List.length_reverse]
    by_cases hempty : (split path).1 = []
    · rw [hempty] at h
      exact absurd rfl h
    · exact Nat.lt_of_le_of_lt htail (length_front_lt hempty)

/-- The path itself, its parent, and so on as far as parents are named. -/
def ancestorsOf (path : List Char) : List (List Char) :=
  if _h : parentOf path = [] then [path] else path :: ancestorsOf (parentOf path)
  termination_by path.length
  decreasing_by exact length_parentOf_lt _h

/-- A path, the directory it lies in, and so on. -/
def ancestors (path : String) : List String := (ancestorsOf path.toList).map String.ofList

/-! ## Extensions -/

/-- What is in front of the last dot of a name, and what is behind it. A dot in front of the name does not
    count. -/
def splitDot? (name : List Char) : Option (List Char × List Char) :=
  let reversed := name.reverse
  let stem := ((reversed.dropWhile (· != '.')).drop 1).reverse
  if stem = [] then none else some (stem, (reversed.takeWhile (· != '.')).reverse)

/-- The path with an extension behind the file name, in place of the one it has; a path without a file name
    stays as it is. -/
def setExtension (path extension : List Char) : List Char :=
  match fileName? path with
  | none => path
  | some name =>
    let stem := ((splitDot? name).map (·.1)).getD name
    (split path).1 ++ stem ++ '.' :: extension

/-- The path with another extension. As many characters as the old one has go off the end first; where only
    dots are left, as of `..a`, there is no file name any more to extend. -/
def withExtension (path extension : String) : String :=
  let chars := path.toList
  let old := ((fileName? chars).bind splitDot?).map (·.2)
  let bare := chars.take (chars.length - (old.getD []).length)
  String.ofList (setExtension bare extension.toList)

end FieldTree.Path
