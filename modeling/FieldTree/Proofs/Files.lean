import FieldTree.Files.Basic
import Mathlib.Tactic.Common

/-!
# Files that were Written

A file that was written is read again under the same path. It takes the place of a file or of nothing, never of
a directory, and a walk along a path goes through directories alone. So no walk leads elsewhere than before.

## Architecture

- `FileTree.node?_set`: what is at each place once a node was put at one of them.
- `FileTree.enter_set`: the same walk as before, in a tree with one file more.
- `FileTree.Admits`: a file may be written to a path, once the directories that it lies in are there.
- `FileTree.Admits.write`, `FileTree.read_write`: then it is written, and read again.
- `FileTree.write_eq_ok`: all that a write does.
-/

namespace FieldTree.FileTree

open Files (Fault)

variable {t : FileTree} {place target : List String} {node : Node}

/-! ## Places -/

theorem lookup_filter_ne (nodes : List (List String × Node)) (hne : place ≠ target) :
    (nodes.filter (·.1 ≠ target)).lookup place = nodes.lookup place := by
  induction nodes with
  | nil => rfl
  | cons entry rest ih =>
    obtain ⟨at', node⟩ := entry
    by_cases htarget : at' = target
    case pos =>
      -- the entry that is left out is not the one that is looked up
      have hother : (place == at') = false := beq_eq_false_iff_ne.mpr (htarget ▸ hne)
      rw [List.filter_cons_of_neg (by simpa using htarget), ih, List.lookup_cons, hother]
    case neg =>
      rw [List.filter_cons_of_pos (by simpa using htarget), List.lookup_cons, List.lookup_cons, ih]

/-- **Only the place itself has another node.** -/
theorem node?_set (t : FileTree) (htarget : target ≠ []) (node : Node) (place : List String) :
    (t.set target node).node? place = if place = target then some node else t.node? place := by
  by_cases hroot : place = []
  case pos =>
    have hother : place ≠ target := fun h => htarget (h.symm.trans hroot)
    rw [node?, if_pos hroot, if_neg hother, node?, if_pos hroot]
  case neg =>
    rw [node?, if_neg hroot, set, List.lookup_cons]
    by_cases hsame : place = target
    case pos => rw [if_pos hsame, beq_iff_eq.mpr hsame]
    case neg =>
      rw [if_neg hsame, beq_eq_false_iff_ne.mpr hsame, lookup_filter_ne t.nodes hsame, node?, if_neg hroot]

/-- What is no directory is not the place without components. -/
theorem ne_nil_of_node?_ne (h : t.node? target ≠ some .directory) : target ≠ [] := by
  rintro rfl
  exact h rfl

/-! ## Walks -/

/-- **A walk goes the same way as before** where something takes the place of what is no directory. -/
theorem enter_set (htarget : t.node? target ≠ some .directory) {components stop : List String}
    (h : t.enter place components = .ok stop) (node : Node) :
    (t.set target node).enter place components = .ok stop := by
  -- induction on the components: each leads to a directory, and that is somewhere else
  induction components generalizing place with
  | nil => exact h
  | cons c rest ih =>
    rw [enter] at h ⊢
    split at h
    · cases h
    · next hname =>
      split at h
      · cases h
      · cases h
      · next hdirectory =>
        have hother : step place c ≠ target := fun hsame => htarget (hsame ▸ hdirectory)
        rw [if_neg hname, node?_set t (ne_nil_of_node?_ne htarget), if_neg hother, hdirectory]
        exact ih h

theorem approach_set (htarget : t.node? target ≠ some .directory) {path last : String}
    (h : t.approach path = .ok (place, last)) (node : Node) :
    (t.set target node).approach path = .ok (place, last) := by
  unfold approach at h ⊢
  split at h
  · cases h
  · next hempty =>
    split at h
    · cases h
    · next hlong =>
      rw [if_neg hempty, if_neg hlong]
      dsimp only at h ⊢
      -- the path is followed through directories, and what is set is not in place of one
      cases henter : t.enter [] (Path.components path).dropLast with
      | error fault =>
        rw [henter] at h
        cases h
      | ok stop =>
        rw [henter] at h
        rw [enter_set htarget henter node]
        exact h

/-! ## Files -/

/-- A file may be written to a path, once the directories that it lies in are there, which makes the tree `made`:
    the path leads to a place where a file can be, and where there is a file, it may be replaced. Whether there is
    one shows only then, since a path such as `new/../file` leads nowhere before `new` is made. -/
structure Admits (t : FileTree) (path : String) (force : Bool) (made : FileTree) : Prop where
  directories : access.makeDirectories (Path.parent path) t = (.ok (), made)
  free : force = true ∨ made.isPresent path = false
  noSlash : Path.endsInSlash path = false
  target : ∃ place last, made.approach path = .ok (place, last) ∧ last.utf8ByteSize ≤ maxName ∧
    made.node? (step place last) ≠ some .directory

/-- **What a write does**: it puts a file at the place to which the path leads, before and after, and no directory
    was there. -/
theorem write_eq_ok {path : String} {bytes : Bytes} {after : FileTree} (h : t.write path bytes = .ok after) :
    ∃ place, t.locate path = .ok place ∧ after.locate path = .ok place ∧ Path.endsInSlash path = false ∧
      t.node? place ≠ some .directory ∧ after = t.set place (.file bytes) := by
  unfold write at h
  split at h
  · cases h
  · next place last happroach =>
    split at h
    · cases h
    · next hslash =>
      split at h
      · cases h
      · next hname =>
        split at h
        · cases h
        · next htarget =>
          cases h
          -- the last component leads to the same place in the new tree
          refine ⟨step place last, ?_, ?_, Bool.not_eq_true _ ▸ hslash, htarget, rfl⟩
          · rw [locate, happroach]
            exact if_neg hname
          · rw [locate, approach_set htarget happroach]
            exact if_neg hname

/-- **A file that was written is read again.** -/
theorem read_write {path : String} {bytes : Bytes} {after : FileTree} (h : t.write path bytes = .ok after) :
    after.read path = .ok bytes := by
  obtain ⟨place, -, hlocate, hslash, htarget, rfl⟩ := write_eq_ok h
  have hnode := node?_set t (ne_nil_of_node?_ne htarget) (.file bytes) place
  rw [if_pos rfl] at hnode
  simp only [read, find, hlocate, hnode, hslash, Bool.false_eq_true, if_false]

/-- Where a file can be written, it was there before only if the path named it. -/
theorem isPresent_of_write {path : String} {bytes : Bytes} {after : FileTree} (h : t.write path bytes = .ok after)
    (hplace : t.locate path = .ok place) (hfound : t.node? place ≠ none) : t.isPresent path = true := by
  obtain ⟨place', hlocate, -, hslash, htarget, -⟩ := write_eq_ok h
  cases hplace.symm.trans hlocate
  cases hnode : t.node? place with
  | none => exact absurd hnode hfound
  | some node =>
    cases node with
    | directory => exact absurd hnode htarget
    | file old =>
      simp only [isPresent, find, hplace, hnode, hslash, Bool.false_eq_true, if_false, Except.isOk, Except.toBool]

/-- **What is admitted is written.** -/
theorem Admits.write {path : String} {force : Bool} {made : FileTree} (h : t.Admits path force made) (bytes : Bytes) :
    ∃ after, made.write path bytes = .ok after := by
  obtain ⟨place, last, happroach, hname, htarget⟩ := h.target
  refine ⟨made.set (step place last) (.file bytes), ?_⟩
  simp only [FileTree.write, happroach, h.noSlash, Nat.not_lt.mpr hname, if_neg htarget, if_false, Bool.false_eq_true]

end FieldTree.FileTree
