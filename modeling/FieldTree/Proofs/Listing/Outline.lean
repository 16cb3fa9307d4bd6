import FieldTree.Listing
import FieldTree.Proofs.Children

/-!
# Outlines

A listing shows a tree line by line. This module has the tree that it shows, with the headers and the payloads and
nothing else, and the rows that such a tree is listed in: every field in front of what is in it, one level further in,
and with the offset that follows from the lengths of the siblings in front of it.

The rows tell the tree: a row that stands further in belongs to the row in front of it.

## Architecture

- `Outline`, `Field.outline`: the tree.
- `Row`, `Outline.rows`: what is said of it, in pre-order.
- `chunked_groups`: payloads are shown as a whole.
- `map_row_lines`: **a listing has the rows of the outline.**
- `Outline.rows_injective`: **the outline is determined by its rows.**
-/

namespace FieldTree

namespace Listing

/-! ## Trees and their rows -/

/-- What a listing shows of a field. A container that is nested too deep is closed. -/
inductive Outline where
  | leaf (header : Header) (scalar : header.type.isContainer = false) (payload : Bytes)
  | node (header : Header) (container : header.type.isContainer = true) (children : List Outline)
  | closed (header : Header) (container : header.type.isContainer = true)

/-- What a line of a listing says, without its wording. -/
inductive Row where
  /-- a header word, with what follows from it and with the offset inside the parent -/
  | field (depth word : Nat) (type : String) (offset padded raw data : Nat)
  /-- children that are not shown -/
  | hidden (depth : Nat)
  /-- part of a payload -/
  | payload (depth : Nat) (bytes : Bytes)
  deriving DecidableEq, Repr

/-- The row of a field. -/
def Row.ofHeader (depth offset : Nat) (h : Header) : Row :=
  .field depth h.word h.type.name offset h.paddedLength h.rawLength h.dataLength

def Row.depth : Row → Nat
  | field depth .. | hidden depth | payload depth _ => depth

namespace Outline

def header : Outline → Header
  | leaf header .. | node header .. | closed header _ => header

mutual

/-- The rows under the row of a field, where `depth` is theirs. -/
def inside (depth : Nat) : Outline → List Row
  | leaf _ _ payload => (groups payload).map (.payload depth)
  | node _ _ children => siblings depth headerSize children
  | closed _ _ => [.hidden depth]

/-- The rows of fields that follow each other from an offset on. Each takes up its padded length, and at least a
    header. -/
def siblings (depth offset : Nat) : List Outline → List Row
  | [] => []
  | t :: ts =>
    .ofHeader depth offset t.header :: t.inside (depth + 1) ++
      siblings depth (offset + max t.header.paddedLength headerSize) ts

end

/-- The rows of a field and what is in it. -/
def rows (depth offset : Nat) (t : Outline) : List Row :=
  .ofHeader depth offset t.header :: t.inside (depth + 1)

end Outline

end Listing

/-- The outline of a field, with `room` more levels to show. -/
def Field.outline : (room : Nat) → Field → Listing.Outline
  | 0, f =>
    if h : f.type.isContainer = true then .closed f.header h
    else .leaf f.header (eq_false_of_ne_true h) f.data
  | room + 1, f =>
    if h : f.type.isContainer = true then .node f.header h (f.children.map (outline room))
    else .leaf f.header (eq_false_of_ne_true h) f.data

@[simp] theorem Field.header_outline (room : Nat) (f : Field) : (f.outline room).header = f.header := by
  cases room <;> unfold outline <;> split <;> rfl

namespace Listing

/-! ## Payloads -/

/-- Bytes in groups of which only the last can be shorter than a line. -/
structure Chunked (bytes : Bytes) (gs : List Bytes) : Prop where
  flatten : gs.flatten = bytes
  full : ∀ g ∈ gs.dropLast, g.length = bytesPerLine
  nonempty : ∀ g ∈ gs, g ≠ []
  length_le : ∀ g ∈ gs, g.length ≤ bytesPerLine

/-- **Payloads are shown as a whole**, and line by line. -/
theorem chunked_groups (bytes : Bytes) : Chunked bytes (groups bytes) := by
  fun_induction groups bytes with
  | case1 => exact ⟨rfl, by simp, by simp, by simp⟩
  | case2 bytes hne ih =>
    obtain ⟨flatten, full, nonempty, length_le⟩ := ih
    refine ⟨by simp [flatten], ?_, ?_, ?_⟩
    · intro g hg
      by_cases hlast : groups (bytes.drop bytesPerLine) = []
      · simp [hlast] at hg
      · rw [List.dropLast_cons_of_ne_nil hlast] at hg
        rcases List.mem_cons.mp hg with rfl | hg
        · -- there are bytes left for the next line
          have hdrop : bytes.drop bytesPerLine ≠ [] := by
            rintro hdrop
            simp [hdrop, groups] at hlast
          have hlength : bytesPerLine < bytes.length := by simpa using hdrop
          simp [Nat.le_of_lt hlength]
        · exact full g hg
    · exact List.forall_mem_cons.mpr ⟨by simpa [bytesPerLine] using hne, nonempty⟩
    · exact List.forall_mem_cons.mpr ⟨List.length_take_le _ _, length_le⟩

theorem groups_injective {bytes bytes' : Bytes} (h : groups bytes = groups bytes') : bytes = bytes' := by
  rw [← (chunked_groups bytes).flatten, h, (chunked_groups bytes').flatten]

/-! ## The rows of a listing -/

/-- What a line says. -/
def Line.row : Line → Row
  | field depth offset f => .ofHeader depth offset f.header
  | hidden depth => .hidden depth
  | payload depth bytes => .payload depth bytes

/-- The offsets of a walk are those that the lengths give. -/
theorem map_row_walk {bytes : Bytes} {offset : Nat} {placed : List (Nat × Field)} (h : Field.Walk bytes offset placed)
    (room depth : Nat)
    (hlines : ∀ offset f, (lines room depth offset f).map Line.row = (f.outline room).rows depth offset) :
    (placed.flatMap fun (offset, child) => lines room depth offset child).map Line.row =
      Outline.siblings depth offset ((placed.map (·.2)).map (Field.outline room)) := by
  induction h with
  | stop _ => simp [Outline.siblings]
  | @step offset c cs _ _ ih =>
    simp only [List.flatMap_cons, List.map_append, List.map_cons, hlines, ih, Outline.siblings, Outline.rows,
      Field.header_outline, Field.stride, Field.paddedLength]

/-- **A listing has the rows of the outline.** -/
theorem map_row_lines (room depth offset : Nat) (f : Field) :
    (lines room depth offset f).map Line.row = (f.outline room).rows depth offset := by
  induction room generalizing depth offset f with
  | zero =>
    unfold lines Field.outline
    split <;> simp [Line.row, Outline.rows, Outline.header, Outline.inside]
  | succ room ih =>
    unfold lines Field.outline
    split
    · next hcontainer =>
      -- what stands under a container are the rows of its children, from their offsets on
      have hwalk : (f.placedChildren.flatMap fun (offset, child) => lines room (depth + 1) offset child).map Line.row =
          Outline.siblings (depth + 1) headerSize (f.children.map (Field.outline room)) := by
        unfold Field.children Field.placedChildren
        split
        · simp [Outline.siblings]
        · rw [← Field.drop_headerSize_bytes]
          exact map_row_walk (Field.walk_siblings f.bytes headerSize) room (depth + 1) (ih (depth + 1))
      simp [hwalk, Line.row, Outline.rows, Outline.header, Outline.inside]
    · simp [Line.row, Outline.rows, Outline.header, Outline.inside]

/-- A line is worded by what it says. -/
theorem Line.text_eq_of_row_eq {l l' : Line} (h : l.row = l'.row) : l.text = l'.text := by
  cases l <;> cases l' <;> simp_all [Line.row, Row.ofHeader, Line.text, Field.paddedLength, Field.rawLength, Field.type]

theorem map_text_eq_of_map_row_eq {ls ls' : List Line} (h : ls.map Line.row = ls'.map Line.row) :
    ls.map Line.text = ls'.map Line.text := by
  induction ls generalizing ls' with
  | nil => simp_all
  | cons l ls ih =>
    cases ls' with
    | nil => simp at h
    | cons l' ls' =>
      obtain ⟨hrow, hrows⟩ := List.cons.inj h
      simp [Line.text_eq_of_row_eq hrow, ih hrows]

/-! ## Rows tell the tree -/

namespace Outline

/-- Rows of which the first, if there is one, does not stand as far in as `depth`. -/
def Ends (depth : Nat) (rest : List Row) : Prop := ∀ row ∈ rest.head?, row.depth < depth

theorem Ends.ne_cons {depth : Nat} {row : Row} {rest : List Row} (h : Ends depth (row :: rest)) : row.depth ≠ depth :=
  Nat.ne_of_lt (h row rfl)

/-- Fields in front of rows that do not stand further in do not stand further in either. -/
theorem ends_siblings {depth offset : Nat} (ts : List Outline) {rest : List Row} (hrest : Ends depth rest) :
    Ends (depth + 1) (siblings depth offset ts ++ rest) := by
  cases ts with
  | nil => exact fun row hrow => Nat.lt_succ_of_lt (hrest row (by simpa [siblings] using hrow))
  | cons t ts => simp [Ends, siblings, Row.ofHeader, Row.depth]

theorem header_eq_of_ofHeader_eq {depth offset offset' : Nat} {h h' : Header}
    (heq : Row.ofHeader depth offset h = Row.ofHeader depth offset' h') : h = h' := by
  have hword : h.word = h'.word := by simp_all [Row.ofHeader]
  rw [← Header.ofWord_word h, hword, Header.ofWord_word]

theorem payloads_append_inj {depth : Nat} {gs gs' : List Bytes} {rest rest' : List Row} (hrest : Ends depth rest)
    (hrest' : Ends depth rest')
    (h : gs.map (Row.payload depth) ++ rest = gs'.map (Row.payload depth) ++ rest') : gs = gs' ∧ rest = rest' := by
  -- induction on the groups; where one list ends, the rest of the other starts with a row of this depth
  induction gs generalizing gs' with
  | nil =>
    cases gs' with
    | nil => exact ⟨rfl, h⟩
    | cons g' gs' =>
      subst h
      exact absurd rfl hrest.ne_cons
  | cons g gs ih =>
    cases gs' with
    | nil =>
      subst h
      exact absurd rfl hrest'.ne_cons
    | cons g' gs' =>
      simp only [List.map_cons, List.cons_append, List.cons.injEq, Row.payload.injEq, true_and] at h
      obtain ⟨rfl, rfl⟩ := ih h.2
      exact ⟨by rw [h.1], rfl⟩

mutual

/-- What stands under a field ends where a row does not stand as far in. -/
theorem inside_append_inj {depth : Nat} (t t' : Outline) {rest rest' : List Row} (hheader : t.header = t'.header)
    (hrest : Ends depth rest) (hrest' : Ends depth rest') (h : t.inside depth ++ rest = t'.inside depth ++ rest') :
    t = t' ∧ rest = rest' := by
  -- the header says whether there are children, so only a container can be told from another by its rows
  match t, t', hheader with
  | leaf header scalar payload, leaf _ _ payload', rfl =>
    obtain ⟨hgroups, hrest⟩ := payloads_append_inj hrest hrest' h
    exact ⟨by rw [groups_injective hgroups], hrest⟩
  | leaf _ scalar _, node _ container _, rfl | leaf _ scalar _, closed _ container, rfl
  | node _ container _, leaf _ scalar _, rfl | closed _ container, leaf _ scalar _, rfl =>
    exact absurd (scalar.symm.trans container) Bool.false_ne_true
  | node header container children, node _ _ children', rfl =>
    obtain ⟨hchildren, hrest⟩ := siblings_append_inj children children' hrest hrest' h
    exact ⟨by rw [hchildren], hrest⟩
  | closed header container, closed _ _, rfl => exact ⟨rfl, (List.cons.inj h).2⟩
  | node _ _ [], closed _ _, rfl =>
    subst h
    exact absurd rfl hrest.ne_cons
  | closed _ _, node _ _ [], rfl =>
    subst h
    exact absurd rfl hrest'.ne_cons
  | node _ _ (_ :: _), closed _ _, rfl | closed _ _, node _ _ (_ :: _), rfl => cases h

theorem siblings_append_inj {depth offset offset' : Nat} (ts ts' : List Outline) {rest rest' : List Row}
    (hrest : Ends depth rest) (hrest' : Ends depth rest')
    (h : siblings depth offset ts ++ rest = siblings depth offset' ts' ++ rest') : ts = ts' ∧ rest = rest' := by
  match ts, ts' with
  | [], [] => exact ⟨rfl, h⟩
  | [], _ :: _ =>
    subst h
    exact absurd rfl hrest.ne_cons
  | _ :: _, [] =>
    subst h
    exact absurd rfl hrest'.ne_cons
  | t :: ts, t' :: ts' =>
    simp only [siblings, List.cons_append, List.append_assoc, List.cons.injEq] at h
    obtain ⟨hinside, hrows⟩ := inside_append_inj t t' (header_eq_of_ofHeader_eq h.1) (ends_siblings ts hrest)
      (ends_siblings ts' hrest') h.2
    obtain ⟨htail, hrest⟩ := siblings_append_inj ts ts' hrest hrest' hrows
    exact ⟨by rw [hinside, htail], hrest⟩

end

/-- **The outline is determined by its rows.** -/
theorem rows_injective {depth offset offset' : Nat} {t t' : Outline} (h : t.rows depth offset = t'.rows depth offset') :
    t = t' := by
  have hends : Ends (depth + 1) [] := fun _ hrow => by cases hrow
  obtain ⟨hheader, hinside⟩ := List.cons.inj h
  exact (inside_append_inj t t' (header_eq_of_ofHeader_eq hheader) hends hends (by simpa using hinside)).1

end Outline

end Listing

end FieldTree
