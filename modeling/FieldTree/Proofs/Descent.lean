import FieldTree.Listing
import FieldTree.Proofs.Children
import Mathlib.Data.List.Chain
import Mathlib.Data.List.Flatten

/-!
# Walks through a Whole Tree

Children may state any lengths, and so may theirs. This module shows that a tree of fields is never larger than its
bytes allow, however deep it is nested: each field takes up a header of its own, because siblings do not overlap and a
child is shorter than its parent. So a walk that goes down into children comes to an end even if nothing bounds its
depth.

## Architecture

- `Field.fields`: the whole tree in pre-order, with `Field.headerSize_mul_length_fields_le`.
- `Descent.Step`: a walk that goes from child to child and may enter each of them.
- `Descent.potential_lt`: **each step uses up some of what is left of the bytes.**
- `Field.shown`: the fields that a listing shows.
- `Field.descent_bounded`: the main statement.
-/

namespace FieldTree

namespace Field

/-! ## The whole tree -/

/-- A field with all that is in it, in pre-order. Only containers have fields in them. -/
def fields (f : Field) : List Field :=
  f :: if f.type.isContainer then f.children.attach.flatMap fun c => c.1.fields else []
  termination_by f.body.length
  decreasing_by exact length_body_lt_of_mem_children c.2

variable {bytes : Bytes} {f : Field}

theorem fields_of_scalar (h : f.type.isContainer = false) : f.fields = [f] := by
  rw [fields]
  simp [h]

theorem fields_of_container (h : f.type.isContainer = true) : f.fields = f :: f.children.flatMap fields := by
  rw [fields]
  simp [h, List.flatMap_def, List.attach_map_val (f := fields)]

/-- What holds of the lengths one by one holds of them together. -/
theorem mul_length_flatMap_le {α β γ : Type} {n : Nat} {g : α → List β} {k : α → List γ} {xs : List α}
    (h : ∀ x ∈ xs, n * (g x).length ≤ (k x).length) : n * (xs.flatMap g).length ≤ (xs.flatMap k).length := by
  induction xs with
  | nil => exact Nat.le_refl _
  | cons x xs ih =>
    have hx := h x List.mem_cons_self
    have hxs := ih fun y hy => h y (List.mem_cons_of_mem x hy)
    simp only [List.flatMap_cons, List.length_append, Nat.mul_add]
    exact Nat.add_le_add hx hxs

/-- **Every field of the tree takes up a header of its own.** -/
theorem headerSize_mul_length_fields_le (h : ofBytes? bytes = some f) :
    headerSize * f.fields.length ≤ f.bytes.length := by
  -- induction on the payload, which is shorter in each child
  induction hsize : f.body.length using Nat.strongRecOn generalizing f bytes with
  | ind size ih =>
    have htiling := tiling_placedChildren h
    obtain ⟨rest, hcovered, -⟩ := htiling.covered
    have hlength : f.bytes.length = headerSize + (f.placedChildren.flatMap (·.2.bytes)).length + rest.length := by
      rw [hcovered, List.length_append, List.length_append, Header.length_toBytes]
      rfl
    cases hcontainer : f.type.isContainer with
    | false =>
      rw [fields_of_scalar hcontainer, List.length_singleton]
      omega
    | true =>
      -- what holds of every child holds of all of them together
      have hchildren : headerSize * (f.placedChildren.flatMap (·.2.fields)).length ≤
          (f.placedChildren.flatMap (·.2.bytes)).length := by
        apply mul_length_flatMap_le
        intro c hc
        have hshorter : c.2.body.length < f.body.length :=
          length_body_lt_of_mem_children (List.mem_map_of_mem hc)
        exact ih c.2.body.length (hsize ▸ hshorter) ((walk_placedChildren h).found c hc) rfl
      rw [fields_of_container hcontainer, children, List.flatMap_map, List.length_cons, Nat.mul_succ]
      omega

end Field

/-! ## Walks -/

namespace Descent

/-- A field that a walk is in, and the child that it comes to next. -/
structure Frame where
  parent : Field
  next? : Option (Nat × Field)

/-- Where a walk is when it enters a field. -/
def Frame.enter (f : Field) : Frame := ⟨f, f.firstChild?⟩

/-- One step of a walk, which keeps the fields that it is in, the innermost first. It may go into a child or pass it
    by, as it likes. -/
inductive Step : List Frame → List Frame → Prop where
  | pass {parent : Field} {c : Nat × Field} {outer : List Frame} :
      Step (⟨parent, some c⟩ :: outer) (⟨parent, parent.nextChild? c⟩ :: outer)
  | enter {parent : Field} {c : Nat × Field} {outer : List Frame} :
      Step (⟨parent, some c⟩ :: outer) (.enter c.2 :: ⟨parent, parent.nextChild? c⟩ :: outer)
  | leave {parent : Field} {outer : List Frame} : Step (⟨parent, none⟩ :: outer) outer

namespace Frame

/-- The field was found in some bytes, and the walk is at one of its children. -/
structure Placed (frame : Frame) : Prop where
  found : ∃ bytes, Field.ofBytes? bytes = some frame.parent
  next : ∀ c, frame.next? = some c → c ∈ frame.parent.placedChildren

/-- How many steps the walk can take in this frame and below it: two for each header that there is room for, as
    each field is come to and left again, and one to leave the frame. -/
def potential (frame : Frame) : Nat :=
  match frame.next? with
  | none => 1
  | some c => 2 * ((frame.parent.bytes.length - c.1) / headerSize) + 1

variable {frame : Frame} {parent : Field} {c : Nat × Field}

theorem placed_enter {bytes : Bytes} {f : Field} (h : Field.ofBytes? bytes = some f) : (enter f).Placed where
  found := ⟨bytes, h⟩
  next := by
    intro c hc
    have hfirst : f.placedChildren[0]? = some c := (Field.placedChildren_head h).trans hc
    exact List.mem_of_getElem? hfirst

theorem Placed.next_eq (h : Placed ⟨parent, some c⟩) {d : Nat × Field} (hd : parent.nextChild? c = some d) :
    d ∈ parent.placedChildren ∧ d.1 = c.1 + c.2.stride := by
  obtain ⟨bytes, hfound⟩ := h.found
  obtain ⟨i, hi⟩ := List.mem_iff_getElem?.mp (h.next c rfl)
  have hi' : parent.placedChildren[i + 1]? = some d := by
    rw [Field.placedChildren_next hfound, hi]
    exact hd
  exact ⟨List.mem_of_getElem? hi', (Field.tiling_placedChildren hfound).next i c d hi hi'⟩

theorem Placed.advance (h : Placed ⟨parent, some c⟩) : Placed ⟨parent, parent.nextChild? c⟩ where
  found := h.found
  next := fun _ hd => (h.next_eq hd).1

theorem Placed.found_next (h : Placed ⟨parent, some c⟩) : ∃ bytes, Field.ofBytes? bytes = some c.2 := by
  obtain ⟨bytes, hfound⟩ := h.found
  exact ⟨_, (Field.walk_placedChildren hfound).found c (h.next c rfl)⟩

/-- To enter a field there is a header to be read. -/
theorem potential_enter_le {bytes : Bytes} {f : Field} (h : Field.ofBytes? bytes = some f) :
    (enter f).potential + 1 ≤ 2 * (f.bytes.length / headerSize) := by
  have hlength : headerSize ≤ f.bytes.length := by simp [Field.bytes, headerSize]
  unfold potential
  split
  · unfold headerSize at *
    omega
  · next c hc =>
    have hmem := (placed_enter h).next c hc
    have hfirst : f.placedChildren[0]? = some c := (Field.placedChildren_head h).trans hc
    have hoffset := (Field.tiling_placedChildren h).first c hfirst
    have hinside := (Field.tiling_placedChildren h).inside c hmem
    simp only [enter, hoffset]
    unfold headerSize at *
    omega

/-- Behind a child there is less to be read, by the child and its header at least. -/
theorem Placed.potential_advance_le (h : Placed ⟨parent, some c⟩) :
    potential ⟨parent, parent.nextChild? c⟩ + 2 * (c.2.bytes.length / headerSize) ≤ potential ⟨parent, some c⟩ := by
  obtain ⟨bytes, hfound⟩ := h.found
  have hmem := h.next c rfl
  have hwalk := Field.walk_placedChildren hfound
  have hinside := hwalk.inside c hmem
  have hlength : c.2.bytes.length = min c.2.stride (parent.bytes.length - c.1) := by
    rw [hwalk.bytes_eq c hmem, Bytes.slice, List.length_drop, List.length_take]
    dsimp only
    omega
  simp only [potential]
  split
  · unfold headerSize
    omega
  · next d hd =>
    obtain ⟨hmem', hoffset⟩ := h.next_eq hd
    have hinside' := hwalk.inside d hmem'
    -- the stride is a number of headers, so none is lost where the bytes are cut
    obtain ⟨k, hk⟩ := c.2.dvd_stride
    rw [hoffset] at hinside' ⊢
    unfold headerSize at *
    omega

end Frame

/-- How many steps a walk can still take. -/
def potential : List Frame → Nat
  | [] => 0
  | frame :: outer => frame.potential + potential outer

/-- **Each step uses up some of what is left of the bytes**, and leads to children of the fields entered. -/
theorem potential_lt {stack stack' : List Frame} (h : ∀ frame ∈ stack, frame.Placed) (hstep : Step stack stack') :
    potential stack' < potential stack ∧ ∀ frame ∈ stack', frame.Placed := by
  -- a child that is entered or passed gives up its bytes and its header; leaving gives up the frame
  cases hstep with
  | @pass parent c outer =>
    obtain ⟨hplaced, houter⟩ := List.forall_mem_cons.mp h
    obtain ⟨bytes, hfound⟩ := hplaced.found_next
    have hadvance := hplaced.potential_advance_le
    have henter := Frame.potential_enter_le hfound
    refine ⟨?_, List.forall_mem_cons.mpr ⟨hplaced.advance, houter⟩⟩
    simp only [potential]
    omega
  | @enter parent c outer =>
    obtain ⟨hplaced, houter⟩ := List.forall_mem_cons.mp h
    obtain ⟨bytes, hfound⟩ := hplaced.found_next
    have hadvance := hplaced.potential_advance_le
    have henter := Frame.potential_enter_le hfound
    refine ⟨?_, List.forall_mem_cons.mpr
      ⟨Frame.placed_enter hfound, List.forall_mem_cons.mpr ⟨hplaced.advance, houter⟩⟩⟩
    simp only [potential]
    omega
  | leave =>
    refine ⟨?_, (List.forall_mem_cons.mp h).2⟩
    simp only [potential, Frame.potential]
    omega

/-- **A walk comes to an end.** -/
theorem length_le_potential {stack : List Frame} {later : List (List Frame)} (h : ∀ frame ∈ stack, frame.Placed)
    (hsteps : (stack :: later).IsChain Step) : later.length ≤ potential stack := by
  induction later generalizing stack with
  | nil => exact Nat.zero_le _
  | cons next later ih =>
    obtain ⟨hstep, hsteps⟩ := List.isChain_cons_cons.mp hsteps
    obtain ⟨hlt, hplaced⟩ := potential_lt h hstep
    have hle := ih hplaced hsteps
    rw [List.length_cons]
    omega

end Descent

/-! ## Listings -/

/-- The field that a line shows, if it shows one. -/
def Listing.Line.field? : Line → Option Field
  | .field _ _ f => some f
  | .hidden _ | .payload _ _ => none

namespace Field

/-- The fields that a listing shows, one on each of their lines. -/
def shown (f : Field) : List Field := f.listing.filterMap (·.field?)

/-- A listing shows fields of the tree, in pre-order, and leaves out those that are too deep. -/
theorem shown_sublist_fields (f : Field) : f.shown.Sublist f.fields := by
  suffices h : ∀ room depth offset f,
      ((Listing.lines room depth offset f).filterMap (·.field?)).Sublist f.fields from h maxDepth 0 0 f
  intro room
  induction room with
  | zero =>
    intro depth offset f
    -- no room is left: the line of the field is the last one that shows a field
    have hfirst : [f].Sublist f.fields := by
      rw [fields]
      exact List.Sublist.cons_cons f (List.nil_sublist _)
    unfold Listing.lines
    split <;> simpa [Listing.Line.field?] using hfirst
  | succ room ih =>
    intro depth offset f
    unfold Listing.lines
    split
    · next hcontainer =>
      rw [fields_of_container hcontainer, children, List.flatMap_map]
      simp only [List.filterMap_cons, Listing.Line.field?, List.filterMap_flatMap]
      exact List.Sublist.cons_cons f (List.Sublist.flatMap_right _ fun c _ => ih _ _ c.2)
    · next hscalar =>
      rw [fields_of_scalar (eq_false_of_ne_true hscalar)]
      simp [Listing.Line.field?]

/-! ## Main statement -/

/-- **No bytes make a walk blow up.** The field in front of a byte string has no more fields in its tree than it has
    room for headers, however deep they are nested. A walk from child to child that enters whatever it likes takes
    less than two steps for each of them, and so comes to an end. A listing shows some fields of the tree, and not
    more than that. -/
theorem descent_bounded {bytes : Bytes} (h : headerSize ≤ bytes.length) :
    ∃ f, ofBytes? bytes = some f ∧
      f.fields.length ≤ f.bytes.length / headerSize ∧
      (∀ later, ([.enter f] :: later).IsChain Descent.Step →
        later.length < 2 * (f.bytes.length / headerSize)) ∧
      f.shown.Sublist f.fields ∧ f.shown.length ≤ f.bytes.length / headerSize := by
  obtain ⟨f, hf⟩ := exists_ofBytes? h
  have hfields : f.fields.length ≤ f.bytes.length / headerSize := by
    rw [Nat.le_div_iff_mul_le (by decide), Nat.mul_comm]
    exact headerSize_mul_length_fields_le hf
  refine ⟨f, hf, hfields, ?_, f.shown_sublist_fields, f.shown_sublist_fields.length_le.trans hfields⟩
  intro later hsteps
  have hplaced : ∀ frame ∈ [Descent.Frame.enter f], frame.Placed :=
    List.forall_mem_singleton.mpr (Descent.Frame.placed_enter hf)
  have hle := Descent.length_le_potential hplaced hsteps
  have henter := Descent.Frame.potential_enter_le hf
  simp only [Descent.potential] at hle
  omega

/-- Two arrays that state more bytes than there are, and in them a table and an array that have none: as many fields
    as there is room for. -/
def sampleCrowded : Bytes :=
  [0x09, 0xff, 0xff, 0xff, 0x09, 0xff, 0xff, 0xff, 0x0a, 0, 0, 0, 0x09, 0, 0, 0x01]

theorem descent_bounded_sampleCrowded : headerSize ≤ sampleCrowded.length ∧
    ∃ f, ofBytes? sampleCrowded = some f ∧
      f.fields.length ≤ f.bytes.length / headerSize ∧
      (∀ later, ([.enter f] :: later).IsChain Descent.Step →
        later.length < 2 * (f.bytes.length / headerSize)) ∧
      f.shown.Sublist f.fields ∧ f.shown.length ≤ f.bytes.length / headerSize :=
  ⟨by decide, descent_bounded (by decide)⟩

end Field

end FieldTree
