import FieldTree.Proofs.Children
import Mathlib.Data.List.Forall2

/-!
# Truncated Bytes

The length that a field states is a bound on what is read, not a demand. Where a byte string is cut off, its
field keeps its header and loses the end of what follows. So do its children: those whose headers are still there
are met as before, at the same offsets, and only the last of them can be cut off itself.

A walk must take its steps by the lengths that the children state. Were it to step by the bytes that are left of
them, or to stop where the parent states its end, other offsets would be met.

## Architecture

- `Field.cut`: what is left of a field, with `Field.ofBytes?_take`.
- `Field.Walk.unique`, `Field.Walk.take`: the walk through the front of a byte string.
- `Field.children_take`: **the main statement.**
-/

namespace FieldTree.Field

/-! ## What is left of a field -/

/-- The field as it is found in its first `n` bytes. -/
def cut (f : Field) (n : Nat) : Field := ⟨f.header, f.body.take (n - headerSize)⟩

@[simp] theorem header_cut (f : Field) (n : Nat) : (f.cut n).header = f.header := rfl

theorem bytes_cut (f : Field) {n : Nat} (hn : headerSize ≤ n) : (f.cut n).bytes = f.bytes.take n := by
  have hheader : f.header.toBytes.take n = f.header.toBytes := by
    apply List.take_of_length_le
    rw [Header.length_toBytes]
    exact hn
  rw [bytes, bytes, List.take_append, hheader, Header.length_toBytes]
  rfl

/-- A field that ends in front of the cut stays as it is. -/
theorem cut_of_length_le {f : Field} {n : Nat} (h : f.bytes.length ≤ n) : f.cut n = f := by
  obtain ⟨header, body⟩ := f
  rw [bytes, List.length_append, Header.length_toBytes] at h
  have hbody : body.length ≤ n - headerSize := Nat.le_sub_of_add_le' h
  rw [cut, List.take_of_length_le hbody]

/-- **The front of a byte string starts with what is left of its field.** -/
theorem ofBytes?_take (bytes : Bytes) {n : Nat} (hn : headerSize ≤ n) :
    ofBytes? (bytes.take n) = (ofBytes? bytes).map (·.cut n) := by
  rcases Nat.lt_or_ge bytes.length headerSize with hshort | hroom
  · rw [List.take_of_length_le (Nat.le_trans (Nat.le_of_lt hshort) hn), ofBytes?_of_short hshort]
    rfl
  · obtain ⟨header, hheader⟩ := Header.exists_ofBytes? hroom
    rw [Header.eq_toBytes_append hheader]
    generalize bytes.drop headerSize = rest
    have hfront : (header.toBytes ++ rest).take n = header.toBytes ++ rest.take (n - headerSize) := by
      obtain ⟨m, rfl⟩ := Nat.exists_eq_add_of_le hn
      rw [headerSize, ← Header.length_toBytes header, List.take_length_add_append, Nat.add_sub_cancel_left]
    rw [hfront, ofBytes?_header, ofBytes?_header, Option.map_some, cut, List.take_take, List.take_take,
      Nat.min_comm]

/-! ## Walks through the front -/

namespace Walk

variable {bytes : Bytes} {offset : Nat} {cs ds : List (Nat × Field)}

/-- Nothing stands in front of where a walk starts. -/
theorem le_offset (h : Walk bytes offset cs) : ∀ c ∈ cs, offset ≤ c.1 := by
  induction h with
  | stop _ =>
    intro c hmem
    cases hmem
  | step _ _ ih =>
    intro c hmem
    rcases List.mem_cons.mp hmem with rfl | hmem
    · exact Nat.le_refl _
    · exact Nat.le_trans (Nat.le_add_right _ _) (ih c hmem)

/-- There is only one walk from an offset on. -/
theorem unique (h : Walk bytes offset cs) (h' : Walk bytes offset ds) : cs = ds := by
  -- both walks go on as long as there is a header, and the header is the same for both
  induction h generalizing ds with
  | stop hend =>
    cases h' with
    | stop _ => rfl
    | step hd _ =>
      have hroom := headerSize_le_of_ofBytes? hd
      rw [List.length_drop] at hroom
      unfold headerSize at *
      omega
  | step hc _ ih =>
    cases h' with
    | stop hend =>
      have hroom := headerSize_le_of_ofBytes? hc
      rw [List.length_drop] at hroom
      unfold headerSize at *
      omega
    | step hd hrest =>
      rw [hc] at hd
      cases hd
      rw [ih hrest]

variable {n : Nat}

/-- Behind a header that does not end in front of `n` there is none that does. -/
theorem filter_eq_nil (h : Walk bytes offset cs) (hn : n < offset + headerSize) :
    cs.filter (fun c => c.1 + headerSize ≤ n) = [] := by
  rw [List.filter_eq_nil_iff]
  intro c hmem hle
  have hoffset := h.le_offset c hmem
  have hle := of_decide_eq_true hle
  omega

/-- The headers that end in front of `n` come first. -/
theorem prefix_filter (h : Walk bytes offset cs) :
    cs.filter (fun c => c.1 + headerSize ≤ n) <+: cs := by
  induction h with
  | stop _ => exact List.prefix_refl _
  | @step offset c cs hc hrest ih =>
    by_cases hle : offset + headerSize ≤ n
    case pos =>
      rw [List.filter_cons, if_pos (decide_eq_true hle)]
      exact List.cons_prefix_cons.mpr ⟨rfl, ih⟩
    case neg =>
      rw [(Walk.step hc hrest).filter_eq_nil (Nat.not_le.mp hle)]
      exact List.nil_prefix

/-- **The walk through the front of a byte string** meets what is left of the fields whose headers are there. -/
theorem take (h : Walk bytes offset cs) :
    Walk (bytes.take n) offset
      ((cs.filter fun c => c.1 + headerSize ≤ n).map fun c => (c.1, c.2.cut (n - c.1))) := by
  induction h with
  | stop hend =>
    refine .stop (Nat.lt_of_le_of_lt ?_ hend)
    exact List.length_take_le' _ _
  | @step offset c cs hc hrest ih =>
    by_cases hle : offset + headerSize ≤ n
    case pos =>
      have hn : headerSize ≤ n - offset := by omega
      rw [List.filter_cons, if_pos (decide_eq_true hle), List.map_cons]
      refine .step ?_ ih
      rw [List.drop_take, ofBytes?_take _ hn, hc, Option.map_some]
    case neg =>
      -- this header is not there any more, and so none of those behind it
      rw [(Walk.step hc hrest).filter_eq_nil (Nat.not_le.mp hle), List.map_nil]
      refine .stop (Nat.lt_of_le_of_lt ?_ (Nat.not_le.mp hle))
      exact List.length_take_le _ _

end Walk

/-! ## Main statement -/

/-- What is met of a child in the first `n` bytes of its parent. -/
structure Kept (n : Nat) (child kept : Nat × Field) : Prop where
  offset : kept.1 = child.1
  header : kept.2.header = child.2.header
  /-- a child that ends in front of the cut is the same field -/
  whole : child.1 + child.2.bytes.length ≤ n → kept.2 = child.2

/-- Which children are left of a field, and what is left of them. -/
theorem placedChildren_cut {bytes : Bytes} {f : Field} (h : ofBytes? bytes = some f) {n : Nat}
    (hn : headerSize ≤ n) :
    (f.cut n).placedChildren =
      (f.placedChildren.filter fun c => c.1 + headerSize ≤ n).map fun c => (c.1, c.2.cut (n - c.1)) := by
  have hcut : ofBytes? (bytes.take n) = some (f.cut n) := by
    rw [ofBytes?_take bytes hn, h, Option.map_some]
  have hwalk := walk_placedChildren hcut
  rw [bytes_cut f hn] at hwalk
  exact hwalk.unique (walk_placedChildren h).take

/-- **To cut bytes off removes nothing but the tail of the walk.** The children that are met in the first `n` bytes
    are, in order, those of all bytes whose headers end in front of the cut. They stand at the same offsets and have
    the same header words. Those that end in front of the cut are the same fields with the same bytes, so whatever
    is read of them, printed or dumped is the same. -/
theorem children_take {bytes : Bytes} {n : Nat} (hn : headerSize ≤ n) (hlength : n ≤ bytes.length) :
    ∃ f g, ofBytes? bytes = some f ∧ ofBytes? (bytes.take n) = some g ∧
      (f.placedChildren.filter fun c => c.1 + headerSize ≤ n) <+: f.placedChildren ∧
      List.Forall₂ (Kept n) (f.placedChildren.filter fun c => c.1 + headerSize ≤ n) g.placedChildren := by
  obtain ⟨f, hf⟩ := exists_ofBytes? (Nat.le_trans hn hlength)
  have hcut : ofBytes? (bytes.take n) = some (f.cut n) := by
    rw [ofBytes?_take bytes hn, hf, Option.map_some]
  refine ⟨f, f.cut n, hf, hcut, (walk_placedChildren hf).prefix_filter, ?_⟩
  rw [placedChildren_cut hf hn, List.forall₂_map_right_iff, List.forall₂_same]
  intro c _
  refine ⟨rfl, rfl, ?_⟩
  intro hend
  exact cut_of_length_le (by omega)

/-- An array of three fields. -/
def sampleRow : Bytes :=
  [0x09, 0, 0, 0x18, 0x02, 0, 0, 5, 1, 0, 0, 0, 0x03, 0, 0, 8, 1, 2, 3, 4, 0x01, 0, 0, 4]

/-- The second field loses half of its payload, the third one its header. -/
theorem children_take_sampleRow :
    headerSize ≤ 18 ∧ 18 ≤ sampleRow.length ∧
      ∃ f g, ofBytes? sampleRow = some f ∧ ofBytes? (sampleRow.take 18) = some g ∧
        (f.placedChildren.filter fun c => c.1 + headerSize ≤ 18) <+: f.placedChildren ∧
        List.Forall₂ (Kept 18) (f.placedChildren.filter fun c => c.1 + headerSize ≤ 18) g.placedChildren :=
  ⟨by decide, by decide, children_take (by decide) (by decide)⟩

example : (ofBytes? (sampleRow.take 18)).map (·.placedChildren.map fun c => (c.1, c.2.bytes)) =
    some [(4, [0x02, 0, 0, 5, 1, 0, 0, 0]), (12, [0x03, 0, 0, 8, 1, 2])] := by decide

end FieldTree.Field
