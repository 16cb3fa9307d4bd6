import FieldTree.Field.Basic
import Mathlib.Tactic.Common

/-!
# Children of Arbitrary Bytes

Nothing is known of a byte string but that it starts with four bytes: the lengths that it states, its own and
those of its children, may be zero, below a header's, or beyond the end. This module shows that the children
of the field still tile it. They stand one behind the other, the walk over them comes to an end, and it leaves
out nothing but a last stretch too short for a header.

## Architecture

- `Field.siblings_header`, `Field.siblings_eq`: a walk, one field at a time.
- `Field.Walk`: the walk as a relation, with one lemma for each thing that holds of all walks.
- `Field.Tiling`: what it means that fields tile another one.
- `Field.children_tile`: **the main statement.**
-/

namespace FieldTree.Field

/-! ## Lengths -/

theorem length_body_of_mem_siblings {offset skip : Nat} {bytes : Bytes} :
    ∀ c ∈ siblings offset skip bytes, headerSize + c.2.body.length ≤ bytes.length := by
  fun_induction siblings offset skip bytes with
  | case1 offset a b c d rest h ih =>
    intro f hf
    rcases List.mem_cons.mp hf with rfl | hf
    · simp only [List.length_take, List.length_cons, headerSize]; omega
    · have := ih f hf
      simp only [List.length_cons]; omega
  | case2 offset skip _ rest ih =>
    intro f hf
    exact Nat.le_succ_of_le (ih f hf)
  | case3 => intro f hf; cases hf

theorem length_body_lt_of_mem_children {f c : Field} (h : c ∈ f.children) :
    c.body.length < f.body.length := by
  unfold children placedChildren at h
  split at h
  · cases h
  · obtain ⟨placed, hplaced, rfl⟩ := List.mem_map.mp h
    have := length_body_of_mem_siblings placed hplaced
    unfold headerSize at this; omega

/-! ## One field at a time -/

theorem siblings_skip (offset skip : Nat) (bytes : Bytes) :
    siblings offset skip bytes = siblings (offset + skip) 0 (bytes.drop skip) := by
  induction skip generalizing offset bytes with
  | zero => rfl
  | succ skip ih =>
    cases bytes with
    | nil => simp [siblings]
    | cons b rest => rw [siblings, ih, List.drop_succ_cons, Nat.add_assoc, Nat.add_comm 1 skip]

theorem siblings_header (offset : Nat) (h : Header) (rest : Bytes) :
    siblings offset 0 (h.toBytes ++ rest) =
      (offset, ⟨h, rest.take (bodyRoom h)⟩) ::
        siblings (offset + headerSize + bodyRoom h) 0 (rest.drop (bodyRoom h)) := by
  have hread := Header.ofBytes?_toBytes h rest
  obtain ⟨a, b, c, d, e⟩ : ∃ a b c d, h.toBytes = [a, b, c, d] := ⟨_, _, _, _, rfl⟩
  rw [e] at hread ⊢
  have hword : Header.ofWord (Bytes.toNat [a, b, c, d]) = h := Option.some.inj hread
  simp only [List.cons_append, List.nil_append, siblings, hword]
  rw [siblings_skip]

/-! ## The field in front -/

theorem stride_eq (h : Header) (body : Bytes) : stride ⟨h, body⟩ = headerSize + bodyRoom h := by
  simp only [stride, paddedLength, bodyRoom]
  omega

theorem headerSize_le_stride (c : Field) : headerSize ≤ c.stride := Nat.le_max_right _ _

theorem dvd_stride (c : Field) : 4 ∣ c.stride := by
  have hpadded : 4 ∣ c.paddedLength := dvd_alignUp _
  simp only [stride, headerSize]
  omega

theorem ofBytes?_of_short {bytes : Bytes} (h : bytes.length < headerSize) : ofBytes? bytes = none := by
  match bytes, h with
  | [], _ | [_], _ | [_, _], _ | [_, _, _], _ => rfl

theorem exists_ofBytes? {bytes : Bytes} (h : headerSize ≤ bytes.length) : ∃ c, ofBytes? bytes = some c := by
  obtain ⟨header, hheader⟩ := Header.exists_ofBytes? h
  rw [Header.eq_toBytes_append hheader]
  exact ⟨_, ofBytes?_header header _⟩

theorem headerSize_le_of_ofBytes? {bytes : Bytes} {c : Field} (h : ofBytes? bytes = some c) :
    headerSize ≤ bytes.length := by
  by_contra hshort
  rw [ofBytes?_of_short (Nat.not_le.mp hshort)] at h
  cases h

/-- A field is the front of the bytes that it was found in, as far as they reach. -/
theorem bytes_of_ofBytes? {bytes : Bytes} {c : Field} (h : ofBytes? bytes = some c) :
    c.bytes = bytes.take c.stride := by
  obtain ⟨header, hheader⟩ := Header.exists_ofBytes? (headerSize_le_of_ofBytes? h)
  have hsplit := Header.eq_toBytes_append hheader
  rw [hsplit, ofBytes?_header] at h
  cases h
  conv_rhs => rw [hsplit, stride_eq, headerSize, ← Header.length_toBytes header, List.take_length_add_append]
  rfl

/-- **A walk reads the field in front and goes on behind it.** -/
theorem siblings_eq (offset : Nat) (bytes : Bytes) :
    siblings offset 0 bytes =
      match ofBytes? bytes with
      | none => []
      | some c => (offset, c) :: siblings (offset + c.stride) 0 (bytes.drop c.stride) := by
  rcases Nat.lt_or_ge bytes.length headerSize with hshort | hroom
  · rw [ofBytes?_of_short hshort]
    match bytes, hshort with
    | [], _ | [_], _ | [_, _], _ | [_, _, _], _ => rfl
  · obtain ⟨header, hheader⟩ := Header.exists_ofBytes? hroom
    rw [Header.eq_toBytes_append hheader, siblings_header, ofBytes?_header]
    dsimp only
    rw [stride_eq, Nat.add_assoc]
    congr 2
    rw [headerSize, ← Header.length_toBytes header, List.drop_length_add_append]

/-! ## Walks -/

/-- The fields in a byte string from an offset on, one behind the other, up to a stretch that is too short
    for a header. -/
inductive Walk (bytes : Bytes) : Nat → List (Nat × Field) → Prop where
  | stop {offset : Nat} : bytes.length < offset + headerSize → Walk bytes offset []
  | step {offset : Nat} {c : Field} {cs : List (Nat × Field)} :
      ofBytes? (bytes.drop offset) = some c → Walk bytes (offset + c.stride) cs →
      Walk bytes offset ((offset, c) :: cs)

/-- **Every walk comes to an end**, since each field takes up at least a header. -/
theorem walk_siblings (bytes : Bytes) (offset : Nat) :
    Walk bytes offset (siblings offset 0 (bytes.drop offset)) := by
  -- induction on the number of bytes that are left
  induction hleft : bytes.length - offset using Nat.strongRecOn generalizing offset with
  | ind left ih =>
    rw [siblings_eq]
    rcases Nat.lt_or_ge (bytes.drop offset).length headerSize with hshort | hroom
    · rw [ofBytes?_of_short hshort]
      rw [List.length_drop] at hshort
      exact .stop (by omega)
    · obtain ⟨c, hc⟩ := exists_ofBytes? hroom
      have hstride := c.headerSize_le_stride
      rw [List.length_drop] at hroom
      rw [hc]
      refine .step hc ?_
      rw [List.drop_drop]
      refine ih (bytes.length - (offset + c.stride)) ?_ _ rfl
      unfold headerSize at hstride hroom
      omega

namespace Walk

variable {bytes : Bytes} {offset : Nat} {cs : List (Nat × Field)}

theorem head (h : Walk bytes offset cs) : cs[0]? = (ofBytes? (bytes.drop offset)).map (offset, ·) := by
  cases h with
  | stop hend =>
    rw [ofBytes?_of_short (by rw [List.length_drop]; unfold headerSize at *; omega)]
    rfl
  | step hc _ => rw [hc]; rfl

/-- Behind every field stands the one that starts where its stride ends. -/
theorem next (h : Walk bytes offset cs) (i : Nat) :
    cs[i + 1]? = cs[i]?.bind fun c => (ofBytes? (bytes.drop (c.1 + c.2.stride))).map (c.1 + c.2.stride, ·) := by
  induction h generalizing i with
  | stop _ => rfl
  | step hc hrest ih =>
    cases i with
    | zero => exact hrest.head
    | succ i => exact ih i

/-- Every field of a walk is the one in front at its offset. -/
theorem found (h : Walk bytes offset cs) : ∀ c ∈ cs, ofBytes? (bytes.drop c.1) = some c.2 := by
  induction h with
  | stop _ =>
    intro c hmem
    cases hmem
  | step hc _ ih =>
    intro c hmem
    rcases List.mem_cons.mp hmem with rfl | hmem
    · exact hc
    · exact ih c hmem

theorem aligned (h : Walk bytes offset cs) (hoffset : 4 ∣ offset) : ∀ c ∈ cs, 4 ∣ c.1 := by
  induction h with
  | stop _ =>
    intro c hmem
    cases hmem
  | @step offset first cs hc hrest ih =>
    intro c hmem
    rcases List.mem_cons.mp hmem with rfl | hmem
    · exact hoffset
    · exact ih (Nat.dvd_add hoffset first.dvd_stride) c hmem

/-- Every field has room for its header. -/
theorem inside (h : Walk bytes offset cs) : ∀ c ∈ cs, c.1 + headerSize ≤ bytes.length := by
  intro c hmem
  have hroom := headerSize_le_of_ofBytes? (h.found c hmem)
  rw [List.length_drop] at hroom
  unfold headerSize at *
  omega

theorem bytes_eq (h : Walk bytes offset cs) :
    ∀ c ∈ cs, c.2.bytes = bytes.slice c.1 (min (c.1 + c.2.stride) bytes.length) := by
  intro c hmem
  rw [bytes_of_ofBytes? (h.found c hmem), Bytes.slice, ← List.take_eq_take_min, List.drop_take,
    Nat.add_sub_cancel_left]

/-- The fields need a header each. -/
theorem length_le (h : Walk bytes offset cs) : headerSize * cs.length ≤ bytes.length - offset := by
  induction h with
  | stop _ => exact Nat.zero_le _
  | @step offset first cs hc hrest ih =>
    have hroom := headerSize_le_of_ofBytes? hc
    have hstride := first.headerSize_le_stride
    rw [List.length_drop] at hroom
    rw [List.length_cons]
    unfold headerSize at *
    omega

/-- **Nothing is left out**: the fields one after the other are all bytes but a last stretch. -/
theorem covered (h : Walk bytes offset cs) :
    ∃ rest, bytes.drop offset = cs.flatMap (·.2.bytes) ++ rest ∧ rest.length < headerSize := by
  induction h with
  | @stop offset hend =>
    refine ⟨bytes.drop offset, rfl, ?_⟩
    rw [List.length_drop]
    unfold headerSize at *
    omega
  | @step offset first cs hc hrest ih =>
    obtain ⟨rest, hcovered, hshort⟩ := ih
    refine ⟨rest, ?_, hshort⟩
    rw [List.flatMap_cons, List.append_assoc, ← hcovered, bytes_of_ofBytes? hc, ← List.drop_drop,
      List.take_append_drop]

end Walk

/-! ## Children -/

/-- What a field has behind its header is no longer than it states. -/
theorem length_bytes_of_ofBytes? {bytes : Bytes} {f : Field} (h : ofBytes? bytes = some f) :
    f.bytes.length ≤ f.stride := by
  rw [bytes_of_ofBytes? h]
  exact List.length_take_le _ _

theorem drop_headerSize_bytes (f : Field) : f.bytes.drop headerSize = f.body :=
  List.drop_left' f.header.length_toBytes

section Found

variable {bytes : Bytes} {f : Field}

/-- **The children are a walk through the field itself.** -/
theorem walk_placedChildren (h : ofBytes? bytes = some f) : Walk f.bytes headerSize f.placedChildren := by
  unfold placedChildren
  split
  · next hraw =>
    -- without payload the field is no more than its header
    have hlength := length_bytes_of_ofBytes? h
    have hstride : f.stride = headerSize := by
      have hraw : f.header.rawLength ≤ headerSize := hraw
      simp only [stride, paddedLength, Header.paddedLength, alignUp, headerSize] at *
      omega
    exact .stop (by unfold headerSize at *; omega)
  · rw [← drop_headerSize_bytes]
    exact walk_siblings f.bytes headerSize

/-- The stated length sets no bound of its own, because a field is never longer than it states. -/
theorem childAt?_eq (h : ofBytes? bytes = some f) {offset : Nat} (hoffset : headerSize ≤ offset) :
    f.childAt? offset = (ofBytes? (f.bytes.drop offset)).map (offset, ·) := by
  unfold childAt?
  split
  · next hend =>
    have hlength := length_bytes_of_ofBytes? h
    have hempty : (f.bytes.drop offset).length < headerSize := by
      rw [List.length_drop]
      simp only [stride, headerSize] at *
      omega
    rw [ofBytes?_of_short hempty]
    rfl
  · rfl

/-- The children are those that are met step by step. -/
theorem placedChildren_head (h : ofBytes? bytes = some f) : f.placedChildren[0]? = f.firstChild? := by
  unfold firstChild?
  split
  · next hraw => rw [placedChildren, if_pos hraw]; rfl
  · rw [childAt?_eq h (Nat.le_refl _)]
    exact (walk_placedChildren h).head

theorem placedChildren_next (h : ofBytes? bytes = some f) (i : Nat) :
    f.placedChildren[i + 1]? = f.placedChildren[i]?.bind f.nextChild? := by
  rw [(walk_placedChildren h).next i]
  -- what follows a child is never in front of the first one
  refine congrArg _ (funext fun c => ?_)
  rw [nextChild?, childAt?_eq h (Nat.le_trans c.2.headerSize_le_stride (Nat.le_add_left _ _))]

end Found

/-! ## Main statement -/

/-- Fields with their offsets tile a field behind its header. -/
structure Tiling (f : Field) (cs : List (Nat × Field)) : Prop where
  /-- the first one stands behind the header -/
  first : ∀ c, cs[0]? = some c → c.1 = headerSize
  /-- each starts where the one in front of it says that it ends, and at least a header further on -/
  next : ∀ i c d, cs[i]? = some c → cs[i + 1]? = some d → d.1 = c.1 + max c.2.paddedLength headerSize
  aligned : ∀ c ∈ cs, 4 ∣ c.1
  inside : ∀ c ∈ cs, c.1 + headerSize ≤ f.bytes.length
  /-- each is the stretch up to the next one, or up to the end -/
  bytes_eq : ∀ c ∈ cs, c.2.bytes = f.bytes.slice c.1 (min (c.1 + max c.2.paddedLength headerSize) f.bytes.length)
  /-- there is no gap and no overlap, and what is left at the end is too short for a header -/
  covered : ∃ rest, f.bytes = f.header.toBytes ++ cs.flatMap (·.2.bytes) ++ rest ∧ rest.length < headerSize

theorem tiling_placedChildren {bytes : Bytes} {f : Field} (h : ofBytes? bytes = some f) :
    f.Tiling f.placedChildren := by
  have hwalk := walk_placedChildren h
  -- all parts of a tiling are properties of the walk
  constructor
  case first =>
    intro c hc
    rw [hwalk.head] at hc
    obtain ⟨field, -, rfl⟩ := Option.map_eq_some_iff.mp hc
    rfl
  case next =>
    intro i c d hc hd
    rw [hwalk.next i, hc, Option.bind_some] at hd
    obtain ⟨field, -, rfl⟩ := Option.map_eq_some_iff.mp hd
    rfl
  case aligned => exact hwalk.aligned (Nat.dvd_refl 4)
  case inside => exact hwalk.inside
  case bytes_eq => exact hwalk.bytes_eq
  case covered =>
    obtain ⟨rest, hcovered, hshort⟩ := hwalk.covered
    refine ⟨rest, ?_, hshort⟩
    rw [List.append_assoc, ← hcovered, drop_headerSize_bytes, Field.bytes]

/-- **The children of any field tile it**, and a walk from child to child meets all of them and ends. -/
theorem children_tile {bytes : Bytes} (h : headerSize ≤ bytes.length) :
    ∃ f, ofBytes? bytes = some f ∧
      f.bytes = bytes.take (max f.paddedLength headerSize) ∧
      f.placedChildren[0]? = f.firstChild? ∧
      (∀ i, f.placedChildren[i + 1]? = f.placedChildren[i]?.bind f.nextChild?) ∧
      f.Tiling f.placedChildren ∧
      f.children.length ≤ (f.bytes.length - headerSize) / headerSize := by
  obtain ⟨f, hf⟩ := exists_ofBytes? h
  refine ⟨f, hf, bytes_of_ofBytes? hf, placedChildren_head hf, placedChildren_next hf,
    tiling_placedChildren hf, ?_⟩
  have hlength := (walk_placedChildren hf).length_le
  rw [children, List.length_map]
  unfold headerSize at *
  omega

/-- An array that claims to be longer than any byte string. Its first child states no length at all, the second
    one is cut off in its payload. -/
def sampleBytes : Bytes := [0x09, 0xff, 0xff, 0xff, 0x03, 0, 0, 0, 0x02, 0, 0, 0x20, 0x6b]

theorem children_tile_sampleBytes :
    headerSize ≤ sampleBytes.length ∧
      ∃ f, ofBytes? sampleBytes = some f ∧
        f.bytes = sampleBytes.take (max f.paddedLength headerSize) ∧
        f.placedChildren[0]? = f.firstChild? ∧
        (∀ i, f.placedChildren[i + 1]? = f.placedChildren[i]?.bind f.nextChild?) ∧
        f.Tiling f.placedChildren ∧
        f.children.length ≤ (f.bytes.length - headerSize) / headerSize :=
  ⟨by decide, children_tile (by decide)⟩

example : (ofBytes? sampleBytes).map (·.placedChildren.map fun c => (c.1, c.2.body)) =
    some [(4, []), (8, [0x6b])] := by decide

end FieldTree.Field
