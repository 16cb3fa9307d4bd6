import FieldTree.Proofs.Signature.Matching
import FieldTree.Proofs.Truncation

/-!
# Slack

A field that is not a container ends with its length, but it takes up its padded length. What lies in between are
up to three bytes of slack. The tree of a field is what can be reached through arrays and tables: these have
fields as children, and what other fields hold is a value.

Two fields are apart in slack only if their trees have the same headers at the same paths, and if every byte in
which they differ is slack of some field of the tree. This module shows that the relation is passed on from a
container to its children, which stand at the same offsets, and that it leaves the payload of other fields alone.

## Architecture

- `Field.placedAt?`: the tree of a field, by paths.
- `Field.Slack`, `Field.SlackApart`: the bytes of slack, and fields that differ in nothing else.
- `Field.Walk.apart`: a byte belongs to one sibling only.
- `Field.SlackApart.placedChildren`, `Field.SlackApart.data_eq`: **the two steps down the tree.**
-/

namespace FieldTree

/-- Lists that are related one by one have related elements at every index. -/
theorem rel_getElem? {α β : Type} {R : α → β → Prop} {xs : List α} {ys : List β} (h : List.Forall₂ R xs ys)
    (i : Nat) : Option.Rel R xs[i]? ys[i]? := by
  induction h generalizing i with
  | nil => exact .none
  | cons hxy _ ih =>
    cases i with
    | zero => exact .some hxy
    | succ i => exact ih i

/-- Bytes of the same length can differ only at an index that is inside of both. -/
theorem Bytes.lt_length_of_getElem?_ne {u v : Bytes} (hlength : u.length = v.length) {k : Nat}
    (hne : u[k]? ≠ v[k]?) : k < u.length := by
  by_contra hend
  have hend := Nat.not_lt.mp hend
  exact hne ((List.getElem?_eq_none hend).trans (List.getElem?_eq_none (hlength ▸ hend)).symm)

namespace Field

/-! ## The tree of a field -/

/-- The field at the end of a path, with its offset. Paths lead through containers only: a walk through the
    payload of another field would take a value for headers, and the slack behind it as well. -/
def placedAt? (f : Field) : (path : List Nat) → Option (Nat × Field)
  | [] => some (0, f)
  | i :: path =>
    if f.type.isContainer then
      f.placedChildren[i]?.bind fun c => (c.2.placedAt? path).map fun d => (c.1 + d.1, d.2)
    else none

/-- The byte number `p` belongs to a field of the tree that is not a container, and lies behind its length. -/
def Slack (f : Field) (p : Nat) : Prop :=
  ∃ path offset c, f.placedAt? path = some (offset, c) ∧ c.type.isContainer = false ∧ headerSize ≤ c.rawLength ∧
    offset + c.rawLength ≤ p ∧ p < offset + c.bytes.length

/-- Two fields whose trees have the same headers, and that differ in slack only. -/
structure SlackApart (f g : Field) : Prop where
  exists_bytes : ∃ bytes, ofBytes? bytes = some f
  exists_bytes' : ∃ bytes, ofBytes? bytes = some g
  headers : ∀ path, (f.placedAt? path).map (·.2.header) = (g.placedAt? path).map (·.2.header)
  length_eq : f.bytes.length = g.bytes.length
  slack : ∀ p : Nat, f.bytes[p]? ≠ g.bytes[p]? → f.Slack p

variable {f g : Field}

theorem stride_congr (h : f.header = g.header) : f.stride = g.stride := by
  rw [stride, stride, paddedLength, paddedLength, h]

theorem placedAt?_cons (hcontainer : f.type.isContainer = true) {i : Nat} {c : Nat × Field}
    (hc : f.placedChildren[i]? = some c) (path : List Nat) :
    f.placedAt? (i :: path) = (c.2.placedAt? path).map fun d => (c.1 + d.1, d.2) := by
  rw [placedAt?, if_pos hcontainer, hc, Option.bind_some]

theorem exists_of_placedAt?_cons {i offset : Nat} {path : List Nat} {e : Field}
    (h : f.placedAt? (i :: path) = some (offset, e)) :
    f.type.isContainer = true ∧ ∃ c inner, f.placedChildren[i]? = some c ∧
      c.2.placedAt? path = some (inner, e) ∧ offset = c.1 + inner := by
  unfold placedAt? at h
  split at h
  · next hcontainer =>
    obtain ⟨c, hc, hpath⟩ := Option.bind_eq_some_iff.mp h
    obtain ⟨⟨inner, e'⟩, hinner, hplaced⟩ := Option.map_eq_some_iff.mp hpath
    cases hplaced
    exact ⟨hcontainer, c, inner, hc, hinner, rfl⟩
  · cases h

/-! ## Siblings -/

namespace Walk

variable {bytes bytes' : Bytes} {offset : Nat} {cs ds : List (Nat × Field)}

/-- **A byte belongs to one sibling only.** -/
theorem apart (h : Walk bytes offset cs) {c d : Nat × Field} (hc : c ∈ cs) (hd : d ∈ cs) :
    c = d ∨ c.1 + c.2.bytes.length ≤ d.1 ∨ d.1 + d.2.bytes.length ≤ c.1 := by
  induction h with
  | stop _ => cases hc
  | @step offset first cs hfirst hrest ih =>
    have hlength := length_bytes_of_ofBytes? hfirst
    rcases List.mem_cons.mp hc with rfl | hc <;> rcases List.mem_cons.mp hd with rfl | hd
    · exact .inl rfl
    · have hle := hrest.le_offset d hd
      exact .inr (.inl (by dsimp only; omega))
    · have hle := hrest.le_offset c hc
      exact .inr (.inr (by dsimp only; omega))
    · exact ih hc hd

/-- Siblings end where the bytes end at the latest. -/
theorem stop_le (h : Walk bytes offset cs) {c : Nat × Field} (hc : c ∈ cs) :
    c.1 + c.2.bytes.length ≤ bytes.length := by
  have hlength := length_bytes_le (h.found c hc)
  have hinside := h.inside c hc
  rw [List.length_drop] at hlength
  omega

theorem getElem?_bytes (h : Walk bytes offset cs) {c : Nat × Field} (hc : c ∈ cs) {p : Nat}
    (hp : p < c.2.bytes.length) : bytes[c.1 + p]? = c.2.bytes[p]? := by
  have hlength := length_bytes_of_ofBytes? (h.found c hc)
  rw [bytes_of_ofBytes? (h.found c hc), List.getElem?_take_of_lt (Nat.lt_of_lt_of_le hp hlength),
    List.getElem?_drop]

/-- **The headers determine where the siblings stand.** -/
theorem forall₂_of_headers (h : Walk bytes offset cs) (h' : Walk bytes' offset ds)
    (hheaders : cs.map (·.2.header) = ds.map (·.2.header)) :
    List.Forall₂ (fun c d => c.1 = d.1 ∧ c.2.header = d.2.header) cs ds := by
  induction h generalizing ds with
  | stop _ =>
    cases h' with
    | stop _ => exact .nil
    | step _ _ => cases hheaders
  | @step offset c cs hc hrest ih =>
    cases h' with
    | stop _ => cases hheaders
    | @step _ d ds hd hrest' =>
      obtain ⟨hheader, hheaders⟩ := List.cons.inj hheaders
      rw [← stride_congr hheader] at hrest'
      exact .cons ⟨rfl, hheader⟩ (ih hrest' hheaders)

end Walk

/-- A field of the tree lies inside of the field. -/
theorem placedAt?_inside {bytes : Bytes} (hf : ofBytes? bytes = some f) {path : List Nat} {offset : Nat}
    {c : Field} (h : f.placedAt? path = some (offset, c)) : offset + c.bytes.length ≤ f.bytes.length := by
  induction path generalizing f bytes offset with
  | nil =>
    cases h
    exact Nat.le_of_eq (Nat.zero_add _)
  | cons i path ih =>
    obtain ⟨-, child, inner, hchild, hinner, rfl⟩ := exists_of_placedAt?_cons h
    have hmem := List.mem_of_getElem? hchild
    have hwalk := walk_placedChildren hf
    have hstop := hwalk.stop_le hmem
    have hle := ih (hwalk.found child hmem) hinner
    omega

/-! ## Slack in the tree -/

/-- The slack of a field that is not a container is its own. -/
theorem Slack.of_scalar {p : Nat} (h : f.Slack p) (hscalar : f.type.isContainer = false) :
    headerSize ≤ f.rawLength ∧ f.rawLength ≤ p := by
  obtain ⟨_ | ⟨i, path⟩, offset, c, hplaced, -, hlow, hstart, -⟩ := h
  case nil =>
    cases hplaced
    rw [Nat.zero_add] at hstart
    exact ⟨hlow, hstart⟩
  case cons =>
    have hcontainer := (exists_of_placedAt?_cons hplaced).1
    rw [hscalar] at hcontainer
    cases hcontainer

/-- **The slack of a container is the slack of the child that it lies in.** -/
theorem Slack.of_container {p : Nat} {c : Nat × Field} (h : f.Slack (c.1 + p)) {bytes : Bytes}
    (hf : ofBytes? bytes = some f) (hcontainer : f.type.isContainer = true) (hc : c ∈ f.placedChildren)
    (hp : p < c.2.bytes.length) : c.2.Slack p := by
  obtain ⟨_ | ⟨i, path⟩, offset, e, hplaced, hscalar, hlow, hstart, hstop⟩ := h
  case nil =>
    cases hplaced
    rw [hcontainer] at hscalar
    cases hscalar
  case cons =>
    obtain ⟨-, d, inner, hd, hinner, rfl⟩ := exists_of_placedAt?_cons hplaced
    have hd := List.mem_of_getElem? hd
    have hwalk := walk_placedChildren hf
    have hinside := placedAt?_inside (hwalk.found d hd) hinner
    -- the byte lies in both children, so they are the same
    obtain rfl : c = d := by
      rcases hwalk.apart hc hd with rfl | hbefore | hbehind
      · rfl
      · omega
      · omega
    exact ⟨path, inner, e, hinner, hscalar, hlow, by omega, by omega⟩

/-! ## Steps down the tree -/

namespace SlackApart

theorem header_eq (h : f.SlackApart g) : f.header = g.header := Option.some.inj (h.headers [])

theorem type_eq (h : f.SlackApart g) : f.type = g.type := by
  rw [type, type, h.header_eq]

/-- **The payload of a field that is not a container is free of slack.** -/
theorem data_eq (h : f.SlackApart g) (hscalar : f.type.isContainer = false) : f.data = g.data := by
  apply List.ext_getElem?
  intro k
  rw [data, data, ← h.header_eq, ← drop_headerSize_bytes, ← drop_headerSize_bytes, List.getElem?_take,
    List.getElem?_take, List.getElem?_drop, List.getElem?_drop]
  split
  · next hk =>
    -- the slack of a field that has no children starts behind its length, and the payload ends there
    by_contra hne
    obtain ⟨-, hstart⟩ := (h.slack _ hne).of_scalar hscalar
    have hraw : f.header.rawLength ≤ headerSize + k := hstart
    rw [Header.dataLength] at hk
    omega
  · rfl

/-- **The children of a container are apart in slack only**, and stand at the same offsets. -/
theorem placedChildren (h : f.SlackApart g) (hcontainer : f.type.isContainer = true) :
    List.Forall₂ (fun c d => c.1 = d.1 ∧ SlackApart c.2 d.2) f.placedChildren g.placedChildren := by
  obtain ⟨bytes, hf⟩ := h.exists_bytes
  obtain ⟨bytes', hg⟩ := h.exists_bytes'
  have hcontainer' : g.type.isContainer = true := h.type_eq ▸ hcontainer
  have hwalk := walk_placedChildren hf
  have hwalk' := walk_placedChildren hg
  -- the paths of one step determine the headers of the children, and these where the children stand
  have hheaders : f.placedChildren.map (·.2.header) = g.placedChildren.map (·.2.header) := by
    apply List.ext_getElem?
    intro i
    have hpath := h.headers [i]
    rw [placedAt?, placedAt?, if_pos hcontainer, if_pos hcontainer'] at hpath
    rw [List.getElem?_map, List.getElem?_map]
    revert hpath
    cases f.placedChildren[i]? <;> cases g.placedChildren[i]? <;> exact id
  have hplaced := hwalk.forall₂_of_headers hwalk' hheaders
  rw [forall₂_iff_getElem?] at hplaced ⊢
  refine ⟨hplaced.1, fun i c d hc hd => ?_⟩
  obtain ⟨hoffset, hheader⟩ := hplaced.2 i c d hc hd
  have hmem := List.mem_of_getElem? hc
  have hmem' := List.mem_of_getElem? hd
  have hlength : c.2.bytes.length = d.2.bytes.length := by
    rw [hwalk.bytes_eq c hmem, hwalk'.bytes_eq d hmem', Bytes.slice, Bytes.slice, List.length_drop,
      List.length_drop, List.length_take, List.length_take, h.length_eq, hoffset, stride_congr hheader]
  refine ⟨hoffset, ⟨_, hwalk.found c hmem⟩, ⟨_, hwalk'.found d hmem'⟩, ?_, hlength, ?_⟩
  · -- the paths of a child are those of its parent that start with its number
    intro path
    have hpath := h.headers (i :: path)
    rw [placedAt?_cons hcontainer hc, placedAt?_cons hcontainer' hd, Option.map_map, Option.map_map] at hpath
    exact hpath
  · intro p hne
    have hp : p < c.2.bytes.length := Bytes.lt_length_of_getElem?_ne hlength hne
    refine Slack.of_container (h.slack _ ?_) hf hcontainer hmem hp
    rw [hwalk.getElem?_bytes hmem hp, hoffset, hwalk'.getElem?_bytes hmem' (hlength ▸ hp)]
    exact hne

theorem children (h : f.SlackApart g) (hcontainer : f.type.isContainer = true) :
    List.Forall₂ SlackApart f.children g.children := by
  rw [Field.children, Field.children, List.forall₂_map_left_iff, List.forall₂_map_right_iff]
  exact (h.placedChildren hcontainer).imp fun _ _ hapart => hapart.2

/-- **The fields at every path are apart in slack only**, and stand at the same offsets. -/
theorem placedAt? (h : f.SlackApart g) (path : List Nat) :
    Option.Rel (fun c d => c.1 = d.1 ∧ SlackApart c.2 d.2) (f.placedAt? path) (g.placedAt? path) := by
  induction path generalizing f g with
  | nil => exact .some ⟨rfl, h⟩
  | cons i path ih =>
    cases hcontainer : f.type.isContainer with
    | false =>
      have hcontainer' : g.type.isContainer = false := h.type_eq ▸ hcontainer
      rw [Field.placedAt?, Field.placedAt?, hcontainer, hcontainer']
      exact .none
    | true =>
      have hcontainer' : g.type.isContainer = true := h.type_eq ▸ hcontainer
      -- the children are related one by one, and so are the fields at the rest of the path in them
      have hchild := rel_getElem? (h.placedChildren hcontainer) i
      rw [Field.placedAt?, Field.placedAt?, if_pos hcontainer, if_pos hcontainer']
      generalize f.placedChildren[i]? = c?, g.placedChildren[i]? = d? at hchild
      cases hchild with
      | none => exact .none
      | @some c d hcd =>
        have hpath := ih hcd.2
        rw [Option.bind_some, Option.bind_some, hcd.1]
        generalize c.2.placedAt? path = c?, d.2.placedAt? path = d? at hpath
        cases hpath with
        | none => exact .none
        | some hinner => exact .some ⟨congrArg (d.1 + ·) hinner.1, hinner.2⟩

end SlackApart

/-- Byte strings of the same length that differ in slack only start with fields that do. -/
theorem slackApart_of_ofBytes? {bytes bytes' : Bytes} (hlength : bytes.length = bytes'.length)
    (hf : ofBytes? bytes = some f) (hg : ofBytes? bytes' = some g)
    (hheaders : ∀ path, (f.placedAt? path).map (·.2.header) = (g.placedAt? path).map (·.2.header))
    (hslack : ∀ p : Nat, bytes[p]? ≠ bytes'[p]? → f.Slack p) : f.SlackApart g := by
  have hstride : f.stride = g.stride := stride_congr (Option.some.inj (hheaders []))
  refine ⟨⟨bytes, hf⟩, ⟨bytes', hg⟩, hheaders, ?_, ?_⟩
  · rw [bytes_of_ofBytes? hf, bytes_of_ofBytes? hg, List.length_take, List.length_take, hlength, hstride]
  · intro p hne
    rw [bytes_of_ofBytes? hf, bytes_of_ofBytes? hg, ← hstride, List.getElem?_take, List.getElem?_take] at hne
    split at hne
    · exact hslack p hne
    · exact absurd rfl hne

end Field

end FieldTree
