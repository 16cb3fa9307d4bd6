import FieldTree.Header

/-!
# Fields

A field is a header together with the bytes that follow it, cut to the padded length that the header
states. Any four bytes and more make a field: a length that is too large is met with the bytes at hand, and
a length that is too small still takes up a header's room, so a walk over siblings always advances.

## Architecture

- `Field.ofBytes?`: the field at the front of a byte string.
- `Field.siblings`: all fields that follow each other in a byte string, with their offsets.
- `Field.children`: the siblings inside a field's payload.
- `Field.firstChild?`, `Field.nextChild?`: one step at a time from child to child.

Two fields are equal exactly when they have the same bytes, padding included.
-/

namespace FieldTree

/-- A field as it was found: its header, and the payload and padding that are present. -/
structure Field where
  header : Header
  /-- payload and padding, at most as long as the header states -/
  body : Bytes
  deriving DecidableEq, Repr

namespace Field

/-! ## Parts -/

/-- The field's type. -/
def type (f : Field) : FieldType := f.header.type

/-- The stated length, padding excluded. -/
def rawLength (f : Field) : Nat := f.header.rawLength

/-- The stated length, padding included. -/
def paddedLength (f : Field) : Nat := f.header.paddedLength

/-- All bytes of the field that are present. -/
def bytes (f : Field) : Bytes := f.header.toBytes ++ f.body

/-- The payload, as far as it is present. -/
def data (f : Field) : Bytes := f.body.take f.header.dataLength

/-- A field of no known type, without payload. -/
def empty : Field := ⟨.new .invalid headerSize, []⟩

/-- How many bytes after its header a field takes up among its siblings. -/
def bodyRoom (h : Header) : Nat := h.paddedLength - headerSize

/-- The field at the front of `bytes`; none if there is no room for a header. -/
def ofBytes? : Bytes → Option Field
  | a :: b :: c :: d :: rest =>
    let h := Header.ofWord (Bytes.toNat [a, b, c, d])
    some ⟨h, rest.take (bodyRoom h)⟩
  | _ => none

/-- A field is its header and what follows it, up to the padded length. -/
theorem ofBytes?_header (h : Header) (rest : Bytes) :
    ofBytes? (h.toBytes ++ rest) = some ⟨h, rest.take (bodyRoom h)⟩ := by
  have hread := Header.ofBytes?_toBytes h rest
  obtain ⟨a, b, c, d, e⟩ : ∃ a b c d, h.toBytes = [a, b, c, d] := ⟨_, _, _, _, rfl⟩
  rw [e] at hread ⊢
  have hword : Header.ofWord (Bytes.toNat [a, b, c, d]) = h := Option.some.inj hread
  simp only [List.cons_append, List.nil_append, ofBytes?, hword]

/-- A field has no more bytes than it was found in. -/
theorem length_bytes_le {bytes : Bytes} {f : Field} (h : ofBytes? bytes = some f) :
    f.bytes.length ≤ bytes.length := by
  unfold ofBytes? at h
  split at h
  · next a b c d rest =>
    cases h
    rw [Field.bytes, List.length_append, Header.length_toBytes, List.length_take]
    simp only [List.length_cons]
    omega
  · cases h

/-! ## Siblings and children -/

/-- The fields in `bytes` from index `skip` on, each with its offset, where the first of `bytes` has offset
    `offset`. A stretch too short for a header ends the walk. -/
def siblings : (offset skip : Nat) → Bytes → List (Nat × Field)
  | offset, 0, a :: b :: c :: d :: rest =>
    let h := Header.ofWord (Bytes.toNat [a, b, c, d])
    (offset, ⟨h, rest.take (bodyRoom h)⟩) :: siblings (offset + headerSize) (bodyRoom h) rest
  | offset, skip + 1, _ :: rest => siblings (offset + 1) skip rest
  | _, _, _ => []

/-- The children with their offsets from the start of the field. -/
def placedChildren (f : Field) : List (Nat × Field) :=
  if f.rawLength ≤ headerSize then [] else siblings headerSize 0 f.body

/-- The fields inside the payload and padding. -/
def children (f : Field) : List Field := f.placedChildren.map (·.2)

/-- How many bytes a field takes up among its siblings: never less than a header. -/
def stride (f : Field) : Nat := max f.paddedLength headerSize

/-- The child that starts at `offset`, if that is inside the stated length and there is a header. -/
def childAt? (f : Field) (offset : Nat) : Option (Nat × Field) :=
  if f.paddedLength ≤ offset then none else (ofBytes? (f.bytes.drop offset)).map (offset, ·)

/-- The first child with its offset; none for a field without payload. -/
def firstChild? (f : Field) : Option (Nat × Field) :=
  if f.rawLength ≤ headerSize then none else f.childAt? headerSize

/-- The child that follows a child. -/
def nextChild? (f : Field) (child : Nat × Field) : Option (Nat × Field) :=
  f.childAt? (child.1 + child.2.stride)

/-- The field that is reached by taking child number `i` for each `i` of the path. -/
def at? (f : Field) : (path : List Nat) → Option Field
  | [] => some f
  | i :: path => f.children[i]?.bind (·.at? path)

/-- Elements two by two; the last is alone where their number is odd. -/
def pairUp {α : Type} : List α → List (α × Option α)
  | [] => []
  | [a] => [(a, none)]
  | a :: b :: rest => (a, some b) :: pairUp rest

/-- The children as keys and values; a last key without value is left out. -/
def pairs (f : Field) : List (Field × Field) :=
  (pairUp f.children).filterMap fun (key, value) => value.map (key, ·)

/-! ## Text -/

/-- Type and lengths, for debugging. -/
def debugText (f : Field) : String :=
  let typeName := f.type.title
  s!"Field \x7b type: {typeName}, raw_len: {f.rawLength}, padded_len: {f.paddedLength} \x7d"

end Field

end FieldTree
