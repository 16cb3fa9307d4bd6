import FieldTree.Blob.Basic
import FieldTree.Journal

/-!
# Listings

A listing shows a field tree, one line per field in pre-order, indented by depth, with the header word, the
type, the lengths and the offset inside the parent. Payloads follow as hexadecimal bytes, sixteen to a line,
with their printable characters next to them. Containers nested `maxDepth` levels down are marked instead of
opened.

## Architecture

- `Listing.Line`: what a line says.
- `Field.listing`: the lines of a field.
- `Listing.Line.text`, `Field.dump`: the wording.
-/

namespace FieldTree

namespace Listing

/-- One line, at a depth. -/
inductive Line where
  /-- a field at an offset inside its parent -/
  | field (depth offset : Nat) (f : Field)
  /-- children that are not shown -/
  | hidden (depth : Nat)
  /-- part of a payload -/
  | payload (depth : Nat) (bytes : Bytes)
  deriving DecidableEq, Repr

/-- How many bytes a line of payload shows. -/
def bytesPerLine : Nat := 16

/-- The bytes in groups of `bytesPerLine`, of which the last can be shorter. -/
def groups (bytes : Bytes) : List Bytes :=
  if bytes = [] then [] else bytes.take bytesPerLine :: groups (bytes.drop bytesPerLine)
  termination_by bytes.length
  decreasing_by
    have : bytes.length ≠ 0 := by simpa using ‹_›
    simp [bytesPerLine]; omega

/-- The lines of a field and what is in it, with `room` more levels to show. -/
def lines : (room depth offset : Nat) → Field → List Line
  | 0, depth, offset, f =>
    .field depth offset f ::
      if f.type.isContainer then [.hidden (depth + 1)]
      else (groups f.data).map (.payload (depth + 1))
  | room + 1, depth, offset, f =>
    .field depth offset f ::
      if f.type.isContainer then
        f.placedChildren.flatMap fun (offset, child) => lines room (depth + 1) offset child
      else (groups f.data).map (.payload (depth + 1))

/-! ## Wording -/

/-- A byte as a character, where it is a printable one. -/
def printable (byte : UInt8) : Char :=
  if 0x20 ≤ byte ∧ byte < 0x7f then Char.ofNat byte.toNat else '.'

/-- The hexadecimal column of a line, of full width. -/
def hexColumn (bytes : Bytes) : List Char :=
  let column := bytes.flatMap fun byte => Bytes.hexDigits 2 byte.toNat ++ [' ']
  column ++ List.replicate (bytesPerLine * 3 - column.length) ' '

def Line.text : Line → String
  | field depth offset f =>
    let tabs := String.ofList (List.replicate depth '\t')
    let word := String.ofList (Bytes.hexDigits 8 f.header.word)
    let extents := s!"padded={f.paddedLength} raw={f.rawLength} data={f.header.dataLength}"
    s!"{tabs}[ field ({word}) type={f.type.name} offset={offset} {extents} ]\n"
  | hidden depth =>
    let tabs := String.ofList (List.replicate depth '\t')
    s!"{tabs}[ ... nested deeper than {maxDepth} levels ]\n"
  | payload depth bytes =>
    let tabs := String.ofList (List.replicate depth '\t')
    let hex := String.ofList (hexColumn bytes)
    let characters := String.ofList (bytes.map printable)
    s!"{tabs}{hex} |{characters}|\n"

end Listing

namespace Field

/-- The listing of a field. -/
def listing (f : Field) : List Listing.Line := Listing.lines maxDepth 0 0 f

/-- The listing of a field, as text. -/
def dump (f : Field) : String := String.join (f.listing.map (·.text))

end Field

/-- What a blob notes when it is asked to list itself. -/
def Blob.listingNote (b : Blob) : Journal.Entry := .content b.size b.head.dump

end FieldTree
