import FieldTree.Signature.Basic
import FieldTree.Journal

/-!
# Matching Fields against Signatures

A signature matches a field when it describes its children one to one. A bracketed signature is repeated: it
has to tile the children of its container, in one or more complete turns. A container without children
matches no signature, at any depth.

## Architecture

- `tiles`: whether patterns, taken cyclically, cover a list in complete turns.
- `Signature.tests`: a signature as one test per child.
- `Field.conforms`: whether the children match; `Field.validate` works from text.
- `Field.store`: validation that places the children where the caller wants them.
-/

namespace FieldTree

/-- Whether the tests, repeated in order, cover the list exactly, at least once. -/
def tiles {α : Type} (tests : List (α → Bool)) (xs : List α) : Bool :=
  tests.length != 0 && xs.length != 0 && xs.length % tests.length == 0 &&
    xs.zipIdx.all fun (x, i) => (tests[i % tests.length]?).any (· x)

namespace Signature

/-- Whether a plain pattern admits fields of a type. -/
def Kind.admits : Kind → FieldType → Bool
  | string, t => t == .string
  | integer, t => t.isInteger || t == .bool
  | float, t => t.isFloat
  | table, t => t == .table
  | array, t => t == .array
  | any, _ => true

/-- A signature as a list of tests, one for each child. -/
def tests : Signature → List (Field → Bool)
  | empty => []
  | plain kind rest => (fun f => kind.admits f.type) :: rest.tests
  | group bracket inner rest =>
    (fun f => f.type == bracket.container && tiles inner.tests f.children) :: rest.tests

end Signature

namespace Field

/-- Whether the children are as many as the signature describes, at least one, and each as described. -/
def conforms (f : Field) (s : Signature) : Bool :=
  f.children.length != 0 && f.children.length == s.length &&
    (f.children.zip s.tests).all fun (child, test) => test child

/-- Whether a field conforms to the signature with a given text; a text that is no signature admits
    nothing. -/
def validate (f : Field) (signature : String) : Bool :=
  match Signature.parse signature with
  | .ok s => f.conforms s
  | .error _ => false

/-- What a validation notes. -/
def validationNotes (f : Field) (signature : String) : Journal :=
  match Signature.parse signature with
  | .ok s => if f.conforms s then [] else [.mismatch f signature]
  | .error e => [.rejected e]

/-- The slots with fields laid over them from the front, as many as fit. -/
def fill : (slots : List (Option Field)) → (fields : List Field) → List (Option Field)
  | _ :: slots, f :: fields => some f :: fill slots fields
  | slots, _ => slots

/-- Whether the field is valid, and what is in the slots afterwards: they are all cleared, and if the field is
    valid its children are put in. -/
def store (f : Field) (signature : String) (slots : List (Option Field)) : Bool × List (Option Field) :=
  let cleared : List (Option Field) := slots.map fun _ => none
  if f.validate signature then (true, fill cleared f.children) else (false, cleared)

/-- Stores the children in `slots` places that hold the field itself. -/
def select (f : Field) (signature : String) (slots : Nat) : Bool × List (Option Field) :=
  f.store signature (List.replicate slots (some f))

end Field

end FieldTree
