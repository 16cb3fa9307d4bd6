import FieldTree.Error

/-!
# Signatures

A signature describes the children of a container, one character per child:

    s  string        t  table      {..}  table whose children repeat the inner signature
    i  integer       a  array      [..]  array whose children repeat the inner signature
    f  float         v  anything

The type below follows the grammar: a signature is empty, or a plain character and a signature, or a
bracketed signature and a signature. Brackets nest at most `maxDepth` deep.

## Architecture

- `Signature`, with `Signature.length` and `Signature.text`.
- `Signature.parse`: from text, or the position and cause of the first fault.
-/

namespace FieldTree

/-- What a plain character of a signature stands for. -/
inductive Signature.Kind where
  | string
  | integer
  | float
  | table
  | array
  | any
  deriving DecidableEq, Repr

/-- A sequence of patterns. -/
inductive Signature where
  | empty
  | plain (kind : Signature.Kind) (rest : Signature)
  | group (bracket : Bracket) (inner rest : Signature)
  deriving DecidableEq, Repr

namespace Signature

/-- How many children a signature describes. -/
def length : Signature → Nat
  | empty => 0
  | plain _ rest => rest.length + 1
  | group _ _ rest => rest.length + 1

/-! ## Characters -/

/-- The character of a plain pattern. -/
def Kind.letter : Kind → Char
  | string => 's'
  | integer => 'i'
  | float => 'f'
  | table => 't'
  | array => 'a'
  | any => 'v'

/-- The plain pattern that a byte stands for, if it does for one. -/
def Kind.ofByte? (byte : UInt8) : Option Kind :=
  [string, integer, float, table, array, any].find? fun kind => kind.letter.toNat == byte.toNat

/-- The bracket that a byte opens, if it opens one. -/
def openedBy? (byte : UInt8) : Option Bracket :=
  [Bracket.square, .brace].find? fun bracket => bracket.opening.toNat == byte.toNat

/-- The bracket that a byte closes, if it closes one. -/
def closedBy? (byte : UInt8) : Option Bracket :=
  [Bracket.square, .brace].find? fun bracket => bracket.closing.toNat == byte.toNat

/-- The text of a signature. -/
def text : Signature → List Char
  | empty => []
  | plain kind rest => kind.letter :: rest.text
  | group bracket inner rest =>
    bracket.opening :: inner.text ++ bracket.closing :: rest.text

/-! ## Reading -/

/-- What is read up to a closing bracket or to the end: the patterns, the position behind them, and the
    bytes from there on. -/
structure Sequence (bytes : Bytes) where
  signature : Signature
  stop : Nat
  rest : Bytes
  le : rest.length ≤ bytes.length

/-- Reads patterns from `position` on. `outer` is the innermost open bracket with its position, and `depth`
    the number of brackets open. -/
def parseFrom (outer : Option (Bracket × Nat)) (depth position : Nat) (bytes : Bytes) :
    Except (Nat × Fault) (Sequence bytes) :=
  match bytes with
  | [] =>
    match outer with
    | none => .ok ⟨empty, position, [], Nat.le_refl _⟩
    | some (bracket, start) => .error (start, .unclosed bracket)
  | c :: rest =>
    if (closedBy? c).isSome ∧ closedBy? c = outer.map (·.1) then
      .ok ⟨empty, position + 1, rest, Nat.le_succ _⟩
    else
      match Kind.ofByte? c with
      | some kind =>
        match parseFrom outer depth (position + 1) rest with
        | .error e => .error e
        | .ok s => .ok ⟨plain kind s.signature, s.stop, s.rest, Nat.le_succ_of_le s.le⟩
      | none =>
        match openedBy? c with
        | some bracket =>
          if maxDepth ≤ depth then .error (position, .nestedTooDeep)
          else
            match parseFrom (some (bracket, position)) (depth + 1) (position + 1) rest with
            | .error e => .error e
            | .ok inner =>
              match parseFrom outer depth inner.stop inner.rest with
              | .error e => .error e
              | .ok s =>
                .ok ⟨group bracket inner.signature s.signature, s.stop, s.rest,
                  Nat.le_succ_of_le (Nat.le_trans s.le inner.le)⟩
        | none =>
          match closedBy? c with
          | some bracket => .error (position, .unexpected bracket)
          | none => .error (position, .unknown c)
  termination_by bytes.length
  decreasing_by
    · simp
    · simp
    · have := inner.le
      simp only [List.length_cons]; omega

/-- The signature that a text spells. -/
def parse (text : String) : Except BlobError Signature :=
  match parseFrom none 0 0 (.ofText text) with
  | .error (position, fault) => .error (.signature text position fault)
  | .ok s => .ok s.signature

end Signature

end FieldTree
