import FieldTree.Bracket
import FieldTree.Bytes

/-!
# Errors

Each kind of error has a type of its own that lists its causes; `BlobError` joins the kinds. What an error
says is settled in one `message` function per type.

## Architecture

- `SizeLimit`: the only way in which writing a field can fail.
- `Malformation`: why bytes are not a blob.
- `Signature.Fault`: why a text is not a signature.
- `Json.Fault`: why a text was not decoded, and where.
- `Files.Fault`: why a file was not read or written.
- `BlobError`: any of these, as the operations on blobs report them.
-/

namespace FieldTree

/-! ## Sizes -/

/-- A size that was asked for and is zero or above its limit. -/
structure SizeLimit where
  requested : Nat
  limit : Nat
  deriving DecidableEq, Repr

def SizeLimit.message (e : SizeLimit) : String :=
  s!"requested size {e.requested} is outside the allowed range 1..={e.limit}"

/-! ## Bytes that are not a blob -/

/-- What is wrong at a place in a buffer. -/
inductive Malformation where
  | shortHeader
  | rootType (found : FieldType)
  | rootBelowHeader (length : Nat)
  | rootBeyondEnd (length supplied : Nat)
  | noField
  deriving DecidableEq, Repr

def Malformation.message : Malformation → String
  | shortHeader => "buffer is shorter than a field header"
  | rootType found => s!"root field has type {found.name}, expected ARRAY or TABLE"
  | rootBelowHeader length => s!"root length {length} is shorter than its header"
  | rootBeyondEnd length supplied => s!"root length {length} exceeds the {supplied} bytes supplied"
  | noField => "no field at offset"

/-! ## Signatures -/

/-- How deep containers may nest before the walks over them stop. -/
def maxDepth : Nat := 128

namespace Signature

/-- Why a text is not a signature. -/
inductive Fault where
  | nestedTooDeep
  | unexpected (close : Bracket)
  | unknown (byte : UInt8)
  | unclosed (bracket : Bracket)
  deriving DecidableEq, Repr

/-- A byte as it stands between quotes in a message: printable characters as they are, the others and the
    quotes behind a backslash. -/
def escapedByte (byte : UInt8) : List Char :=
  match Char.ofNat byte.toNat with
  | '\t' => ['\\', 't']
  | '\r' => ['\\', 'r']
  | '\n' => ['\\', 'n']
  | '\'' => ['\\', '\'']
  | '"' => ['\\', '"']
  | '\\' => ['\\', '\\']
  | c => if 0x20 ≤ byte ∧ byte < 0x7f then [c] else '\\' :: 'x' :: Bytes.hexDigits 2 byte.toNat

def Fault.message : Fault → String
  | nestedTooDeep => s!"brackets nested deeper than {maxDepth} levels"
  | unexpected close => s!"unexpected '{close.closing}'"
  | unknown byte => "unknown type character '" ++ String.ofList (escapedByte byte) ++ "'"
  | unclosed bracket => s!"missing closing '{bracket.closing}'"

end Signature

/-! ## JSON texts -/

namespace Json

/-- A place in a text: the line, counted from one, and the number of bytes before it in that line. -/
structure Position where
  line : Nat
  column : Nat
  deriving DecidableEq, Repr

/-- Why a text is not decoded. -/
inductive Cause where
  | endInValue
  | endInList
  | endInObject
  | endInString
  | expectedValue
  | expectedIdent
  | expectedColon
  | expectedListComma
  | expectedObjectComma
  | keyNotString
  | trailingComma
  | trailingCharacters
  | invalidNumber
  | numberOutOfRange
  | controlCharacter
  | invalidEscape
  | loneSurrogate
  | endOfHexEscape
  | recursionLimit
  /-- the text is sound so far, but the blob has no room for what it says -/
  | refused (limit : SizeLimit)
  deriving DecidableEq, Repr

def Cause.message : Cause → String
  | endInValue => "EOF while parsing a value"
  | endInList => "EOF while parsing a list"
  | endInObject => "EOF while parsing an object"
  | endInString => "EOF while parsing a string"
  | expectedValue => "expected value"
  | expectedIdent => "expected ident"
  | expectedColon => "expected \x60:\x60"
  | expectedListComma => "expected \x60,\x60 or \x60]\x60"
  | expectedObjectComma => "expected \x60,\x60 or \x60\x7d\x60"
  | keyNotString => "key must be a string"
  | trailingComma => "trailing comma"
  | trailingCharacters => "trailing characters"
  | invalidNumber => "invalid number"
  | numberOutOfRange => "number out of range"
  | controlCharacter => "control character (\\u0000-\\u001F) found while parsing a string"
  | invalidEscape => "invalid escape"
  | loneSurrogate => "lone leading surrogate in hex escape"
  | endOfHexEscape => "unexpected end of hex escape"
  | recursionLimit => "recursion limit exceeded"
  | refused limit => limit.message

/-- A cause and the place where it was met. -/
structure Fault where
  cause : Cause
  position : Position
  deriving DecidableEq, Repr

def Fault.message (e : Fault) : String :=
  s!"{e.cause.message} at line {e.position.line} column {e.position.column}"

end Json

/-! ## Files -/

namespace Files

/-- Why a file could not be read or written. -/
inductive Fault where
  | notFound
  | isDirectory
  | notDirectory
  | alreadyExists
  | nameTooLong
  | notText
  /-- what else the operating system reports -/
  | other (text : String)
  deriving DecidableEq, Repr

def Fault.message : Fault → String
  | notFound => "No such file or directory (os error 2)"
  | isDirectory => "Is a directory (os error 21)"
  | notDirectory => "Not a directory (os error 20)"
  | alreadyExists => "File exists (os error 17)"
  | nameTooLong => "File name too long (os error 36)"
  | notText => "stream did not contain valid UTF-8"
  | other text => text

end Files

/-! ## All kinds -/

/-- An error of an operation on blobs. -/
inductive BlobError where
  | allocation (requested : Nat)
  | sizeLimit (limit : SizeLimit)
  | malformed (offset : Nat) (what : Malformation)
  | signature (text : String) (position : Nat) (what : Signature.Fault)
  | json (fault : Json.Fault)
  | unreadable (path : String) (what : Files.Fault)
  deriving DecidableEq, Repr

namespace BlobError

def message : BlobError → String
  | allocation requested => s!"failed to allocate {requested} bytes for blob buffer"
  | sizeLimit limit => limit.message
  | malformed offset what => s!"malformed blob buffer at offset {offset}: {what.message}"
  | signature text position what =>
    s!"invalid signature '{text}' at position {position}: {what.message}"
  | json fault => s!"failed to decode JSON: {fault.message}"
  | unreadable path what => s!"failed to read file '{path}': {what.message}"

/-- Whether the blob can still be used after the error. -/
def isRecoverable : BlobError → Bool
  | allocation _ | sizeLimit _ | json _ => true
  | _ => false

end BlobError

end FieldTree
