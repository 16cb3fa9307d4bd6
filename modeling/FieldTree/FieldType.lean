/-!
# Field Types

Every field carries a seven-bit type tag. Eleven tags are known; a field with any other tag reads as
`invalid` and can still be stepped over, because its length does not depend on its type.
-/

namespace FieldTree

/-- What a field holds. -/
inductive FieldType where
  /-- absent or unrecognised -/
  | invalid
  /-- opaque bytes -/
  | binary
  /-- text that ends at its first zero byte -/
  | string
  | int8
  | int16
  | int32
  | int64
  | float32
  | float64
  /-- a sequence of fields -/
  | array
  /-- alternating keys and values -/
  | table
  /-- one byte, zero or one -/
  | bool
  deriving DecidableEq, Repr, Inhabited

namespace FieldType

/-- The type with a given tag; `invalid` for tags that are not in use. -/
def ofTag : Nat → FieldType
  | 1 => binary
  | 2 => string
  | 3 => int8
  | 4 => int16
  | 5 => int32
  | 6 => int64
  | 7 => float32
  | 8 => float64
  | 9 => array
  | 10 => table
  | 12 => bool
  | _ => invalid

/-- The tag that stands for a type in a header. -/
def tag : FieldType → Fin 128
  | invalid => 0
  | binary => 1
  | string => 2
  | int8 => 3
  | int16 => 4
  | int32 => 5
  | int64 => 6
  | float32 => 7
  | float64 => 8
  | array => 9
  | table => 10
  | bool => 12

@[simp] theorem ofTag_tag (t : FieldType) : ofTag t.tag = t := by
  cases t <;> rfl

/-- A tag that is in use is that of its type. -/
theorem tag_ofTag {n : Fin 128} (h : ofTag n ≠ invalid) : (ofTag n).tag = n := by
  revert n
  decide

/-- The name in listings and messages. -/
def name : FieldType → String
  | invalid => "INVALID"
  | binary => "BINARY"
  | string => "STRING"
  | int8 => "INT8"
  | int16 => "INT16"
  | int32 => "INT32"
  | int64 => "INT64"
  | float32 => "FLOAT32"
  | float64 => "FLOAT64"
  | array => "ARRAY"
  | table => "TABLE"
  | bool => "BOOL"

/-- The capitalised name in debugging texts. -/
def title : FieldType → String
  | invalid => "Invalid"
  | binary => "Binary"
  | string => "String"
  | int8 => "Int8"
  | int16 => "Int16"
  | int32 => "Int32"
  | int64 => "Int64"
  | float32 => "Float32"
  | float64 => "Float64"
  | array => "Array"
  | table => "Table"
  | bool => "Bool"

/-- Arrays and tables have fields as children. -/
def isContainer : FieldType → Bool
  | array | table => true
  | _ => false

/-- The four integer widths; a `bool` is not one of them. -/
def isInteger : FieldType → Bool
  | int8 | int16 | int32 | int64 => true
  | _ => false

/-- Either float width. -/
def isFloat : FieldType → Bool
  | float32 | float64 => true
  | _ => false

/-- The payload size of the types that have only one. -/
def fixedSize? : FieldType → Option Nat
  | int8 | bool => some 1
  | int16 => some 2
  | int32 | float32 => some 4
  | int64 | float64 => some 8
  | _ => none

end FieldType

end FieldTree
