import FieldTree.Field.Reading
import FieldTree.Decimal.Places
import FieldTree.Error

/-!
# Rendering Fields as JSON

Every field has a rendering, whatever its bytes are.

- Integers are decimal; truth values are `true` and `false`.
- A single has six places after the point; a double has six places and an exponent.
- Infinities, NaNs, opaque bytes and unknown types are `null`.
- A table is an object of its keys and values. A key that is not a text is the empty key, and a last key
  without a value has the value `null`.
- Containers nested `maxDepth` levels inside the rendered field are `null`.

## Architecture

- `Json.Style`: compact, or one element per line with tabs in front.
- `Json.quote`: a text between quotes.
- `Json.render`: the rendering of a field.
-/

namespace FieldTree.Json

/-- How a rendering is laid out. -/
structure Style where
  /-- one element per line -/
  pretty : Bool := false
  /-- how many levels the outermost value is indented -/
  indent : Nat := 0
  deriving DecidableEq, Repr

/-- Lines are indented by no more tabs than this. -/
def maxIndent : Nat := 16

/-- What stands in front of an element or a closing bracket at an indentation level. -/
def Style.separator (style : Style) (level : Nat) : List Char :=
  if style.pretty then '\n' :: List.replicate (min level maxIndent) '\t' else []

/-- What stands between a key and its value. -/
def Style.colon (style : Style) : List Char :=
  if style.pretty then [':', ' '] else [':']

/-! ## Texts -/

/-- A character as it stands between quotes. -/
def escape (c : Char) : List Char :=
  match c with
  | '\x08' => ['\\', 'b']
  | '\n' => ['\\', 'n']
  | '\t' => ['\\', 't']
  | '\r' => ['\\', 'r']
  | '"' => ['\\', '"']
  | '\\' => ['\\', '\\']
  | '/' => ['\\', '/']
  | c => if c.toNat < 0x20 then '\\' :: 'u' :: Bytes.hexDigits 4 c.toNat else [c]

/-- A text between quotes. -/
def quote (text : String) : List Char :=
  '"' :: text.toList.flatMap escape ++ ['"']

/-! ## Numbers -/

/-- A finite number with its sign in front of what `magnitude` writes for numerator and denominator;
    `null` for the others. -/
def numberText (magnitude : Nat → Nat → List Char) (x : Double) : List Char :=
  if x.isFinite then
    (if x.isNegative then ['-'] else []) ++ magnitude x.units Format.double.scale
  else "null".toList

/-- A field without children. -/
def scalarText (f : Field) : List Char :=
  match f.type with
  | .bool => if f.truth then "true".toList else "false".toList
  | .int8 | .int16 | .int32 | .int64 => Decimal.integer f.int
  | .float32 => numberText (Decimal.fixed 6) f.real
  | .float64 => numberText (Decimal.scientific 6) f.real
  | .string => quote f.text
  | _ => "null".toList

/-! ## Containers -/

/-- Elements between brackets, each on a line of its own where the style asks for it. -/
def enclose (style : Style) (level : Nat) (bracket : Bracket) (elements : List (List Char)) :
    List Char :=
  match elements with
  | [] => [bracket.opening, bracket.closing]
  | first :: rest =>
    let separator := style.separator (level + 1)
    bracket.opening :: separator ++ first ++ rest.flatMap (fun e => ',' :: separator ++ e) ++
      style.separator level ++ [bracket.closing]

/-- The rendering of a field at an indentation level, with `depth` more levels of containers. -/
def renderAt (style : Style) : (depth : Nat) → (level : Nat) → Field → List Char
  -- containers at this depth have no text of their own, and become null
  | 0, _, f => scalarText f
  | depth + 1, level, f =>
    match f.type with
    | .array =>
      enclose style level .square (f.children.map (renderAt style depth (level + 1)))
    | .table =>
      enclose style level .brace <| (Field.pairUp f.children).map fun (key, value) =>
        quote key.text ++ style.colon ++
          -- a key without a value comes last
          (value.map (renderAt style depth (level + 1))).getD "null".toList
    | _ => scalarText f

/-- The rendering of a field. -/
def render (style : Style) (f : Field) : String :=
  String.ofList (renderAt style maxDepth style.indent f)

end FieldTree.Json

namespace FieldTree

/-- The rendering of a field on one line. -/
def Field.toJson (f : Field) : String := Json.render {} f

/-- The rendering of a field with one element per line. -/
def Field.toPrettyJson (f : Field) : String := Json.render { pretty := true } f

end FieldTree
