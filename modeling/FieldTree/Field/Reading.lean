import FieldTree.Field.Basic
import FieldTree.Binary.Packed
import FieldTree.Numeral

/-!
# Reading Fields

Reading never fails. A field gives an integer, a real number, a truth value and a text, each converted
where its type asks for it and zero or empty where it makes no sense or bytes are missing.
-/

namespace FieldTree

namespace Field

/-- The text up to the first zero byte; empty for other types and for bytes that are not UTF-8. -/
def text (f : Field) : String :=
  if f.type = .string then (Bytes.text? (f.data.takeWhile (· != 0))).getD "" else ""

/-- The first `width` bytes of the payload, if they are all present. -/
def word? (f : Field) (width : Nat) : Option Bytes :=
  if width ≤ f.data.length then some (f.data.take width) else none

/-- The integer that a field of integer or truth type stores; zero for other types. -/
def storedInt (f : Field) : Int :=
  let width :=
    match f.type with
    | .int8 | .bool => 1
    | .int16 => 2
    | .int32 => 4
    | .int64 => 8
    | _ => 0
  ((f.word? width).map Bytes.toInt).getD 0

/-- The field as a real number. -/
def real (f : Field) : Double :=
  match f.type with
  | .float32 => ((f.word? 4).map fun w => (Single.unpack w.toNat).convert).getD (.ofRank false 0)
  | .float64 => ((f.word? 8).map fun w => Double.unpack w.toNat).getD (.ofRank false 0)
  | .int8 | .int16 | .int32 | .int64 | .bool => .ofInt f.storedInt
  | .string => Numeral.leadingReal f.text.toList
  | _ => .ofRank false 0

/-- The field as a signed 64-bit integer. -/
def int (f : Field) : Int :=
  match f.type with
  | .float32 | .float64 => f.real.truncate
  | .string => Numeral.leadingInt f.text.toList
  | _ => f.storedInt

/-- True for a non-zero integer. -/
def truth (f : Field) : Bool := f.int != 0

/-- **A field of integer or truth type reads as the front of its payload**, as many bytes as its type has. -/
theorem int_of_complete {f : Field} {width : Nat} (hsize : f.type.fixedSize? = some width)
    (hfloat : f.type.isFloat = false) (hdata : width ≤ f.data.length) :
    f.int = Bytes.toInt (f.data.take width) := by
  cases htype : f.type with
  | int8 | int16 | int32 | int64 | bool =>
    rw [htype] at hsize
    cases hsize
    simp [int, storedInt, htype, word?, hdata]
  | float32 | float64 => simp [htype, FieldType.isFloat] at hfloat
  | invalid | binary | string | array | table => simp [htype, FieldType.fixedSize?] at hsize

/-- A field of text reads as the text that its payload spells up to the first zero byte. -/
theorem text_of_ofText {f : Field} (htype : f.type = .string) {text : String}
    (htext : Bytes.ofText text = f.data.takeWhile (· != 0)) : f.text = text := by
  simp [Field.text, htype, ← htext]

/-- **A text with a zero byte behind it is read up to its first zero character.** -/
theorem text_of_data {f : Field} (htype : f.type = .string) {text : String}
    (hdata : f.data = Bytes.ofText text ++ [0]) :
    f.text = .ofList (text.toList.takeWhile (· != '\x00')) := by
  apply text_of_ofText htype
  rw [hdata, Bytes.takeWhile_append_zero, Bytes.takeWhile_ofText]

/-- A text without a zero character is read as it is. -/
theorem text_of_noZero {f : Field} (htype : f.type = .string) {text : String}
    (hdata : f.data = Bytes.ofText text ++ [0]) (hzero : '\x00' ∉ text.toList) : f.text = text := by
  have hall : ∀ c ∈ text.toList, (c != '\x00') = true := by
    intro c hc
    have hne : c ≠ '\x00' := fun e => hzero (e ▸ hc)
    simpa using hne
  have hwhole : (text.toList ++ []).takeWhile (· != '\x00') = text.toList ++ [].takeWhile (· != '\x00') :=
    List.takeWhile_append_of_pos hall
  rw [List.append_nil, List.takeWhile_nil, List.append_nil] at hwhole
  rw [text_of_data htype hdata, hwhole, String.ofList_toList]

end Field

/-- All that can be read off a field at once. -/
structure Reading where
  type : FieldType := .invalid
  int : Int := 0
  real : Double := .ofRank false 0
  truth : Bool := false
  text : String := ""

/-- What a field reads as; an absent field reads as zero and empty. -/
def Reading.of : Option Field → Reading
  | none => {}
  | some f => ⟨f.type, f.int, f.real, f.truth, f.text⟩

end FieldTree
