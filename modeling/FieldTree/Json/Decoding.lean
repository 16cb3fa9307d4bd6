import FieldTree.Blob.Writing
import FieldTree.Json.Scan
import FieldTree.Journal

/-!
# Decoding JSON Texts into Blobs

Every token of a scan is written at once. A text that fills a whole blob turns its outermost container into
the root; a text that is appended to a blob keeps its containers as fields. When a token is refused or the
text turns out to be faulty, what was written is removed again; the buffer keeps the room it gained.

## Architecture

- `Json.Token.item?`: what a token adds.
- `Json.writeTokens`: from tokens to fields.
- `Json.decode`: a whole text, with the removal of what a faulty text wrote.
- `Blob.ofJson`, `Blob.putJson`: a new blob, and one more field.
-/

namespace FieldTree

namespace Json

/-- Where the containers that are being filled start, innermost first; nothing for the root itself. -/
abbrev OpenFields := List (Option Nat)

/-! ## Tokens as items -/

/-- A number as an item. Beyond 64 bits with a sign an integer is kept at the precision of a double. -/
def Number.item : Number → Item
  | whole v => if v < 2 ^ 63 then .ofInt v else .ofReal (.ofInt v)
  | real v => .ofReal v

/-- Numbers are of types that have only one size. -/
theorem Number.fixedSize?_item (v : Number) : v.item.type.fixedSize? = some v.item.payload.length := by
  cases v with
  | whole v =>
    by_cases hv : v < 2 ^ 63
    · rw [item, if_pos hv]
      exact (Item.ofInt_payload_length v).symm
    · rw [item, if_neg hv]
      exact Item.fixedSize?_ofReal _
  | real v => exact Item.fixedSize?_ofReal v

/-- The item that a token adds; a closing bracket adds none. -/
def Token.item? : Token → Option Item
  | null => some (.ofInt 0)
  | bool v => some (.ofBool v)
  | number v => some v.item
  | string text => some (.ofText text)
  | key text => some (.ofText text)
  | opening bracket => some (.ofBracket bracket)
  | closing => none

/-- Whether a token opens a container. -/
def Token.isOpening : Token → Bool
  | opening _ => true
  | _ => false

/-! ## Writing tokens -/

/-- What became of a blob. -/
structure Decoded where
  blob : Blob
  journal : Journal
  fault? : Option Fault

/-- The containers that are open once `token` is written at `offset`. -/
def OpenFields.push (outer : OpenFields) (token : Token) (offset : Nat) : OpenFields :=
  if token.isOpening then some offset :: outer else outer

/-- Lengthens the innermost open container to the end of the content. -/
def closeInnermost (b : Blob) : OpenFields → Blob
  | some offset :: _ => b.close offset
  | _ => b

/-- Writes tokens up to the first that is refused. With `fillsRoot` the outermost container is the root. -/
def writeTokens (fillsRoot : Bool) : OpenFields → Blob → List (Token × Position) → Decoded
  | _, b, [] => ⟨b, [], none⟩
  | outer, b, (token, refusal) :: rest =>
    match token.item? with
    -- only a closing bracket has no item
    | none => writeTokens fillsRoot outer.tail (closeInnermost b outer) rest
    | some item =>
      if fillsRoot && outer.isEmpty && token.isOpening then
        -- the outermost container is there already
        writeTokens fillsRoot [none] (b.withRootType item.type) rest
      else
        match b.refusal? item.payload.length with
        | some limit => ⟨b, [], some ⟨.refused limit, refusal⟩⟩
        | none =>
          let note := Journal.growth b.capacity (b.capacityFor (b.stopOf item.payload.length))
          let d := writeTokens fillsRoot (outer.push token b.size) (b.append item) rest
          { d with journal := note ++ d.journal }

/-- Writes a text into a blob. On a fault the content is cut back to its size before. -/
def decode (fillsRoot : Bool) (b : Blob) (text : String) : Decoded :=
  let scan := Scan.ofText text
  let written := writeTokens fillsRoot [] b scan.tokens
  match written.fault?.or scan.fault? with
  | none => written
  | some fault =>
    { blob := (written.blob.truncateTo b.size).withRootType b.head.type
      journal := written.journal ++ [.rollingBack b.size fault]
      fault? := some fault }

end Json

namespace Blob

/-- A new blob with the value of a JSON text. An array or object is the root; any other value is the only
    child of an array. -/
def ofJson (config : Config) (text : String) : Except BlobError Blob × Journal :=
  match create config with
  | .error e => (.error e, [])
  | .ok b =>
    let d := Json.decode true b text
    match d.fault? with
    | some fault => (.error (.json fault), d.journal)
    | none => (.ok d.blob, d.journal ++ [.decoded text.utf8ByteSize d.blob.size])

/-- Appends the value of a JSON text. -/
def putJson (b : Blob) (text : String) : Json.Decoded := Json.decode false b text

end Blob

end FieldTree
