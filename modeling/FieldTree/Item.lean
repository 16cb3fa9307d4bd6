import FieldTree.Binary.Packed
import FieldTree.Bracket
import FieldTree.Header

/-!
# Items

An item is a field that has no place yet: its type and its payload. This module has the items that stand for
integers, truth values, reals, texts and empty containers.

## Main statements

- `Item.toBytes_length`: an item takes up the padded length of its header.
- `Item.ofInt_payload_length`: an integer is as wide as its type says.
-/

namespace FieldTree

/-- A field to be written. -/
structure Item where
  type : FieldType
  payload : Bytes
  deriving DecidableEq, Repr

/-- The length that the header of a field with `payload` bytes of payload states. -/
def statedLength (payload : Nat) : Nat := headerSize + payload

namespace Item

/-! ## The bytes of an item -/

/-- Header, payload, and zeros up to a multiple of four. -/
def toBytes (item : Item) : Bytes :=
  let stated := statedLength item.payload.length
  (Header.new item.type stated).toBytes ++ item.payload ++ .zeros (alignUp stated - stated)

theorem toBytes_length (item : Item) :
    item.toBytes.length = alignUp (statedLength item.payload.length) := by
  simp only [toBytes, statedLength, headerSize, alignUp, List.length_append, Header.length_toBytes,
    Bytes.length_zeros]
  omega

/-- An item has room for its header and its payload. -/
theorem le_toBytes_length (item : Item) : headerSize + item.payload.length ≤ item.toBytes.length := by
  rw [toBytes_length]
  exact le_alignUp _

/-- Zeros at the end of a payload and the padding behind it are one stretch. -/
theorem toBytes_append_zeros (t : FieldType) (payload : Bytes) (n : Nat) :
    toBytes ⟨t, payload ++ .zeros n⟩ = (Header.new t (statedLength (payload.length + n))).toBytes ++
      (payload ++ .zeros (alignUp (statedLength (payload.length + n)) - headerSize - payload.length)) := by
  have hstated : statedLength (payload.length + n) ≤ alignUp (statedLength (payload.length + n)) :=
    le_alignUp _
  have hrest : n + (alignUp (statedLength (payload.length + n)) - statedLength (payload.length + n)) =
      alignUp (statedLength (payload.length + n)) - headerSize - payload.length := by
    unfold statedLength at *; omega
  simp only [toBytes, List.length_append, Bytes.length_zeros, List.append_assoc, Bytes.zeros_append, hrest]

theorem toBytes_zeros (t : FieldType) (n : Nat) :
    toBytes ⟨t, .zeros n⟩ = (Header.new t (statedLength n)).toBytes ++
      .zeros (alignUp (statedLength n) - headerSize) := by
  have h := toBytes_append_zeros t [] n
  rwa [List.nil_append, List.nil_append, List.length_nil, Nat.zero_add, Nat.sub_zero] at h

/-- Filling the front of a payload of zeros. -/
theorem patch_toBytes_zeros (t : FieldType) {room : Nat} {p : Bytes} (hp : p.length ≤ room) :
    (toBytes ⟨t, .zeros room⟩).patch headerSize p = toBytes ⟨t, p ++ .zeros (room - p.length)⟩ := by
  have hstated : statedLength room ≤ alignUp (statedLength room) := le_alignUp _
  have hsum : p.length + (room - p.length) = room := Nat.add_sub_cancel' hp
  -- the zeros behind the header fall into those that are filled and the rest
  have hzeros : Bytes.zeros (alignUp (statedLength room) - headerSize) =
      .zeros p.length ++ .zeros (alignUp (statedLength room) - headerSize - p.length) := by
    rw [Bytes.zeros_append]
    unfold statedLength at *; congr 1; omega
  have hpatch := Bytes.patch_append_right (Header.new t (statedLength room)).toBytes
    (.zeros p.length ++ .zeros (alignUp (statedLength room) - headerSize - p.length)) 0 p
  rw [Bytes.patch_append_of_length (Bytes.length_zeros _).symm, Nat.add_zero, Header.length_toBytes]
    at hpatch
  rw [toBytes_zeros, hzeros, toBytes_append_zeros, hsum]
  exact hpatch

/-! ## Values as items -/

/-- The narrowest integer type that holds a value, and its width in bytes. -/
def narrowest (v : Int) : FieldType × Nat :=
  if -2 ^ 7 ≤ v ∧ v < 2 ^ 7 then (.int8, 1)
  else if -2 ^ 15 ≤ v ∧ v < 2 ^ 15 then (.int16, 2)
  else if -2 ^ 31 ≤ v ∧ v < 2 ^ 31 then (.int32, 4)
  else (.int64, 8)

/-- An integer in the narrowest type that holds it. -/
def ofInt (v : Int) : Item := ⟨(narrowest v).1, .ofInt (narrowest v).2 v⟩

/-- A truth value as one byte, zero or one. -/
def ofBool (v : Bool) : Item := ⟨.bool, [if v then 1 else 0]⟩

/-- A single. -/
def ofSingle (v : Single) : Item := ⟨.float32, .bigEndian 4 v.pack⟩

/-- A double. -/
def ofDouble (v : Double) : Item := ⟨.float64, .bigEndian 8 v.pack⟩

/-- A real number, as a single if that is exactly the number, and as a double otherwise. -/
def ofReal (v : Double) : Item :=
  let narrow : Single := v.convert
  if (narrow.convert : Double).equals v then ofSingle narrow else ofDouble v

/-- A text and a zero byte. -/
def ofText (text : String) : Item := ⟨.string, Bytes.ofText text ++ [0]⟩

/-- A container without children. -/
def ofBracket (bracket : Bracket) : Item := ⟨bracket.container, []⟩

/-- An integer is as wide as its type says. -/
theorem ofInt_payload_length (v : Int) :
    some (ofInt v).payload.length = (ofInt v).type.fixedSize? := by
  simp only [ofInt, Bytes.length_ofInt, narrowest]
  split
  · rfl
  · split
    · rfl
    · split <;> rfl

/-- Real numbers are as wide as their types say. -/
theorem fixedSize?_ofSingle (v : Single) :
    (ofSingle v).type.fixedSize? = some (ofSingle v).payload.length :=
  congrArg some (Bytes.length_bigEndian 4 _).symm

theorem fixedSize?_ofDouble (v : Double) :
    (ofDouble v).type.fixedSize? = some (ofDouble v).payload.length :=
  congrArg some (Bytes.length_bigEndian 8 _).symm

theorem fixedSize?_ofReal (v : Double) : (ofReal v).type.fixedSize? = some (ofReal v).payload.length := by
  unfold ofReal
  dsimp only
  split
  · exact fixedSize?_ofSingle _
  · exact fixedSize?_ofDouble _

end Item

end FieldTree
