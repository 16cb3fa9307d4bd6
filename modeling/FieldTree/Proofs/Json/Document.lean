import FieldTree.Proofs.Json.Decoding

/-!
# Documents without Real Numbers

What a writer builds out of truth values, integers, texts, arrays and tables. A text in it has no zero byte,
since the zero byte ends a text in a field, and every member of a table has a name.

## Architecture

- `Json.Document`: documents, with `Document.value` as values of JSON texts.
- `Document.write`: the writer's calls for a document.
- `Document.write_eq`: the calls write the tree of the value.
- `Json.Built`: a blob was built as a document, by calls or from a JSON text.
- `Built.writeAll_eq`: **a built blob is what is written under an empty root.**
-/

namespace FieldTree.Json

/-- A text without a zero byte. -/
structure PlainText where
  text : String
  noZero : '\x00' ∉ text.toList

/-- A truth value, an integer, a text, or a container. -/
inductive Document where
  | bool (v : Bool)
  | int (v : Int64)
  | text (v : PlainText)
  | array (elements : List Document)
  | object (members : List (PlainText × Document))

namespace Document

/-! ## Values -/

mutual

/-- The value of a document's text. -/
def value : Document → Value
  | bool v => .bool v
  | int v => .number (.whole v.toInt)
  | text v => .text v.text
  | array elements => .array (elementValues elements)
  | object members => .object (memberValues members)

/-- The values of elements. -/
def elementValues : List Document → List Value
  | [] => []
  | d :: ds => d.value :: elementValues ds

/-- The values of members with their names. -/
def memberValues : List (PlainText × Document) → List (String × Value)
  | [] => []
  | (name, d) :: members => (name.text, d.value) :: memberValues members

end

mutual

/-- How many containers are nested in each other. -/
def depth : Document → Nat
  | bool _ => 0
  | int _ => 0
  | text _ => 0
  | array elements => elementDepth elements + 1
  | object members => memberDepth members + 1

/-- The depth of the deepest element. -/
def elementDepth : List Document → Nat
  | [] => 0
  | d :: ds => max d.depth (elementDepth ds)

/-- The depth of the deepest member. -/
def memberDepth : List (PlainText × Document) → Nat
  | [] => 0
  | (_, d) :: members => max d.depth (memberDepth members)

end

theorem elementTrees_append (es fs : List Document) :
    Value.elementTrees (elementValues (es ++ fs)) =
      Value.elementTrees (elementValues es) ++ Value.elementTrees (elementValues fs) := by
  induction es with
  | nil => rfl
  | cons e es ih =>
    rw [List.cons_append, elementValues, elementValues, Value.elementTrees, Value.elementTrees, ih]
    rfl

theorem memberTrees_append (ms ns : List (PlainText × Document)) :
    Value.memberTrees (memberValues (ms ++ ns)) =
      Value.memberTrees (memberValues ms) ++ Value.memberTrees (memberValues ns) := by
  induction ms with
  | nil => rfl
  | cons m ms ih =>
    obtain ⟨name, d⟩ := m
    rw [List.cons_append, memberValues, memberValues, Value.memberTrees, Value.memberTrees, ih]
    rfl

/-! ## Writing -/

mutual

/-- Writes a document at the end of a blob. -/
def write (b : Blob) : Document → Except SizeLimit Blob
  | bool v => (b.putBool v).map (·.2)
  | int v => (b.putInt v.toInt).map (·.2)
  | text v => (b.putString v.text).map (·.2)
  | array elements => do
    let (offset, opened) ← b.openContainer .square
    let filled ← writeElements opened elements
    return filled.close offset
  | object members => do
    let (offset, opened) ← b.openContainer .brace
    let filled ← writeMembers opened members
    return filled.close offset

/-- Writes elements one after the other. -/
def writeElements (b : Blob) : List Document → Except SizeLimit Blob
  | [] => .ok b
  | d :: ds => do writeElements (← d.write b) ds

/-- Writes members one after the other, each as its name and its value. -/
def writeMembers (b : Blob) : List (PlainText × Document) → Except SizeLimit Blob
  | [] => .ok b
  | (name, d) :: members => do
    let (_, named) ← b.putString name.text
    writeMembers (← d.write named) members

end

/-- A text is put as the scalar that stands for it. -/
theorem write_textTree (b : Blob) (text : String) :
    (Value.textTree text).write b = (b.putString text).map (·.2) := by
  rw [Blob.putString_eq]
  rfl

theorem fits_toInt (v : Int64) : Value.Fits 8 v.toInt := ⟨v.le_toInt, v.toInt_lt⟩

/-- An integer is put in the narrowest type that it fits. -/
theorem write_integer (b : Blob) (v : Int64) :
    (Value.numberTree (.whole v.toInt)).write b = (b.putInt v.toInt).map (·.2) := by
  have hrange : (Token.number (.whole v.toInt)).InRange := (fits_toInt v).1
  -- 64 bits with a sign are never kept as a double
  have hitem : (Number.whole v.toInt).item = .ofInt v.toInt := if_pos (fits_toInt v).2
  obtain ⟨h, htree⟩ := Value.numberTree_eq hrange
  rw [htree]
  show (b.put (Number.whole v.toInt).item).map (·.2) = _
  rw [hitem]
  rfl

mutual

/-- **The calls for a document write the tree of its value.** -/
theorem write_eq (d : Document) (b : Blob) : d.write b = d.value.tree.write b := by
  cases d with
  | bool v => rfl
  | int v => exact (write_integer b v).symm
  | text v => exact (write_textTree b v.text).symm
  | array elements =>
    rw [write, value, Value.tree, Tree.write]
    simp only [writeElements_eq elements]
  | object members =>
    rw [write, value, Value.tree, Tree.write]
    simp only [writeMembers_eq members]

theorem writeElements_eq (ds : List Document) (b : Blob) :
    writeElements b ds = Tree.writeAll b (Value.elementTrees (elementValues ds)) := by
  match ds with
  | [] => rfl
  | d :: ds =>
    rw [writeElements, elementValues, Value.elementTrees, Tree.writeAll, write_eq d b]
    simp only [writeElements_eq ds]

theorem writeMembers_eq (ms : List (PlainText × Document)) (b : Blob) :
    writeMembers b ms = Tree.writeAll b (Value.memberTrees (memberValues ms)) := by
  match ms with
  | [] => rfl
  | (name, d) :: ms =>
    rw [writeMembers, memberValues, Value.memberTrees, Tree.writeAll, write_textTree]
    cases b.putString name.text with
    | error limit => rfl
    | ok written =>
      show (d.write written.2 >>= fun b' => writeMembers b' ms) = _
      simp only [write_eq d, writeMembers_eq ms]
      rfl

end

end Document

/-! ## Building -/

/-- The blob was built as an array or object: it was created or reset, or made from a JSON text with the same
    fields, and then elements or members were added. -/
inductive Built : Document → Blob → Prop where
  /-- a new blob is an array without elements -/
  | create {config : Config} {b : Blob} : Blob.create config = .ok b → Built (.array []) b
  /-- a reset makes an array without elements -/
  | reset {d : Document} {b : Blob} : Built d b → Built (.array []) b.reset
  /-- a JSON text makes an array or an object -/
  | json {d : Document} {v : Value} {config : Config} {text : String} {b : Blob} :
      d.value.isContainer = true → Reads text v → v.document = d.value.document →
      (Blob.ofJson config text).1 = .ok b → Built d b
  /-- one more element in the root -/
  | element {es : List Document} {b b' : Blob} (e : Document) :
      Built (.array es) b → e.write b = .ok b' → Built (.array (es ++ [e])) b'
  /-- one more member in the root -/
  | member {ms : List (PlainText × Document)} {b b' : Blob} (name : PlainText) (d : Document) :
      Built (.object ms) b → Document.writeMembers b [(name, d)] = .ok b' →
      Built (.object (ms ++ [(name, d)])) b'

/-- **A built blob is what is written under an empty root**, in a configuration that a blob can be created
    with. -/
theorem Built.writeAll_eq {d : Document} {b : Blob} (h : Built d b) :
    d.value.isContainer = true ∧ ∃ blank : Blob, blank.Blank d.value.rootBracket ∧
      (∃ empty, Blob.create blank.config = .ok empty) ∧
      Tree.writeAll blank d.value.rootTrees = .ok b := by
  induction h with
  | @create config b hcreate =>
    refine ⟨rfl, b, (Blob.Fresh.create hcreate).blank, ⟨b, ?_⟩, rfl⟩
    rw [config_create hcreate]
    exact hcreate
  | @reset d b _ ih =>
    obtain ⟨-, blank, hblank, hempty, hwrite⟩ := ih
    -- a reset keeps the configuration
    obtain ⟨-, hconfig, -⟩ := hblank.of_writeAll hwrite
    refine ⟨rfl, b.reset, (Blob.Fresh.reset b).blank, ?_, rfl⟩
    show ∃ empty, Blob.create b.config = .ok empty
    rw [hconfig]
    exact hempty
  | @json d v config text b hcontainer hreads hdocument hjson =>
    cases hcreate : Blob.create config with
    | error e => rw [Blob.ofJson, hcreate] at hjson; cases hjson
    | ok empty =>
      have hwrite := (ofJson_of_reads hreads hcreate).mp hjson
      have hblank := v.rooted_blank (Blob.Fresh.create hcreate).blank
      -- the text has the same fields under the same brackets
      obtain ⟨hbracket, htrees⟩ := Tree.node.inj hdocument
      rw [hbracket] at hblank
      rw [htrees] at hwrite
      refine ⟨hcontainer, v.rooted empty, hblank, ⟨empty, ?_⟩, hwrite⟩
      rw [Value.config_rooted, config_create hcreate]
      exact hcreate
  | @element es b b' e _ hwrite ih =>
    obtain ⟨-, blank, hblank, hempty, hbefore⟩ := ih
    refine ⟨rfl, blank, hblank, hempty, ?_⟩
    rw [Document.value, Value.rootTrees] at hbefore ⊢
    -- what was written before comes first
    rw [Document.elementTrees_append, Tree.writeAll_append, hbefore]
    show Tree.writeAll b [e.value.tree] = _
    rw [Tree.writeAll, ← Document.write_eq, hwrite]
    rfl
  | @member ms b b' name d _ hwrite ih =>
    obtain ⟨-, blank, hblank, hempty, hbefore⟩ := ih
    refine ⟨rfl, blank, hblank, hempty, ?_⟩
    rw [Document.value, Value.rootTrees] at hbefore ⊢
    rw [Document.memberTrees_append, Tree.writeAll_append, hbefore]
    exact (Document.writeMembers_eq [(name, d)] b).symm.trans hwrite

end FieldTree.Json
