import FieldTree.Json.Rendering
import FieldTree.Proofs.Json.Document

/-!
# Documents in Print

The text of a document, by recursion on the document, and the rendering of the document's field. They are
the same as long as the document is not nested deeper than a rendering goes.

## Architecture

- `Document.print`: the text of a document.
- `int_integerTree`, `text_textTree`: scalars are read off their fields.
- `Document.render_field`: **a field is rendered as the text of its document.**
-/

namespace FieldTree.Json

/-! ## Texts of documents -/

namespace Document

mutual

/-- The text of a document at an indentation level. -/
def print (style : Style) (level : Nat) : Document → List Char
  | bool v => if v then "true".toList else "false".toList
  | int v => Decimal.integer v.toInt
  | text v => quote v.text
  | array elements => enclose style level .square (printElements style (level + 1) elements)
  | object members => enclose style level .brace (printMembers style (level + 1) members)

/-- The texts of elements. -/
def printElements (style : Style) (level : Nat) : List Document → List (List Char)
  | [] => []
  | d :: ds => d.print style level :: printElements style level ds

/-- The texts of members, each with its name in front. -/
def printMembers (style : Style) (level : Nat) : List (PlainText × Document) → List (List Char)
  | [] => []
  | (name, d) :: members =>
    (quote name.text ++ style.colon ++ d.print style level) :: printMembers style level members

end

end Document

/-! ## Scalars -/

/-- A payload of the only size that its type allows is read as a whole, unless it is a float. -/
theorem int_of_fixedSize {f : Field} (hsize : f.type.fixedSize? = some f.data.length)
    (hfloat : f.type.isFloat = false) : f.int = f.data.toInt := by
  rw [Field.int_of_complete hsize hfloat (Nat.le_refl _), List.take_length]

/-- The narrowest type of an integer is an integer type that holds it. -/
theorem toInt_payload_ofInt {v : Int} (h : Value.Fits 8 v) :
    (Item.ofInt v).type.isInteger = true ∧ (Item.ofInt v).payload.toInt = v := by
  obtain ⟨hlow, hhigh⟩ := h
  unfold Item.ofInt Item.narrowest
  split
  · next h => exact ⟨rfl, Bytes.toInt_ofInt h.1 h.2⟩
  · split
    · next h => exact ⟨rfl, Bytes.toInt_ofInt h.1 h.2⟩
    · split
      · next h => exact ⟨rfl, Bytes.toInt_ofInt h.1 h.2⟩
      · exact ⟨rfl, Bytes.toInt_ofInt hlow hhigh⟩

theorem scalarText_of_isInteger {f : Field} (h : f.type.isInteger = true)
    (hsize : f.type.fixedSize? = some f.data.length) : scalarText f = Decimal.integer f.data.toInt := by
  cases htype : f.type with
  | int8 | int16 | int32 | int64 =>
    rw [← int_of_fixedSize hsize (by rw [htype]; rfl)]
    simp only [scalarText, htype]
  | invalid | binary | string | float32 | float64 | array | table | bool => rw [htype] at h; cases h

/-- **An integer is rendered in decimal.** -/
theorem scalarText_integerTree {v : Int} (hrange : Value.Fits 8 v)
    (hfits : (Value.integerTree v).encode.length ≤ maxLength) :
    scalarText (Value.integerTree v).field = Decimal.integer v := by
  obtain ⟨hinteger, hread⟩ := toInt_payload_ofInt hrange
  obtain ⟨h, htree⟩ := Value.integerTree_eq v
  rw [htree] at hfits ⊢
  have hsize := (Item.ofInt_payload_length v).symm
  rw [scalarText_of_isInteger, Tree.data_field_scalar hfits, hread]
  · rw [Tree.type_field_scalar]
    exact hinteger
  · rw [Tree.type_field_scalar, Tree.data_field_scalar hfits]
    exact hsize

theorem scalarText_bool (v : Bool) (hfits : (Document.bool v).value.tree.encode.length ≤ maxLength) :
    scalarText (Document.bool v).value.tree.field = if v then "true".toList else "false".toList := by
  have htype : (Document.bool v).value.tree.field.type = .bool := Tree.type_field_scalar
  have hdata : (Document.bool v).value.tree.field.data = [if v then 1 else 0] :=
    Tree.data_field_scalar hfits
  have hint := int_of_fixedSize (by rw [htype, hdata]; rfl) (by rw [htype]; rfl)
  have htruth : (Document.bool v).value.tree.field.truth = v := by
    rw [Field.truth, hint, hdata]
    cases v <;> decide
  simp only [scalarText, htype, htruth]

/-- The text of a field of texts ends in front of the zero byte. -/
theorem text_textTree (t : PlainText) (hfits : (Value.textTree t.text).encode.length ≤ maxLength) :
    (Value.textTree t.text).field.text = t.text := by
  have hdata : (Value.textTree t.text).field.data = Bytes.ofText t.text ++ [0] :=
    Tree.data_field_scalar hfits
  have htype : (Value.textTree t.text).field.type = .string := Tree.type_field_scalar
  exact Field.text_of_noZero htype hdata t.noZero

/-- **A text is rendered between quotes.** -/
theorem scalarText_textTree (t : PlainText) (hfits : (Value.textTree t.text).encode.length ≤ maxLength) :
    scalarText (Value.textTree t.text).field = quote t.text := by
  have htype : (Value.textTree t.text).field.type = .string := Tree.type_field_scalar
  simp only [scalarText, htype, text_textTree t hfits]

/-! ## Containers -/

/-- Fields without children are rendered alike at every depth. -/
theorem renderAt_scalar {f : Field} (h : f.type.isContainer = false) (style : Style) (depth level : Nat) :
    renderAt style depth level f = scalarText f := by
  cases depth with
  | zero => rfl
  | succ depth =>
    cases htype : f.type with
    | array | table => rw [htype] at h; cases h
    | _ => simp only [renderAt, htype]

theorem renderAt_array {f : Field} (h : f.type = .array) (style : Style) (depth level : Nat) :
    renderAt style (depth + 1) level f =
      enclose style level .square (f.children.map (renderAt style depth (level + 1))) := by
  simp only [renderAt, h]

theorem renderAt_table {f : Field} (h : f.type = .table) (style : Style) (depth level : Nat) :
    renderAt style (depth + 1) level f =
      enclose style level .brace ((Field.pairUp f.children).map fun (key, value) =>
        quote key.text ++ style.colon ++
          (value.map (renderAt style depth (level + 1))).getD "null".toList) := by
  simp only [renderAt, h]

theorem renderAt_square {ts : List Tree} (h : (Tree.node .square ts).encode.length ≤ maxLength)
    (style : Style) (depth level : Nat) :
    renderAt style (depth + 1) level (Tree.node .square ts).field =
      enclose style level .square ((ts.map Tree.field).map (renderAt style depth (level + 1))) := by
  rw [renderAt_array Tree.type_field_node, Tree.children_field h]

theorem renderAt_brace {ts : List Tree} (h : (Tree.node .brace ts).encode.length ≤ maxLength)
    (style : Style) (depth level : Nat) :
    renderAt style (depth + 1) level (Tree.node .brace ts).field =
      enclose style level .brace ((Field.pairUp (ts.map Tree.field)).map fun (key, value) =>
        quote key.text ++ style.colon ++
          (value.map (renderAt style depth (level + 1))).getD "null".toList) := by
  rw [renderAt_table Tree.type_field_node, Tree.children_field h]

namespace Document

mutual

/-- **A field is rendered as the text of its document**, if no container in it is nested too deep. -/
theorem renderAt_field (d : Document) (style : Style) {depth : Nat} (level : Nat) (hdepth : d.depth ≤ depth)
    (hfits : d.value.tree.encode.length ≤ maxLength) :
    renderAt style depth level d.value.tree.field = d.print style level := by
  -- a scalar is rendered alike at every depth; a container has one level left for itself, and the rest for its elements
  cases d with
  | bool v =>
    have hscalar : (bool v).value.tree.field.type.isContainer = false := Tree.isContainer_field_scalar
    rw [renderAt_scalar hscalar]
    exact scalarText_bool v hfits
  | int v =>
    have htree : (Document.int v).value.tree = Value.integerTree v.toInt := if_pos (fits_toInt v)
    rw [htree] at hfits ⊢
    rw [renderAt_scalar (Value.isContainer_integerTree v.toInt)]
    exact scalarText_integerTree (fits_toInt v) hfits
  | text v =>
    have hscalar : (text v).value.tree.field.type.isContainer = false := Tree.isContainer_field_scalar
    rw [renderAt_scalar hscalar]
    exact scalarText_textTree v hfits
  | array elements =>
    obtain ⟨depth, rfl⟩ := Nat.exists_eq_add_of_lt (Nat.lt_of_lt_of_le (Nat.succ_pos _) hdepth)
    rw [Nat.zero_add] at hdepth ⊢
    rw [value, Value.tree] at hfits ⊢
    rw [renderAt_square hfits, print]
    rw [Tree.length_encode_node] at hfits
    rw [renderAt_elements elements style (level + 1) (Nat.le_of_succ_le_succ hdepth)
      (Nat.le_trans (Nat.le_add_left _ _) hfits)]
  | object members =>
    obtain ⟨depth, rfl⟩ := Nat.exists_eq_add_of_lt (Nat.lt_of_lt_of_le (Nat.succ_pos _) hdepth)
    rw [Nat.zero_add] at hdepth ⊢
    rw [value, Value.tree] at hfits ⊢
    rw [renderAt_brace hfits, print]
    rw [Tree.length_encode_node] at hfits
    rw [renderAt_members members style (level + 1) (Nat.le_of_succ_le_succ hdepth)
      (Nat.le_trans (Nat.le_add_left _ _) hfits)]

theorem renderAt_elements (ds : List Document) (style : Style) {depth : Nat} (level : Nat)
    (hdepth : elementDepth ds ≤ depth)
    (hfits : (Tree.encodeAll (Value.elementTrees (elementValues ds))).length ≤ maxLength) :
    ((Value.elementTrees (elementValues ds)).map Tree.field).map (renderAt style depth level) =
      printElements style level ds := by
  match ds with
  | [] => rfl
  | d :: ds =>
    rw [elementValues, Value.elementTrees, Tree.encodeAll, List.length_append] at hfits
    rw [elementDepth] at hdepth
    have hvalue := renderAt_field d style level (Nat.le_trans (Nat.le_max_left _ _) hdepth) (by omega)
    have hrest := renderAt_elements ds style level (Nat.le_trans (Nat.le_max_right _ _) hdepth) (by omega)
    rw [printElements, ← hvalue, ← hrest]
    rfl

theorem renderAt_members (ms : List (PlainText × Document)) (style : Style) {depth : Nat} (level : Nat)
    (hdepth : memberDepth ms ≤ depth)
    (hfits : (Tree.encodeAll (Value.memberTrees (memberValues ms))).length ≤ maxLength) :
    ((Field.pairUp ((Value.memberTrees (memberValues ms)).map Tree.field)).map fun (key, value) =>
      quote key.text ++ style.colon ++ (value.map (renderAt style depth level)).getD "null".toList) =
      printMembers style level ms := by
  match ms with
  | [] => rfl
  | (name, d) :: ms =>
    rw [memberValues, Value.memberTrees, Tree.encodeAll, List.length_append, Tree.encodeAll,
      List.length_append] at hfits
    rw [memberDepth] at hdepth
    -- a key and its value are two fields next to each other
    have hname := text_textTree name (by omega)
    have hvalue := renderAt_field d style level (Nat.le_trans (Nat.le_max_left _ _) hdepth) (by omega)
    have hrest := renderAt_members ms style level (Nat.le_trans (Nat.le_max_right _ _) hdepth) (by omega)
    rw [printMembers, ← hname, ← hvalue, ← hrest]
    rfl

end

end Document

end FieldTree.Json
