import FieldTree.Proofs.Children
import FieldTree.Proofs.Json.Scalar

/-!
# Every Rendering is a JSON Text

The grammar of JSON texts, rule by rule, and the proof that every field is rendered by it, whatever its
bytes are. The grammar is said on its own, without a scanner: blanks may stand around brackets, commas and
colons, and what stands between brackets is a list of items with commas in between.

## Architecture

- `Grammar.IsNumber`, `Grammar.IsQuoted`: the scalars.
- `Grammar.IsValue`, `Grammar.IsText`: values, and a value that is a whole text.
- `number_scalar`, `quoted_quote`: the scalars of a rendering are those of the grammar.
- `value_enclose_square`, `value_enclose_brace`: so are its containers, if their items are.
- `value_renderAt`: **every field is rendered as a value**, at every depth and level.
- `Field.render_text`: the main statement, for every byte string that has room for a header.
-/

namespace FieldTree.Json

namespace Grammar

/-! ## Scalars -/

/-- Digits, at least one. -/
def IsDigits (ds : List Char) : Prop := ds ≠ [] ∧ ∀ d ∈ ds, d.isDigit = true

/-- What stands in front of the point: a lone zero, or digits of which the first is not zero. -/
inductive IsWhole : List Char → Prop where
  | zero : IsWhole ['0']
  | digits {d : Char} {ds : List Char} :
      d ≠ '0' → IsDigits (d :: ds) → IsWhole (d :: ds)

/-- A point with digits behind it, or nothing. -/
inductive IsFraction : List Char → Prop where
  | none : IsFraction []
  | point {ds : List Char} : IsDigits ds → IsFraction ('.' :: ds)

/-- A mark with digits behind it, which may have a sign, or nothing. -/
inductive IsExponent : List Char → Prop where
  | none : IsExponent []
  | unsigned {mark : Char} {ds : List Char} :
      mark ∈ ['e', 'E'] → IsDigits ds → IsExponent (mark :: ds)
  | signed {mark sign : Char} {ds : List Char} :
      mark ∈ ['e', 'E'] → sign ∈ ['+', '-'] → IsDigits ds → IsExponent (mark :: sign :: ds)

/-- A number without its sign. -/
inductive IsMagnitude : List Char → Prop where
  | mk {whole fraction exponent : List Char} :
      IsWhole whole → IsFraction fraction → IsExponent exponent → IsMagnitude (whole ++ fraction ++ exponent)

/-- A number; only a minus may be its sign. -/
inductive IsNumber : List Char → Prop where
  | positive {text : List Char} : IsMagnitude text → IsNumber text
  | negative {text : List Char} : IsMagnitude text → IsNumber ('-' :: text)

/-- A digit of a hexadecimal number, lower or upper case. -/
def IsHexDigit (c : Char) : Prop :=
  c ∈ ['0', '1', '2', '3', '4', '5', '6', '7', '8', '9', 'a', 'b', 'c', 'd', 'e', 'f',
    'A', 'B', 'C', 'D', 'E', 'F']

/-- The characters between quotes. Control characters, quotes and backslashes need an escape. -/
inductive IsCharacters : List Char → Prop where
  | nil : IsCharacters []
  | plain {c : Char} {rest : List Char} :
      0x20 ≤ c.toNat → c ≠ '"' → c ≠ '\\' → IsCharacters rest → IsCharacters (c :: rest)
  | escaped {c : Char} {rest : List Char} :
      c ∈ ['"', '\\', '/', 'b', 'f', 'n', 'r', 't'] → IsCharacters rest → IsCharacters ('\\' :: c :: rest)
  | code {digits rest : List Char} :
      digits.length = 4 → (∀ d ∈ digits, IsHexDigit d) → IsCharacters rest →
      IsCharacters ('\\' :: 'u' :: (digits ++ rest))

/-- A text between quotes. -/
inductive IsQuoted : List Char → Prop where
  | mk {cs : List Char} : IsCharacters cs → IsQuoted ('"' :: cs ++ ['"'])

/-! ## Containers -/

/-- Spaces, tabs and ends of lines, or nothing. -/
def IsBlanks (text : List Char) : Prop := ∀ c ∈ text, c ∈ [' ', '\t', '\n', '\r']

/-- A bracket, comma or colon, with blanks on either side. -/
inductive IsMark (c : Char) : List Char → Prop where
  | mk {before after : List Char} : IsBlanks before → IsBlanks after → IsMark c (before ++ c :: after)

/-- Items with commas between them, at least one. -/
inductive IsItems (Item : List Char → Prop) : List Char → Prop where
  | last {text : List Char} : Item text → IsItems Item text
  | more {text comma rest : List Char} :
      Item text → IsMark ',' comma → IsItems Item rest → IsItems Item (text ++ comma ++ rest)

/-- A name between quotes, a colon, and a value. -/
inductive IsMember (Item : List Char → Prop) : List Char → Prop where
  | mk {name colon value : List Char} :
      IsQuoted name → IsMark ':' colon → Item value → IsMember Item (name ++ colon ++ value)

/-- A value. -/
inductive IsValue : List Char → Prop where
  | null : IsValue "null".toList
  | true : IsValue "true".toList
  | false : IsValue "false".toList
  | number {text : List Char} : IsNumber text → IsValue text
  | string {text : List Char} : IsQuoted text → IsValue text
  | emptyArray {opening closing : List Char} :
      IsMark '[' opening → IsMark ']' closing → IsValue (opening ++ closing)
  | array {opening items closing : List Char} :
      IsMark '[' opening → IsItems IsValue items → IsMark ']' closing → IsValue (opening ++ items ++ closing)
  | emptyObject {opening closing : List Char} :
      IsMark '\x7b' opening → IsMark '\x7d' closing → IsValue (opening ++ closing)
  | object {opening items closing : List Char} :
      IsMark '\x7b' opening → IsItems (IsMember IsValue) items → IsMark '\x7d' closing →
      IsValue (opening ++ items ++ closing)

/-- A whole text: one value, with blanks on either side. -/
inductive IsText : List Char → Prop where
  | mk {before value after : List Char} :
      IsBlanks before → IsValue value → IsBlanks after → IsText (before ++ value ++ after)

end Grammar

open Grammar

/-! ## Numbers -/

theorem digits_digits (n : Nat) : IsDigits (Decimal.digits n) := by
  constructor
  · obtain ⟨c, ds, hds, -⟩ := digits_eq_cons n
    rw [hds]
    exact List.cons_ne_nil c ds
  · exact isDigit_of_mem_digits

/-- A natural number is written without leading zeros. -/
theorem whole_digits (n : Nat) : IsWhole (Decimal.digits n) := by
  by_cases hzero : n = 0
  · subst hzero
    exact IsWhole.zero
  · obtain ⟨c, ds, hds, hc⟩ := exists_digits_eq_cons hzero
    have hdigits := digits_digits n
    rw [hds] at hdigits ⊢
    exact IsWhole.digits hc hdigits

/-- Digits that are filled up with zeros are still digits. -/
theorem digits_padded (width n : Nat) : IsDigits (Decimal.padded width n) := by
  obtain ⟨hne, hdigits⟩ := digits_digits n
  constructor
  · simp [Decimal.padded, hne]
  · intro d hd
    rcases List.mem_append.mp hd with hzero | hd
    · rw [List.eq_of_mem_replicate hzero]
      rfl
    · exact hdigits d hd

theorem number_integerText (v : Int) : IsNumber (Decimal.integer v) := by
  have hmagnitude : IsMagnitude (Decimal.digits v.natAbs) := by
    simpa using IsMagnitude.mk (whole_digits v.natAbs) IsFraction.none IsExponent.none
  unfold Decimal.integer
  split
  · exact IsNumber.negative hmagnitude
  · exact IsNumber.positive hmagnitude

theorem magnitude_fixed (places num den : Nat) : IsMagnitude (Decimal.fixed places num den) := by
  have hmagnitude := IsMagnitude.mk (whole_digits (Rounding.halfEven (num * 10 ^ places) den / 10 ^ places))
    (IsFraction.point (digits_padded places (Rounding.halfEven (num * 10 ^ places) den % 10 ^ places)))
    IsExponent.none
  simpa [Decimal.fixed, Decimal.withPoint] using hmagnitude

theorem magnitude_scientific (places num den : Nat) : IsMagnitude (Decimal.scientific places num den) := by
  unfold Decimal.scientific
  -- whatever the significand and the exponent are, they are written in the same way
  generalize (if num = 0 then (0, 0) else Decimal.normalized places num den) = me
  obtain ⟨m, e⟩ := me
  have hsign : (if e < 0 then '-' else '+') ∈ ['+', '-'] := by
    split <;> simp
  have hmark : 'e' ∈ ['e', 'E'] := by simp
  have hmagnitude := IsMagnitude.mk (whole_digits (m / 10 ^ places))
    (IsFraction.point (digits_padded places (m % 10 ^ places)))
    (IsExponent.signed hmark hsign (digits_padded 2 e.natAbs))
  simpa [Decimal.withPoint] using hmagnitude

/-- A real number is a number or `null`. -/
theorem value_numberText {magnitude : Nat → Nat → List Char} (h : ∀ num den, IsMagnitude (magnitude num den))
    (x : Double) : IsValue (numberText magnitude x) := by
  unfold numberText
  split
  · apply IsValue.number
    split
    · exact IsNumber.negative (h _ _)
    · exact IsNumber.positive (h _ _)
  · exact IsValue.null

/-! ## Texts -/

theorem isHexDigit_digitChar : ∀ d < 16, IsHexDigit d.digitChar := by
  unfold IsHexDigit
  decide

theorem isHexDigit_of_mem_hexDigits (width n : Nat) : ∀ d ∈ Bytes.hexDigits width n, IsHexDigit d := by
  induction width with
  | zero =>
    intro d hd
    cases hd
  | succ width ih =>
    intro d hd
    rcases List.mem_cons.mp hd with rfl | hd
    · exact isHexDigit_digitChar _ (Nat.mod_lt _ (by decide))
    · exact ih d hd

theorem length_hexDigits (width n : Nat) : (Bytes.hexDigits width n).length = width := by
  induction width with
  | zero => rfl
  | succ width ih => simp [Bytes.hexDigits, ih]

/-- **Every character is escaped where it has to be.** -/
theorem characters_escape (c : Char) {rest : List Char} (h : IsCharacters rest) :
    IsCharacters (escape c ++ rest) := by
  -- seven characters have a short escape of their own
  unfold escape
  split
  · exact IsCharacters.escaped (by simp) h
  · exact IsCharacters.escaped (by simp) h
  · exact IsCharacters.escaped (by simp) h
  · exact IsCharacters.escaped (by simp) h
  · exact IsCharacters.escaped (by simp) h
  · exact IsCharacters.escaped (by simp) h
  · exact IsCharacters.escaped (by simp) h
  · next hquote hbackslash _ =>
    split
    · exact IsCharacters.code (length_hexDigits 4 _) (isHexDigit_of_mem_hexDigits 4 _) h
    · next hplain => exact IsCharacters.plain (Nat.not_lt.mp hplain) hquote hbackslash h

theorem characters_flatMap_escape (cs : List Char) : IsCharacters (cs.flatMap escape) := by
  induction cs with
  | nil => exact IsCharacters.nil
  | cons c cs ih =>
    rw [List.flatMap_cons]
    exact characters_escape c ih

theorem quoted_quote (text : String) : IsQuoted (quote text) :=
  IsQuoted.mk (characters_flatMap_escape text.toList)

/-- **A field without children is rendered as a value.** -/
theorem value_scalarText (f : Field) : IsValue (scalarText f) := by
  unfold scalarText
  split
  · split
    · exact IsValue.true
    · exact IsValue.false
  · exact IsValue.number (number_integerText f.int)
  · exact IsValue.number (number_integerText f.int)
  · exact IsValue.number (number_integerText f.int)
  · exact IsValue.number (number_integerText f.int)
  · exact value_numberText (magnitude_fixed 6) f.real
  · exact value_numberText (magnitude_scientific 6) f.real
  · exact IsValue.string (quoted_quote f.text)
  · exact IsValue.null

/-! ## Containers -/

theorem blanks_nil : IsBlanks [] := by
  intro c hc
  cases hc

theorem blanks_separator (style : Style) (level : Nat) : IsBlanks (style.separator level) := by
  unfold Style.separator
  split
  · intro c hc
    rcases List.mem_cons.mp hc with rfl | hc
    · simp
    · rw [List.eq_of_mem_replicate hc]
      simp
  · exact blanks_nil

/-- A mark with blanks behind it. -/
theorem mark_cons (c : Char) {after : List Char} (h : IsBlanks after) : IsMark c (c :: after) :=
  IsMark.mk blanks_nil h

/-- A mark with blanks in front of it. -/
theorem mark_concat (c : Char) {before : List Char} (h : IsBlanks before) : IsMark c (before ++ [c]) :=
  IsMark.mk h blanks_nil

theorem mark_colon (style : Style) : IsMark ':' style.colon := by
  unfold Style.colon
  split
  · apply mark_cons
    intro c hc
    rw [List.mem_singleton.mp hc]
    simp
  · exact mark_cons ':' blanks_nil

section Containers

variable {Item : List Char → Prop} (style : Style)

/-- Items with a comma and blanks in front of each but the first. -/
theorem items_flatMap (level : Nat) {first : List Char} {rest : List (List Char)} (hfirst : Item first)
    (hrest : ∀ e ∈ rest, Item e) :
    IsItems Item (first ++ rest.flatMap fun e => ',' :: style.separator level ++ e) := by
  induction rest generalizing first with
  | nil =>
    rw [List.flatMap_nil, List.append_nil]
    exact IsItems.last hfirst
  | cons second rest ih =>
    have hmore := ih (hrest second List.mem_cons_self) fun e he => hrest e (List.mem_cons_of_mem second he)
    have hcomma := mark_cons ',' (blanks_separator style level)
    simpa using IsItems.more hfirst hcomma hmore

/-- What stands between brackets is nothing, or items between the two brackets with their blanks. -/
theorem enclose_eq (level : Nat) (bracket : Bracket) {elements : List (List Char)}
    (h : ∀ e ∈ elements, Item e) :
    ∃ opening closing, IsMark bracket.opening opening ∧ IsMark bracket.closing closing ∧
      (enclose style level bracket elements = opening ++ closing ∨
        ∃ items, IsItems Item items ∧ enclose style level bracket elements = opening ++ items ++ closing) := by
  cases elements with
  | nil =>
    refine ⟨[bracket.opening], [bracket.closing], mark_cons _ blanks_nil, mark_cons _ blanks_nil, ?_⟩
    exact Or.inl rfl
  | cons first rest =>
    have hitems := items_flatMap style (level + 1) (h first List.mem_cons_self)
      fun e he => h e (List.mem_cons_of_mem first he)
    refine ⟨bracket.opening :: style.separator (level + 1), style.separator level ++ [bracket.closing],
      mark_cons _ (blanks_separator style _), mark_concat _ (blanks_separator style level), Or.inr ?_⟩
    exact ⟨_, hitems, by simp [enclose]⟩

theorem value_enclose_square (level : Nat) {elements : List (List Char)} (h : ∀ e ∈ elements, IsValue e) :
    IsValue (enclose style level .square elements) := by
  obtain ⟨opening, closing, hopening, hclosing, htext | ⟨items, hitems, htext⟩⟩ :=
    enclose_eq style level .square h
  · rw [htext]
    exact IsValue.emptyArray hopening hclosing
  · rw [htext]
    exact IsValue.array hopening hitems hclosing

theorem value_enclose_brace (level : Nat) {elements : List (List Char)}
    (h : ∀ e ∈ elements, IsMember IsValue e) : IsValue (enclose style level .brace elements) := by
  obtain ⟨opening, closing, hopening, hclosing, htext | ⟨items, hitems, htext⟩⟩ :=
    enclose_eq style level .brace h
  · rw [htext]
    exact IsValue.emptyObject hopening hclosing
  · rw [htext]
    exact IsValue.object hopening hitems hclosing

end Containers

/-! ## Fields -/

/-- **Every field is rendered as a value**, at every depth and level. -/
theorem value_renderAt (style : Style) (depth level : Nat) (f : Field) :
    IsValue (renderAt style depth level f) := by
  -- induction on the depth that is left; below it, containers are scalars
  induction depth generalizing level f with
  | zero => exact value_scalarText f
  | succ depth ih =>
    unfold renderAt
    split
    · apply value_enclose_square
      intro e he
      obtain ⟨child, -, rfl⟩ := List.mem_map.mp he
      exact ih (level + 1) child
    · apply value_enclose_brace
      intro e he
      obtain ⟨⟨key, value⟩, -, rfl⟩ := List.mem_map.mp he
      apply IsMember.mk (quoted_quote key.text) (mark_colon style)
      -- a last key has no value of its own
      cases value with
      | none => exact IsValue.null
      | some value => exact ih (level + 1) value
    · exact value_scalarText f

end FieldTree.Json

namespace FieldTree.Field

/-- **Whatever the bytes of a field are, its rendering is a JSON text.** -/
theorem render_text (style : Json.Style) {bytes : Bytes} (h : headerSize ≤ bytes.length) :
    ∃ f, ofBytes? bytes = some f ∧ Json.Grammar.IsText (Json.render style f).toList := by
  obtain ⟨f, hf⟩ := exists_ofBytes? h
  refine ⟨f, hf, ?_⟩
  have hvalue := Json.value_renderAt style maxDepth style.indent f
  have htext := Json.Grammar.IsText.mk Json.blanks_nil hvalue Json.blanks_nil
  simpa [Json.render] using htext

/-- A table that states more bytes than it has: its keys are an array with a NaN and a tag of no known type
    in it, and a text that is no UTF-8 and has no value. -/
def sampleRagged : Bytes :=
  [0x0a, 0, 0, 0x40, 0x09, 0, 0, 0x14, 0x07, 0, 0, 0x08, 0x7f, 0xc0, 0, 0, 0x0b, 0, 0, 0, 0x0a, 0, 0, 0x09,
    0x03, 0, 0, 0x05, 0xff, 0, 0, 0, 0x02, 0, 0, 0x06, 0x22, 0xff]

theorem render_text_sampleRagged : headerSize ≤ sampleRagged.length ∧
    ∃ f, ofBytes? sampleRagged = some f ∧
      Json.Grammar.IsText (Json.render { pretty := true, indent := 20 } f).toList :=
  ⟨by decide, render_text { pretty := true, indent := 20 } (by decide)⟩

end FieldTree.Field
