import FieldTree.Proofs.Json.Grammar
import FieldTree.Proofs.Json.Printing

/-!
# One Element per Line

A rendering can be laid out with one element per line and tabs in front. This module shows that the layout is nothing
but ends of lines, tabs, and a space behind each colon: without these the text is the one that is rendered on one
line. It also says where the lines end and how far they are indented.

A reader goes over the text from left to right. All that it keeps is whether it is between quotes and how many
containers are open, so that what it says of a text does not depend on how the text was rendered.

## Architecture

- `Reader`, `Reader.compact`: the reader, and a text without its layout.
- `Laid`: what the layout asks of each character.
- `Part`: a piece of a rendering, with `Part.append`.
- `Element`, `element_renderAt`: **a value is a piece that leaves the reader where it was**, with one lemma for each
  kind of value.
-/

namespace FieldTree.Json.Indentation

/-! ## Reading a text from left to right -/

/-- What the characters in front make of the next one. -/
inductive Place where
  | outside
  /-- right behind a colon -/
  | colon
  /-- between quotes -/
  | literal
  /-- between quotes, right behind a backslash -/
  | escape
  deriving DecidableEq, Repr

namespace Place

def isLiteral : Place → Bool
  | literal | escape => true
  | outside | colon => false

def next (place : Place) (c : Char) : Place :=
  match place with
  | literal => if c = '"' then outside else if c = '\\' then escape else literal
  | escape => literal
  | outside | colon => if c = '"' then literal else if c = ':' then colon else outside

/-- Ends of lines, tabs, and the space behind a colon are layout, unless they stand between quotes. -/
def isLayout (place : Place) (c : Char) : Bool :=
  match place with
  | outside => c == '\n' || c == '\t'
  | colon => c == '\n' || c == '\t' || c == ' '
  | literal | escape => false

end Place

/-- Where a reader is, and how many containers are open there. -/
structure Reader where
  place : Place
  level : Nat
  deriving DecidableEq, Repr

/-- A character that opens a container. -/
def opens (c : Char) : Prop := c = '[' ∨ c = '\x7b'

/-- A character that closes a container. -/
def closes (c : Char) : Prop := c = ']' ∨ c = '\x7d'

instance (c : Char) : Decidable (opens c) := inferInstanceAs (Decidable (_ ∨ _))

instance (c : Char) : Decidable (closes c) := inferInstanceAs (Decidable (_ ∨ _))

theorem opening_injective : Function.Injective Bracket.opening := by
  rintro ⟨⟩ ⟨⟩ h <;> simp [Bracket.opening] at h ⊢

theorem closing_injective : Function.Injective Bracket.closing := by
  rintro ⟨⟩ ⟨⟩ h <;> simp [Bracket.closing] at h ⊢

theorem opening_ne_closing (bracket other : Bracket) : bracket.opening ≠ other.closing := by
  cases bracket <;> cases other <;> decide

namespace Reader

/-- A reader in front of a text. -/
def start : Reader := ⟨.outside, 0⟩

def next (r : Reader) (c : Char) : Reader where
  place := r.place.next c
  level :=
    if r.place.isLiteral then r.level
    else if opens c then r.level + 1
    else if closes c then r.level - 1
    else r.level

/-- The reader behind a text. -/
def behind (r : Reader) (text : List Char) : Reader := text.foldl next r

/-- The text without its layout. -/
def compact (r : Reader) : List Char → List Char
  | [] => []
  | c :: text => if r.place.isLayout c then (r.next c).compact text else c :: (r.next c).compact text

@[simp] theorem behind_nil (r : Reader) : r.behind [] = r := rfl

@[simp] theorem behind_cons (r : Reader) (c : Char) (text : List Char) :
    r.behind (c :: text) = (r.next c).behind text := rfl

@[simp] theorem behind_append (r : Reader) (t u : List Char) : r.behind (t ++ u) = (r.behind t).behind u :=
  List.foldl_append

theorem compact_append (r : Reader) (t u : List Char) :
    r.compact (t ++ u) = r.compact t ++ (r.behind t).compact u := by
  induction t generalizing r with
  | nil => rfl
  | cons c t ih =>
    simp only [List.cons_append, compact, behind_cons, ih]
    split <;> rfl

end Reader

/-! ## The layout -/

/-- What a layout with one element per line asks of a character, with `front` in front of it and `rest` behind it. -/
structure Laid (indent : Nat) (front : List Char) (c : Char) (rest : List Char) : Prop where
  /-- lines do not end between quotes -/
  unquoted : c = '\n' → (Reader.start.behind front).place.isLiteral = false
  /-- a line starts with as many tabs as there are containers open, and `indent` more, but not with more than
      `maxIndent`; a container that is closed there is not open any more -/
  tabs : c = '\n' → ∃ d after,
    let level := (Reader.start.behind front).level
    rest = List.replicate (min (indent + if closes d then level - 1 else level) maxIndent) '\t' ++ d :: after ∧ d ≠ '\t'
  /-- the first element of a container starts on a line of its own -/
  opening : ∀ bracket : Bracket, c = bracket.opening → (Reader.start.behind front).place.isLiteral = false →
    rest.head? = some '\n' ∨ rest.head? = some bracket.closing
  /-- and so do the others -/
  comma : c = ',' → (Reader.start.behind front).place.isLiteral = false → rest.head? = some '\n'
  /-- a bracket that closes a container stands on a line of its own, unless the container is empty -/
  closing : ∀ bracket : Bracket, c = bracket.closing → (Reader.start.behind front).place.isLiteral = false →
    front.getLast? = some bracket.opening ∨ ∃ before n, front = before ++ '\n' :: List.replicate n '\t'
  /-- lines do not end anywhere else -/
  only : c = '\n' → (∃ bracket : Bracket, front.getLast? = some bracket.opening) ∨ front.getLast? = some ',' ∨
    ∃ (bracket : Bracket) (n : Nat) (after : List Char), rest = List.replicate n '\t' ++ bracket.closing :: after
  /-- there are not too many containers open -/
  level_le : (Reader.start.behind front).level ≤ maxDepth

/-- Every character of a text is laid out, between `front` and `rest`. -/
def Follows (indent : Nat) (front : List Char) : List Char → (rest : List Char) → Prop
  | [], _ => True
  | c :: text, rest => Laid indent front c (text ++ rest) ∧ Follows indent (front ++ [c]) text rest

theorem follows_append {indent : Nat} {front t u rest : List Char} :
    Follows indent front (t ++ u) rest ↔
      Follows indent front t (u ++ rest) ∧ Follows indent (front ++ t) u rest := by
  induction t generalizing front with
  | nil => simp [Follows]
  | cons c t ih => simp [Follows, ih, and_assoc]

theorem Follows.laid {indent : Nat} {front text rest : List Char} (h : Follows indent front text rest)
    {before : List Char} {c : Char} {after : List Char} (htext : text = before ++ c :: after) :
    Laid indent (front ++ before) c (after ++ rest) := by
  subst htext
  exact (follows_append.mp h).2.1

/-- A character that the layout asks nothing of. -/
theorem laid_of_quiet {indent : Nat} {front rest : List Char} {c : Char} (hc : c ≠ '\n')
    (hmark : (Reader.start.behind front).place.isLiteral = false → c ≠ ',' ∧ ¬opens c ∧ ¬closes c)
    (hlevel : (Reader.start.behind front).level ≤ maxDepth) : Laid indent front c rest where
  unquoted := fun h => absurd h hc
  tabs := fun h => absurd h hc
  opening := by
    intro bracket h houtside
    have hopens := (hmark houtside).2.1
    cases bracket <;> simp [h, opens, Bracket.opening] at hopens
  comma := fun h houtside => absurd h (hmark houtside).1
  closing := by
    intro bracket h houtside
    have hcloses := (hmark houtside).2.2
    cases bracket <;> simp [h, closes, Bracket.closing] at hcloses
  only := fun h => absurd h hc
  level_le := hlevel

/-! ## Pieces -/

/-- A piece of a rendering that takes a reader from `r` to `r'` when `rest` follows it. Without its layout it is
    `short`. -/
structure Part (indent : Nat) (r r' : Reader) (text short rest : List Char) : Prop where
  behind : r.behind text = r'
  compact : r.compact text = short
  follows : ∀ front, Reader.start.behind front = r → Follows indent front text rest

/-- **Pieces are laid out one by one.** -/
theorem Part.append {indent : Nat} {r r' r'' : Reader} {t u s s' rest : List Char}
    (h : Part indent r r' t s (u ++ rest)) (h' : Part indent r' r'' u s' rest) :
    Part indent r r'' (t ++ u) (s ++ s') rest where
  behind := by rw [Reader.behind_append, h.behind, h'.behind]
  compact := by rw [Reader.compact_append, h.compact, h.behind, h'.compact]
  follows := by
    intro front hfront
    refine follows_append.mpr ⟨h.follows front hfront, h'.follows (front ++ t) ?_⟩
    rw [Reader.behind_append, hfront, h.behind]

/-- One character of which the layout asks what is there. -/
theorem Part.single {indent : Nat} {r r' : Reader} {c : Char} {short rest : List Char} (hbehind : r.next c = r')
    (hcompact : r.compact [c] = short)
    (h : ∀ front, Reader.start.behind front = r → Laid indent front c rest) :
    Part indent r r' [c] short rest where
  behind := hbehind
  compact := hcompact
  follows := fun front hfront => ⟨h front hfront, trivial⟩

section Marks

variable {indent k : Nat} {rest : List Char}

theorem part_nil {r : Reader} : Part indent r r [] [] rest := ⟨rfl, rfl, fun _ _ => trivial⟩

/-- One character of which the layout asks nothing. -/
theorem part_quiet {r r' : Reader} {c : Char} {short : List Char} (hbehind : r.next c = r')
    (hcompact : r.compact [c] = short) (hc : c ≠ '\n')
    (hmark : r.place.isLiteral = false → c ≠ ',' ∧ ¬opens c ∧ ¬closes c) (hlevel : r.level ≤ maxDepth) :
    Part indent r r' [c] short rest :=
  Part.single hbehind hcompact fun _ hfront => laid_of_quiet hc (hfront ▸ hmark) (hfront ▸ hlevel)

/-! ### Lines and brackets -/

@[simp] theorem Reader.next_line : Reader.next ⟨.outside, k⟩ '\n' = ⟨.outside, k⟩ := rfl

theorem part_tabs (hk : k ≤ maxDepth) (n : Nat) :
    Part indent ⟨.outside, k⟩ ⟨.outside, k⟩ (List.replicate n '\t') [] rest := by
  induction n with
  | zero => exact part_nil
  | succ n ih =>
    have htab : Part indent ⟨.outside, k⟩ ⟨.outside, k⟩ ['\t'] [] (List.replicate n '\t' ++ rest) :=
      part_quiet rfl rfl (by decide) (fun _ => by decide) hk
    exact htab.append ih

/-- The end of a line, in front of the first character of the next one. -/
theorem laid_line {front : List Char} {d : Char} (hfront : Reader.start.behind front = ⟨.outside, k⟩)
    (hk : k ≤ maxDepth) (hd : d ≠ '\t')
    (honly : (∃ bracket : Bracket, front.getLast? = some bracket.opening) ∨ front.getLast? = some ',' ∨
      ∃ bracket : Bracket, d = bracket.closing) :
    Laid indent front '\n'
      (List.replicate (min (indent + if closes d then k - 1 else k) maxIndent) '\t' ++ d :: rest) where
  unquoted := by simp [hfront, Place.isLiteral]
  tabs := fun _ => ⟨d, rest, by simp [hfront], hd⟩
  opening := by rintro ⟨⟩ h <;> simp [Bracket.opening] at h
  comma := fun h => absurd h (by decide)
  closing := by rintro ⟨⟩ h <;> simp [Bracket.closing] at h
  only := by
    intro _
    rcases honly with hopening | hcomma | ⟨bracket, rfl⟩
    · exact .inl hopening
    · exact .inr (.inl hcomma)
    · exact .inr (.inr ⟨bracket, _, rest, rfl⟩)
  level_le := by simpa [hfront] using hk

/-- A character in front of each element, the opening bracket or a comma, or that of an empty container. -/
theorem laid_mark {front : List Char} {c : Char} (hc : (∃ bracket : Bracket, c = bracket.opening) ∨ c = ',')
    (hrest : rest.head? = some '\n' ∨ ∃ bracket : Bracket, c = bracket.opening ∧ rest.head? = some bracket.closing)
    (hlevel : (Reader.start.behind front).level ≤ maxDepth) : Laid indent front c rest := by
  have hline : c ≠ '\n' := by
    rcases hc with ⟨bracket, rfl⟩ | rfl
    · cases bracket <;> decide
    · decide
  refine ⟨fun h => absurd h hline, fun h => absurd h hline, ?_, ?_, ?_, fun h => absurd h hline, hlevel⟩
  -- an opening bracket, a comma, and no closing bracket: the layout asks for the line behind the first two
  · rintro bracket rfl -
    rcases hrest with hrest | ⟨other, hother, hrest⟩
    · exact .inl hrest
    · exact .inr (opening_injective hother ▸ hrest)
  · rintro rfl -
    rcases hrest with hrest | ⟨other, hother, -⟩
    · exact hrest
    · cases other <;> simp [Bracket.opening] at hother
  · rintro bracket rfl
    rcases hc with ⟨other, hother⟩ | hcomma
    · exact absurd hother.symm (opening_ne_closing other bracket)
    · cases bracket <;> simp [Bracket.closing] at hcomma

/-- What stands in front of an element. -/
theorem part_mark {j : Nat} {mark d : Char} (hmark : (∃ bracket : Bracket, mark = bracket.opening) ∨ mark = ',')
    (hnext : Reader.next ⟨.outside, j⟩ mark = ⟨.outside, k⟩) (hj : j ≤ maxDepth) (hk : k ≤ maxDepth)
    (hd : d ≠ '\t') (hcloses : ¬closes d) :
    Part indent ⟨.outside, j⟩ ⟨.outside, k⟩ (mark :: Style.separator ⟨true, indent⟩ (indent + k)) [mark]
      (d :: rest) := by
  have htabs : Part indent ⟨.outside, k⟩ ⟨.outside, k⟩ (List.replicate (min (indent + k) maxIndent) '\t') []
      (d :: rest) := part_tabs hk _
  have hlayout : Place.isLayout .outside mark = false := by
    rcases hmark with ⟨bracket, rfl⟩ | rfl
    · cases bracket <;> rfl
    · rfl
  -- the end of the line is allowed because of the mark in front of it, so the two are one piece
  refine ⟨?_, ?_, fun front hfront => ⟨laid_mark hmark (.inl rfl) (by simpa [hfront] using hj), ?_, ?_⟩⟩
  · simp only [Reader.behind_cons, hnext]
    exact htabs.behind
  · have hcompact := htabs.compact
    simp only [Reader.compact, hlayout, hnext, Style.separator]
    simpa [Reader.compact, Place.isLayout] using hcompact
  · have hbehind : Reader.start.behind (front ++ [mark]) = ⟨.outside, k⟩ := by simp [hfront, hnext]
    simpa [hcloses] using laid_line hbehind hk hd (by rcases hmark with ⟨bracket, rfl⟩ | rfl <;> simp)
  · apply htabs.follows
    simp [hfront, hnext]

/-- The opening bracket of a container that is not empty, with the first line under it. -/
theorem part_opening (bracket : Bracket) {d : Char} (hk : k < maxDepth) (hd : d ≠ '\t') (hcloses : ¬closes d) :
    Part indent ⟨.outside, k⟩ ⟨.outside, k + 1⟩
      (bracket.opening :: Style.separator ⟨true, indent⟩ (indent + (k + 1))) [bracket.opening] (d :: rest) :=
  part_mark (.inl ⟨bracket, rfl⟩) (by cases bracket <;> rfl) (Nat.le_of_lt hk) hk hd hcloses

/-- A comma, with the line behind it. -/
theorem part_comma {d : Char} (hk : k ≤ maxDepth) (hd : d ≠ '\t') (hcloses : ¬closes d) :
    Part indent ⟨.outside, k⟩ ⟨.outside, k⟩ (',' :: Style.separator ⟨true, indent⟩ (indent + k)) [',']
      (d :: rest) :=
  part_mark (.inr rfl) rfl hk hk hd hcloses

theorem laid_closing {front : List Char} {bracket : Bracket} (hk : (Reader.start.behind front).level ≤ maxDepth)
    (h : front.getLast? = some bracket.opening ∨ ∃ before n, front = before ++ '\n' :: List.replicate n '\t') :
    Laid indent front bracket.closing rest := by
  have hline : bracket.closing ≠ '\n' := by cases bracket <;> decide
  have hcomma : bracket.closing ≠ ',' := by cases bracket <;> decide
  refine ⟨fun h => absurd h hline, fun h => absurd h hline, ?_, fun h => absurd h hcomma, ?_,
    fun h => absurd h hline, hk⟩
  · intro other hother
    exact absurd hother.symm (opening_ne_closing other bracket)
  · intro other hother _
    exact closing_injective hother ▸ h

/-- The closing bracket of a container that is not empty, on its own line. -/
theorem part_closing (bracket : Bracket) (hk : k < maxDepth) :
    Part indent ⟨.outside, k + 1⟩ ⟨.outside, k⟩
      (Style.separator ⟨true, indent⟩ (indent + k) ++ [bracket.closing]) [bracket.closing] rest := by
  have hcloses : closes bracket.closing := by cases bracket <;> decide
  have htab : bracket.closing ≠ '\t' := by cases bracket <;> decide
  have hline : Part indent ⟨.outside, k + 1⟩ ⟨.outside, k + 1⟩ ['\n'] []
      (List.replicate (min (indent + k) maxIndent) '\t' ++ bracket.closing :: rest) := by
    refine Part.single (by rfl) (by rfl) fun front hfront => ?_
    simpa [hcloses] using laid_line hfront hk htab (.inr (.inr ⟨bracket, rfl⟩))
  have hfront : Part indent ⟨.outside, k + 1⟩ ⟨.outside, k + 1⟩ (Style.separator ⟨true, indent⟩ (indent + k)) []
      ([bracket.closing] ++ rest) := hline.append (part_tabs hk _)
  have hnext : Reader.next ⟨.outside, k + 1⟩ bracket.closing = ⟨.outside, k⟩ := by cases bracket <;> rfl
  -- the line ends at the level inside, and the bracket leads out of it
  refine ⟨?_, ?_, fun front hbehind => follows_append.mpr ⟨hfront.follows front hbehind, ?_, trivial⟩⟩
  · simp [hfront.behind, hnext]
  · simp only [Reader.compact_append, hfront.behind, hfront.compact]
    cases bracket <;> rfl
  · apply laid_closing
    · simpa [hbehind, hfront.behind] using Nat.succ_le_of_lt hk
    · exact .inr ⟨front, _, rfl⟩

/-- The brackets of an empty container. -/
theorem part_empty (bracket : Bracket) (hk : k < maxDepth) :
    Part indent ⟨.outside, k⟩ ⟨.outside, k⟩ [bracket.opening, bracket.closing] [bracket.opening, bracket.closing]
      rest := by
  have hnext : Reader.next ⟨.outside, k⟩ bracket.opening = ⟨.outside, k + 1⟩ := by cases bracket <;> rfl
  refine ⟨by cases bracket <;> rfl, by cases bracket <;> rfl, fun front hfront => ⟨?_, ?_, trivial⟩⟩
  · exact laid_mark (.inl ⟨bracket, rfl⟩) (.inr ⟨bracket, rfl, rfl⟩) (by simpa [hfront] using Nat.le_of_lt hk)
  · apply laid_closing
    · simpa [hfront, hnext] using Nat.succ_le_of_lt hk
    · simp

/-! ### Words and quotes -/

/-- A character of a number or a name, with no part in the layout. -/
def IsPlain (c : Char) : Prop := c ∉ ['\n', '\t', '"', ':', ',', '[', ']', '\x7b', '\x7d']

theorem part_plain {word : List Char} (hword : ∀ c ∈ word, IsPlain c) (hk : k ≤ maxDepth) :
    Part indent ⟨.outside, k⟩ ⟨.outside, k⟩ word word rest := by
  induction word with
  | nil => exact part_nil
  | cons c word ih =>
    obtain ⟨hc, hword⟩ := List.forall_mem_cons.mp hword
    simp only [IsPlain, List.mem_cons, List.not_mem_nil, not_or, or_false] at hc
    have hchar : Part indent ⟨.outside, k⟩ ⟨.outside, k⟩ [c] [c] (word ++ rest) := by
      apply part_quiet ?_ ?_ hc.1 ?_ hk
      · simp [Reader.next, Place.next, opens, closes, hc]
      · simp [Reader.compact, Place.isLayout, hc]
      · simp [opens, closes, hc]
    exact hchar.append (ih hword)

/-- Between quotes, nothing is layout. -/
theorem part_literal (place : Place) {c : Char} (hplace : place.isLiteral = true) (hc : c ≠ '\n')
    (hk : k ≤ maxDepth) : Part indent ⟨place, k⟩ ⟨place.next c, k⟩ [c] [c] rest := by
  apply part_quiet ?_ ?_ hc ?_ hk
  · simp [Reader.next, hplace]
  · cases place <;> simp [Place.isLiteral, Reader.compact, Place.isLayout] at hplace ⊢
  · simp [hplace]

/-- Characters that stand for themselves between quotes. -/
theorem part_unescaped {cs : List Char} (hcs : ∀ c ∈ cs, c ≠ '\n' ∧ c ≠ '"' ∧ c ≠ '\\') (hk : k ≤ maxDepth) :
    Part indent ⟨.literal, k⟩ ⟨.literal, k⟩ cs cs rest := by
  induction cs with
  | nil => exact part_nil
  | cons c cs ih =>
    obtain ⟨⟨hline, hquote, hbackslash⟩, hcs⟩ := List.forall_mem_cons.mp hcs
    have hchar : Part indent ⟨.literal, k⟩ ⟨.literal, k⟩ [c] [c] (cs ++ rest) := by
      simpa [Place.next, hquote, hbackslash] using part_literal .literal rfl hline hk
    exact hchar.append (ih hcs)

/-- A backslash leads away from `literal`, and the character behind it leads back. -/
theorem part_escape {c : Char} (hc : c ≠ '\n') (hk : k ≤ maxDepth) :
    Part indent ⟨.literal, k⟩ ⟨.literal, k⟩ ['\\', c] ['\\', c] rest :=
  (part_literal .literal rfl (by decide) hk).append (part_literal .escape rfl hc hk)

theorem ne_of_isHexDigit {d : Char} (h : Grammar.IsHexDigit d) : d ≠ '\n' ∧ d ≠ '"' ∧ d ≠ '\\' := by
  refine ⟨?_, ?_, ?_⟩ <;> rintro rfl <;> simp [Grammar.IsHexDigit] at h

theorem part_characters {cs : List Char} (h : Grammar.IsCharacters cs) (hk : k ≤ maxDepth) :
    Part indent ⟨.literal, k⟩ ⟨.literal, k⟩ cs cs rest := by
  induction h with
  | nil => exact part_nil
  | @plain c after hcode hquote hbackslash _ ih =>
    have hline : c ≠ '\n' := by
      rintro rfl
      exact absurd hcode (by decide)
    have hchar : Part indent ⟨.literal, k⟩ ⟨.literal, k⟩ [c] [c] (after ++ rest) :=
      part_unescaped (by simp [hline, hquote, hbackslash]) hk
    exact hchar.append ih
  | escaped hc _ ih =>
    refine (part_escape ?_ hk).append ih
    rintro rfl
    exact absurd hc (by decide)
  | code _ hdigits _ ih =>
    have hplain := fun d hd => ne_of_isHexDigit (hdigits d hd)
    exact (part_escape (by decide) hk).append ((part_unescaped hplain hk).append ih)

theorem part_quoted {text : List Char} (h : Grammar.IsQuoted text) (hk : k ≤ maxDepth) :
    Part indent ⟨.outside, k⟩ ⟨.outside, k⟩ text text rest := by
  obtain ⟨hcs⟩ := h
  have hquote (place : Place) {rest : List Char} (h : place.isLayout '"' = false) :
      Part indent ⟨place, k⟩ ⟨place.next '"', k⟩ ['"'] ['"'] rest := by
    apply part_quiet ?_ ?_ (by decide) (fun _ => by decide) hk
    · cases place <;> rfl
    · simp [Reader.compact, h]
  exact (hquote .outside rfl).append ((part_characters hcs hk).append (hquote .literal rfl))

end Marks

/-! ## Values -/

/-- A text that can be an element at a level: it starts a line, leaves the reader where it was, and has every
    character laid out. Without its layout it is `short`. -/
structure Element (indent k : Nat) (text short : List Char) : Prop where
  starts : ∃ d after, text = d :: after ∧ d ≠ '\t' ∧ ¬closes d
  part : ∀ rest, Part indent ⟨.outside, k⟩ ⟨.outside, k⟩ text short rest

section Values

variable {indent k : Nat}

/-! ### Scalars -/

/-- A number or a name. -/
structure IsWord (word : List Char) : Prop where
  ne_nil : word ≠ []
  plain : ∀ c ∈ word, IsPlain c

theorem element_word {word : List Char} (h : IsWord word) (hk : k ≤ maxDepth) : Element indent k word word where
  starts := by
    obtain ⟨d, after, rfl⟩ := List.exists_cons_of_ne_nil h.ne_nil
    have hd := h.plain d List.mem_cons_self
    refine ⟨d, after, rfl, ?_, ?_⟩ <;> simp_all [IsPlain, closes]
  part := fun _ => part_plain h.plain hk

theorem element_quoted {text : List Char} (h : Grammar.IsQuoted text) (hk : k ≤ maxDepth) :
    Element indent k text text where
  starts := by
    obtain ⟨hcs⟩ := h
    exact ⟨'"', _, rfl, by decide, by decide⟩
  part := fun _ => part_quoted h hk

theorem word_null : IsWord "null".toList := ⟨by decide, by simp [IsPlain]⟩

theorem element_null (hk : k ≤ maxDepth) : Element indent k "null".toList "null".toList :=
  element_word word_null hk

theorem isPlain_of_isDigit {c : Char} (h : c.isDigit = true) : IsPlain c := by
  intro hmem
  have hmarks : ∀ c ∈ ['\n', '\t', '"', ':', ',', '[', ']', '\x7b', '\x7d'], c.isDigit = false := by
    simp [Char.isDigit]
  exact absurd h (by simp [hmarks c hmem])

/-- The characters of a number are plain. -/
theorem isPlain_of_isDigits {ds : List Char} (h : Grammar.IsDigits ds) : ∀ c ∈ ds, IsPlain c :=
  fun c hc => isPlain_of_isDigit (h.2 c hc)

theorem isPlain_of_isWhole {text : List Char} (h : Grammar.IsWhole text) : ∀ c ∈ text, IsPlain c := by
  cases h with
  | zero => simp [IsPlain]
  | digits _ hds => exact isPlain_of_isDigits hds

theorem isPlain_of_isFraction {text : List Char} (h : Grammar.IsFraction text) : ∀ c ∈ text, IsPlain c := by
  cases h with
  | none => simp
  | point hds => exact List.forall_mem_cons.mpr ⟨by simp [IsPlain], isPlain_of_isDigits hds⟩

theorem isPlain_of_isExponent {text : List Char} (h : Grammar.IsExponent text) : ∀ c ∈ text, IsPlain c := by
  have hmark : ∀ c ∈ ['e', 'E'], IsPlain c := by simp [IsPlain]
  have hsign : ∀ c ∈ ['+', '-'], IsPlain c := by simp [IsPlain]
  cases h with
  | none => simp
  | unsigned hm hds => exact List.forall_mem_cons.mpr ⟨hmark _ hm, isPlain_of_isDigits hds⟩
  | signed hm hs hds =>
    exact List.forall_mem_cons.mpr ⟨hmark _ hm,
      List.forall_mem_cons.mpr ⟨hsign _ hs, isPlain_of_isDigits hds⟩⟩

theorem isPlain_of_isMagnitude {text : List Char} (h : Grammar.IsMagnitude text) : ∀ c ∈ text, IsPlain c := by
  obtain ⟨hwhole, hfraction, hexponent⟩ := h
  exact List.forall_mem_append.mpr ⟨List.forall_mem_append.mpr
    ⟨isPlain_of_isWhole hwhole, isPlain_of_isFraction hfraction⟩, isPlain_of_isExponent hexponent⟩

theorem ne_nil_of_isMagnitude {text : List Char} (h : Grammar.IsMagnitude text) : text ≠ [] := by
  obtain ⟨hwhole, -, -⟩ := h
  cases hwhole <;> simp

theorem word_number {text : List Char} (h : Grammar.IsNumber text) : IsWord text := by
  cases h with
  | positive h => exact ⟨ne_nil_of_isMagnitude h, isPlain_of_isMagnitude h⟩
  | negative h =>
    have hminus : IsPlain '-' := by simp [IsPlain]
    exact ⟨List.cons_ne_nil _ _, List.forall_mem_cons.mpr ⟨hminus, isPlain_of_isMagnitude h⟩⟩

theorem word_numberText {magnitude : Nat → Nat → List Char}
    (h : ∀ num den, Grammar.IsMagnitude (magnitude num den)) (x : Double) : IsWord (numberText magnitude x) := by
  unfold numberText
  split
  · apply word_number
    split
    · exact .negative (h _ _)
    · exact .positive (h _ _)
  · exact word_null

/-- A field without children is rendered as a number, as a name, or between quotes. -/
theorem word_or_quoted_scalarText (f : Field) : IsWord (scalarText f) ∨ Grammar.IsQuoted (scalarText f) := by
  have hinteger : IsWord (Decimal.integer f.int) := word_number (number_integerText f.int)
  unfold scalarText
  split
  · split
    · exact .inl ⟨by decide, by simp [IsPlain]⟩
    · exact .inl ⟨by decide, by simp [IsPlain]⟩
  · exact .inl hinteger
  · exact .inl hinteger
  · exact .inl hinteger
  · exact .inl hinteger
  · exact .inl (word_numberText (magnitude_fixed 6) f.real)
  · exact .inl (word_numberText (magnitude_scientific 6) f.real)
  · exact .inr (quoted_quote f.text)
  · exact .inl word_null

theorem element_scalarText (f : Field) (hk : k ≤ maxDepth) :
    Element indent k (scalarText f) (scalarText f) := by
  rcases word_or_quoted_scalarText f with hword | hquoted
  · exact element_word hword hk
  · exact element_quoted hquoted hk

/-! ### Containers -/

/-- A key and its value. Only the space behind the colon is layout. -/
theorem element_member (key : String) {text short : List Char} (h : Element indent k text short)
    (hk : k ≤ maxDepth) :
    Element indent k (quote key ++ Style.colon ⟨true, indent⟩ ++ text) (quote key ++ Style.colon {} ++ short) where
  starts := ⟨'"', _, rfl, by decide, by decide⟩
  part := by
    intro rest
    have hcolon : Part indent ⟨.outside, k⟩ ⟨.colon, k⟩ [':'] [':'] ([' '] ++ (text ++ rest)) :=
      part_quiet rfl rfl (by decide) (fun _ => by decide) hk
    have hspace : Part indent ⟨.colon, k⟩ ⟨.outside, k⟩ [' '] [] (text ++ rest) :=
      part_quiet rfl rfl (by decide) (fun _ => by decide) hk
    have hkey : Part indent ⟨.outside, k⟩ ⟨.outside, k⟩ (quote key) (quote key)
        ([':'] ++ ([' '] ++ (text ++ rest))) := part_quoted (quoted_quote key) hk
    simpa [Style.colon] using ((hkey.append hcolon).append hspace).append (h.part rest)

variable {α : Type} {text short : α → List Char}

/-- The elements behind the first one, and the closing bracket. -/
theorem part_more (bracket : Bracket) {more : List α} (h : ∀ a ∈ more, Element indent (k + 1) (text a) (short a))
    (hk : k < maxDepth) (rest : List Char) :
    Part indent ⟨.outside, k + 1⟩ ⟨.outside, k⟩
      (more.flatMap (fun a => ',' :: Style.separator ⟨true, indent⟩ (indent + (k + 1)) ++ text a) ++
        (Style.separator ⟨true, indent⟩ (indent + k) ++ [bracket.closing]))
      (more.flatMap (fun a => ',' :: short a) ++ [bracket.closing]) rest := by
  induction more with
  | nil => exact part_closing bracket hk
  | cons a more ih =>
    obtain ⟨ha, hmore⟩ := List.forall_mem_cons.mp h
    obtain ⟨d, after, htext, hd, hcloses⟩ := ha.starts
    have hcomma (rest : List Char) : Part indent ⟨.outside, k + 1⟩ ⟨.outside, k + 1⟩
        (',' :: Style.separator ⟨true, indent⟩ (indent + (k + 1))) [','] (text a ++ rest) :=
      htext ▸ part_comma hk hd hcloses
    -- what stands behind an element is a comma or the last line
    simpa using ((hcomma _).append (ha.part _)).append (ih hmore)

/-- **A container of elements is an element.** -/
theorem element_enclose (bracket : Bracket) {elements : List α}
    (h : ∀ a ∈ elements, Element indent (k + 1) (text a) (short a)) (hk : k < maxDepth) (level : Nat) :
    Element indent k (enclose ⟨true, indent⟩ (indent + k) bracket (elements.map text))
      (enclose {} level bracket (elements.map short)) where
  starts := by
    refine ⟨bracket.opening, ?_⟩
    cases elements <;> cases bracket <;> simp [enclose, Bracket.opening, closes]
  part := by
    intro rest
    cases elements with
    | nil => exact part_empty bracket hk
    | cons a more =>
      obtain ⟨ha, hmore⟩ := List.forall_mem_cons.mp h
      obtain ⟨d, after, htext, hd, hcloses⟩ := ha.starts
      have hopening (rest : List Char) : Part indent ⟨.outside, k⟩ ⟨.outside, k + 1⟩
          (bracket.opening :: Style.separator ⟨true, indent⟩ (indent + (k + 1))) [bracket.opening]
          (text a ++ rest) := htext ▸ part_opening bracket hk hd hcloses
      have hpart := ((hopening _).append (ha.part _)).append (part_more bracket hmore hk rest)
      simpa [enclose, Style.separator, List.flatMap_map, Nat.add_assoc] using hpart

end Values

/-! ## Fields -/

/-- **The rendering of a field is an element**, wherever the field stands. -/
theorem element_renderAt {indent depth k : Nat} (hdepth : depth + k ≤ maxDepth) (level : Nat) (f : Field) :
    Element indent k (renderAt ⟨true, indent⟩ depth (indent + k) f) (renderAt {} depth level f) := by
  -- induction on the depth that is left; the number of open containers grows as it shrinks
  induction depth generalizing k level f with
  | zero => exact element_scalarText f (Nat.le_trans (Nat.le_add_left k 0) hdepth)
  | succ depth ih =>
    have hdeeper : depth + (k + 1) ≤ maxDepth := by omega
    have hk : k < maxDepth := by omega
    unfold renderAt
    split
    · exact element_enclose .square (fun child _ => ih hdeeper (level + 1) child) hk level
    · refine element_enclose .brace (fun entry _ => ?_) hk level
      obtain ⟨key, value⟩ := entry
      refine element_member key.text ?_ hk
      cases value with
      | none => exact element_null hk
      | some value => exact ih hdeeper (level + 1) value
    · exact element_scalarText f (Nat.le_of_lt hk)

end FieldTree.Json.Indentation
