import FieldTree.Proofs.Json.Grammar
import FieldTree.Proofs.Listing.Outline
import Mathlib.Data.List.Infix
import Mathlib.Tactic.Ring

/-!
# Listings Read Back

The text of a listing says all that its rows say. It is read here without knowing where it comes from: lines end where
a line ends, the tabs in front of a line are its depth, and what is left of it is taken apart at its spaces.

## Architecture

- `Row.read?`, `Listing.read?`: the row of a line, and those of a text.
- `read?_bracketed`, `read?_columns`: the two kinds of lines.
- `Line.exists_read?`: **every line reads back as its row.**
- `Field.dump_shows_outline`: the main statement.
-/

namespace FieldTree.Listing

/-! ## Reading a listing -/

/-- The number that a word of `width` hexadecimal digits spells. -/
def hex? (width : Nat) (word : List Char) : Option Nat :=
  if word.length = width then word.foldlM (fun n d => (Numeral.digitValue? 16 d).map (n * 16 + ·)) 0 else none

/-- The number that a word of decimal digits spells. -/
def decimal? (word : List Char) : Option Nat :=
  if word ≠ [] ∧ word.all Char.isDigit then some (Decimal.ofDigits word) else none

/-- The number behind a name. -/
def labelled? (name : String) (word : List Char) : Option Nat := (word.dropPrefix? name.toList).bind decimal?

/-- The words of a line for children that are not shown, behind its opening bracket. -/
def hiddenEntries : List (List Char) :=
  ["...", "nested", "deeper", "than", maxDepth.repr, "levels", "]"].map String.toList

/-- The row that the words behind an opening bracket spell. -/
def Row.ofEntries? (depth : Nat) : List (List Char) → Option Row
  | [label, word, type, offset, padded, raw, data, closing] =>
    if label = "field".toList ∧ closing = [']'] then do
      let digits ← word.dropPrefix? ['(']
      let digits ← digits.dropSuffix? [')']
      let name ← type.dropPrefix? "type=".toList
      return .field depth (← hex? 8 digits) (String.ofList name) (← labelled? "offset=" offset)
        (← labelled? "padded=" padded) (← labelled? "raw=" raw) (← labelled? "data=" data)
    else none
  | entries => if entries = hiddenEntries then some (.hidden depth) else none

/-- The row that a line spells. Without a bracket it is made of hexadecimal columns, up to the first blank one. -/
def Row.read? (line : List Char) : Option Row :=
  let depth := (line.takeWhile (· == '\t')).length
  match (line.dropWhile (· == '\t')).splitOn ' ' with
  | ['['] :: entries => ofEntries? depth entries
  | columns =>
    ((columns.takeWhile (!·.isEmpty)).mapM (hex? 2)).map fun bytes => .payload depth (bytes.map UInt8.ofNat)

/-- The rows that a text spells, one on each line. -/
def read? (text : String) : Option (List Row) := (text.toList.splitOn '\n').dropLast.mapM Row.read?

/-! ## Words -/

/-- A word has no blanks in it. -/
def IsWord (word : List Char) : Prop := ∀ c ∈ word, ' ' < c

theorem IsWord.notMem {word : List Char} (h : IsWord word) {c : Char} (hc : c ≤ ' ') : c ∉ word :=
  fun hmem => absurd (h c hmem) (Char.not_lt.mpr hc)

theorem IsWord.append {word word' : List Char} (h : IsWord word) (h' : IsWord word') : IsWord (word ++ word') :=
  List.forall_mem_append.mpr ⟨h, h'⟩

theorem isWord_digits (n : Nat) : IsWord (Decimal.digits n) := by
  intro c hc
  have hdigit := Json.isDigit_of_mem_digits c hc
  simp only [Char.isDigit, Bool.and_eq_true, decide_eq_true_eq] at hdigit
  exact Nat.lt_of_lt_of_le (by decide) hdigit.1

theorem isWord_hexDigits (width n : Nat) : IsWord (Bytes.hexDigits width n) := by
  have hdigit : ∀ d < 16, ' ' < d.digitChar := by decide
  induction width with
  | zero => simp [IsWord, Bytes.hexDigits]
  | succ width ih => exact List.forall_mem_cons.mpr ⟨hdigit _ (Nat.mod_lt _ (by decide)), ih⟩

theorem isWord_name (t : FieldType) : IsWord t.name.toList := by
  cases t <;> simp [IsWord, FieldType.name]

/-! ## Numbers read back -/

theorem foldlM_hexDigits (sofar width n : Nat) :
    (Bytes.hexDigits width n).foldlM (fun n d => (Numeral.digitValue? 16 d).map (n * 16 + ·)) sofar =
      some (sofar * 16 ^ width + n % 16 ^ width) := by
  induction width generalizing sofar with
  | zero => simp [Bytes.hexDigits, Nat.mod_one]
  | succ width ih =>
    have hdigit := Json.digitValue?_digitChar (n / 16 ^ width % 16) (Nat.mod_lt _ (by decide))
    have hmod : n % 16 ^ (width + 1) = n % 16 ^ width + 16 ^ width * (n / 16 ^ width % 16) := Nat.mod_pow_succ
    simp only [Bytes.hexDigits, List.foldlM_cons, hdigit, Option.map_some, Option.bind_eq_bind, Option.bind_some, ih,
      hmod, Option.some.injEq]
    ring

theorem hex?_hexDigits {width n : Nat} (h : n < 16 ^ width) : hex? width (Bytes.hexDigits width n) = some n := by
  simp [hex?, Json.length_hexDigits, foldlM_hexDigits, Nat.mod_eq_of_lt h]

theorem decimal?_digits (n : Nat) : decimal? (Decimal.digits n) = some n := by
  obtain ⟨hne, hdigits⟩ := Json.digits_digits n
  simpa [decimal?, hne] using hdigits

theorem dropPrefix?_append (front rest : List Char) : (front ++ rest).dropPrefix? front = some rest :=
  List.dropPrefix?_eq_some_iff.mpr ⟨front, rfl, beq_self_eq_true front⟩

theorem dropSuffix?_append (front rest : List Char) : (front ++ rest).dropSuffix? rest = some front :=
  List.dropSuffix?_eq_some_iff.mpr ⟨rest, rfl, beq_self_eq_true rest⟩

theorem labelled?_append (name : String) (n : Nat) : labelled? name (name.toList ++ Decimal.digits n) = some n := by
  simp [labelled?, dropPrefix?_append, decimal?_digits]

/-! ## Lines between brackets -/

/-- The words of a field's line, behind its opening bracket. -/
def fieldEntries (digits : List Char) (type : String) (offset padded raw data : Nat) : List (List Char) :=
  ["field".toList, ['('] ++ (digits ++ [')']), "type=".toList ++ type.toList,
    "offset=".toList ++ Decimal.digits offset, "padded=".toList ++ Decimal.digits padded,
    "raw=".toList ++ Decimal.digits raw, "data=".toList ++ Decimal.digits data, [']']]

theorem ofEntries?_fieldEntries {digits : List Char} {word : Nat} (hword : hex? 8 digits = some word) (depth : Nat)
    (type : String) (offset padded raw data : Nat) :
    Row.ofEntries? depth (fieldEntries digits type offset padded raw data) =
      some (.field depth word type offset padded raw data) := by
  rw [fieldEntries, Row.ofEntries?, if_pos ⟨rfl, rfl⟩]
  simp only [dropPrefix?_append, dropSuffix?_append, labelled?_append, hword, Option.pure_def, Option.bind_eq_bind,
    Option.bind_some, String.ofList_toList]

/-- The words that stand for a header. -/
def headerEntries (offset : Nat) (h : Header) : List (List Char) :=
  fieldEntries (Bytes.hexDigits 8 h.word) h.type.name offset h.paddedLength h.rawLength h.dataLength

theorem ofEntries?_headerEntries (depth offset : Nat) (h : Header) :
    Row.ofEntries? depth (headerEntries offset h) = some (.ofHeader depth offset h) := by
  have hlt : h.word < 16 ^ 8 := h.word_lt
  exact ofEntries?_fieldEntries (hex?_hexDigits hlt) depth _ offset _ _ _

theorem isWord_headerEntries (offset : Nat) (h : Header) : ∀ entry ∈ headerEntries offset h, IsWord entry := by
  have hname {label : String} (hlabel : IsWord label.toList) (n : Nat) :
      IsWord (label.toList ++ Decimal.digits n) := hlabel.append (isWord_digits n)
  have hlabels : ∀ label ∈ ["field", "type=", "offset=", "padded=", "raw=", "data="], IsWord label.toList := by
    simp [IsWord]
  have hdigits : IsWord (['('] ++ (Bytes.hexDigits 8 h.word ++ [')'])) :=
    IsWord.append (by simp [IsWord]) (IsWord.append (isWord_hexDigits 8 _) (by simp [IsWord]))
  simp only [List.forall_mem_cons] at hlabels
  obtain ⟨hfield, htype, hoffset, hpadded, hraw, hdata, -⟩ := hlabels
  simp only [headerEntries, fieldEntries, List.forall_mem_cons]
  exact ⟨hfield, hdigits, htype.append (isWord_name _), hname hoffset _, hname hpadded _, hname hraw _, hname hdata _,
    by simp [IsWord], by simp⟩

theorem toString_eq (text : String) : toString text = text := rfl

theorem toList_text_field (depth offset : Nat) (f : Field) :
    (Line.field depth offset f).text.toList =
      List.replicate depth '\t' ++ [' '].intercalate (['['] :: headerEntries offset f.header) ++ ['\n'] := by
  simp [Line.text, headerEntries, fieldEntries, List.intercalate, toString_eq, Decimal.digits, Field.type,
    Field.paddedLength, Field.rawLength]

theorem toList_text_hidden (depth : Nat) :
    (Line.hidden depth).text.toList =
      List.replicate depth '\t' ++ [' '].intercalate (['['] :: hiddenEntries) ++ ['\n'] := by
  simp [Line.text, hiddenEntries, List.intercalate, toString_eq]

/-- A text behind tabs of its own. -/
theorem takeWhile_tabs (depth : Nat) {c : Char} (hc : c ≠ '\t') (text : List Char) :
    (List.replicate depth '\t' ++ c :: text).takeWhile (· == '\t') = List.replicate depth '\t' ∧
      (List.replicate depth '\t' ++ c :: text).dropWhile (· == '\t') = c :: text := by
  have htabs : ∀ tab ∈ List.replicate depth '\t', (tab == '\t') = true := by simp
  simp [List.takeWhile_append_of_pos htabs, List.dropWhile_append_of_pos htabs, hc]

/-- **A line that starts with a bracket is read word by word.** -/
theorem read?_bracketed (depth : Nat) {entries : List (List Char)} (hentries : ∀ entry ∈ entries, IsWord entry) :
    Row.read? (List.replicate depth '\t' ++ [' '].intercalate (['['] :: entries)) =
      Row.ofEntries? depth entries := by
  have hwords : ∀ word ∈ ['['] :: entries, ' ' ∉ word :=
    List.forall_mem_cons.mpr ⟨by simp, fun entry hentry => (hentries entry hentry).notMem (Char.le_refl _)⟩
  have hsplit := List.splitOn_intercalate ' ' hwords (List.cons_ne_nil _ _)
  obtain ⟨rest, hrest⟩ : ∃ rest, [' '].intercalate (['['] :: entries) = '[' :: rest := by
    cases entries <;> simp [List.intercalate]
  rw [hrest] at hsplit ⊢
  obtain ⟨htabs, htext⟩ := takeWhile_tabs depth (by decide : '[' ≠ '\t') rest
  simp [Row.read?, htabs, htext, hsplit]

theorem newline_notMem_intercalate {words : List (List Char)} (hwords : ∀ word ∈ words, IsWord word) :
    '\n' ∉ [' '].intercalate words := by
  induction words with
  | nil => simp [List.intercalate]
  | cons word words ih =>
    obtain ⟨hword, hwords⟩ := List.forall_mem_cons.mp hwords
    have hnewline : '\n' ∉ word := hword.notMem (by decide)
    cases words with
    | nil => simpa [List.intercalate] using hnewline
    | cons word' words =>
      simp only [List.intercalate_cons_cons, List.mem_append, not_or]
      exact ⟨⟨hnewline, by simp⟩, ih hwords⟩

/-! ## Columns -/

theorem splitOn_columns (bytes : Bytes) (rest : List Char) :
    (bytes.flatMap (fun byte => Bytes.hexDigits 2 byte.toNat ++ [' ']) ++ rest).splitOn ' ' =
      bytes.map (fun byte => Bytes.hexDigits 2 byte.toNat) ++ rest.splitOn ' ' := by
  induction bytes with
  | nil => rfl
  | cons byte bytes ih =>
    have hword : ' ' ∉ Bytes.hexDigits 2 byte.toNat := (isWord_hexDigits 2 _).notMem (Char.le_refl _)
    simp [List.splitOn_append_cons_self_of_not_mem hword, ih]

theorem mapM_hexDigits (bytes : Bytes) :
    (bytes.map fun byte => Bytes.hexDigits 2 byte.toNat).mapM (hex? 2) = some (bytes.map UInt8.toNat) := by
  induction bytes with
  | nil => rfl
  | cons byte bytes ih =>
    have hlt : byte.toNat < 16 ^ 2 := byte.toNat_lt
    simp [hex?_hexDigits hlt, ih]

/-- Behind the columns stands a blank, whether the line is full or not. -/
theorem exists_hexColumn_eq (bytes : Bytes) (rest : List Char) :
    ∃ blank, hexColumn bytes ++ ' ' :: rest =
      bytes.flatMap (fun byte => Bytes.hexDigits 2 byte.toNat ++ [' ']) ++ ' ' :: blank := by
  simp only [hexColumn]
  generalize bytesPerLine * 3 - List.length _ = n
  cases n with
  | zero => exact ⟨rest, by simp⟩
  | succ n => exact ⟨List.replicate n ' ' ++ ' ' :: rest, by simp [List.replicate_succ]⟩

theorem takeWhile_columns (bytes : Bytes) (rest : List (List Char)) :
    (bytes.map (fun byte => Bytes.hexDigits 2 byte.toNat) ++ [] :: rest).takeWhile (!·.isEmpty) =
      bytes.map fun byte => Bytes.hexDigits 2 byte.toNat := by
  rw [List.takeWhile_append_of_pos]
  · simp
  · simp [Bytes.hexDigits]

/-- **A line of columns is read up to the first blank one.** -/
theorem read?_columns (depth : Nat) (bytes : Bytes) (rest : List Char) :
    Row.read? (List.replicate depth '\t' ++ (hexColumn bytes ++ ' ' :: rest)) = some (.payload depth bytes) := by
  obtain ⟨blank, hblank⟩ := exists_hexColumn_eq bytes rest
  have hempty : (' ' :: blank).splitOn ' ' = [] :: blank.splitOn ' ' :=
    List.splitOn_append_cons_self_of_not_mem List.not_mem_nil blank
  have hsplit : (hexColumn bytes ++ ' ' :: rest).splitOn ' ' =
      bytes.map (fun byte => Bytes.hexDigits 2 byte.toNat) ++ [] :: blank.splitOn ' ' := by
    rw [hblank, splitOn_columns, hempty]
  -- the first character is a digit or a blank, so no more tabs stand in front of it
  obtain ⟨c, text, htext, hc⟩ : ∃ c text, hexColumn bytes ++ ' ' :: rest = c :: text ∧ c ≠ '\t' := by
    cases bytes with
    | nil => exact ⟨' ', blank, by simpa using hblank, by decide⟩
    | cons byte bytes =>
      refine ⟨_, _, hblank, fun htab => ?_⟩
      have hword : '\t' ∉ Bytes.hexDigits 2 byte.toNat := (isWord_hexDigits 2 _).notMem (by decide)
      exact hword (List.mem_cons.mpr (.inl htab.symm))
  obtain ⟨htabs, hbehind⟩ := takeWhile_tabs depth hc text
  rw [htext] at hsplit ⊢
  simp only [Row.read?, htabs, hbehind, hsplit, List.length_replicate]
  split
  · next entries hbracket =>
    -- a column is two digits wide
    cases bytes <;> simp [Bytes.hexDigits] at hbracket
  · simp only [takeWhile_columns, mapM_hexDigits]
    simp [Function.comp_def]

/-! ## Lines read back -/

theorem toList_text_payload (depth : Nat) (bytes : Bytes) :
    (Line.payload depth bytes).text.toList =
      List.replicate depth '\t' ++ (hexColumn bytes ++ ' ' :: ('|' :: bytes.map printable ++ ['|'])) ++ ['\n'] := by
  simp [Line.text, toString_eq]

theorem printable_ne (byte : UInt8) : printable byte ≠ '\n' := by
  have hcode : ∀ code < 0x7f, 0x20 ≤ code → Char.ofNat code ≠ '\n' := by decide
  unfold printable
  split
  · next h => exact hcode byte.toNat h.2 h.1
  · decide

/-- **Every line reads back as its row.** -/
theorem Line.exists_read? (l : Line) :
    ∃ line, l.text.toList = line ++ ['\n'] ∧ '\n' ∉ line ∧ Row.read? line = some l.row := by
  have htabs (depth : Nat) : '\n' ∉ List.replicate depth '\t' := by simp
  have hbracket : IsWord ['['] := by simp [IsWord]
  -- one case for each kind of line: none of its words holds the end of a line, and the words give the row
  cases l with
  | field depth offset f =>
    have hwords := isWord_headerEntries offset f.header
    refine ⟨_, toList_text_field depth offset f, ?_, ?_⟩
    · simpa using newline_notMem_intercalate (List.forall_mem_cons.mpr ⟨hbracket, hwords⟩)
    · rw [read?_bracketed depth hwords, ofEntries?_headerEntries]
      rfl
  | hidden depth =>
    have hnumber := isWord_digits maxDepth
    have hwords : ∀ entry ∈ hiddenEntries, IsWord entry := by
      simpa [hiddenEntries, IsWord, Decimal.digits] using hnumber
    refine ⟨_, toList_text_hidden depth, ?_, ?_⟩
    · simpa using newline_notMem_intercalate (List.forall_mem_cons.mpr ⟨hbracket, hwords⟩)
    · rw [read?_bracketed depth hwords]
      simp [Row.ofEntries?, hiddenEntries, Line.row]
  | payload depth bytes =>
    refine ⟨_, toList_text_payload depth bytes, ?_, read?_columns depth bytes _⟩
    have hcolumns : ∀ byte ∈ bytes, '\n' ∉ Bytes.hexDigits 2 byte.toNat := fun byte _ =>
      (isWord_hexDigits 2 _).notMem (by decide)
    have hprintable : ∀ byte ∈ bytes, printable byte ≠ '\n' := fun byte _ => printable_ne byte
    simpa [hexColumn] using ⟨hcolumns, hprintable⟩

example : Row.read? "\t[ field (02000008) type=STRING offset=4 padded=8 raw=8 data=4 ]".toList =
    some (.field 1 0x02000008 "STRING" 4 8 8 4) := by
  decide +kernel

/-- **A text of lines reads back** line by line. -/
theorem read?_lines (ls : List Line) : read? (String.join (ls.map Line.text)) = some (ls.map Line.row) := by
  simp only [read?, String.toList_join]
  induction ls with
  | nil => simp
  | cons l ls ih =>
    obtain ⟨line, htext, hline, hread⟩ := l.exists_read?
    have hsplit := List.splitOn_append_cons_self_of_not_mem hline ((ls.map Line.text).flatMap String.toList)
    -- behind the end of a line stands at least the empty piece that is dropped in the end
    simp only [List.map_cons, List.flatMap_cons, htext, List.append_assoc, List.singleton_append, hsplit,
      List.dropLast_cons_of_ne_nil (List.splitOn_ne_nil _ _), List.mapM_cons, hread, ih, Option.pure_def,
      Option.bind_eq_bind, Option.bind_some]

end FieldTree.Listing

namespace FieldTree.Field

open Listing

/-- **A listing shows the whole tree** down to the depth where it stops, and nothing else. Read line by line, its text
    gives each field in front of what is in it, with its header, its lengths and its offset, and all bytes of each
    payload, sixteen to a line. So two fields are listed alike if and only if they have the same headers and payloads
    down to that depth. -/
theorem dump_shows_outline (f : Field) :
    read? f.dump = some ((f.outline maxDepth).rows 0 0) ∧
      (∀ bytes, Chunked bytes (groups bytes)) ∧
      ∀ g : Field, f.dump = g.dump ↔ f.outline maxDepth = g.outline maxDepth := by
  have hread (f : Field) : read? f.dump = some ((f.outline maxDepth).rows 0 0) := by
    rw [dump, read?_lines, listing, map_row_lines]
  refine ⟨hread f, chunked_groups, fun g => ⟨fun h => ?_, fun h => ?_⟩⟩
  · have hrows : (f.outline maxDepth).rows 0 0 = (g.outline maxDepth).rows 0 0 := by
      rw [← Option.some_inj, ← hread f, h, hread g]
    exact Outline.rows_injective hrows
  · have hrows : f.listing.map Line.row = g.listing.map Line.row := by
      rw [listing, map_row_lines, h, listing, map_row_lines]
    rw [dump, map_text_eq_of_map_row_eq hrows, dump]

end FieldTree.Field
