import FieldTree.Signature.Basic
import Mathlib.Tactic.Common

/-!
# The Grammar of Signatures

The texts of signatures are those of a grammar with one rule for each kind of character. This module shows
that reading accepts exactly these texts, that it uses up all of an accepted text, and that text and
signature determine each other.

## Architecture

- `Signature.Generated`: the grammar, with a bound on the nesting of brackets.
- `Signature.generated_iff`: what the grammar generates are the texts of signatures.
- `Signature.bytes_of_parseFrom`: **soundness**, what was read is what is printed.
- `Signature.parseFrom_bytes`: **completeness**, what is printed is read, whatever follows it.
- `Signature.parse_exact`: **the main statement.**
-/

namespace FieldTree.Signature

/-! ## The grammar -/

/-- The texts that the grammar generates with brackets nested at most `depth` deep. -/
inductive Generated : (depth : Nat) → List Char → Prop where
  /-- the text without characters -/
  | empty {depth : Nat} : Generated depth []
  /-- a letter and a text -/
  | letter {depth : Nat} {c : Char} {rest : List Char} :
      c ∈ ['s', 'i', 'f', 't', 'a', 'v'] → Generated depth rest → Generated depth (c :: rest)
  /-- a text in braces and a text -/
  | braces {depth : Nat} {inner rest : List Char} :
      Generated depth inner → Generated (depth + 1) rest →
      Generated (depth + 1) ('\x7b' :: (inner ++ '\x7d' :: rest))
  /-- a text in square brackets and a text -/
  | squares {depth : Nat} {inner rest : List Char} :
      Generated depth inner → Generated (depth + 1) rest →
      Generated (depth + 1) ('[' :: (inner ++ ']' :: rest))

/-- How deep the brackets of a signature nest. -/
def depth : Signature → Nat
  | empty => 0
  | plain _ rest => rest.depth
  | group _ inner rest => max (inner.depth + 1) rest.depth

/-- One pattern of a signature. -/
inductive Node where
  | plain (kind : Kind)
  | group (bracket : Bracket) (inner : Signature)
  deriving DecidableEq, Repr

/-- The patterns that stand outside of all brackets. -/
def nodes : Signature → List Node
  | empty => []
  | plain kind rest => .plain kind :: rest.nodes
  | group bracket inner rest => .group bracket inner :: rest.nodes

theorem length_nodes (s : Signature) : s.nodes.length = s.length := by
  induction s with
  | empty => rfl
  | plain kind rest ih => rw [nodes, length, List.length_cons, ih]
  | group bracket inner rest _ ih => rw [nodes, length, List.length_cons, ih]

theorem exists_letter_of_mem {c : Char} (h : c ∈ ['s', 'i', 'f', 't', 'a', 'v']) :
    ∃ kind : Kind, kind.letter = c := by
  simp only [List.mem_cons, List.not_mem_nil, or_false] at h
  rcases h with rfl | rfl | rfl | rfl | rfl | rfl
  · exact ⟨.string, rfl⟩
  · exact ⟨.integer, rfl⟩
  · exact ⟨.float, rfl⟩
  · exact ⟨.table, rfl⟩
  · exact ⟨.array, rfl⟩
  · exact ⟨.any, rfl⟩

theorem generated_text (s : Signature) {depth : Nat} (h : s.depth ≤ depth) : Generated depth s.text := by
  induction s generalizing depth with
  | empty => exact .empty
  | plain kind rest ih =>
    refine .letter ?_ (ih h)
    cases kind <;> decide
  | group bracket inner rest ihinner ihrest =>
    rw [Signature.depth] at h
    -- an open bracket takes one level
    have hpos : 1 ≤ depth := by omega
    obtain ⟨depth, rfl⟩ := Nat.exists_eq_add_of_le' hpos
    have hinner : Generated depth inner.text := ihinner (by omega)
    have hrest : Generated (depth + 1) rest.text := ihrest (by omega)
    cases bracket with
    | square => exact .squares hinner hrest
    | brace => exact .braces hinner hrest

/-- **The grammar generates exactly the texts of signatures.** -/
theorem generated_iff {depth : Nat} {text : List Char} :
    Generated depth text ↔ ∃ s : Signature, s.text = text ∧ s.depth ≤ depth := by
  constructor
  · intro h
    -- a derivation gives the signature that it spells, with its depth
    induction h with
    | empty => exact ⟨empty, rfl, Nat.zero_le _⟩
    | letter hc _ ih =>
      obtain ⟨rest, rfl, hdepth⟩ := ih
      obtain ⟨kind, rfl⟩ := exists_letter_of_mem hc
      exact ⟨plain kind rest, rfl, hdepth⟩
    | braces _ _ ihinner ihrest =>
      obtain ⟨inner, rfl, hinner⟩ := ihinner
      obtain ⟨rest, rfl, hrest⟩ := ihrest
      exact ⟨group .brace inner rest, rfl, Nat.max_le.mpr ⟨Nat.succ_le_succ hinner, hrest⟩⟩
    | squares _ _ ihinner ihrest =>
      obtain ⟨inner, rfl, hinner⟩ := ihinner
      obtain ⟨rest, rfl, hrest⟩ := ihrest
      exact ⟨group .square inner rest, rfl, Nat.max_le.mpr ⟨Nat.succ_le_succ hinner, hrest⟩⟩
  · rintro ⟨s, rfl, hdepth⟩
    exact s.generated_text hdepth

/-! ## Bytes -/

/-- The byte of a character that has only one. -/
def byteOf (c : Char) : UInt8 := .ofNat c.toNat

/-- The text of a signature in bytes. -/
def bytes (s : Signature) : Bytes := s.text.map byteOf

@[simp] theorem bytes_plain (kind : Kind) (rest : Signature) :
    (plain kind rest).bytes = byteOf kind.letter :: rest.bytes := rfl

@[simp] theorem bytes_group (bracket : Bracket) (inner rest : Signature) :
    (group bracket inner rest).bytes =
      byteOf bracket.opening :: (inner.bytes ++ byteOf bracket.closing :: rest.bytes) := by
  simp [bytes, text]

theorem utf8_letter (kind : Kind) : String.utf8EncodeChar kind.letter = [byteOf kind.letter] := by
  cases kind <;> rfl

theorem utf8_opening (bracket : Bracket) :
    String.utf8EncodeChar bracket.opening = [byteOf bracket.opening] := by
  cases bracket <;> rfl

theorem utf8_closing (bracket : Bracket) :
    String.utf8EncodeChar bracket.closing = [byteOf bracket.closing] := by
  cases bracket <;> rfl

/-- Every character of a signature is one byte. -/
theorem flatMap_text (s : Signature) : s.text.flatMap String.utf8EncodeChar = s.bytes := by
  induction s with
  | empty => rfl
  | plain kind rest ih =>
    rw [text, List.flatMap_cons, utf8_letter, ih]
    rfl
  | group bracket inner rest ihinner ihrest =>
    rw [text, List.cons_append, List.flatMap_cons, List.flatMap_append, List.flatMap_cons, utf8_opening,
      utf8_closing, ihinner, ihrest, bytes_group]
    rfl

theorem ofText_text (s : Signature) : Bytes.ofText (String.ofList s.text) = s.bytes := by
  rw [Bytes.ofText_eq, String.toList_ofList, flatMap_text]

theorem byteOf_of_find? {α : Type} {letter : α → Char} {xs : List α} {c : UInt8} {x : α}
    (h : xs.find? (fun a => (letter a).toNat == c.toNat) = some x) : c = byteOf (letter x) := by
  have hfound := List.find?_some h
  have hnat : (letter x).toNat = c.toNat := beq_iff_eq.mp hfound
  rw [byteOf, hnat, UInt8.ofNat_toNat]

theorem ofByte?_eq_some_iff {c : UInt8} {kind : Kind} :
    Kind.ofByte? c = some kind ↔ c = byteOf kind.letter := by
  constructor
  · exact byteOf_of_find?
  · rintro rfl
    cases kind <;> rfl

theorem openedBy?_eq_some_iff {c : UInt8} {bracket : Bracket} :
    openedBy? c = some bracket ↔ c = byteOf bracket.opening := by
  constructor
  · exact byteOf_of_find?
  · rintro rfl
    cases bracket <;> rfl

theorem closedBy?_eq_some_iff {c : UInt8} {bracket : Bracket} :
    closedBy? c = some bracket ↔ c = byteOf bracket.closing := by
  constructor
  · exact byteOf_of_find?
  · rintro rfl
    cases bracket <;> rfl

/-! ## What is read is what is printed -/

/-- The byte that ends a sequence: the closing one of the innermost open bracket, if there is one. -/
def closer : Option (Bracket × Nat) → Bytes
  | none => []
  | some (bracket, _) => [byteOf bracket.closing]

/-- What reading `bytes` from `position` on ends with when `depth` brackets are open, `outer` being the
    innermost one: the bytes are the text of the signature, the byte that ends it and the rest, the stop
    stands in front of the rest, and the signature fits into the levels that are left. -/
structure Spells (outer : Option (Bracket × Nat)) (depth position : Nat) (bytes : Bytes)
    (r : Sequence bytes) : Prop where
  bytes_eq : bytes = r.signature.bytes ++ (closer outer ++ r.rest)
  stop_add : r.stop + r.rest.length = position + bytes.length
  depth_le : r.signature.depth + depth ≤ maxDepth
  rest_eq_nil : outer = none → r.rest = []

/-- **Soundness**: what was read is what is printed. -/
theorem spells_of_parseFrom {outer : Option (Bracket × Nat)} {depth position : Nat} {bytes : Bytes}
    {r : Sequence bytes} (hdepth : depth ≤ maxDepth)
    (h : parseFrom outer depth position bytes = .ok r) : Spells outer depth position bytes r := by
  -- four branches succeed: the end of the text, the closing bracket, a letter, a bracketed signature
  fun_induction parseFrom outer depth position bytes with
  | case1 depth position =>
    cases h
    exact ⟨rfl, rfl, by simpa [Signature.depth] using hdepth, fun _ => rfl⟩
  | case3 outer depth position c rest hclosed =>
    cases h
    obtain ⟨bracket, hc⟩ := Option.isSome_iff_exists.mp hclosed.1
    -- the byte closes the bracket that is open
    obtain ⟨⟨_, start⟩, rfl, rfl⟩ := Option.map_eq_some_iff.mp (hclosed.2.symm.trans hc)
    rw [closedBy?_eq_some_iff] at hc
    subst hc
    exact ⟨rfl, by simp only [List.length_cons]; omega, by simpa [Signature.depth] using hdepth, nofun⟩
  | case5 outer depth position c rest _ kind hkind s hs ih =>
    cases h
    have hspells := ih hdepth hs
    rw [ofByte?_eq_some_iff] at hkind
    refine ⟨?_, ?_, hspells.depth_le, hspells.rest_eq_nil⟩
    · rw [bytes_plain, List.cons_append, ← hkind, ← hspells.bytes_eq]
    · have := hspells.stop_add
      simp only [List.length_cons]
      omega
  | case9 outer depth position c rest _ _ bracket hbracket hopen inner hinner s hs ihinner ihrest =>
    cases h
    have hin := ihinner (by omega) hinner
    have hout := ihrest hdepth hs
    rw [openedBy?_eq_some_iff] at hbracket
    refine ⟨?_, ?_, ?_, hout.rest_eq_nil⟩
    -- what the group has read ends with its closing bracket
    · have hrest : rest = inner.signature.bytes ++ ([byteOf bracket.closing] ++ inner.rest) := hin.bytes_eq
      rw [bytes_group, hbracket]
      simp only [List.cons_append, List.append_assoc]
      rw [← hout.bytes_eq]
      exact congrArg _ hrest
    · have := hin.stop_add
      have := hout.stop_add
      simp only [List.length_cons]
      omega
    · have := hin.depth_le
      have := hout.depth_le
      simp only [Signature.depth]
      omega
  | case2 | case4 | case6 | case7 | case8 | case10 | case11 => cases h

/-! ## What is printed is read -/

section Steps

variable {outer : Option (Bracket × Nat)} {depth position : Nat}

theorem parseFrom_closing (bracket : Bracket) (start : Nat) (rest : Bytes) :
    parseFrom (some (bracket, start)) depth position (byteOf bracket.closing :: rest) =
      .ok ⟨empty, position + 1, rest, Nat.le_succ _⟩ := by
  have hclosed : closedBy? (byteOf bracket.closing) = some bracket := closedBy?_eq_some_iff.mpr rfl
  rw [parseFrom, if_pos (by simp [hclosed])]

theorem parseFrom_letter (kind : Kind) {rest : Bytes} {s : Sequence rest}
    (h : parseFrom outer depth (position + 1) rest = .ok s) :
    parseFrom outer depth position (byteOf kind.letter :: rest) =
      .ok ⟨plain kind s.signature, s.stop, s.rest, Nat.le_succ_of_le s.le⟩ := by
  have hclosed : closedBy? (byteOf kind.letter) = none := by cases kind <;> rfl
  have hkind : Kind.ofByte? (byteOf kind.letter) = some kind := ofByte?_eq_some_iff.mpr rfl
  rw [parseFrom, if_neg (by simp [hclosed]), hkind, h]

theorem parseFrom_opening (bracket : Bracket) {rest : Bytes} {inner : Sequence rest}
    {s : Sequence inner.rest} (hdepth : depth < maxDepth)
    (hinner : parseFrom (some (bracket, position)) (depth + 1) (position + 1) rest = .ok inner)
    (hs : parseFrom outer depth inner.stop inner.rest = .ok s) :
    parseFrom outer depth position (byteOf bracket.opening :: rest) =
      .ok ⟨group bracket inner.signature s.signature, s.stop, s.rest,
        Nat.le_succ_of_le (Nat.le_trans s.le inner.le)⟩ := by
  have hclosed : closedBy? (byteOf bracket.opening) = none := by cases bracket <;> rfl
  have hkind : Kind.ofByte? (byteOf bracket.opening) = none := by cases bracket <;> rfl
  have hopened : openedBy? (byteOf bracket.opening) = some bracket := openedBy?_eq_some_iff.mpr rfl
  rw [parseFrom, if_neg (by simp [hclosed]), hkind, hopened]
  simp only [Nat.not_le.mpr hdepth, if_false, hinner, hs]

end Steps

/-- **Completeness**: what is printed is read, whatever follows the byte that ends it. -/
theorem parseFrom_of_spells {outer : Option (Bracket × Nat)} {depth position : Nat} {bytes : Bytes}
    {r : Sequence bytes} (h : Spells outer depth position bytes r) :
    parseFrom outer depth position bytes = .ok r := by
  obtain ⟨s, stop, rest, hle⟩ := r
  obtain ⟨hbytes, hstop, hdepth, hrest⟩ := h
  simp only at hbytes hstop hdepth hrest
  -- induction on the signature: what ends it, a bracket or the end of the text, is a parameter
  induction s generalizing outer depth position bytes stop rest with
  | empty =>
    -- nothing is left but what ends the signature
    cases outer with
    | none =>
      obtain rfl := hrest rfl
      obtain rfl : bytes = [] := hbytes
      obtain rfl : stop = position := hstop
      rw [parseFrom]
    | some bracket =>
      obtain ⟨bracket, start⟩ := bracket
      obtain rfl : bytes = byteOf bracket.closing :: rest := hbytes
      obtain rfl : stop = position + 1 := by
        rw [List.length_cons] at hstop
        omega
      exact parseFrom_closing bracket start rest
  | plain kind next ih =>
    obtain rfl : bytes = byteOf kind.letter :: (next.bytes ++ (closer outer ++ rest)) := hbytes
    rw [List.length_cons] at hstop
    have hle' : rest.length ≤ (next.bytes ++ (closer outer ++ rest)).length := by
      simp only [List.length_append]
      omega
    exact parseFrom_letter kind (ih stop rest hle' rfl (by omega) hdepth hrest)
  | group bracket inner next ihinner ihnext =>
    -- behind the closing bracket stand the next patterns
    let behind := next.bytes ++ (closer outer ++ rest)
    obtain rfl : bytes = byteOf bracket.opening :: (inner.bytes ++ (byteOf bracket.closing :: behind)) := by
      rw [hbytes, bytes_group, List.cons_append, List.append_assoc, List.cons_append]
    rw [Signature.depth] at hdepth
    rw [List.length_cons] at hstop
    have hbehind : behind.length ≤ (inner.bytes ++ (byteOf bracket.closing :: behind)).length := by
      simp only [List.length_append, List.length_cons]
      omega
    have hle' : rest.length ≤ behind.length := by
      simp only [behind, List.length_append]
      omega
    let closed := position + 1 + (inner.bytes.length + 1)
    -- inside, the bracket of the group is the one that is open; behind it, the outer one is again
    have hinner : parseFrom (some (bracket, position)) (depth + 1) (position + 1)
        (inner.bytes ++ (byteOf bracket.closing :: behind)) = .ok ⟨inner, closed, behind, hbehind⟩ :=
      ihinner closed behind hbehind rfl
        (by simp only [closed, List.length_append, List.length_cons]; omega) (by omega)
        (fun hnone => (Option.some_ne_none _ hnone).elim)
    have hnext : parseFrom outer depth closed behind = .ok ⟨next, stop, rest, hle'⟩ :=
      ihnext stop rest hle' rfl
        (by simp only [closed, List.length_append, List.length_cons] at hstop ⊢; omega) (by omega) hrest
    exact parseFrom_opening bracket (by omega) hinner hnext

/-! ## Whole texts -/

/-- Reading a whole text stops behind its last byte. -/
theorem stop_of_parseFrom {bytes : Bytes} {r : Sequence bytes}
    (h : parseFrom none 0 0 bytes = .ok r) : r.stop = bytes.length := by
  have hspells := spells_of_parseFrom (Nat.zero_le _) h
  have hstop := hspells.stop_add
  rw [hspells.rest_eq_nil rfl, List.length_nil] at hstop
  omega

/-- **A text spells a signature exactly when it is the text of the signature**, and its brackets do not nest
    too deep. -/
theorem parse_eq_ok_iff {text : String} {s : Signature} :
    parse text = .ok s ↔ String.ofList s.text = text ∧ s.depth ≤ maxDepth := by
  constructor
  · intro h
    rw [parse] at h
    split at h
    · cases h
    · next r hr =>
      cases h
      have hspells := spells_of_parseFrom (Nat.zero_le _) hr
      have hbytes := hspells.bytes_eq
      rw [hspells.rest_eq_nil rfl, closer, List.append_nil, List.append_nil] at hbytes
      exact ⟨Bytes.ofText_inj ((ofText_text _).trans hbytes.symm), hspells.depth_le⟩
  · rintro ⟨rfl, hdepth⟩
    have hspells : Spells none 0 0 (.ofText (String.ofList s.text))
        ⟨s, (Bytes.ofText (String.ofList s.text)).length, [], Nat.zero_le _⟩ :=
      ⟨by rw [ofText_text, closer, List.append_nil, List.append_nil], by simp, hdepth, fun _ => rfl⟩
    rw [parse, parseFrom_of_spells hspells]

/-- **Reading accepts exactly the texts of the grammar and loses nothing.** It succeeds on the texts that the
    grammar generates, and it stops behind their last byte. The signature read is printed as the text, its
    length is the number of its patterns, and another text spells it only if it is the same. What a signature
    is printed as spells it, unless its brackets nest too deep. -/
theorem parse_exact (text : String) :
    ((∃ s, parse text = .ok s) ↔ Generated maxDepth text.toList) ∧
    (∀ r, parseFrom none 0 0 (.ofText text) = .ok r → r.stop = (Bytes.ofText text).length) ∧
    (∀ s, parse text = .ok s →
      String.ofList s.text = text ∧ s.length = s.nodes.length ∧
      ∀ text' s', parse text' = .ok s' → (s = s' ↔ text = text')) ∧
    ∀ s : Signature, parse (String.ofList s.text) = .ok s ↔ s.depth ≤ maxDepth := by
  refine ⟨?_, fun r => stop_of_parseFrom, fun s hs => ?_, fun s => ?_⟩
  · rw [generated_iff]
    refine exists_congr fun s => ?_
    rw [parse_eq_ok_iff, ← String.toList_inj, String.toList_ofList]
  · obtain ⟨htext, -⟩ := parse_eq_ok_iff.mp hs
    refine ⟨htext, s.length_nodes.symm, fun text' s' hs' => ⟨?_, ?_⟩⟩
    · rintro rfl
      rw [← htext, (parse_eq_ok_iff.mp hs').1]
    · rintro rfl
      rw [hs] at hs'
      exact Except.ok.inj hs'
  · rw [parse_eq_ok_iff, and_iff_right rfl]

/-- A string, a table of strings and integers, and an array. -/
def sample : Signature :=
  plain .string (group .brace (plain .string (plain .integer empty)) (group .square empty empty))

theorem parse_exact_sampleText :
    parse "s\x7bsi\x7d[]" = .ok sample ∧ Generated maxDepth "s\x7bsi\x7d[]".toList ∧
    ∀ text, parse text = .ok sample → "s\x7bsi\x7d[]" = text := by
  have hexact := parse_exact "s\x7bsi\x7d[]"
  have hparse : parse "s\x7bsi\x7d[]" = .ok sample := (hexact.2.2.2 sample).mpr (by decide)
  exact ⟨hparse, hexact.1.mp ⟨sample, hparse⟩,
    fun text htext => ((hexact.2.2.1 sample hparse).2.2 text sample htext).mp rfl⟩

end FieldTree.Signature
