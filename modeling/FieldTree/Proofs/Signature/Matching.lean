import FieldTree.Proofs.Signature.Grammar
import FieldTree.Signature.Matching
import Mathlib.Data.List.Forall2

/-!
# The Meaning of Signatures

Matching goes through the children of a container by index, and takes the patterns of a bracketed signature
again from the front whenever they are used up. This module says without indices what a signature means, by
cutting the children into blocks, and shows that matching decides this meaning.

## Architecture

- `Signature.Kind.Covers`: the types that a letter stands for.
- `Field.Satisfies`: whether a field is as one pattern says, by rules.
- `tiles_iff`: **tests taken cyclically are blocks.**
- `Field.conforms_iff`: matching decides the rules.
- `Field.validate_store`: **the main statement**, for validation and for storing.
-/

namespace FieldTree

/-! ## Meaning -/

/-- The types of the fields that a plain pattern stands for. -/
def Signature.Kind.Covers : Kind → FieldType → Prop
  | string, t => t = .string
  | integer, t => t ∈ [FieldType.int8, .int16, .int32, .int64, .bool]
  | float, t => t ∈ [FieldType.float32, .float64]
  | table, t => t = .table
  | array, t => t = .array
  | any, _ => True

/-- The fields that are as a pattern says. For a bracketed pattern, the children of the field are one or more
    blocks, and in each block the fields are one by one as the patterns between the brackets say. -/
inductive Field.Satisfies : Field → Signature.Node → Prop where
  | plain {f : Field} {kind : Signature.Kind} : kind.Covers f.type → Satisfies f (.plain kind)
  | group {f : Field} {bracket : Bracket} {inner : Signature} (blocks : List (List Field)) :
      f.type = bracket.container → inner.nodes ≠ [] → blocks ≠ [] → f.children = blocks.flatten →
      (∀ block ∈ blocks, List.Forall₂ Satisfies block inner.nodes) → Satisfies f (.group bracket inner)

/-! ## Tests in turn -/

theorem forall₂_iff_getElem? {α β : Type} {R : α → β → Prop} {xs : List α} {ys : List β} :
    List.Forall₂ R xs ys ↔
      xs.length = ys.length ∧ ∀ (i : Nat) x y, xs[i]? = some x → ys[i]? = some y → R x y := by
  rw [List.forall₂_iff_get]
  refine and_congr_right fun _ => ⟨fun h i x y hx hy => ?_, fun h i hi hi' => ?_⟩
  · obtain ⟨hi, rfl⟩ := List.getElem?_eq_some_iff.mp hx
    obtain ⟨hi', rfl⟩ := List.getElem?_eq_some_iff.mp hy
    exact h i hi hi'
  · exact h i _ _ (List.getElem?_eq_getElem hi) (List.getElem?_eq_getElem hi')

section InTurn

variable {α : Type} {tests : List (α → Bool)}

/-- The elements pass the tests one by one. -/
def Passes (tests : List (α → Bool)) (xs : List α) : Prop :=
  List.Forall₂ (fun x test => test x = true) xs tests

/-- The elements pass the tests in turn, and the last turn is complete. -/
structure InTurn (tests : List (α → Bool)) (xs : List α) : Prop where
  complete : xs.length % tests.length = 0
  passes : ∀ (i : Nat) x, xs[i]? = some x → ∃ test, tests[i % tests.length]? = some test ∧ test x = true

/-- The first turn can be taken apart from the others. -/
theorem inTurn_append_iff {block rest : List α} (hlen : block.length = tests.length) :
    InTurn tests (block ++ rest) ↔ Passes tests block ∧ InTurn tests rest := by
  rw [Passes, forall₂_iff_getElem?]
  constructor
  · intro h
    refine ⟨⟨hlen, fun i x test hx htest => ?_⟩, ?_, fun i x hx => ?_⟩
    -- the index is below the number of tests, so each test has its first turn
    · have hi : i < tests.length := (List.getElem?_eq_some_iff.mp htest).1
      obtain ⟨test', htest', hpass⟩ := h.passes i x (by rwa [List.getElem?_append_left (by omega)])
      rw [Nat.mod_eq_of_lt hi, htest] at htest'
      obtain rfl := Option.some.inj htest'
      exact hpass
    · have hcomplete := h.complete
      rwa [List.length_append, hlen, Nat.add_mod_left] at hcomplete
    · have hx' : (block ++ rest)[block.length + i]? = some x := by
        rwa [List.getElem?_append_right (by omega), Nat.add_sub_cancel_left]
      have hpass := h.passes _ x hx'
      rwa [hlen, Nat.add_mod_left] at hpass
  · rintro ⟨⟨-, hblock⟩, hrest⟩
    refine ⟨?_, fun i x hx => ?_⟩
    · rw [List.length_append, hlen, Nat.add_mod_left]
      exact hrest.complete
    · -- an element is in the first turn or in a later one, by its index
      rcases Nat.lt_or_ge i block.length with hi | hi
      · rw [List.getElem?_append_left hi] at hx
        have htest := List.getElem?_eq_getElem (hlen ▸ hi : i < tests.length)
        rw [Nat.mod_eq_of_lt (hlen ▸ hi)]
        exact ⟨_, htest, hblock i x _ hx htest⟩
      -- the remainder does not see the turn in front
      · rw [List.getElem?_append_right hi] at hx
        obtain ⟨j, rfl⟩ := Nat.exists_eq_add_of_le hi
        rw [Nat.add_sub_cancel_left] at hx
        rw [hlen, Nat.add_mod_left]
        exact hrest.passes j x hx

/-- **Elements pass tests in turn when they are blocks of elements that pass them one by one.** -/
theorem inTurn_iff_blocks (htests : tests ≠ []) {xs : List α} :
    InTurn tests xs ↔
      ∃ blocks : List (List α), xs = blocks.flatten ∧ ∀ block ∈ blocks, Passes tests block := by
  have hpos : 0 < tests.length := List.length_pos_iff.mpr htests
  constructor
  · -- one turn after the other is cut off
    intro h
    induction hn : xs.length using Nat.strongRecOn generalizing xs with
    | _ n ih =>
      -- a list that is not empty has room for a whole turn, since the turns come out even
      rcases Nat.eq_zero_or_pos xs.length with hzero | hxs
      · exact ⟨[], List.length_eq_zero_iff.mp hzero, nofun⟩
      · have hle : tests.length ≤ xs.length :=
          Nat.le_of_dvd hxs (Nat.dvd_of_mod_eq_zero h.complete)
        rw [← List.take_append_drop tests.length xs,
          inTurn_append_iff (List.length_take_of_le hle)] at h
        have hless : (xs.drop tests.length).length < n := by
          rw [List.length_drop]
          omega
        obtain ⟨blocks, hflatten, hblocks⟩ := ih _ hless h.2 rfl
        refine ⟨xs.take tests.length :: blocks, ?_, List.forall_mem_cons.mpr ⟨h.1, hblocks⟩⟩
        rw [List.flatten_cons, ← hflatten, List.take_append_drop]
  · rintro ⟨blocks, rfl, hblocks⟩
    induction blocks with
    | nil => exact ⟨Nat.zero_mod _, nofun⟩
    | cons block blocks ih =>
      obtain ⟨hblock, hblocks⟩ := List.forall_mem_cons.mp hblocks
      rw [List.flatten_cons, inTurn_append_iff hblock.length_eq]
      exact ⟨hblock, ih hblocks⟩

theorem tiles_iff_inTurn {xs : List α} :
    tiles tests xs = true ↔ tests ≠ [] ∧ xs ≠ [] ∧ InTurn tests xs := by
  rw [tiles, Bool.and_eq_true, Bool.and_eq_true, Bool.and_eq_true, and_assoc, and_assoc, bne_iff_ne, bne_iff_ne,
    beq_iff_eq, List.all_eq_true]
  refine and_congr (not_congr List.length_eq_zero_iff) (and_congr (not_congr List.length_eq_zero_iff) ?_)
  constructor
  · rintro ⟨hcomplete, hpasses⟩
    refine ⟨hcomplete, fun i x hx => ?_⟩
    exact (Option.any_eq_true _ _).mp (hpasses (x, i) (List.mem_zipIdx_iff_getElem?.mpr hx))
  · rintro ⟨hcomplete, hpasses⟩
    refine ⟨hcomplete, fun (x, i) hx => ?_⟩
    exact (Option.any_eq_true _ _).mpr (hpasses i x (List.mem_zipIdx_iff_getElem?.mp hx))

/-- **Tests tile a list when it consists of one or more blocks that pass them one by one.** -/
theorem tiles_iff {xs : List α} :
    tiles tests xs = true ↔
      tests ≠ [] ∧ ∃ blocks : List (List α),
        blocks ≠ [] ∧ xs = blocks.flatten ∧ ∀ block ∈ blocks, Passes tests block := by
  rw [tiles_iff_inTurn]
  refine and_congr_right fun htests => ?_
  rw [inTurn_iff_blocks htests]
  constructor
  · rintro ⟨hxs, blocks, rfl, hblocks⟩
    refine ⟨blocks, ?_, rfl, hblocks⟩
    rintro rfl
    exact hxs rfl
  · rintro ⟨blocks, hne, rfl, hblocks⟩
    refine ⟨?_, blocks, rfl, hblocks⟩
    -- a block has as many elements as there are tests, so it is not empty
    obtain ⟨block, hblock⟩ := List.exists_mem_of_ne_nil blocks hne
    have hlen : block.length = tests.length := (hblocks block hblock).length_eq
    intro hflatten
    have hempty : block = [] := List.flatten_eq_nil_iff.mp hflatten block hblock
    rw [hempty] at hlen
    exact htests (List.length_eq_zero_iff.mp hlen.symm)

end InTurn

/-! ## Matching decides the meaning -/

namespace Signature

theorem Kind.admits_iff {kind : Kind} {t : FieldType} : kind.admits t = true ↔ kind.Covers t := by
  cases kind <;> cases t <;> simp [admits, Covers, FieldType.isInteger, FieldType.isFloat]

theorem length_tests (s : Signature) : s.tests.length = s.nodes.length := by
  induction s with
  | empty => rfl
  | plain kind rest ih => exact congrArg (· + 1) ih
  | group bracket inner rest _ ih => exact congrArg (· + 1) ih

theorem tests_ne_nil_iff {s : Signature} : s.tests ≠ [] ↔ s.nodes ≠ [] := by
  rw [← List.length_pos_iff, ← List.length_pos_iff, length_tests]

theorem passes_cons_iff {test : Field → Bool} {tests : List (Field → Bool)} {node : Node}
    {nodes : List Node} {fields : List Field} (hhead : ∀ f, test f = true ↔ f.Satisfies node)
    (htail : ∀ fields, Passes tests fields ↔ List.Forall₂ Field.Satisfies fields nodes) :
    Passes (test :: tests) fields ↔ List.Forall₂ Field.Satisfies fields (node :: nodes) := by
  rw [Passes, List.forall₂_cons_right_iff, List.forall₂_cons_right_iff]
  exact exists_congr fun f => exists_congr fun rest => and_congr (hhead f) (and_congr_left fun _ => htail rest)

/-- **Fields pass the tests of a signature when they are one by one as its patterns say.** -/
theorem passes_tests_iff (s : Signature) (fields : List Field) :
    Passes s.tests fields ↔ List.Forall₂ Field.Satisfies fields s.nodes := by
  induction s generalizing fields with
  | empty => rw [Passes, tests, nodes, List.forall₂_nil_right_iff, List.forall₂_nil_right_iff]
  | plain kind rest ih =>
    refine passes_cons_iff (fun f => ?_) ih
    rw [Kind.admits_iff]
    constructor
    · exact .plain
    · rintro (hcovers | _)
      exact hcovers
  | group bracket inner rest ihinner ihrest =>
    refine passes_cons_iff (fun f => ?_) ihrest
    -- the test of a group asks for the type and for blocks of children, as the pattern does
    rw [Bool.and_eq_true, beq_iff_eq, tiles_iff, tests_ne_nil_iff]
    constructor
    · rintro ⟨htype, hinner, blocks, hne, hchildren, hblocks⟩
      exact .group blocks htype hinner hne hchildren fun block hblock =>
        (ihinner block).mp (hblocks block hblock)
    · rintro (_ | ⟨blocks, htype, hinner, hne, hchildren, hblocks⟩)
      exact ⟨htype, hinner, blocks, hne, hchildren, fun block hblock =>
        (ihinner block).mpr (hblocks block hblock)⟩

end Signature

namespace Field

/-- **Matching decides whether the children are one by one as the signature says.** -/
theorem conforms_iff {f : Field} {s : Signature} :
    f.conforms s = true ↔ f.children ≠ [] ∧ List.Forall₂ Satisfies f.children s.nodes := by
  rw [← s.passes_tests_iff, Passes, List.forall₂_iff_zip, conforms, Bool.and_eq_true, Bool.and_eq_true,
    bne_iff_ne, beq_iff_eq, List.all_eq_true, and_assoc, s.length_tests, s.length_nodes]
  refine and_congr (not_congr List.length_eq_zero_iff) (and_congr_right fun _ => ?_)
  exact Prod.forall

/-- A field is valid for the text of a signature that its children match. -/
theorem validate_iff {f : Field} {signature : String} :
    f.validate signature = true ↔ ∃ s, Signature.parse signature = .ok s ∧ f.conforms s = true := by
  rw [validate]
  split
  · next s hs => simp [hs]
  · next e he => simp [he]

/-! ## Slots -/

theorem length_fill (slots : List (Option Field)) (fields : List Field) :
    (fill slots fields).length = slots.length := by
  fun_induction fill slots fields with
  | case1 _ slots f fields ih => exact congrArg (· + 1) ih
  | case2 => rfl

theorem getElem?_cleared (slots : List (Option Field)) {i : Nat} (hi : i < slots.length) :
    (slots.map fun _ => (none : Option Field))[i]? = some none := by
  rw [List.getElem?_map, List.getElem?_eq_getElem hi, Option.map_some]

/-- Slots that were cleared hold the fields one by one, as many as fit. -/
theorem getElem?_fill_cleared (slots : List (Option Field)) (fields : List Field) {i : Nat}
    (hi : i < slots.length) : (fill (slots.map fun _ => none) fields)[i]? = some fields[i]? := by
  induction slots generalizing fields i with
  | nil => cases hi
  | cons slot slots ih =>
    cases fields with
    | nil => exact getElem?_cleared (slot :: slots) hi
    | cons f fields =>
      cases i with
      | zero => rfl
      | succ i => exact ih fields (Nat.lt_of_succ_lt_succ hi)

/-- **Validation decides what signatures mean, and storing reports it in the slots.** A field is valid exactly
    if the text spells a signature and the children, at least one, are as many as its patterns and each as its
    pattern says. Storing returns the same; it leaves child `i` in slot `i` if the field is valid, and nothing
    in any slot if not, whatever was there. -/
theorem validate_store (f : Field) (signature : String) (slots : List (Option Field)) :
    (f.validate signature = true ↔
      ∃ s, Signature.parse signature = .ok s ∧ f.children ≠ [] ∧ f.children.length = s.nodes.length ∧
        ∀ (i : Nat) child node,
          f.children[i]? = some child → s.nodes[i]? = some node → child.Satisfies node) ∧
    (f.store signature slots).1 = f.validate signature ∧
    (f.store signature slots).2.length = slots.length ∧
    ∀ i < slots.length,
      (f.store signature slots).2[i]? = some (if f.validate signature then f.children[i]? else none) := by
  refine ⟨?_, ?_⟩
  · rw [validate_iff]
    refine exists_congr fun s => and_congr_right fun _ => ?_
    rw [conforms_iff, forall₂_iff_getElem?]
  · by_cases hvalid : f.validate signature = true
    · simp only [store, if_pos hvalid]
      exact ⟨hvalid.symm, by rw [length_fill, List.length_map],
        fun i => getElem?_fill_cleared slots f.children⟩
    · simp only [store, if_neg hvalid]
      exact ⟨(Bool.eq_false_iff.mpr hvalid).symm, List.length_map _, fun i => getElem?_cleared slots⟩

/-- An array with the number seven. -/
def sampleInner : Field := ⟨.ofWord 0x0900000c, [0x03, 0, 0, 0x05, 0x07, 0, 0, 0]⟩

/-- An array with an array with the number seven. -/
def sampleOuter : Field := ⟨.ofWord 0x09000010, sampleInner.bytes⟩

theorem validate_store_sampleOuter :
    sampleOuter.validate "[i]" = true ∧ sampleInner.Satisfies (.group .square (.plain .integer .empty)) ∧
      (sampleOuter.store "[i]" [some sampleOuter, some sampleOuter]).2[0]? = some (some sampleInner) ∧
      (sampleOuter.store "[i]" [some sampleOuter, some sampleOuter]).2[1]? = some none := by
  obtain ⟨hmeaning, -, -, hslots⟩ := validate_store sampleOuter "[i]" [some sampleOuter, some sampleOuter]
  have hchildren : sampleOuter.children = [sampleInner] := by decide
  have hinner : sampleInner.Satisfies (.group .square (.plain .integer .empty)) := by
    refine .group [sampleInner.children] (by decide) (by decide) (by decide) (by decide) ?_
    exact List.forall_mem_singleton.mpr (conforms_iff.mp (by decide)).2
  have hall : List.Forall₂ Satisfies sampleOuter.children [.group .square (.plain .integer .empty)] := by
    rw [hchildren]
    exact .cons hinner .nil
  have hvalid : sampleOuter.validate "[i]" = true := by
    refine hmeaning.mpr ⟨.group .square (.plain .integer .empty) .empty, ?_, by decide, by decide, ?_⟩
    · exact Signature.parse_eq_ok_iff.mpr ⟨by decide, by decide⟩
    · exact (forall₂_iff_getElem?.mp hall).2
  refine ⟨hvalid, hinner, ?_, ?_⟩
  · rw [hslots 0 (by decide), if_pos hvalid, hchildren, List.getElem?_cons_zero]
  · rw [hslots 1 (by decide), if_pos hvalid, hchildren, List.getElem?_cons_succ, List.getElem?_nil]

end Field

end FieldTree
