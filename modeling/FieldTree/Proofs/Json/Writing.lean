import FieldTree.Proofs.Json.Value

/-!
# Writing Tokens

Tokens are written as they come, and a container is lengthened when its closing bracket comes. This module
shows that this is the same as writing the trees of the values, and that it ends in a fault exactly where a
tree is refused.

## Architecture

- `Token.InRange`: the integers that a scan yields.
- `Value.tree_scalar`: the item of a scalar's token is the tree of the scalar.
- `GoesOn`: how a decoding continues after a write.
- `writeTokens_value`, `writeTokens_elements`, `writeTokens_members`: values inside a container.
- `writeTokens_document`: a whole text, whose outermost container is the root.
-/

namespace FieldTree.Json

/-! ## Scalars -/

/-- Integers do not go below those of 64 bits with a sign. -/
def Token.InRange : Token → Prop
  | .number (.whole v) => -2 ^ 63 ≤ v
  | _ => True

namespace Value

theorem twosComplement_eq (width : Nat) (v : Int) : twosComplement width v = Bytes.ofInt width v := by
  have hpow : (2 : Int) ^ (8 * width) = ((256 ^ width : Nat) : Int) := by
    rw [Int.natCast_pow, Int.pow_mul]
    rfl
  rw [twosComplement, Bytes.ofInt, hpow]

/-- The narrowest type is found by trying the widths one after the other. -/
theorem integerTree_eq (v : Int) :
    ∃ h, integerTree v = .scalar (Item.ofInt v).type h (Item.ofInt v).payload := by
  unfold integerTree Item.ofInt Item.narrowest Fits
  simp only [twosComplement_eq]
  split
  · exact ⟨rfl, rfl⟩
  · split
    · exact ⟨rfl, rfl⟩
    · split
      · exact ⟨rfl, rfl⟩
      · exact ⟨rfl, rfl⟩

theorem numberTree_eq {n : Number} (hrange : (Token.number n).InRange) :
    ∃ h, numberTree n = .scalar n.item.type h n.item.payload := by
  -- an integer of 64 bits keeps its value, and a larger one becomes a double
  cases n with
  | real v => exact ⟨_, rfl⟩
  | whole v =>
    have hlow : -2 ^ 63 ≤ v := hrange
    by_cases hhigh : v < 2 ^ 63
    · have hfits : Fits 8 v := ⟨hlow, hhigh⟩
      rw [numberTree, if_pos hfits, Number.item, if_pos hhigh]
      exact integerTree_eq v
    · have hfits : ¬Fits 8 v := fun h => hhigh h.2
      rw [numberTree, if_neg hfits, Number.item, if_neg hhigh]
      exact ⟨_, rfl⟩

theorem isContainer_integerTree (v : Int) : (integerTree v).field.type.isContainer = false := by
  obtain ⟨_, h⟩ := integerTree_eq v
  rw [h]
  exact Tree.isContainer_field_scalar

/-- Arrays and objects are containers, and nothing else is. -/
theorem isContainer_tree (v : Value) : v.tree.field.type.isContainer = v.isContainer := by
  cases v with
  | null | bool | text => exact Tree.isContainer_field_scalar
  | number n =>
    cases n with
    | whole n =>
      rw [tree, numberTree]
      split
      · exact isContainer_integerTree n
      · exact Tree.isContainer_field_scalar
    | real x => exact Tree.isContainer_field_scalar
  | array vs | object ms => rfl

end Value

/-! ## Going on -/

/-- A decoding goes on from the blob that a write gives, or it ends in a fault because the write was
    refused. -/
def GoesOn (d : Decoded) (written : Except SizeLimit Blob) (next : Blob → Decoded) : Prop :=
  match written with
  | .ok b => d.blob = (next b).blob ∧ d.fault? = (next b).fault?
  | .error _ => ∃ fault, d.fault? = some fault

namespace GoesOn

variable {d : Decoded} {written : Except SizeLimit Blob} {next : Blob → Decoded}

/-- Two writes one after the other. -/
theorem bind (h : GoesOn d written next) {more : Blob → Except SizeLimit Blob} {last : Blob → Decoded}
    (hmore : ∀ b, GoesOn (next b) (more b) last) : GoesOn d (written >>= more) last := by
  -- a refused write ends both, and a write that succeeds hands over its blob
  cases written with
  | error limit => exact h
  | ok b =>
    obtain ⟨hblob, hfault⟩ := h
    have hb := hmore b
    change GoesOn d (more b) last
    generalize more b = result at hb ⊢
    cases result with
    | error limit => exact ⟨hb.choose, hfault.trans hb.choose_spec⟩
    | ok b' => exact ⟨hblob.trans hb.1, hfault.trans hb.2⟩

end GoesOn

/-- **A token with an item is a write of the item.** -/
theorem writeTokens_item {fillsRoot : Bool} {outer : OpenFields} {token : Token} {item : Item}
    (hitem : token.item? = some item)
    (hinside : (fillsRoot && outer.isEmpty && token.isOpening) = false) (b : Blob) (refusal : Position)
    (rest : List (Token × Position)) :
    GoesOn (writeTokens fillsRoot outer b ((token, refusal) :: rest)) ((b.put item).map (·.2))
      fun b' => writeTokens fillsRoot (outer.push token b.size) b' rest := by
  rw [writeTokens, hitem]
  simp only [hinside, Bool.false_eq_true, if_false]
  rw [Blob.put]
  cases b.refusal? item.payload.length with
  | some limit => exact ⟨_, rfl⟩
  | none => exact ⟨rfl, rfl⟩

/-- A scalar or a name, with the tree of its item. -/
theorem writeTokens_scalar {fillsRoot : Bool} {outer : OpenFields} {token : Token} {item : Item} {t : Tree}
    (hitem : token.item? = some item) (hscalar : token.isOpening = false)
    (htree : ∃ h, t = .scalar item.type h item.payload) (b : Blob) (refusal : Position)
    (rest : List (Token × Position)) :
    GoesOn (writeTokens fillsRoot outer b ((token, refusal) :: rest)) (t.write b)
      fun b' => writeTokens fillsRoot outer b' rest := by
  obtain ⟨h, rfl⟩ := htree
  have hinside : (fillsRoot && outer.isEmpty && token.isOpening) = false := by
    rw [hscalar, Bool.and_false]
  -- a scalar opens nothing
  have hpush : outer.push token b.size = outer := by
    rw [OpenFields.push, hscalar]
    rfl
  have hwrite := writeTokens_item hitem hinside b refusal rest
  rw [hpush] at hwrite
  exact hwrite

/-- Writing a container is opening it, writing what is in it, and closing it. -/
theorem write_node (b : Blob) (bracket : Bracket) (ts : List Tree) :
    (Tree.node bracket ts).write b = ((b.put (.ofBracket bracket)).map (·.2) >>= fun opened =>
      Tree.writeAll opened ts >>= fun filled => .ok (filled.close b.size)) := by
  rw [Tree.write, Blob.openContainer, Blob.put]
  cases b.refusal? (Item.ofBracket bracket).payload.length <;> rfl

theorem writeTokens_closing (fillsRoot : Bool) (outer : OpenFields) (offset : Nat) (b : Blob)
    (refusal : Position) (rest : List (Token × Position)) :
    GoesOn (writeTokens fillsRoot (some offset :: outer) b ((.closing, refusal) :: rest))
      (.ok (b.close offset)) fun b' => writeTokens fillsRoot outer b' rest :=
  ⟨rfl, rfl⟩

/-! ## Values inside a container -/

/-- Tokens with positions whose tokens fall into two parts. -/
theorem map_fst_eq_append {entries : List (Token × Position)} {ts us : List Token}
    (h : entries.map Prod.fst = ts ++ us) :
    ∃ front back, entries = front ++ back ∧ front.map Prod.fst = ts ∧ back.map Prod.fst = us := by
  obtain ⟨front, back, rfl, hfront, hback⟩ := List.map_eq_append_iff.mp h
  exact ⟨front, back, rfl, hfront, hback⟩

/-- One entry for one token. -/
theorem map_fst_eq_cons {entries : List (Token × Position)} {token : Token} {ts : List Token}
    (h : entries.map Prod.fst = token :: ts) :
    ∃ refusal back, entries = (token, refusal) :: back ∧ back.map Prod.fst = ts := by
  obtain ⟨⟨token, refusal⟩, back, rfl, rfl, hback⟩ := List.map_eq_cons_iff.mp h
  exact ⟨refusal, back, rfl, hback⟩

theorem writeTokens_name {fillsRoot : Bool} {outer : OpenFields} (name : String) (b : Blob)
    (refusal : Position) (rest : List (Token × Position)) :
    GoesOn (writeTokens fillsRoot outer b ((.key name, refusal) :: rest)) ((Value.textTree name).write b)
      fun b' => writeTokens fillsRoot outer b' rest := by
  have hitem : (Token.key name).item? = some (.ofText name) := rfl
  exact writeTokens_scalar hitem rfl ⟨rfl, rfl⟩ b refusal rest

/-- **A value that is no container is one token, whose item is its tree.** -/
theorem writeTokens_leaf {fillsRoot : Bool} {outer : OpenFields} {v : Value} (hleaf : v.isContainer = false)
    (hrange : ∀ token ∈ v.tokens, token.InRange) {entries : List (Token × Position)}
    (hentries : entries.map Prod.fst = v.tokens) (b : Blob) (rest : List (Token × Position)) :
    GoesOn (writeTokens fillsRoot outer b (entries ++ rest)) (v.tree.write b)
      fun b' => writeTokens fillsRoot outer b' rest := by
  -- whatever the item is, one entry is written, and the rest goes on behind it
  have hscalar : ∀ {token : Token} {item : Item} {t : Tree}, token.item? = some item →
      token.isOpening = false → (∃ h, t = .scalar item.type h item.payload) →
      entries.map Prod.fst = [token] →
      GoesOn (writeTokens fillsRoot outer b (entries ++ rest)) (t.write b)
        fun b' => writeTokens fillsRoot outer b' rest := by
    intro token item t hitem hopening htree h
    obtain ⟨refusal, back, rfl, hback⟩ := map_fst_eq_cons h
    obtain rfl := List.map_eq_nil_iff.mp hback
    exact writeTokens_scalar hitem hopening htree b refusal rest
  cases v with
  | null => exact hscalar rfl rfl ⟨rfl, rfl⟩ hentries
  | bool v => exact hscalar rfl rfl ⟨rfl, rfl⟩ hentries
  | number n => exact hscalar rfl rfl (Value.numberTree_eq (hrange _ List.mem_cons_self)) hentries
  | text v => exact hscalar rfl rfl ⟨rfl, rfl⟩ hentries
  | array vs => cases hleaf
  | object ms => cases hleaf

section Inside

variable {fillsRoot : Bool}

/-- Brackets around tokens that are written as some trees. -/
theorem writeTokens_brackets (bracket : Bracket) {outer : OpenFields} {inner : List Token} {ts : List Tree}
    (hinside : (fillsRoot && outer.isEmpty) = false) {entries : List (Token × Position)}
    (hentries : entries.map Prod.fst = .opening bracket :: (inner ++ [.closing])) (b : Blob)
    (rest : List (Token × Position))
    (hinner : ∀ (offset : Nat) {between : List (Token × Position)}, between.map Prod.fst = inner →
      ∀ (b : Blob) (rest : List (Token × Position)),
        GoesOn (writeTokens fillsRoot (some offset :: outer) b (between ++ rest)) (Tree.writeAll b ts)
          fun b' => writeTokens fillsRoot (some offset :: outer) b' rest) :
    GoesOn (writeTokens fillsRoot outer b (entries ++ rest)) ((Tree.node bracket ts).write b)
      fun b' => writeTokens fillsRoot outer b' rest := by
  -- the opening bracket, what is between, and the closing bracket
  obtain ⟨refusal, back, rfl, hback⟩ := map_fst_eq_cons hentries
  obtain ⟨between, last, rfl, hbetween, hlast⟩ := map_fst_eq_append hback
  obtain ⟨behind, last, rfl, hnone⟩ := map_fst_eq_cons hlast
  obtain rfl := List.map_eq_nil_iff.mp hnone
  rw [write_node, List.cons_append, List.append_assoc]
  have hnested : (fillsRoot && outer.isEmpty && (Token.opening bracket).isOpening) = false := by
    rw [hinside, Bool.false_and]
  refine (writeTokens_item rfl hnested b refusal _).bind fun opened => ?_
  refine (hinner b.size hbetween opened _).bind fun filled => ?_
  exact writeTokens_closing fillsRoot outer b.size filled behind rest

mutual

/-- **The tokens of a value inside a container are written as the tree of the value.** -/
theorem writeTokens_value (v : Value) {outer : OpenFields} (hrange : ∀ token ∈ v.tokens, token.InRange)
    (hinside : (fillsRoot && outer.isEmpty) = false) {entries : List (Token × Position)}
    (hentries : entries.map Prod.fst = v.tokens) (b : Blob) (rest : List (Token × Position)) :
    GoesOn (writeTokens fillsRoot outer b (entries ++ rest)) (v.tree.write b)
      fun b' => writeTokens fillsRoot outer b' rest := by
  cases v with
  | null => exact writeTokens_leaf rfl hrange hentries b rest
  | bool v => exact writeTokens_leaf rfl hrange hentries b rest
  | number n => exact writeTokens_leaf rfl hrange hentries b rest
  | text v => exact writeTokens_leaf rfl hrange hentries b rest
  | array vs =>
    rw [Value.tokens] at hentries hrange
    refine writeTokens_brackets .square hinside hentries b rest fun offset _ hbetween b' rest' => ?_
    refine writeTokens_elements vs (fun t ht => hrange t ?_) (Bool.and_false _) hbetween b' rest'
    exact List.mem_cons_of_mem _ (List.mem_append_left _ ht)
  | object ms =>
    rw [Value.tokens] at hentries hrange
    refine writeTokens_brackets .brace hinside hentries b rest fun offset _ hbetween b' rest' => ?_
    refine writeTokens_members ms (fun t ht => hrange t ?_) (Bool.and_false _) hbetween b' rest'
    exact List.mem_cons_of_mem _ (List.mem_append_left _ ht)

/-- Elements one after the other. -/
theorem writeTokens_elements (vs : List Value) {outer : OpenFields}
    (hrange : ∀ token ∈ Value.elementTokens vs, token.InRange)
    (hinside : (fillsRoot && outer.isEmpty) = false) {entries : List (Token × Position)}
    (hentries : entries.map Prod.fst = Value.elementTokens vs) (b : Blob)
    (rest : List (Token × Position)) :
    GoesOn (writeTokens fillsRoot outer b (entries ++ rest)) (Tree.writeAll b (Value.elementTrees vs))
      fun b' => writeTokens fillsRoot outer b' rest := by
  match vs with
  | [] =>
    obtain rfl := List.map_eq_nil_iff.mp hentries
    exact ⟨rfl, rfl⟩
  | v :: vs =>
    rw [Value.elementTokens] at hentries hrange
    obtain ⟨first, others, rfl, hfirst, hothers⟩ := map_fst_eq_append hentries
    rw [List.append_assoc, Value.elementTrees, Tree.writeAll]
    refine (writeTokens_value v (fun t ht => hrange t (List.mem_append_left _ ht)) hinside hfirst b
      (others ++ rest)).bind fun b' => ?_
    exact writeTokens_elements vs (fun t ht => hrange t (List.mem_append_right _ ht)) hinside hothers b' rest

/-- Members one after the other, each with its name in front. -/
theorem writeTokens_members (ms : List (String × Value)) {outer : OpenFields}
    (hrange : ∀ token ∈ Value.memberTokens ms, token.InRange)
    (hinside : (fillsRoot && outer.isEmpty) = false) {entries : List (Token × Position)}
    (hentries : entries.map Prod.fst = Value.memberTokens ms) (b : Blob)
    (rest : List (Token × Position)) :
    GoesOn (writeTokens fillsRoot outer b (entries ++ rest)) (Tree.writeAll b (Value.memberTrees ms))
      fun b' => writeTokens fillsRoot outer b' rest := by
  match ms with
  | [] =>
    obtain rfl := List.map_eq_nil_iff.mp hentries
    exact ⟨rfl, rfl⟩
  | (name, v) :: ms =>
    rw [Value.memberTokens] at hentries hrange
    obtain ⟨refusal, back, rfl, hback⟩ := map_fst_eq_cons hentries
    obtain ⟨first, others, rfl, hfirst, hothers⟩ := map_fst_eq_append hback
    rw [List.cons_append, List.append_assoc, Value.memberTrees, Tree.writeAll]
    -- the name, its value, and the other members
    refine (writeTokens_name name b refusal (first ++ (others ++ rest))).bind fun named => ?_
    rw [Tree.writeAll]
    refine (writeTokens_value v (fun t ht => hrange t ?_) hinside hfirst named (others ++ rest)).bind
      fun b' => ?_
    · exact List.mem_cons_of_mem _ (List.mem_append_left _ ht)
    · refine writeTokens_members ms (fun t ht => hrange t ?_) hinside hothers b' rest
      exact List.mem_cons_of_mem _ (List.mem_append_right _ ht)

end

end Inside

/-! ## Whole texts -/

/-- The blob whose root is made the value's container, where the value has one. -/
def Value.rooted (v : Value) (b : Blob) : Blob :=
  if v.isContainer then b.withRootType v.rootBracket.container else b

/-- Brackets at the outside of a text are those of the root. -/
theorem writeTokens_rootBrackets (bracket : Bracket) {inner : List Token} {ts : List Tree}
    {entries : List (Token × Position)}
    (hentries : entries.map Prod.fst = .opening bracket :: (inner ++ [.closing])) (b : Blob)
    (hinner : ∀ {between : List (Token × Position)}, between.map Prod.fst = inner →
      ∀ (b : Blob) (rest : List (Token × Position)),
        GoesOn (writeTokens true [none] b (between ++ rest)) (Tree.writeAll b ts)
          fun b' => writeTokens true [none] b' rest) :
    GoesOn (writeTokens true [] b entries) (Tree.writeAll (b.withRootType bracket.container) ts)
      fun b' => ⟨b', [], none⟩ := by
  obtain ⟨refusal, back, rfl, hback⟩ := map_fst_eq_cons hentries
  obtain ⟨between, last, rfl, hbetween, hlast⟩ := map_fst_eq_append hback
  obtain ⟨behind, last, rfl, hnone⟩ := map_fst_eq_cons hlast
  obtain rfl := List.map_eq_nil_iff.mp hnone
  exact hinner hbetween (b.withRootType bracket.container) [(.closing, behind)]

/-- **The tokens of a text are written as what is under the root.** -/
theorem writeTokens_document (v : Value) (hrange : ∀ token ∈ v.tokens, token.InRange)
    {entries : List (Token × Position)} (hentries : entries.map Prod.fst = v.tokens) (b : Blob) :
    GoesOn (writeTokens true [] b entries) (Tree.writeAll (v.rooted b) v.rootTrees)
      fun b' => ⟨b', [], none⟩ := by
  -- a scalar is the only field under the root
  have hleaf : v.isContainer = false → v.rootTrees = [v.tree] →
      GoesOn (writeTokens true [] b entries) (Tree.writeAll (v.rooted b) v.rootTrees)
        fun b' => ⟨b', [], none⟩ := by
    intro hleaf htrees
    have hwrite : GoesOn (writeTokens true [] b (entries ++ [])) _ _ :=
      writeTokens_leaf hleaf hrange hentries b []
    rw [List.append_nil] at hwrite
    rw [htrees, Value.rooted, hleaf]
    exact hwrite.bind fun b' => ⟨rfl, rfl⟩
  cases v with
  | null => exact hleaf rfl rfl
  | bool v => exact hleaf rfl rfl
  | number n => exact hleaf rfl rfl
  | text v => exact hleaf rfl rfl
  | array vs =>
    rw [Value.tokens] at hentries hrange
    refine writeTokens_rootBrackets .square hentries b fun hbetween b' rest => ?_
    refine writeTokens_elements vs (fun t ht => hrange t ?_) rfl hbetween b' rest
    exact List.mem_cons_of_mem _ (List.mem_append_left _ ht)
  | object ms =>
    rw [Value.tokens] at hentries hrange
    refine writeTokens_rootBrackets .brace hentries b fun hbetween b' rest => ?_
    refine writeTokens_members ms (fun t ht => hrange t ?_) rfl hbetween b' rest
    exact List.mem_cons_of_mem _ (List.mem_append_left _ ht)

end FieldTree.Json
