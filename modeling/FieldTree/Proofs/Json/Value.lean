import FieldTree.Json.Decoding
import FieldTree.Proofs.Tree

/-!
# Values of JSON Texts

What a JSON text says, apart from its layout: a value with its elements and members in document order. A
value has tokens, and no two values have the same tokens in front of anything. A value also has a document,
the tree that stands for it in a blob.

## Architecture

- `Json.Value`, `Value.tokens`: values, and the tokens of their texts.
- `Value.tokens_append_inj`: **tokens are read in one way only.**
- `Value.tree`, `Value.document`: a value as a field, and as the content of a blob.
-/

namespace FieldTree.Json

/-! ## Values and their tokens -/

/-- The value of a JSON text. Members with equal names are kept apart. -/
inductive Value where
  | null
  | bool (v : Bool)
  | number (v : Number)
  | text (v : String)
  | array (elements : List Value)
  | object (members : List (String × Value))
  deriving Repr

namespace Value

mutual

/-- The tokens of a value in document order. -/
def tokens : Value → List Token
  | null => [.null]
  | bool v => [.bool v]
  | number v => [.number v]
  | text v => [.string v]
  | array elements => .opening .square :: (elementTokens elements ++ [.closing])
  | object members => .opening .brace :: (memberTokens members ++ [.closing])

/-- The tokens of elements one after the other. -/
def elementTokens : List Value → List Token
  | [] => []
  | v :: vs => v.tokens ++ elementTokens vs

/-- The tokens of members one after the other, each with its name in front. -/
def memberTokens : List (String × Value) → List Token
  | [] => []
  | (name, v) :: members => .key name :: (v.tokens ++ memberTokens members)

end

/-! ## Tokens determine the value -/

/-- The tokens of a value start with neither a closing bracket nor a name. -/
theorem tokens_ne_cons (v : Value) {token : Token} {ts : List Token}
    (htoken : token = .closing ∨ ∃ name, token = .key name) (rest : List Token) :
    v.tokens ++ rest ≠ token :: ts := by
  intro h
  cases v <;> simp only [tokens, List.cons_append, List.cons.injEq] at h <;>
    obtain ⟨rfl, -⟩ := h <;> simp at htoken

mutual

/-- **Tokens are read in one way only**, whatever follows them. -/
theorem tokens_append_inj (v w : Value) {ts us : List Token} (h : v.tokens ++ ts = w.tokens ++ us) :
    v = w ∧ ts = us := by
  cases v with
  | null => cases w <;> simp [tokens] at h ⊢; exact h
  | bool v => cases w <;> simp [tokens] at h ⊢; exact h
  | number v => cases w <;> simp [tokens] at h ⊢; exact h
  | text v => cases w <;> simp [tokens] at h ⊢; exact h
  | array vs =>
    cases w <;> simp [tokens] at h ⊢
    exact elementTokens_append_inj vs _ h
  | object ms =>
    cases w <;> simp [tokens] at h ⊢
    exact memberTokens_append_inj ms _ h

theorem elementTokens_append_inj (vs ws : List Value) {ts us : List Token}
    (h : elementTokens vs ++ .closing :: ts = elementTokens ws ++ .closing :: us) :
    vs = ws ∧ ts = us := by
  match vs, ws with
  | [], [] => simpa [elementTokens] using h
  | [], w :: ws =>
    -- one list ends where the other goes on: a closing bracket stands against the start of a value
    rw [elementTokens, elementTokens, List.nil_append, List.append_assoc] at h
    exact absurd h.symm (tokens_ne_cons w (Or.inl rfl) _)
  | v :: vs, [] =>
    rw [elementTokens, elementTokens, List.nil_append, List.append_assoc] at h
    exact absurd h (tokens_ne_cons v (Or.inl rfl) _)
  | v :: vs, w :: ws =>
    rw [elementTokens, elementTokens, List.append_assoc, List.append_assoc] at h
    obtain ⟨rfl, hrest⟩ := tokens_append_inj v w h
    obtain ⟨rfl, hend⟩ := elementTokens_append_inj vs ws hrest
    exact ⟨rfl, hend⟩

theorem memberTokens_append_inj (ms ns : List (String × Value)) {ts us : List Token}
    (h : memberTokens ms ++ .closing :: ts = memberTokens ns ++ .closing :: us) :
    ms = ns ∧ ts = us := by
  match ms, ns with
  | [], [] => simpa [memberTokens] using h
  | [], (name, w) :: ns => simp [memberTokens] at h
  | (name, v) :: ms, [] => simp [memberTokens] at h
  | (name, v) :: ms, (name', w) :: ns =>
    rw [memberTokens, memberTokens, List.cons_append, List.cons_append, List.cons.injEq,
      List.append_assoc, List.append_assoc] at h
    obtain ⟨hname, hvalue⟩ := h
    cases hname
    obtain ⟨rfl, hrest⟩ := tokens_append_inj v w hvalue
    obtain ⟨rfl, hend⟩ := memberTokens_append_inj ms ns hrest
    exact ⟨rfl, hend⟩

end

/-- **The tokens of a text determine its value.** -/
theorem tokens_inj {v w : Value} (h : v.tokens = w.tokens) : v = w :=
  (tokens_append_inj v w (congrArg (· ++ []) h)).1

/-! ## Values as trees -/

/-- Whether a number has a two's complement of so many bytes. -/
def Fits (width : Nat) (v : Int) : Prop := -2 ^ (8 * width - 1) ≤ v ∧ v < 2 ^ (8 * width - 1)

instance (width : Nat) (v : Int) : Decidable (Fits width v) := inferInstanceAs (Decidable (_ ∧ _))

/-- The two's complement of a number, most significant byte first. -/
def twosComplement (width : Nat) (v : Int) : Bytes := .bigEndian width (v % 2 ^ (8 * width)).toNat

/-- An integer in the narrowest type that it fits. -/
def integerTree (v : Int) : Tree :=
  if Fits 1 v then .scalar .int8 rfl (twosComplement 1 v)
  else if Fits 2 v then .scalar .int16 rfl (twosComplement 2 v)
  else if Fits 4 v then .scalar .int32 rfl (twosComplement 4 v)
  else .scalar .int64 rfl (twosComplement 8 v)

theorem isContainer_ofReal (v : Double) : (Item.ofReal v).type.isContainer = false := by
  unfold Item.ofReal
  dsimp only
  split <;> rfl

/-- A real number as narrow as it allows. -/
def realTree (v : Double) : Tree := .scalar (Item.ofReal v).type (isContainer_ofReal v) (Item.ofReal v).payload

/-- A number; an integer beyond 64 bits with a sign is kept as a double. -/
def numberTree : Number → Tree
  | .whole v => if Fits 8 v then integerTree v else realTree (.ofInt v)
  | .real v => realTree v

/-- A text in UTF-8, and a zero byte. -/
def textTree (text : String) : Tree := .scalar .string rfl (Bytes.ofText text ++ [0])

mutual

/-- The field of a value. -/
def tree : Value → Tree
  | null => .scalar .int8 rfl [0]
  | bool v => .scalar .bool rfl [if v then 1 else 0]
  | number v => numberTree v
  | text v => textTree v
  | array elements => .node .square (elementTrees elements)
  | object members => .node .brace (memberTrees members)

/-- The fields of elements. -/
def elementTrees : List Value → List Tree
  | [] => []
  | v :: vs => v.tree :: elementTrees vs

/-- The fields of members: every name is followed by its value. -/
def memberTrees : List (String × Value) → List Tree
  | [] => []
  | (name, v) :: members => textTree name :: v.tree :: memberTrees members

end

/-- Whether a value is an array or an object. -/
def isContainer : Value → Bool
  | array _ | object _ => true
  | _ => false

/-- The brackets that stand for the root. -/
def rootBracket : Value → Bracket
  | object _ => .brace
  | _ => .square

/-- The fields under the root: what is in an array or object, or the value itself. -/
def rootTrees : Value → List Tree
  | array elements => elementTrees elements
  | object members => memberTrees members
  | v => [v.tree]

/-- The content of a blob that holds nothing but the value. An array or object is the root; any other value
    is the only child of an array. -/
def document (v : Value) : Tree := .node v.rootBracket v.rootTrees

/-- An array or object is its own document. -/
theorem document_eq_tree {v : Value} (h : v.isContainer = true) : v.document = v.tree := by
  cases v with
  | array vs => rfl
  | object ms => rfl
  | null | bool | number | text => cases h

/-- Anything else is alone under the root. -/
theorem rootTrees_eq {v : Value} (h : v.isContainer = false) : v.rootTrees = [v.tree] := by
  cases v with
  | null | bool | number | text => rfl
  | array | object => cases h

/-- A document is no shorter than its value. -/
theorem length_tree_le (v : Value) : v.tree.encode.length ≤ v.document.encode.length := by
  cases hcontainer : v.isContainer with
  | true => exact Nat.le_of_eq (congrArg (·.encode.length) (document_eq_tree hcontainer).symm)
  | false =>
    rw [document, Tree.length_encode_node, rootTrees_eq hcontainer, Tree.encodeAll, List.length_append]
    omega

/-- An array or object without anything in it. -/
def isVoid : Value → Bool
  | array [] | object [] => true
  | _ => false

end Value

end FieldTree.Json
