import FieldTree.Proofs.Json.Decoding
import FieldTree.Proofs.Json.Rollback

/-!
# Texts as New Blobs and as Fields

The same text can fill a new blob or be appended to one that holds something already. In the one case its
outermost brackets are the root, in the other they are a field that is opened and closed. This module shows
that the bytes are the same in both cases, whatever blob the text is appended to.

## Architecture

- `putJson_of_reads`: **appending a text is writing the tree of its value.**
- `field_of_isContainer`, `encode_of_not_isContainer`: the field of a value in the content of a new blob.
- `Blob.putJson_ofJson`: **the main statement**, for every blob that a program can make.
-/

namespace FieldTree

namespace Json

variable {text : String} {config : Config} {v : Value} {b c : Blob}

/-! ## Appended texts -/

/-- **Appending a text is writing the tree of its value**, up to the first refusal. -/
theorem putJson_of_reads (hreads : Reads text v) (b : Blob) :
    GoesOn (b.putJson text) (v.tree.write b) fun b' => ⟨b', [], none⟩ := by
  obtain ⟨haccepted, htokens⟩ := hreads
  have hrange : ∀ token ∈ v.tokens, token.InRange := htokens ▸ scan_inRange .value [] (.ofText text)
  have hgoes : GoesOn (writeTokens false [] b (Scan.ofText text).tokens) (v.tree.write b)
      fun b' => ⟨b', [], none⟩ := by
    have hinside : (false && ([] : OpenFields).isEmpty) = false := rfl
    have hwrite := writeTokens_value v hrange hinside htokens b []
    rwa [List.append_nil] at hwrite
  unfold Blob.putJson decode
  simp only [haccepted, Option.or_none]
  generalize writeTokens false [] b (Scan.ofText text).tokens = written at hgoes ⊢
  -- a fault of the writer is the fault of the whole, and without one nothing is removed
  cases hfault : written.fault? with
  | none => exact hgoes
  | some fault =>
    cases hwrite : v.tree.write b with
    | error limit => exact ⟨fault, rfl⟩
    | ok b' =>
      rw [hwrite] at hgoes
      obtain ⟨-, hnone⟩ := hgoes
      rw [hfault] at hnone
      cases hnone

/-- **A text is appended exactly where the encoding of its value fits**, and is then that encoding. -/
theorem putJson_extends (hreads : Reads text v) (hb : b.Formed) :
    ((b.putJson text).fault? = none ↔ b.size + v.tree.encode.length ≤ b.config.limit) ∧
      ((b.putJson text).fault? = none → b.Extends (b.putJson text).blob v.tree.encode) := by
  have hgoes := putJson_of_reads hreads b
  rcases Nat.lt_or_ge b.config.limit (b.size + v.tree.encode.length) with hexceeds | hfits
  case inl =>
    obtain ⟨limit, hwrite⟩ := Tree.write_exceeds v.tree hb hexceeds
    rw [hwrite] at hgoes
    obtain ⟨fault, hfault⟩ := hgoes
    simp [hfault, hexceeds]
  case inr =>
    obtain ⟨b', hwrite, e⟩ := Tree.write_extends v.tree hb hfits
    rw [hwrite] at hgoes
    obtain ⟨hblob, hfault⟩ := hgoes
    simp [hblob, hfault, hfits, e]

/-! ## New blobs -/

/-- Where the value is an array or object, the root of a new blob is its field. -/
theorem field_of_isContainer (hreads : Reads text v) (h : (Blob.ofJson config text).1 = .ok c)
    (hcontainer : v.isContainer = true) :
    v.tree.field = ⟨.new v.rootBracket.container c.size, c.content.drop headerSize⟩ ∧
      v.tree.field.rawLength = c.size := by
  obtain ⟨hformed, hhead, hmax⟩ := head_ofJson hreads h
  have htree : v.document = v.tree := Value.document_eq_tree hcontainer
  have hbody : c.content.drop headerSize = Tree.encodeAll v.rootTrees := by
    rw [hformed.head_eq] at hhead
    exact congrArg Field.body hhead
  have hsize : c.size = headerSize + (Tree.encodeAll v.rootTrees).length := by
    rw [hformed.size_eq, Blob.body, hbody]
  rw [Value.document, Tree.length_encode_node] at hmax
  rw [← htree, hsize, hbody]
  exact ⟨rfl, Header.rawLength_new _ (Nat.le_add_right _ _) hmax⟩

/-- Where it is not, the field of the value is all that is behind the root's header. -/
theorem encode_of_not_isContainer (hreads : Reads text v) (h : (Blob.ofJson config text).1 = .ok c)
    (hscalar : v.isContainer = false) : v.tree.encode = c.content.drop headerSize := by
  obtain ⟨hformed, hhead, -⟩ := head_ofJson hreads h
  rw [hformed.head_eq] at hhead
  have hbody : c.body = Tree.encodeAll v.rootTrees := congrArg Field.body hhead
  rw [Value.rootTrees_eq hscalar, Tree.encodeAll, Tree.encodeAll, List.append_nil] at hbody
  exact hbody.symm

end Json

namespace Blob

open Json

theorem Extends.gained {b b' : Blob} {t : Tree} (e : b.Extends b' t.encode) (h : b.Formed)
    (hbytes : t.encode = t.field.bytes) : b.Gained b' t.field := by
  have hmax : t.encode.length ≤ maxLength :=
    Nat.le_trans (Nat.le_trans (Nat.le_add_left _ _) e.fits) b.config.limit_le
  have hbody := Tree.bodyRoom_field t hmax
  rw [hbytes] at e
  exact e.gains h (Nat.le_of_eq hbody.symm)

/-- **A text adds to any blob what it makes a new blob of**, if it fits: a field with the children of the new blob
    where the text is an array or object, and the only field of the new blob where it is not. -/
theorem putJson_ofJson (n : Nat) (history : List Step) (i : Nat) {b : Blob}
    (hb : ((Session.start n).run history).blob i = b) {config : Config} {text : String} {c : Blob}
    (hc : (ofJson config text).1 = .ok c) :
    ∃ v f, (Reads text v ∧ ∀ w, Reads text w → w = v) ∧
      (v.isContainer = true →
        f = ⟨.new v.rootBracket.container c.size, c.content.drop headerSize⟩ ∧ f.rawLength = c.size) ∧
      (v.isContainer = false → f.bytes = c.content.drop headerSize) ∧
      ((b.putJson text).fault? = none ↔ b.size + f.bytes.length ≤ b.config.limit) ∧
      ((b.putJson text).fault? = none → b.Gained (b.putJson text).blob f) := by
  have hsound : b.Sound := hb ▸ ((Session.Sound.start n).run history).blob i
  obtain ⟨v, hreads, hunique⟩ := existsUnique_reads (accepted_of_ofJson hc)
  have hmax := Nat.le_trans v.length_tree_le (head_ofJson hreads hc).2.2
  have hbytes := Tree.encode_eq_bytes v.tree hmax
  obtain ⟨hfits, hextends⟩ := putJson_extends hreads hsound.toFormed
  refine ⟨v, v.tree.field, ⟨hreads, hunique⟩, field_of_isContainer hreads hc, ?_, ?_, ?_⟩
  · intro hscalar
    rw [← hbytes]
    exact encode_of_not_isContainer hreads hc hscalar
  · rw [← hbytes]
    exact hfits
  · intro hnone
    exact (hextends hnone).gained hsound.toFormed hbytes

/-- An array whose length of five is no multiple of four, and an object in it that is still open. -/
def sampleOpened : List Step :=
  [.make 0 (.adopt { maxSize := 100 } [0x09, 0, 0, 0x05, 0x6b]), .perform 0 (.openContainer .brace)]

/-- A list with an object in it, and a number that is no single. -/
def sampleList : String := "[\x7b\"k\":[]\x7d,0.1]"

theorem putJson_ofJson_sampleOpened :
    ∃ b c, ((Session.start 1).run sampleOpened).blob 0 = b ∧ (ofJson {} sampleList).1 = .ok c ∧
      ∃ v f, (Reads sampleList v ∧ ∀ w, Reads sampleList w → w = v) ∧
        (v.isContainer = true →
          f = ⟨.new v.rootBracket.container c.size, c.content.drop headerSize⟩ ∧ f.rawLength = c.size) ∧
        (v.isContainer = false → f.bytes = c.content.drop headerSize) ∧
        ((b.putJson sampleList).fault? = none ↔ b.size + f.bytes.length ≤ b.config.limit) ∧
        ((b.putJson sampleList).fault? = none → b.Gained (b.putJson sampleList).blob f) := by
  have hok : (ofJson {} sampleList).1.isOk = true := by decide +kernel
  cases hc : (ofJson {} sampleList).1 with
  | error e =>
    rw [hc] at hok
    cases hok
  | ok c => exact ⟨_, c, rfl, rfl, putJson_ofJson 1 sampleOpened 0 rfl hc⟩

end Blob

end FieldTree
