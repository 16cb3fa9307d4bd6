import FieldTree.Binding
import FieldTree.Json.Rendering
import FieldTree.Listing
import FieldTree.Proofs.Slack

/-!
# What Readers See

Slack is never read. Values are read from the payload, renderings and listings are made of values and headers, and
values are bound by the texts of their keys and by their types.

Only a validation walks through the payload of a field that is not a container, namely if it is asked to
validate such a field, and there it meets headers that are spelled by payload and slack. But it looks at their
types alone, and the type is in the first byte of a header, which is never slack.

## Architecture

- `Field.SameTypes`: all that a validation looks at, with `Field.SameTypes.validate_eq`.
- `Field.TailApart`: the children that a walk finds in the payload of a field that is not a container.
- `Field.SlackApart.validate_eq`, `.reading_eq`, `.renderAt_eq`, `.lines_text_eq`, `.bind`: one lemma for each
  reader.
- `Field.slack_unread`: **the main statement.**
-/

namespace FieldTree

/-- A function that does not see the difference between related elements gives the same list of results. -/
theorem map_eq_map_of_forall₂ {α β γ : Type} {R : α → β → Prop} {xs : List α} {ys : List β}
    (h : List.Forall₂ R xs ys) {φ : α → γ} {ψ : β → γ} (hφ : ∀ x y, R x y → φ x = ψ y) :
    xs.map φ = ys.map ψ := by
  rw [← List.forall₂_eq_eq_eq]
  exact List.rel_map (fun x y => hφ x y) h

/-! ## Validation -/

theorem all_zipIdx_congr {α : Type} {R : α → α → Prop} {xs ys : List α} (h : List.Forall₂ R xs ys)
    {check : α × Nat → Bool} (hcheck : ∀ x y i, R x y → check (x, i) = check (y, i)) (start : Nat) :
    (xs.zipIdx start).all check = (ys.zipIdx start).all check := by
  induction h generalizing start with
  | nil => rfl
  | cons hxy _ ih =>
    rw [List.zipIdx_cons, List.zipIdx_cons, List.all_cons, List.all_cons, ih (start + 1), hcheck _ _ start hxy]

theorem all_zip_congr {α β : Type} {R : α → α → Prop} {xs ys : List α} (h : List.Forall₂ R xs ys)
    {check : α × β → Bool} {tests : List β}
    (hcheck : ∀ test ∈ tests, ∀ x y, R x y → check (x, test) = check (y, test)) :
    (xs.zip tests).all check = (ys.zip tests).all check := by
  induction h generalizing tests with
  | nil => rfl
  | cons hxy _ ih =>
    cases tests with
    | nil => rfl
    | cons test rest =>
      obtain ⟨htest, hrest⟩ := List.forall_mem_cons.mp hcheck
      rw [List.zip_cons_cons, List.zip_cons_cons, List.all_cons, List.all_cons, ih hrest, htest _ _ hxy]

/-- Tests that do not see the difference between related elements are passed by both lists or by neither. -/
theorem tiles_congr {α : Type} {R : α → α → Prop} {tests : List (α → Bool)} {xs ys : List α}
    (h : List.Forall₂ R xs ys) (htests : ∀ test ∈ tests, ∀ x y, R x y → test x = test y) :
    tiles tests xs = tiles tests ys := by
  rw [tiles, tiles, h.length_eq]
  refine congrArg (_ && ·) (all_zipIdx_congr h (fun x y i hxy => ?_) 0)
  change (tests[i % tests.length]?).any (· x) = (tests[i % tests.length]?).any (· y)
  cases htest : tests[i % tests.length]? with
  | none => rfl
  | some test => exact htests test (List.mem_of_getElem? htest) x y hxy

namespace Field

variable {f g : Field}

/-- Fields that have the same types at all paths, also at those that lead through a payload. -/
def SameTypes (f g : Field) : Prop := ∀ path, (f.at? path).map type = (g.at? path).map type

namespace SameTypes

theorem type_eq (h : f.SameTypes g) : f.type = g.type := Option.some.inj (h [])

theorem children (h : f.SameTypes g) : List.Forall₂ SameTypes f.children g.children := by
  -- the paths of the children are those of at least one step
  have hpath : ∀ (i : Nat) (path : List Nat), (f.children[i]?.bind fun c => c.at? path).map type =
      (g.children[i]?.bind fun d => d.at? path).map type := fun i path => h (i :: path)
  have htypes : f.children.map type = g.children.map type := by
    apply List.ext_getElem?
    intro i
    have htype := hpath i []
    rw [List.getElem?_map, List.getElem?_map]
    revert htype
    cases f.children[i]? <;> cases g.children[i]? <;> exact id
  have hlength := congrArg List.length htypes
  rw [List.length_map, List.length_map] at hlength
  rw [forall₂_iff_getElem?]
  refine ⟨hlength, fun i c d hc hd path => ?_⟩
  have htype := hpath i path
  rw [hc, hd] at htype
  exact htype

/-- Fields have the same types at all paths if they are related in a way that passes on to their children, and
    that leaves the type alone. -/
theorem of_related {R : Field → Field → Prop} (htype : ∀ f g, R f g → f.type = g.type)
    (hchildren : ∀ f g, R f g → List.Forall₂ R f.children g.children) (h : R f g) : f.SameTypes g := by
  intro path
  induction path generalizing f g with
  | nil => exact congrArg some (htype f g h)
  | cons i path ih =>
    have hchild := rel_getElem? (hchildren f g h) i
    rw [at?, at?]
    generalize f.children[i]? = c?, g.children[i]? = d? at hchild
    cases hchild with
    | none => rfl
    | some hcd => exact ih hcd

/-- **No test of a signature looks at anything but types.** -/
theorem test_eq {s : Signature} : ∀ test ∈ s.tests, ∀ f g : Field, f.SameTypes g → test f = test g := by
  -- induction on the signature: the test of a group is made of the tests inside of its brackets
  induction s with
  | empty => exact fun test htest => absurd htest List.not_mem_nil
  | plain kind rest ih =>
    intro test htest f g h
    rcases List.mem_cons.mp htest with rfl | htest
    · exact congrArg kind.admits h.type_eq
    · exact ih test htest f g h
  | group bracket inner rest ihinner ih =>
    intro test htest f g h
    rcases List.mem_cons.mp htest with rfl | htest
    · dsimp only
      rw [h.type_eq, tiles_congr h.children ihinner]
    · exact ih test htest f g h

theorem conforms_eq (h : f.SameTypes g) (s : Signature) : f.conforms s = g.conforms s := by
  rw [conforms, conforms, h.children.length_eq]
  exact congrArg (_ && ·) (all_zip_congr h.children test_eq)

theorem validate_eq (h : f.SameTypes g) (signature : String) : f.validate signature = g.validate signature := by
  unfold validate
  split
  · exact h.conforms_eq _
  · rfl

end SameTypes

end Field

/-! ## Headers in a payload -/

/-- Bytes that differ at most in the last group of four, and not in its first byte. Headers stand at multiples of
    four, so a header that is met in such bytes is the same, or it is the last one and has the same type. -/
structure Bytes.TailApart (q : Nat) (u v : Bytes) : Prop where
  length_eq : u.length = v.length
  short : u.length ≤ 4 * q + 4
  tail : ∀ k : Nat, u[k]? ≠ v[k]? → 4 * q < k

namespace Bytes.TailApart

variable {q : Nat} {u v : Bytes}

theorem take (h : TailApart q u v) (n : Nat) : TailApart q (u.take n) (v.take n) where
  length_eq := by rw [List.length_take, List.length_take, h.length_eq]
  short := Nat.le_trans (List.length_take_le' _ _) h.short
  tail := by
    intro k hne
    rw [List.getElem?_take, List.getElem?_take] at hne
    split at hne
    · exact h.tail k hne
    · exact absurd rfl hne

theorem drop (h : TailApart q u v) {s : Nat} (hs : s ≤ q) :
    TailApart (q - s) (u.drop (4 * s)) (v.drop (4 * s)) where
  length_eq := by rw [List.length_drop, List.length_drop, h.length_eq]
  short := by
    have hshort := h.short
    rw [List.length_drop]
    omega
  tail := by
    intro k hne
    rw [List.getElem?_drop, List.getElem?_drop] at hne
    have htail := h.tail _ hne
    omega

end Bytes.TailApart

/-- The type of a header is in its first byte. -/
theorem Header.type_eq_of_head {h h' : Header} (hfirst : h.toBytes[0]? = h'.toBytes[0]?) : h.type = h'.type := by
  have htag := h.tag.isLt
  have htag' := h'.tag.isLt
  have hbyte : UInt8.ofNat ((if h.named then 128 else 0) + h.tag) =
      UInt8.ofNat ((if h'.named then 128 else 0) + h'.tag) := by
    rw [toBytes_eq, toBytes_eq] at hfirst
    exact Option.some.inj hfirst
  have hsame : (h.tag : Nat) = h'.tag := by
    rw [← UInt8.toNat_inj, UInt8.toNat_ofNat', UInt8.toNat_ofNat'] at hbyte
    split at hbyte <;> split at hbyte <;> omega
  rw [type, type, hsame]

namespace Bytes.TailApart

variable {q : Nat} {h h' : Header} {rest rest' : Bytes}

/-- In the last group, the headers have the same type, and nothing follows. -/
theorem last (e : TailApart 0 (h.toBytes ++ rest) (h'.toBytes ++ rest')) :
    h.type = h'.type ∧ rest = [] ∧ rest' = [] := by
  have hlength := e.length_eq
  have hshort := e.short
  rw [List.length_append, List.length_append, Header.length_toBytes, Header.length_toBytes] at hlength
  rw [List.length_append, Header.length_toBytes] at hshort
  refine ⟨Header.type_eq_of_head ?_, List.eq_nil_of_length_eq_zero (by omega),
    List.eq_nil_of_length_eq_zero (by omega)⟩
  by_contra hne
  have htail := e.tail 0
  rw [List.getElem?_append_left (by simp), List.getElem?_append_left (by simp)] at htail
  exact absurd (htail hne) (Nat.lt_irrefl 0)

/-- In front of the last group, the headers are the same. -/
theorem next (e : TailApart (q + 1) (h.toBytes ++ rest) (h'.toBytes ++ rest')) :
    h = h' ∧ TailApart q rest rest' := by
  -- bytes that differ lie behind all of the groups but the last one
  have hsame : h.toBytes = h'.toBytes := by
    apply List.ext_getElem?
    intro k
    by_contra hne
    have hlengths : h.toBytes.length = h'.toBytes.length := by
      rw [Header.length_toBytes, Header.length_toBytes]
    have hk := Bytes.lt_length_of_getElem?_ne hlengths hne
    have htail := e.tail k
    rw [List.getElem?_append_left hk, List.getElem?_append_left (hlengths ▸ hk)] at htail
    have hlt := htail hne
    rw [Header.length_toBytes] at hk
    omega
  have hdrop := e.drop (Nat.le_add_left 1 q)
  rw [List.drop_left' (by simp), List.drop_left' (by simp)] at hdrop
  exact ⟨Header.toBytes_injective hsame, hdrop⟩

end Bytes.TailApart

namespace Field

/-- Fields of the same type in bytes that differ at their tail. The headers are the same as well, unless the
    bytes end behind them. -/
def TailApart (f g : Field) : Prop :=
  f.type = g.type ∧
    ((f.header = g.header ∧ ∃ q, Bytes.TailApart q f.body g.body) ∨ (f.body = [] ∧ g.body = []))

variable {f g : Field}

theorem siblings_nil (offset : Nat) : siblings offset 0 [] = [] := by simp [siblings]

/-- **A walk through bytes that differ at their tail meets fields that do.** -/
theorem forall₂_siblings {q offset : Nat} {u v : Bytes} (h : Bytes.TailApart q u v) :
    List.Forall₂ TailApart ((siblings offset 0 u).map (·.2)) ((siblings offset 0 v).map (·.2)) := by
  -- induction on the number of the last group, which goes down with every field that is passed
  induction q using Nat.strongRecOn generalizing u v offset with
  | ind q ih =>
    rcases Nat.lt_or_ge u.length headerSize with hshort | hroom
    · rw [siblings_eq, siblings_eq, ofBytes?_of_short hshort, ofBytes?_of_short (h.length_eq ▸ hshort)]
      exact .nil
    · obtain ⟨header, hu⟩ := Header.exists_ofBytes? hroom
      obtain ⟨header', hv⟩ := Header.exists_ofBytes? (h.length_eq ▸ hroom)
      rw [Header.eq_toBytes_append hu, Header.eq_toBytes_append hv] at h ⊢
      generalize u.drop headerSize = rest, v.drop headerSize = rest' at h ⊢
      rw [siblings_header, siblings_header, List.map_cons, List.map_cons]
      cases q with
      | zero =>
        obtain ⟨htype, rfl, rfl⟩ := h.last
        rw [List.drop_nil, List.drop_nil, siblings_nil, siblings_nil]
        exact .cons ⟨htype, .inr ⟨List.take_nil, List.take_nil⟩⟩ .nil
      | succ q =>
        obtain ⟨rfl, hrest⟩ := h.next
        refine .cons ⟨rfl, .inl ⟨rfl, q, hrest.take _⟩⟩ ?_
        obtain ⟨s, hs⟩ : 4 ∣ bodyRoom header := by
          have hpadded : 4 ∣ header.paddedLength := dvd_alignUp _
          unfold bodyRoom headerSize
          omega
        rw [hs]
        rcases Nat.lt_or_ge q s with hend | hle
        · -- the first field takes up all that is left
          have hshort := hrest.short
          have hlength := hrest.length_eq
          rw [List.drop_of_length_le (by omega), List.drop_of_length_le (by omega), siblings_nil]
          exact .nil
        · exact ih (q - s) (by omega) (hrest.drop hle)

theorem TailApart.children (h : f.TailApart g) : List.Forall₂ TailApart f.children g.children := by
  rw [Field.children, Field.children, placedChildren, placedChildren]
  obtain ⟨-, ⟨hheader, q, hbody⟩ | ⟨hf, hg⟩⟩ := h
  · rw [rawLength, rawLength, hheader]
    split
    · exact .nil
    · exact forall₂_siblings hbody
  · rw [hf, hg, siblings_nil, ite_self, ite_self]
    exact .nil

namespace SlackApart

/-- Slack is at the tail of a field that is not a container. -/
theorem tailApart (h : f.SlackApart g) (hscalar : f.type.isContainer = false) : f.TailApart g := by
  obtain ⟨_, hf⟩ := h.exists_bytes
  have hbodies : f.body.length = g.body.length := by
    have hlength := h.length_eq
    rw [bytes, bytes, List.length_append, List.length_append, Header.length_toBytes,
      Header.length_toBytes] at hlength
    omega
  -- the body ends with the padded length
  have hroom : headerSize + f.body.length ≤ max (alignUp f.rawLength) headerSize := by
    have hlength := length_bytes_of_ofBytes? hf
    rw [bytes, List.length_append, Header.length_toBytes] at hlength
    exact hlength
  unfold alignUp at hroom
  -- the last group of four of the body, which the slack is a part of
  refine ⟨h.type_eq, .inl ⟨h.header_eq, (f.rawLength + 3) / 4 - 2, hbodies, ?_, ?_⟩⟩
  · unfold headerSize at hroom
    omega
  · intro k hne
    have hk : k < f.body.length := Bytes.lt_length_of_getElem?_ne hbodies hne
    rw [← drop_headerSize_bytes, ← drop_headerSize_bytes, List.getElem?_drop, List.getElem?_drop] at hne
    obtain ⟨hlow, hstart⟩ := (h.slack _ hne).of_scalar hscalar
    unfold headerSize at hroom hlow hstart
    omega

/-- **Slack does not change the type of anything**, not even of what is spelled by a payload. -/
theorem sameTypes (h : f.SlackApart g) : f.SameTypes g := by
  -- in the tree fields are apart in slack; a walk that goes on through a payload meets fields that differ at
  -- their tail, and stays among such fields
  refine .of_related (R := fun f g => f.SlackApart g ∨ f.TailApart g) ?_ ?_ (.inl h)
  · rintro f g (h | h)
    · exact h.type_eq
    · exact h.1
  · rintro f g (h | h)
    · cases hcontainer : f.type.isContainer with
      | true => exact (h.children hcontainer).imp fun _ _ => .inl
      | false => exact (h.tailApart hcontainer).children.imp fun _ _ => .inr
    · exact h.children.imp fun _ _ => .inr

theorem validate_eq (h : f.SlackApart g) (signature : String) : f.validate signature = g.validate signature :=
  h.sameTypes.validate_eq signature

/-! ## Values -/

theorem isContainer_eq (h : f.SlackApart g) {t : FieldType} (htype : g.type = t) :
    f.type.isContainer = t.isContainer := by
  rw [h.type_eq, htype]

theorem word?_eq (h : f.SlackApart g) (hscalar : f.type.isContainer = false) (width : Nat) :
    f.word? width = g.word? width := by
  rw [word?, word?, h.data_eq hscalar]

theorem text_eq (h : f.SlackApart g) : f.text = g.text := by
  rw [text, text, h.type_eq]
  split
  · next htype => rw [h.data_eq (h.isContainer_eq htype)]
  · rfl

/-- A container is no integer, whatever bytes it holds. -/
theorem storedInt_of_isContainer (hcontainer : f.type.isContainer = true) : f.storedInt = Bytes.toInt [] := by
  have hword : f.word? 0 = some [] := by rw [word?, if_pos (Nat.zero_le _), List.take_zero]
  unfold storedInt
  generalize f.type = t at hcontainer
  cases t with
  | array | table =>
    dsimp only
    rw [hword]
    rfl
  | invalid | binary | string | int8 | int16 | int32 | int64 | float32 | float64 | bool => cases hcontainer

theorem storedInt_eq (h : f.SlackApart g) : f.storedInt = g.storedInt := by
  cases hcontainer : f.type.isContainer with
  | true =>
    have hcontainer' : g.type.isContainer = true := h.type_eq ▸ hcontainer
    rw [storedInt_of_isContainer hcontainer, storedInt_of_isContainer hcontainer']
  | false =>
    unfold storedInt
    rw [h.type_eq, funext (h.word?_eq hcontainer)]

theorem real_eq (h : f.SlackApart g) : f.real = g.real := by
  unfold real
  rw [h.type_eq, h.storedInt_eq, h.text_eq]
  split
  · next htype => rw [h.word?_eq (h.isContainer_eq htype)]
  · next htype => rw [h.word?_eq (h.isContainer_eq htype)]
  all_goals rfl

theorem int_eq (h : f.SlackApart g) : f.int = g.int := by
  rw [int, int, h.type_eq, h.real_eq, h.text_eq, h.storedInt_eq]

theorem truth_eq (h : f.SlackApart g) : f.truth = g.truth := by rw [truth, truth, h.int_eq]

theorem reading_eq (h : f.SlackApart g) : Reading.of (some f) = Reading.of (some g) := by
  rw [Reading.of, Reading.of, h.type_eq, h.int_eq, h.real_eq, h.truth_eq, h.text_eq]

/-! ## Renderings -/

theorem scalarText_eq (h : f.SlackApart g) : Json.scalarText f = Json.scalarText g := by
  rw [Json.scalarText, Json.scalarText, h.type_eq, h.int_eq, h.real_eq, h.truth_eq, h.text_eq]

end SlackApart

theorem forall₂_pairUp {α β : Type} {R : α → β → Prop} {xs : List α} {ys : List β} (h : List.Forall₂ R xs ys) :
    List.Forall₂ (fun a b => R a.1 b.1 ∧ Option.Rel R a.2 b.2) (pairUp xs) (pairUp ys) := by
  induction xs using pairUp.induct generalizing ys with
  | case1 =>
    cases h
    exact .nil
  | case2 a =>
    obtain _ | ⟨hab, ⟨⟩⟩ := h
    exact .cons ⟨hab, .none⟩ .nil
  | case3 a b rest ih =>
    obtain _ | ⟨hkey, _ | ⟨hvalue, hrest⟩⟩ := h
    exact .cons ⟨hkey, .some hvalue⟩ (ih hrest)

namespace SlackApart

/-- **A rendering is made of values.** -/
theorem renderAt_eq (h : f.SlackApart g) (style : Json.Style) (depth level : Nat) :
    Json.renderAt style depth level f = Json.renderAt style depth level g := by
  -- induction on the levels that are left to print; payloads are read, walks lead through containers only
  induction depth generalizing level f g with
  | zero => exact h.scalarText_eq
  | succ depth ih =>
    unfold Json.renderAt
    rw [h.type_eq]
    split
    · next htype =>
      have hcontainer : f.type.isContainer = true := h.isContainer_eq htype
      rw [map_eq_map_of_forall₂ (h.children hcontainer) fun c d hcd => ih hcd (level + 1)]
    · next htype =>
      have hcontainer : f.type.isContainer = true := h.isContainer_eq htype
      refine congrArg _ (map_eq_map_of_forall₂ (forall₂_pairUp (h.children hcontainer)) ?_)
      rintro ⟨key, value⟩ ⟨key', value'⟩ ⟨hkey, hvalue⟩
      dsimp only at hkey hvalue ⊢
      rw [hkey.text_eq]
      cases hvalue with
      | none => rfl
      | some hvalue =>
        rw [Option.map_some, Option.map_some, ih hvalue (level + 1)]
    · exact h.scalarText_eq

theorem render_eq (h : f.SlackApart g) (style : Json.Style) : Json.render style f = Json.render style g := by
  rw [Json.render, Json.render, h.renderAt_eq]

/-! ## Listings -/

/-- The line of a field is made of its header. -/
theorem field_text_eq (h : f.SlackApart g) (depth offset : Nat) :
    (Listing.Line.field depth offset f).text = (Listing.Line.field depth offset g).text := by
  simp only [Listing.Line.text, paddedLength, rawLength, h.type_eq, h.header_eq]

/-- **A listing is made of headers and payloads.** -/
theorem lines_text_eq (h : f.SlackApart g) (room depth offset : Nat) :
    (Listing.lines room depth offset f).map (·.text) = (Listing.lines room depth offset g).map (·.text) := by
  -- induction on the room for deeper fields; the payload of a scalar does not hold its slack
  induction room generalizing depth offset f g with
  | zero =>
    unfold Listing.lines
    rw [List.map_cons, List.map_cons, h.field_text_eq, ← h.type_eq]
    split
    · rfl
    · next hscalar => rw [h.data_eq (eq_false_of_ne_true hscalar)]
  | succ room ih =>
    unfold Listing.lines
    rw [List.map_cons, List.map_cons, h.field_text_eq, ← h.type_eq]
    split
    · next hcontainer =>
      rw [List.map_flatMap, List.map_flatMap, List.flatMap_def, List.flatMap_def,
        map_eq_map_of_forall₂ (h.placedChildren hcontainer)]
      rintro ⟨offset, c⟩ ⟨offset', d⟩ ⟨hoffset, hcd⟩
      dsimp only at hoffset hcd ⊢
      rw [hoffset, ih hcd]
    · next hscalar => rw [h.data_eq (eq_false_of_ne_true hscalar)]

theorem dump_eq (h : f.SlackApart g) : f.dump = g.dump := by
  rw [dump, dump, listing, listing, h.lines_text_eq]

end SlackApart

end Field

/-! ## Bound values -/

/-- Policies that ask for the same and have values that differ in slack only. -/
structure Policy.SlackApart (p q : Policy) : Prop where
  name_eq : p.name = q.name
  kind_eq : p.kind = q.kind
  value : Option.Rel Field.SlackApart p.value q.value

namespace Policy.SlackApart

variable {p q : Policy} {f g : Field}

theorem clear (p : Policy) : SlackApart p.clear p.clear := ⟨rfl, rfl, .none⟩

theorem take (h : SlackApart p q) (hfg : f.SlackApart g) : SlackApart (p.take f) (q.take g) :=
  ⟨h.name_eq, h.kind_eq, .some hfg⟩

theorem accepts_eq (h : SlackApart p q) (hfg : f.SlackApart g) : p.accepts f = q.accepts g := by
  rw [accepts, accepts, h.kind_eq, hfg.type_eq]

end Policy.SlackApart

namespace Binding

/-- Bindings that end the same way, with values that differ in slack only. -/
structure SlackApart (b b' : Binding) : Prop where
  ok_eq : b.ok = b'.ok
  policies : List.Forall₂ Policy.SlackApart b.policies b'.policies

variable {b b' : Binding} {key key' value value' : Field}

theorem forall₂_modify {α : Type} {R : α → α → Prop} {xs ys : List α} (h : List.Forall₂ R xs ys) {φ ψ : α → α}
    (hφ : ∀ x y, R x y → R (φ x) (ψ y)) (i : Nat) : List.Forall₂ R (xs.modify i φ) (ys.modify i ψ) := by
  induction h generalizing i with
  | nil =>
    rw [List.modify_nil, List.modify_nil]
    exact .nil
  | cons hxy hrest ih =>
    cases i with
    | zero => exact .cons (hφ _ _ hxy) hrest
    | succ i => exact .cons hxy (ih i)

theorem SlackApart.serve (h : SlackApart b b') (hvalue : value.SlackApart value') (i : Nat) :
    SlackApart (b.serve i key value) (b'.serve i key' value') := by
  have haccepts : (b.policies[i]?).any (·.accepts value) = (b'.policies[i]?).any (·.accepts value') := by
    have hpolicy := rel_getElem? h.policies i
    generalize b.policies[i]? = p?, b'.policies[i]? = q? at hpolicy
    cases hpolicy with
    | none => rfl
    | some hpq => exact hpq.accepts_eq hvalue
  rw [Binding.serve, Binding.serve, haccepts]
  split
  · exact ⟨h.ok_eq, forall₂_modify h.policies (fun p q hpq => hpq.take hvalue) i⟩
  · exact ⟨rfl, h.policies⟩

/-- **Entries of a table are bound by the texts of their keys and the types of their values.** -/
theorem SlackApart.ofPairs {pairs pairs' : List (Field × Field)}
    (hpairs : List.Forall₂ (fun a a' => a.1.SlackApart a'.1 ∧ a.2.SlackApart a'.2) pairs pairs')
    (h : SlackApart b b') (matched : Nat) : SlackApart (ofPairs matched b pairs) (ofPairs matched b' pairs') := by
  induction hpairs generalizing b b' matched with
  | nil => exact h
  | @cons a a' rest rest' hentry _ ih =>
    obtain ⟨key, value⟩ := a
    obtain ⟨key', value'⟩ := a'
    obtain ⟨hkey, hvalue⟩ := hentry
    dsimp only at hkey hvalue
    -- the same policy is asked for the entry, because the policies have the same names in the same order
    have hnames : b.policies.map (·.name) = b'.policies.map (·.name) :=
      map_eq_map_of_forall₂ h.policies fun p q hpq => hpq.name_eq
    have hfind : b.policies.findIdx? (·.name == key.text) = b'.policies.findIdx? (·.name == key'.text) := by
      have hfound := congrArg (List.findIdx? (· == key.text)) hnames
      rw [List.findIdx?_map, List.findIdx?_map] at hfound
      rw [← hkey.text_eq]
      exact hfound
    rw [Binding.ofPairs, Binding.ofPairs, h.policies.length_eq, hfind]
    split
    · exact ⟨rfl, h.policies⟩
    · split
      · exact ih h matched
      · exact ih (h.serve hvalue _) (matched + 1)

/-- **Children of an array are bound by their types.** -/
theorem slackApart_ofChildren {children children' : List Field}
    (hchildren : List.Forall₂ Field.SlackApart children children') {policies policies' : List Policy}
    (h : List.Forall₂ Policy.SlackApart policies policies') :
    SlackApart (ofChildren policies children) (ofChildren policies' children') := by
  -- induction on the children; the policies are taken one by one along with them
  induction hchildren generalizing policies policies' with
  | nil =>
    rw [Binding.ofChildren, Binding.ofChildren]
    exact ⟨rfl, h⟩
  | cons hchild _ ih =>
    cases h with
    | nil => exact ⟨rfl, .nil⟩
    | cons hpolicy hrest =>
      obtain ⟨hok, hpolicies⟩ := ih hrest
      have haccepts := hpolicy.accepts_eq hchild
      rw [Binding.ofChildren, Binding.ofChildren]
      refine ⟨?_, .cons ?_ hpolicies⟩
      · dsimp only
        rw [haccepts, hok]
      · rw [haccepts]
        split
        · exact hpolicy.take hchild
        · exact hpolicy

/-- The bound values are there in both or in neither, and read the same. -/
theorem SlackApart.values (h : SlackApart b b') :
    List.Forall₂ (Option.Rel fun c d => Reading.of (some c) = Reading.of (some d)) b.values b'.values := by
  rw [Binding.values, Binding.values, List.forall₂_map_left_iff, List.forall₂_map_right_iff]
  refine h.policies.imp fun p q hpq => ?_
  have hvalue := hpq.value
  generalize p.value = value?, q.value = value'? at hvalue
  cases hvalue with
  | none => exact .none
  | some hvalue => exact .some hvalue.reading_eq

end Binding

namespace Field

variable {f g : Field}

theorem SlackApart.pairs (h : f.SlackApart g) (hcontainer : f.type.isContainer = true) :
    List.Forall₂ (fun a b => a.1.SlackApart b.1 ∧ a.2.SlackApart b.2) f.pairs g.pairs := by
  rw [Field.pairs, Field.pairs]
  refine List.rel_filterMap ?_ (forall₂_pairUp (h.children hcontainer))
  rintro ⟨key, value⟩ ⟨key', value'⟩ ⟨hkey, hvalue⟩
  dsimp only at hkey hvalue ⊢
  cases hvalue with
  | none => exact .none
  | some hvalue => exact .some ⟨hkey, hvalue⟩

theorem SlackApart.bind (h : f.SlackApart g) (policies : List Policy) :
    Binding.SlackApart (f.bind policies) (g.bind policies) := by
  have hcleared : List.Forall₂ Policy.SlackApart (policies.map Policy.clear) (policies.map Policy.clear) := by
    rw [List.forall₂_map_left_iff, List.forall₂_map_right_iff, List.forall₂_same]
    exact fun p _ => .clear p
  unfold Field.bind
  rw [h.type_eq]
  split
  · next htype =>
    have hcontainer : f.type.isContainer = true := h.isContainer_eq htype
    exact .ofPairs (h.pairs hcontainer) ⟨rfl, hcleared⟩ 0
  · next htype =>
    have hcontainer : f.type.isContainer = true := h.isContainer_eq htype
    exact Binding.slackApart_ofChildren (h.children hcontainer) hcleared
  · exact ⟨rfl, hcleared⟩

/-! ## Main statement -/

/-- Fields that no reader can tell apart. -/
structure ReadAlike (f g : Field) : Prop where
  reading : Reading.of (some f) = Reading.of (some g)
  render : ∀ style, Json.render style f = Json.render style g
  dump : f.dump = g.dump
  validate : ∀ signature, f.validate signature = g.validate signature
  /-- binding ends the same way, with values for the same policies, and these values read the same -/
  bind : ∀ policies, (f.bind policies).ok = (g.bind policies).ok ∧
    List.Forall₂ (Option.Rel fun c d => Reading.of (some c) = Reading.of (some d))
      (f.bind policies).values (g.bind policies).values

theorem SlackApart.readAlike (h : f.SlackApart g) : f.ReadAlike g where
  reading := h.reading_eq
  render := h.render_eq
  dump := h.dump_eq
  validate := h.validate_eq
  bind := fun policies => ⟨(h.bind policies).ok_eq, (h.bind policies).values⟩

/-- **Slack is not read.** Two byte strings of the same length start with fields whose trees have the same headers
    at the same paths, and wherever they differ there is slack of a field in the tree. Then no reader can tell the
    two fields apart, and at every path there is a field in both trees, at the same offset, or in neither, and no
    reader can tell these fields apart. -/
theorem slack_unread {bytes bytes' : Bytes} (hlength : bytes.length = bytes'.length)
    (hf : ofBytes? bytes = some f) (hg : ofBytes? bytes' = some g)
    (hheaders : ∀ path, (f.placedAt? path).map (·.2.header) = (g.placedAt? path).map (·.2.header))
    (hslack : ∀ p : Nat, bytes[p]? ≠ bytes'[p]? → f.Slack p) :
    f.ReadAlike g ∧
      ∀ path, Option.Rel (fun c d => c.1 = d.1 ∧ ReadAlike c.2 d.2) (f.placedAt? path) (g.placedAt? path) := by
  have hapart := slackApart_of_ofBytes? hlength hf hg hheaders hslack
  refine ⟨hapart.readAlike, fun path => ?_⟩
  have hpath := hapart.placedAt? path
  generalize f.placedAt? path = c?, g.placedAt? path = d? at hpath
  cases hpath with
  | none => exact .none
  | some hcd => exact .some ⟨hcd.1, hcd.2.readAlike⟩

/-- An array of a text and a number, of which the last byte is missing. -/
def sampleClear : Bytes := [0x09, 0, 0, 0x14, 0x02, 0, 0, 6, 0x6b, 0, 0, 0, 0x04, 0, 0, 6, 1, 2, 0]

/-- The same with other slack. -/
def sampleSoiled : Bytes := [0x09, 0, 0, 0x14, 0x02, 0, 0, 6, 0x6b, 0, 0xff, 7, 0x04, 0, 0, 6, 1, 2, 0x7f]

theorem slack_unread_sampleSoiled :
    ∃ f g, sampleClear.length = sampleSoiled.length ∧ ofBytes? sampleClear = some f ∧
      ofBytes? sampleSoiled = some g ∧
      (∀ path, (f.placedAt? path).map (·.2.header) = (g.placedAt? path).map (·.2.header)) ∧
      (∀ p : Nat, sampleClear[p]? ≠ sampleSoiled[p]? → f.Slack p) ∧ f.children ≠ g.children ∧
      f.ReadAlike g ∧
      ∀ path, Option.Rel (fun c d => c.1 = d.1 ∧ ReadAlike c.2 d.2) (f.placedAt? path) (g.placedAt? path) := by
  have hlength : sampleClear.length = sampleSoiled.length := rfl
  have hf : ofBytes? sampleClear = some ⟨.ofWord 0x09000014, sampleClear.drop headerSize⟩ := by decide
  have hg : ofBytes? sampleSoiled = some ⟨.ofWord 0x09000014, sampleSoiled.drop headerSize⟩ := by decide
  have hheaders : ∀ path,
      (placedAt? ⟨.ofWord 0x09000014, sampleClear.drop headerSize⟩ path).map (·.2.header) =
        (placedAt? ⟨.ofWord 0x09000014, sampleSoiled.drop headerSize⟩ path).map (·.2.header) := by
    intro path
    -- the tree has two children, and no path leads further
    match path with
    | [] | [0] | [1] | 0 :: _ :: _ | 1 :: _ :: _ | (_ + 2) :: _ => rfl
  have hslack : ∀ p : Nat, sampleClear[p]? ≠ sampleSoiled[p]? →
      Slack ⟨.ofWord 0x09000014, sampleClear.drop headerSize⟩ p := by
    intro p hne
    have hp : p < 19 := Bytes.lt_length_of_getElem?_ne hlength hne
    have hplace : p = 10 ∨ p = 11 ∨ p = 18 := by
      have hall : ∀ p < 19, sampleClear[p]? ≠ sampleSoiled[p]? → p = 10 ∨ p = 11 ∨ p = 18 := by decide
      exact hall p hp hne
    rcases hplace with rfl | rfl | rfl
    · exact ⟨[0], 4, ⟨.ofWord 0x02000006, [0x6b, 0, 0, 0]⟩, by decide⟩
    · exact ⟨[0], 4, ⟨.ofWord 0x02000006, [0x6b, 0, 0, 0]⟩, by decide⟩
    · exact ⟨[1], 12, ⟨.ofWord 0x04000006, [1, 2, 0]⟩, by decide⟩
  exact ⟨_, _, hlength, hf, hg, hheaders, hslack, by decide, slack_unread hlength hf hg hheaders hslack⟩

end Field

end FieldTree
