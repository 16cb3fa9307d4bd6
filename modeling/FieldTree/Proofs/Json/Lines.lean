import FieldTree.Proofs.Json.Indentation
import FieldTree.Proofs.Json.Nesting

/-!
# Lines and the Fields They Show

A rendering with one element per line says by its brackets which containers are empty: the two brackets of an empty
one stand side by side, and those of the others stand on lines of their own. This module ties the brackets to the
field that is rendered. Every opening bracket outside of quotes is that of a container in the field, as many levels
inside as there are containers open, and every container that is not too deep has such a bracket.

## Architecture

- `Shows`: which fields are shown inside a field, and how many levels deep.
- `Begins`: the opening bracket of a container, with what stands behind it.
- `entries`, `renderAt_container`, `trailing`: arrays and tables as one kind of container, element by element.
- `Accounted`, `accounted_renderAt`: every bracket belongs to a container.
- `exists_begins`: every container has its bracket.
- `layout_render`: **the main statement.**
-/

namespace FieldTree.Json

/-- The field `g` is shown inside of `f`, with `k` containers around it. -/
inductive Shows : (f : Field) → (k : Nat) → (g : Field) → Prop where
  | itself (f : Field) : Shows f 0 f
  | inside {f c g : Field} {k : Nat} (hc : c ∈ f.elements) (h : Shows c k g) : Shows f (k + 1) g

namespace Indentation

/-- The character `c`, with `after` behind it, is the bracket of the container `g`. The closing bracket stands right
    behind it if nothing is in the container, and only then. -/
def Begins (g : Field) (c : Char) (after : List Char) : Prop :=
  ∃ bracket : Bracket, g.type = bracket.container ∧ c = bracket.opening ∧
    (after.head? = some bracket.closing ↔ g.children = [])

/-! ## Containers -/

theorem exists_bracket {f : Field} (h : f.type.isContainer = true) :
    ∃ bracket : Bracket, f.type = bracket.container := by
  cases htype : f.type with
  | array => exact ⟨.square, rfl⟩
  | table => exact ⟨.brace, rfl⟩
  | _ =>
    rw [htype] at h
    cases h

/-- What stands between the brackets of a container: for each element, what is in front of the value, and the value
    unless it is missing. -/
def entries (style : Style) (f : Field) : List (List Char × Option Field) :=
  match f.type with
  | .array => f.children.map fun c => ([], some c)
  | .table => (Field.pairUp f.children).map fun member => (quote member.1.text ++ style.colon, member.2)
  | _ => []

/-- The text of an element. -/
def entryText (style : Style) (depth level : Nat) (entry : List Char × Option Field) : List Char :=
  entry.1 ++ (entry.2.map (renderAt style depth level)).getD "null".toList

/-- **A container is rendered as its elements between its brackets.** -/
theorem renderAt_container {f : Field} {bracket : Bracket} (h : f.type = bracket.container) (style : Style)
    (depth level : Nat) :
    renderAt style (depth + 1) level f =
      enclose style level bracket ((entries style f).map (entryText style depth (level + 1))) := by
  cases bracket with
  | square =>
    have htype : f.type = .array := h
    rw [renderAt_array htype, entries, htype, List.map_map]
    rfl
  | brace =>
    have htype : f.type = .table := h
    rw [renderAt_table htype, entries, htype, List.map_map]
    rfl

theorem entries_eq_nil_iff {f : Field} {bracket : Bracket} (h : f.type = bracket.container) (style : Style) :
    entries style f = [] ↔ f.children = [] := by
  cases bracket with
  | square =>
    have htype : f.type = .array := h
    rw [entries, htype, List.map_eq_nil_iff]
  | brace =>
    have htype : f.type = .table := h
    rw [entries, htype, List.map_eq_nil_iff]
    -- also a key that is alone is an element
    rcases f.children with _ | ⟨key, _ | ⟨value, rest⟩⟩ <;> simp [Field.pairUp]

/-- The values in a container are what is shown right inside of it. -/
theorem mem_elements_iff {f c : Field} {bracket : Bracket} (h : f.type = bracket.container) (style : Style) :
    c ∈ f.elements ↔ ∃ front, (front, some c) ∈ entries style f := by
  cases bracket with
  | square =>
    have htype : f.type = .array := h
    simp [Field.elements, entries, htype]
  | brace =>
    have htype : f.type = .table := h
    simp [Field.elements, Field.pairs, entries, htype]

/-- What stands behind an element of a container: those that follow it, and the last line. -/
def trailing (style : Style) (level : Nat) (bracket : Bracket) : List (List Char) → List Char
  | [] => style.separator level ++ [bracket.closing]
  | element :: more => ',' :: (style.separator (level + 1) ++ (element ++ trailing style level bracket more))

theorem enclose_cons (style : Style) (level : Nat) (bracket : Bracket) (first : List Char)
    (more : List (List Char)) :
    enclose style level bracket (first :: more) =
      bracket.opening :: (style.separator (level + 1) ++ (first ++ trailing style level bracket more)) := by
  have htrailing : trailing style level bracket more =
      more.flatMap (fun e => ',' :: style.separator (level + 1) ++ e) ++
        (style.separator level ++ [bracket.closing]) := by
    induction more with
    | nil => rfl
    | cons e more ih => simp [trailing, ih]
  simp [enclose, htrailing]

/-! ## Readers -/

section Readers

variable {indent k : Nat}

theorem behind_separator (level : Nat) :
    Reader.behind ⟨.outside, k⟩ (Style.separator ⟨true, indent⟩ level) = ⟨.outside, k⟩ := by
  have htabs (n : Nat) : Reader.behind ⟨.outside, k⟩ (List.replicate n '\t') = ⟨.outside, k⟩ := by
    induction n with
    | zero => rfl
    | succ n ih => exact ih
  exact htabs _

/-- The character in front of an element, with the line that it ends. -/
theorem behind_mark {r : Reader} {mark : Char} (hmark : r.next mark = ⟨.outside, k⟩) (level : Nat) :
    r.behind (mark :: Style.separator ⟨true, indent⟩ level) = ⟨.outside, k⟩ := by
  rw [Reader.behind_cons, hmark, behind_separator]

theorem not_opens_of_mem_separator (style : Style) (level : Nat) : ∀ c ∈ style.separator level, ¬opens c := by
  intro c hc hopens
  have hblank := isBlank_of_mem_separator style level c hc
  rcases hopens with rfl | rfl <;> cases hblank

/-- What stands in front of a value is read to its end. -/
theorem behind_front {f : Field} {entry : List Char × Option Field} (h : entry ∈ entries ⟨true, indent⟩ f)
    (hk : k ≤ maxDepth) : Reader.behind ⟨.outside, k⟩ entry.1 = ⟨.outside, k⟩ := by
  unfold entries at h
  split at h
  · obtain ⟨child, -, rfl⟩ := List.mem_map.mp h
    rfl
  · obtain ⟨member, -, rfl⟩ := List.mem_map.mp h
    have hkey : Part indent ⟨.outside, k⟩ ⟨.outside, k⟩ (quote member.1.text) (quote member.1.text) [] :=
      part_quoted (quoted_quote _) hk
    rw [Reader.behind_append, hkey.behind]
    rfl
  · cases h

theorem behind_entryText {f : Field} {entry : List Char × Option Field} (h : entry ∈ entries ⟨true, indent⟩ f)
    {depth : Nat} (hdepth : depth + k ≤ maxDepth) :
    Reader.behind ⟨.outside, k⟩ (entryText ⟨true, indent⟩ depth (indent + k) entry) = ⟨.outside, k⟩ := by
  have hk : k ≤ maxDepth := Nat.le_trans (Nat.le_add_left _ _) hdepth
  rw [entryText, Reader.behind_append, behind_front h hk]
  cases entry.2 with
  | none => exact ((element_null hk : Element indent k _ _).part []).behind
  | some value => exact ((element_renderAt hdepth 0 value).part []).behind

end Readers

/-! ## Every bracket belongs to a container -/

section Accounted

variable {good : Nat → Char → List Char → Prop} {r : Reader} {c : Char} {t u text rest : List Char} {k : Nat}

/-- Every opening bracket outside of quotes is good, at its level and with what stands behind it. -/
def Accounted (good : Nat → Char → List Char → Prop) (r : Reader) (text rest : List Char) : Prop :=
  ∀ before c after, text = before ++ c :: after → opens c → (r.behind before).place.isLiteral = false →
    good (r.behind before).level c (after ++ rest)

theorem Accounted.mono {good' : Nat → Char → List Char → Prop} (h : Accounted good r text rest)
    (hgood : ∀ level c after, good level c after → good' level c after) : Accounted good' r text rest :=
  fun before c after htext hopens hplace => hgood _ _ _ (h before c after htext hopens hplace)

theorem accounted_nil : Accounted good r [] rest := by
  intro before c after h
  cases before <;> cases h

theorem accounted_cons :
    Accounted good r (c :: text) rest ↔
      (opens c → r.place.isLiteral = false → good r.level c (text ++ rest)) ∧
        Accounted good (r.next c) text rest := by
  constructor
  case mp =>
    intro h
    refine ⟨h [] c text rfl, fun before d after htext => h (c :: before) d after ?_⟩
    rw [htext, List.cons_append]
  case mpr =>
    rintro ⟨hc, htext⟩ before d after h
    cases before with
    | nil =>
      cases h
      exact hc
    | cons _ before =>
      cases h
      exact htext before d after rfl

theorem accounted_append :
    Accounted good r (t ++ u) rest ↔ Accounted good r t (u ++ rest) ∧ Accounted good (r.behind t) u rest := by
  induction t generalizing r with
  | nil => simp [accounted_nil]
  | cons c t ih => simp [accounted_cons, ih, and_assoc]

theorem accounted_of_closed (h : ∀ c ∈ text, ¬opens c) : Accounted good r text rest := by
  intro before c after htext hopens
  exact absurd hopens (h c (by simp [htext]))

/-! ### Scalars -/

theorem IsWord.accounted (h : IsWord text) : Accounted good r text rest := by
  apply accounted_of_closed
  rintro c hc (rfl | rfl)
  · exact absurd (h.plain _ hc) (by simp [IsPlain])
  · exact absurd (h.plain _ hc) (by simp [IsPlain])

/-- Between quotes there is nothing to account for. -/
theorem accounted_cons_literal {place : Place} (hplace : place.isLiteral = true) :
    Accounted good ⟨place, k⟩ (c :: text) rest ↔ Accounted good ⟨place.next c, k⟩ text rest := by
  have hnext : Reader.next ⟨place, k⟩ c = ⟨place.next c, k⟩ := by simp [Reader.next, hplace]
  simp [accounted_cons, hplace, hnext]

theorem accounted_unescaped {cs : List Char} (hcs : ∀ c ∈ cs, c ≠ '"' ∧ c ≠ '\\')
    (h : Accounted good ⟨.literal, k⟩ text rest) : Accounted good ⟨.literal, k⟩ (cs ++ text) rest := by
  induction cs with
  | nil => exact h
  | cons c cs ih =>
    obtain ⟨⟨hquote, hbackslash⟩, hcs⟩ := List.forall_mem_cons.mp hcs
    rw [List.cons_append, accounted_cons_literal rfl]
    simpa [Place.next, hquote, hbackslash] using ih hcs

theorem accounted_characters {cs : List Char} (hcs : Grammar.IsCharacters cs)
    (h : Accounted good ⟨.literal, k⟩ text rest) : Accounted good ⟨.literal, k⟩ (cs ++ text) rest := by
  induction hcs with
  | nil => exact h
  | @plain c after _ hquote hbackslash _ ih =>
    have hc : ∀ d ∈ [c], d ≠ '"' ∧ d ≠ '\\' := List.forall_mem_singleton.mpr ⟨hquote, hbackslash⟩
    change Accounted good ⟨.literal, k⟩ ([c] ++ (after ++ text)) rest
    exact accounted_unescaped hc ih
  | escaped _ _ ih =>
    -- a backslash, and then whatever it escapes
    simp only [List.cons_append]
    exact (accounted_cons_literal rfl).mpr ((accounted_cons_literal rfl).mpr ih)
  | @code digits after _ hdigits _ ih =>
    have hplain := fun d hd => (ne_of_isHexDigit (hdigits d hd)).2
    simp only [List.cons_append, List.append_assoc]
    exact (accounted_cons_literal rfl).mpr ((accounted_cons_literal rfl).mpr (accounted_unescaped hplain ih))

theorem accounted_quoted (h : Grammar.IsQuoted text) : Accounted good ⟨.outside, k⟩ text rest := by
  obtain ⟨hcs⟩ := h
  rw [List.cons_append, accounted_cons]
  refine ⟨fun hopens => absurd hopens (by decide), accounted_characters hcs ?_⟩
  exact accounted_of_closed (by simp [opens])

theorem accounted_scalarText (f : Field) : Accounted good ⟨.outside, k⟩ (scalarText f) rest := by
  rcases word_or_quoted_scalarText f with hword | hquoted
  · exact hword.accounted
  · exact accounted_quoted hquoted

theorem accounted_separator (style : Style) (level : Nat) : Accounted good r (style.separator level) rest :=
  accounted_of_closed (not_opens_of_mem_separator style level)

theorem accounted_closing (bracket : Bracket) : Accounted good r [bracket.closing] rest := by
  have hclosing : ¬opens bracket.closing := by cases bracket <;> decide
  exact accounted_of_closed (List.forall_mem_singleton.mpr hclosing)

/-! ### Containers -/

variable {indent : Nat}

theorem accounted_front {f : Field} {entry : List Char × Option Field} (h : entry ∈ entries ⟨true, indent⟩ f) :
    Accounted good ⟨.outside, k⟩ entry.1 rest := by
  unfold entries at h
  split at h
  · obtain ⟨child, -, rfl⟩ := List.mem_map.mp h
    exact accounted_nil
  · obtain ⟨member, -, rfl⟩ := List.mem_map.mp h
    exact accounted_append.mpr ⟨accounted_quoted (quoted_quote _), accounted_of_closed (by simp [Style.colon, opens])⟩
  · cases h

variable {α : Type} {element : α → List Char} {bracket : Bracket}

/-- A text on a line of its own, behind the character that ends the line in front of it. -/
theorem accounted_marked {mark : Char} (hmark : r.next mark = ⟨.outside, k⟩)
    (hopening : opens mark → ∀ after, good r.level mark ('\n' :: after))
    (hbehind : Reader.behind ⟨.outside, k⟩ t = ⟨.outside, k⟩) (ht : ∀ rest, Accounted good ⟨.outside, k⟩ t rest)
    (hu : Accounted good ⟨.outside, k⟩ u rest) (level : Nat) :
    Accounted good r (mark :: (Style.separator ⟨true, indent⟩ level ++ (t ++ u))) rest := by
  rw [accounted_cons, hmark, accounted_append, behind_separator, accounted_append, hbehind]
  exact ⟨fun hopens _ => hopening hopens _, accounted_separator _ _, ht _, hu⟩

theorem accounted_trailing {more : List α}
    (hbehind : ∀ a ∈ more, Reader.behind ⟨.outside, k⟩ (element a) = ⟨.outside, k⟩)
    (helements : ∀ a ∈ more, ∀ rest, Accounted good ⟨.outside, k⟩ (element a) rest) (level : Nat) :
    Accounted good ⟨.outside, k⟩ (trailing ⟨true, indent⟩ level bracket (more.map element)) rest := by
  have hcomma : ¬opens ',' := by decide
  induction more with
  | nil => exact accounted_append.mpr ⟨accounted_separator _ _, accounted_closing bracket⟩
  | cons a more ih =>
    obtain ⟨ha, hmore⟩ := List.forall_mem_cons.mp hbehind
    obtain ⟨hfirst, hothers⟩ := List.forall_mem_cons.mp helements
    exact accounted_marked rfl (fun hopens => absurd hopens hcomma) ha hfirst (ih hmore hothers) _

/-- **The brackets of a container are accounted for** if its own is, and those of its elements are. -/
theorem accounted_enclose {elements : List α}
    (hbehind : ∀ a ∈ elements, Reader.behind ⟨.outside, k + 1⟩ (element a) = ⟨.outside, k + 1⟩)
    (helements : ∀ a ∈ elements, ∀ rest, Accounted good ⟨.outside, k + 1⟩ (element a) rest) (level : Nat)
    (hopening : ∀ after, (after.head? = some bracket.closing ↔ elements = []) → good k bracket.opening after) :
    Accounted good ⟨.outside, k⟩ (enclose ⟨true, indent⟩ level bracket (elements.map element)) rest := by
  have hnext : Reader.next ⟨.outside, k⟩ bracket.opening = ⟨.outside, k + 1⟩ := by cases bracket <;> rfl
  cases elements with
  | nil => exact accounted_cons.mpr ⟨fun _ _ => hopening _ (by simp), accounted_closing bracket⟩
  | cons a more =>
    obtain ⟨ha, hmore⟩ := List.forall_mem_cons.mp hbehind
    obtain ⟨hfirst, hothers⟩ := List.forall_mem_cons.mp helements
    rw [List.map_cons, enclose_cons]
    refine accounted_marked hnext (fun _ after => hopening _ ?_) ha hfirst (accounted_trailing hmore hothers level) _
    -- the first element is on a line of its own
    cases bracket <;> simp [Bracket.closing]

/-- **The brackets of a rendering are those of the containers that it shows.** -/
theorem accounted_renderAt {depth : Nat} (hdepth : depth + k ≤ maxDepth) (f : Field) :
    Accounted (fun level c after => ∃ j g, level = k + j ∧ j < depth ∧ Shows f j g ∧ Begins g c after)
      ⟨.outside, k⟩ (renderAt ⟨true, indent⟩ depth (indent + k) f) rest := by
  -- induction on the depth that is left, as for the layout; what an element shows stands one level further in
  induction depth generalizing k f rest with
  | zero => exact accounted_scalarText f
  | succ depth ih =>
    have hdeeper : depth + (k + 1) ≤ maxDepth := by omega
    by_cases hcontainer : f.type.isContainer = true
    case neg =>
      rw [renderAt_scalar (eq_false_of_ne_true hcontainer)]
      exact accounted_scalarText f
    case pos =>
      obtain ⟨bracket, htype⟩ := exists_bracket hcontainer
      rw [renderAt_container htype, Nat.add_assoc]
      apply accounted_enclose
      case hbehind => exact fun entry hentry => behind_entryText hentry hdeeper
      case hopening =>
        intro after hempty
        exact ⟨0, f, rfl, Nat.succ_pos _, .itself f, bracket, htype, rfl,
          hempty.trans (entries_eq_nil_iff htype _)⟩
      case helements =>
        rintro ⟨front, value⟩ hentry rest
        refine accounted_append.mpr ⟨accounted_front hentry, ?_⟩
        rw [behind_front hentry (by omega)]
        -- a value that is missing is null, and has no brackets
        cases value with
        | none => exact word_null.accounted
        | some c =>
          have hc : c ∈ f.elements := (mem_elements_iff htype _).mpr ⟨front, hentry⟩
          refine (ih hdeeper c).mono ?_
          rintro level d after ⟨j, g, rfl, hj, hshows, hbegins⟩
          exact ⟨j + 1, g, by omega, Nat.succ_lt_succ hj, .inside hc hshows, hbegins⟩

end Accounted

/-! ## Every container has its bracket -/

section Containers

variable {indent k : Nat} {α : Type} {element : α → List Char} {bracket : Bracket}

/-- An element stands behind the character `mark` or, with those that follow the first one, behind a comma. -/
theorem exists_marked_eq {r : Reader} {mark : Char} (hmark : r.next mark = ⟨.outside, k⟩) {first : α} {more : List α}
    (h : ∀ a ∈ first :: more, Reader.behind ⟨.outside, k⟩ (element a) = ⟨.outside, k⟩) (level : Nat) {a : α}
    (ha : a ∈ first :: more) :
    ∃ before after, mark :: (Style.separator ⟨true, indent⟩ (level + 1) ++
        (element first ++ trailing ⟨true, indent⟩ level bracket (more.map element))) =
          before ++ (element a ++ after) ∧
      r.behind before = ⟨.outside, k⟩ := by
  have hcomma : Reader.next ⟨.outside, k⟩ ',' = ⟨.outside, k⟩ := rfl
  induction more generalizing first mark r with
  | nil =>
    obtain rfl := List.mem_singleton.mp ha
    exact ⟨_, _, (List.cons_append).symm, behind_mark hmark _⟩
  | cons second more ih =>
    rcases List.mem_cons.mp ha with rfl | ha
    · exact ⟨_, _, (List.cons_append).symm, behind_mark hmark _⟩
    · obtain ⟨hfirst, hmore⟩ := List.forall_mem_cons.mp h
      obtain ⟨before, after, htext, hbefore⟩ := ih hcomma hmore ha
      refine ⟨mark :: Style.separator ⟨true, indent⟩ (level + 1) ++ element first ++ before, after, ?_, ?_⟩
      · rw [List.map_cons, trailing, htext]
        simp
      · rw [Reader.behind_append, Reader.behind_append, behind_mark hmark, hfirst, hbefore]

/-- An element of a container stands between its brackets, one level further in. -/
theorem exists_enclose_eq {elements : List α}
    (h : ∀ a ∈ elements, Reader.behind ⟨.outside, k + 1⟩ (element a) = ⟨.outside, k + 1⟩) (level : Nat) {a : α}
    (ha : a ∈ elements) :
    ∃ before after, enclose ⟨true, indent⟩ level bracket (elements.map element) = before ++ (element a ++ after) ∧
      Reader.behind ⟨.outside, k⟩ before = ⟨.outside, k + 1⟩ := by
  have hopening : Reader.next ⟨.outside, k⟩ bracket.opening = ⟨.outside, k + 1⟩ := by cases bracket <;> rfl
  cases elements with
  | nil => cases ha
  | cons first more =>
    rw [List.map_cons, enclose_cons]
    exact exists_marked_eq hopening h level ha

/-- A container starts with its bracket, which the other one follows where there are no elements. -/
theorem exists_enclose_eq_cons (bracket : Bracket) (elements : List (List Char)) (level : Nat) :
    ∃ after, enclose ⟨true, indent⟩ level bracket elements = bracket.opening :: after ∧
      ∀ rest, (after ++ rest).head? = some bracket.closing ↔ elements = [] := by
  cases elements with
  | nil => exact ⟨_, rfl, fun rest => by simp⟩
  | cons first more =>
    refine ⟨_, rfl, fun rest => ?_⟩
    cases bracket <;> simp [Style.separator, Bracket.closing]

/-- **A container that is shown has its bracket** in the text, as many levels inside as it is shown. -/
theorem exists_begins {f g : Field} {j depth : Nat} (h : Shows f j g) (hcontainer : g.type.isContainer = true)
    (hj : j < depth) (hdepth : depth + k ≤ maxDepth) :
    ∃ before c after, renderAt ⟨true, indent⟩ depth (indent + k) f = before ++ c :: after ∧
      Reader.behind ⟨.outside, k⟩ before = ⟨.outside, k + j⟩ ∧ ∀ rest, Begins g c (after ++ rest) := by
  -- induction along the containers around `g`
  induction h generalizing k depth with
  | itself f =>
    obtain ⟨depth, rfl⟩ := Nat.exists_eq_succ_of_ne_zero (Nat.ne_of_gt hj)
    obtain ⟨bracket, htype⟩ := exists_bracket hcontainer
    have henclose := renderAt_container htype ⟨true, indent⟩ depth (indent + k)
    obtain ⟨after, hafter, hempty⟩ := exists_enclose_eq_cons bracket
      ((entries ⟨true, indent⟩ f).map (entryText ⟨true, indent⟩ depth (indent + k + 1))) (indent + k)
    refine ⟨[], bracket.opening, after, henclose.trans hafter, rfl, fun rest => ⟨bracket, htype, rfl, ?_⟩⟩
    rw [hempty, List.map_eq_nil_iff, entries_eq_nil_iff htype]
  | @inside f c g j hc h ih =>
    obtain ⟨depth, rfl⟩ := Nat.exists_eq_succ_of_ne_zero (Nat.ne_of_gt (Nat.lt_of_le_of_lt (Nat.zero_le _) hj))
    have hdeeper : depth + (k + 1) ≤ maxDepth := by omega
    have houter : f.type.isContainer = true := by
      by_contra hscalar
      rw [Field.elements_of_not_container (eq_false_of_ne_true hscalar)] at hc
      cases hc
    obtain ⟨bracket, htype⟩ := exists_bracket houter
    obtain ⟨front, hentry⟩ := (mem_elements_iff htype ⟨true, indent⟩).mp hc
    -- in front of the bracket stand what is in front of the element, and what the element has in front of it
    obtain ⟨before, after, henclose, hbefore⟩ :=
      exists_enclose_eq (fun entry hentry => behind_entryText hentry hdeeper) (indent + k) hentry
    obtain ⟨inner, d, later, hrender, hinner, hbegins⟩ := ih hcontainer (Nat.lt_of_succ_lt_succ hj) hdeeper
    refine ⟨before ++ front ++ inner, d, later ++ after, ?_, ?_, fun rest => ?_⟩
    · rw [renderAt_container htype, Nat.add_assoc, henclose, entryText]
      simp [hrender]
    · rw [Reader.behind_append, Reader.behind_append, hbefore, behind_front hentry (by omega), hinner, Nat.add_assoc,
        Nat.add_comm 1]
    · rw [List.append_assoc]
      exact hbegins _

end Containers

end Indentation

open Indentation

/-! ## Main statement -/

/-- **One element per line.** Without its layout, a rendering with one element per line is the rendering on one line,
    and each of its characters is laid out. An opening bracket outside of quotes is that of a container that the field
    shows, as many levels inside as there are containers open in front of it, with the closing bracket right behind it
    just if nothing is in that container; and every container that is shown less than `maxDepth` levels inside has
    its bracket. -/
theorem layout_render (indent : Nat) (f : Field) :
    Reader.start.compact (render ⟨true, indent⟩ f).toList = f.toJson.toList ∧
      (∀ before c after, (render ⟨true, indent⟩ f).toList = before ++ c :: after → Laid indent before c after) ∧
      (∀ before c after, (render ⟨true, indent⟩ f).toList = before ++ c :: after → opens c →
        (Reader.start.behind before).place.isLiteral = false →
        (Reader.start.behind before).level < maxDepth ∧
          ∃ g, Shows f (Reader.start.behind before).level g ∧ Begins g c after) ∧
      ∀ k g, Shows f k g → k < maxDepth → g.type.isContainer = true →
        ∃ before c after, (render ⟨true, indent⟩ f).toList = before ++ c :: after ∧
          Reader.start.behind before = ⟨.outside, k⟩ ∧ Begins g c after := by
  have hdepth : maxDepth + 0 ≤ maxDepth := Nat.le_refl _
  have htext : (render ⟨true, indent⟩ f).toList = renderAt ⟨true, indent⟩ maxDepth (indent + 0) f :=
    String.toList_ofList
  have helement : Element indent 0 (render ⟨true, indent⟩ f).toList f.toJson.toList := by
    simpa only [Field.toJson, render, String.toList_ofList, Nat.add_zero] using element_renderAt hdepth 0 f
  refine ⟨(helement.part []).compact, ?_, ?_, ?_⟩
  · intro before c after hsplit
    simpa using ((helement.part []).follows [] rfl).laid hsplit
  · -- the outermost value stands outside of all containers, so levels count from it
    intro before c after hsplit hopens hplace
    obtain ⟨j, g, hlevel, hj, hshows, hbegins⟩ :=
      accounted_renderAt hdepth f before c after (htext.symm.trans hsplit) hopens hplace
    have hstart : (Reader.start.behind before).level = j := hlevel.trans (Nat.zero_add j)
    refine ⟨hstart ▸ hj, g, hstart ▸ hshows, ?_⟩
    rwa [List.append_nil] at hbegins
  · intro k g hshows hk hcontainer
    obtain ⟨before, c, after, hsplit, hbefore, hbegins⟩ := exists_begins hshows hcontainer hk hdepth
    refine ⟨before, c, after, htext.trans hsplit, hbefore.trans (by rw [Nat.zero_add]), ?_⟩
    simpa using hbegins []

end FieldTree.Json
