import FieldTree.Proofs.Json.Decoding
import FieldTree.Proofs.Json.Real
import FieldTree.Proofs.Json.Scanning

/-!
# Nesting of Rendered and of Decoded Fields

A rendering replaces containers that are nested too deep, and a scan refuses them. Both have a limit of their
own, which are compared here: for every field, whatever its bytes are, and for every text of which a blob is
made. A scan allows one level less than a rendering writes.

## Architecture

- `Field.nestsWithin`, `Value.nestsWithin`: how deep containers are nested.
- `Scanned`: a text is scanned to its end or goes too deep, with one lemma for each kind of text.
- `scanned_renderAt`, `fault?_render`: **a rendering is refused exactly for the nesting of its field.**
- `scan_opensWithin`, `Reads.nestsWithin`: what is scanned is nested less deep than that.
- `Value.nestsWithin_field`, `nestsWithin_ofJson`: so is every blob that is made of a text.
- `nesting_limits`: **the main statement**, for both directions.
-/

namespace FieldTree

/-! ## Nesting of fields -/

namespace Field

/-- What is rendered inside a container as a value of its own: the children of an array, the values of a table.
    Keys are rendered as texts, whatever they are. -/
def elements (f : Field) : List Field :=
  match f.type with
  | .array => f.children
  | .table => f.pairs.map (·.2)
  | _ => []

/-- At most `n` containers are nested in each other, the field itself included. -/
def nestsWithin : (n : Nat) → Field → Bool
  | 0, f => !f.type.isContainer
  | n + 1, f => f.elements.all (nestsWithin n)

theorem nestsWithin_array {f : Field} (h : f.type = .array) (n : Nat) :
    f.nestsWithin (n + 1) = f.children.all (nestsWithin n) := by
  rw [nestsWithin, elements, h]

/-- A table nests one level deeper than the values of its members; a last key has none. -/
theorem nestsWithin_table {f : Field} (h : f.type = .table) (n : Nat) :
    f.nestsWithin (n + 1) = (pairUp f.children).all fun member => member.2.all (nestsWithin n) := by
  rw [nestsWithin, elements, h, pairs]
  dsimp only
  induction pairUp f.children with
  | nil => rfl
  | cons member members ih =>
    obtain ⟨key, value⟩ := member
    cases value with
    | none =>
      rw [List.all_cons, ← ih]
      rfl
    | some value =>
      rw [List.all_cons, ← ih]
      rfl

theorem elements_of_not_container {f : Field} (h : f.type.isContainer = false) : f.elements = [] := by
  unfold elements
  split
  · next htype => rw [htype] at h; cases h
  · next htype => rw [htype] at h; cases h
  · rfl

theorem nestsWithin_of_not_container {f : Field} (h : f.type.isContainer = false) (n : Nat) :
    f.nestsWithin n = true := by
  cases n with
  | zero => rw [nestsWithin, h]; rfl
  | succ n => rw [nestsWithin, elements_of_not_container h]; rfl

end Field

namespace Json

/-! ## Scans that go too deep -/

/-- The scan ends in a fault, whatever the position: one more container is entered than it allows. -/
def Stage.Stalls (s : Stage) : Prop :=
  ∀ p, ∃ p', (scan s.goal s.outer ⟨s.text, p⟩).fault? = some ⟨.recursionLimit, p'⟩

theorem Stage.Stalls.of_yields {s s' : Stage} {ts : List Token} (h : s.Yields ts s') (hs : s'.Stalls) :
    s.Stalls := by
  intro p
  obtain ⟨p₁, hfault, -⟩ := h p
  obtain ⟨p₂, hlimit⟩ := hs p₁
  exact ⟨p₂, hfault.trans hlimit⟩

theorem stalls_opening {outer : List Bracket} (h : maxDepth ≤ outer.length + 1) (bracket : Bracket)
    (text : List Char) : Stage.Stalls ⟨.value, outer, bracket.opening :: text⟩ := by
  have hblank : Cursor.isBlank bracket.opening = false := by cases bracket <;> rfl
  have hopens : opens? bracket.opening = some bracket := by cases bracket <;> rfl
  intro p
  refine ⟨p.afterBytes 1 (bracket.opening :: text), ?_⟩
  rw [scan, skipBlanks_cons hblank]
  simp only [hopens, if_pos h]
  rfl

/-- What a scan makes of a text: where it `fits`, the scan goes on behind it, and otherwise it goes too deep
    inside. -/
structure Scanned (goal : Goal) (outer : List Bracket) (text : List Char) (fits : Bool) : Prop where
  starts : Starts text
  taken : fits = true → ∃ ts, ∀ rest, Delimited rest →
    Stage.Yields ⟨goal, outer, text ++ rest⟩ ts ⟨.next, outer, rest⟩
  stalls : fits = false → ∀ rest, Stage.Stalls ⟨goal, outer, text ++ rest⟩

namespace Scanned

theorem scalar {text : List Char} {token : Token} (h : Spells text token) (outer : List Bracket) :
    Scanned .value outer text true where
  starts := h.starts
  taken _ := ⟨[token], fun _ hrest => yields_scalar h hrest outer⟩
  stalls h := by cases h

/-- A member is scanned as its value is. -/
theorem member {outer : List Bracket} {text : List Char} {fits : Bool}
    (h : Scanned .value (.brace :: outer) text fits) (name : String) (style : Style) :
    Scanned .key (.brace :: outer) (quote name ++ style.colon ++ text) fits where
  starts := ⟨'"', _, rfl, by decide⟩
  taken hfits := by
    obtain ⟨ts, hvalue⟩ := h.taken hfits
    refine ⟨.key name :: ts, fun rest hrest => ?_⟩
    rw [List.append_assoc]
    exact (yields_name name style (.brace :: outer) (text ++ rest)).trans (hvalue rest hrest)
  stalls hdeep rest := by
    rw [List.append_assoc]
    exact (h.stalls hdeep rest).of_yields (yields_name name style (.brace :: outer) (text ++ rest))

section Containers

variable {α : Type} {text : α → List Char} {fits : α → Bool} {bracket : Bracket} {outer : List Bracket}
  {items : List α}

theorem exists_pieces (h : ∀ a ∈ items, Scanned (.ofElement bracket) (bracket :: outer) (text a) (fits a))
    (hfits : items.all fits = true) : ∃ ts, Pieces bracket outer (items.map text) ts := by
  induction items with
  | nil => exact ⟨[], .nil⟩
  | cons a items ih =>
    rw [List.all_cons, Bool.and_eq_true] at hfits
    have hfirst := h a List.mem_cons_self
    obtain ⟨ts, hyields⟩ := hfirst.taken hfits.1
    obtain ⟨us, hpieces⟩ := ih (fun b hb => h b (List.mem_cons_of_mem a hb)) hfits.2
    exact ⟨ts ++ us, .cons ⟨hfirst.starts, hyields⟩ hpieces⟩

/-- The first element that goes too deep ends the scan of an element and those behind it. -/
theorem stalls_first (style : Style) (level : Nat) {rest : List Char} (hrest : Delimited rest) {a : α}
    (ha : Scanned (.ofElement bracket) (bracket :: outer) (text a) (fits a))
    (hmore : items.all fits = false → Stage.Stalls ⟨.next, bracket :: outer,
      (items.map text).flatMap (fun e => ',' :: style.separator level ++ e) ++ rest⟩)
    (hdeep : (a :: items).all fits = false) :
    Stage.Stalls ⟨.ofElement bracket, bracket :: outer, text a ++
      ((items.map text).flatMap (fun e => ',' :: style.separator level ++ e) ++ rest)⟩ := by
  cases hfits : fits a with
  | false => exact ha.stalls hfits _
  | true =>
    obtain ⟨ts, hyields⟩ := ha.taken hfits
    rw [List.all_cons, hfits, Bool.true_and] at hdeep
    exact (hmore hdeep).of_yields (hyields _ (delimited_more style level _ hrest))

theorem stalls_more (style : Style) (level : Nat) {rest : List Char} (hrest : Delimited rest)
    (h : ∀ a ∈ items, Scanned (.ofElement bracket) (bracket :: outer) (text a) (fits a))
    (hdeep : items.all fits = false) :
    Stage.Stalls ⟨.next, bracket :: outer,
      (items.map text).flatMap (fun e => ',' :: style.separator level ++ e) ++ rest⟩ := by
  induction items with
  | nil => cases hdeep
  | cons a items ih =>
    have hfirst := h a List.mem_cons_self
    have hinside := stalls_first style level hrest hfirst (ih fun b hb => h b (List.mem_cons_of_mem a hb)) hdeep
    have hcomma := hinside.of_yields
      (yields_comma (isBlank_of_mem_separator style level) (hfirst.starts.append _) bracket outer)
    simpa using hcomma

/-- **A container fits where all of its elements fit.** -/
theorem enclose (h : ∀ a ∈ items, Scanned (.ofElement bracket) (bracket :: outer) (text a) (fits a))
    (hdepth : outer.length + 1 < maxDepth) (style : Style) (level : Nat) :
    Scanned .value outer (Json.enclose style level bracket (items.map text)) (items.all fits) where
  starts := starts_enclose style level bracket _
  taken hfits := by
    obtain ⟨ts, hpieces⟩ := exists_pieces h hfits
    exact ⟨_, fun rest _ => hpieces.yields_enclose hdepth style level rest⟩
  stalls hdeep rest := by
    cases items with
    | nil => cases hdeep
    | cons a items =>
      -- the opening bracket, blanks, and then the elements
      have hfirst := h a List.mem_cons_self
      have hend := delimited_separator style level (delimited_closing bracket rest)
      have hinside := stalls_first style (level + 1) hend hfirst
        (stalls_more style (level + 1) hend fun b hb => h b (List.mem_cons_of_mem a hb)) hdeep
      have hblanks := (hinside.of_yields (yields_first (hfirst.starts.append _) bracket outer)).of_yields
        (yields_blanks (isBlank_of_mem_separator style (level + 1)) .first (bracket :: outer) _)
      have hopening := hblanks.of_yields (yields_opening hdepth bracket _)
      simpa [Json.enclose] using hopening

end Containers

end Scanned

/-! ## Renderings -/

theorem scanned_of_not_container {f : Field} (h : f.type.isContainer = false) (style : Style) (depth level n : Nat)
    (outer : List Bracket) : Scanned .value outer (renderAt style depth level f) (f.nestsWithin n) := by
  obtain ⟨token, hspells⟩ := f.exists_spells_scalarText
  rw [renderAt_scalar h, Field.nestsWithin_of_not_container h]
  exact Scanned.scalar hspells outer

/-- Where the brackets that are open are as many as can be, a container is not entered. -/
theorem scanned_enclose_of_limit {outer : List Bracket} (houter : maxDepth ≤ outer.length + 1) (style : Style)
    (level : Nat) (bracket : Bracket) (texts : List (List Char)) :
    Scanned .value outer (enclose style level bracket texts) false where
  starts := starts_enclose style level bracket texts
  taken h := by cases h
  stalls _ rest := by
    cases texts with
    | nil => exact stalls_opening houter bracket _
    | cons => exact stalls_opening houter bracket _

/-- **A rendering is scanned as far as its containers are nested.** -/
theorem scanned_renderAt (style : Style) (n : Nat) {outer : List Bracket} (houter : outer.length + n + 1 = maxDepth)
    (level : Nat) (f : Field) : Scanned .value outer (renderAt style (n + 1) level f) (f.nestsWithin n) := by
  -- induction on the levels that are left: `outer` grows as they shrink, so together they reach the limit
  induction n generalizing outer level f with
  | zero =>
    -- no level is left: any container goes beyond the limit by its bracket
    cases htype : f.type with
    | array =>
      rw [renderAt_array htype, Field.nestsWithin, htype]
      exact scanned_enclose_of_limit (by omega) style level .square _
    | table =>
      rw [renderAt_table htype, Field.nestsWithin, htype]
      exact scanned_enclose_of_limit (by omega) style level .brace _
    | _ => exact scanned_of_not_container (by rw [htype]; rfl) style _ level _ outer
  | succ n ih =>
    have hdepth : outer.length + 1 < maxDepth := by omega
    have hinside : ∀ (bracket : Bracket) (value : Field), Scanned .value (bracket :: outer)
        (renderAt style (n + 1) (level + 1) value) (value.nestsWithin n) :=
      fun bracket value => ih (by rw [List.length_cons]; omega) (level + 1) value
    cases htype : f.type with
    | array =>
      rw [renderAt_array htype, Field.nestsWithin_array htype]
      refine Scanned.enclose (fun child _ => ?_) hdepth style level
      exact hinside .square child
    | table =>
      rw [renderAt_table htype, Field.nestsWithin_table htype]
      refine Scanned.enclose (fun member _ => ?_) hdepth style level
      obtain ⟨key, value⟩ := member
      apply Scanned.member
      cases value with
      | none => exact Scanned.scalar spells_null _
      | some value => exact hinside .brace value
    | _ => exact scanned_of_not_container (by rw [htype]; rfl) style _ level _ outer

/-- **A rendering is accepted exactly where its containers are nested in fewer than `maxDepth` levels**, and is
    rejected for its nesting otherwise. -/
theorem fault?_render (style : Style) (f : Field) :
    (f.nestsWithin (maxDepth - 1) = true → (Scan.ofText (render style f)).fault? = none) ∧
      (f.nestsWithin (maxDepth - 1) = false →
        ∃ p, (Scan.ofText (render style f)).fault? = some ⟨.recursionLimit, p⟩) := by
  have hscanned : Scanned .value [] (renderAt style maxDepth style.indent f) (f.nestsWithin (maxDepth - 1)) :=
    scanned_renderAt style (maxDepth - 1) rfl style.indent f
  constructor
  · intro hfits
    obtain ⟨ts, hyields⟩ := hscanned.taken hfits
    have hwhole := hyields [] trivial
    rw [List.append_nil] at hwhole
    exact hwhole.scan_ofText.1
  · intro hdeep
    obtain ⟨p, hfault⟩ := hscanned.stalls hdeep [] .start
    rw [List.append_nil] at hfault
    refine ⟨p, ?_⟩
    rw [Scan.ofText, Cursor.ofText, render, String.toList_ofList]
    exact hfault

/-- **As long as nothing is nested too deep, a rendering does not depend on the depth.** -/
theorem renderAt_of_nestsWithin {n : Nat} {f : Field} (h : f.nestsWithin n = true) (style : Style)
    {depth depth' : Nat} (hdepth : n ≤ depth) (hdepth' : n ≤ depth') (level : Nat) :
    renderAt style depth level f = renderAt style depth' level f := by
  -- induction on the levels that the field needs; both depths have at least as many
  induction n generalizing depth depth' level f with
  | zero =>
    rw [Field.nestsWithin, Bool.not_eq_true'] at h
    rw [renderAt_scalar h, renderAt_scalar h]
  | succ n ih =>
    obtain ⟨depth, rfl⟩ := Nat.exists_eq_add_of_le' (Nat.le_trans (Nat.succ_le_succ (Nat.zero_le n)) hdepth)
    obtain ⟨depth', rfl⟩ := Nat.exists_eq_add_of_le' (Nat.le_trans (Nat.succ_le_succ (Nat.zero_le n)) hdepth')
    have hdepth := Nat.le_of_succ_le_succ hdepth
    have hdepth' := Nat.le_of_succ_le_succ hdepth'
    cases htype : f.type with
    | array =>
      rw [Field.nestsWithin_array htype, List.all_eq_true] at h
      have helements : ∀ child ∈ f.children,
          renderAt style depth (level + 1) child = renderAt style depth' (level + 1) child :=
        fun child hchild => ih (h child hchild) hdepth hdepth' (level + 1)
      rw [renderAt_array htype, renderAt_array htype, List.map_congr_left helements]
    | table =>
      rw [Field.nestsWithin_table htype, List.all_eq_true] at h
      rw [renderAt_table htype, renderAt_table htype]
      refine congrArg (enclose style level .brace) (List.map_congr_left fun member hmember => ?_)
      obtain ⟨key, value⟩ := member
      cases value with
      | none => rfl
      | some value =>
        have hvalue := ih (h _ hmember) hdepth hdepth' (level + 1)
        simp only [Option.map_some, Option.getD_some, hvalue]
    | _ => rw [renderAt_scalar (by rw [htype]; rfl), renderAt_scalar (by rw [htype]; rfl)]

/-! ## Values of texts -/

/-- No more than `n` brackets are open at any time beyond those that are open already. -/
def OpensWithin : (n : Nat) → List Token → Prop
  | _, [] => True
  | n, .opening _ :: ts => 0 < n ∧ OpensWithin (n - 1) ts
  | n, .closing :: ts => OpensWithin (n + 1) ts
  | n, _ :: ts => OpensWithin n ts

/-- The values inside an array or object, without their names. -/
def Value.elements : Value → List Value
  | .array vs => vs
  | .object ms => ms.map (·.2)
  | _ => []

/-- At most `n` arrays and objects are nested in each other, the value itself included. -/
def Value.nestsWithin : (n : Nat) → Value → Bool
  | 0, v => !v.isContainer
  | n + 1, v => v.elements.all (nestsWithin n)

/-- Scalars change nothing about the brackets that are open. -/
theorem opensWithin_scalar {cur cur' : Cursor} {token : Token} (h : readScalar cur = .ok (token, cur')) (n : Nat)
    (ts : List Token) : OpensWithin n (token :: ts) ↔ OpensWithin n ts := by
  obtain ⟨-, v, hv⟩ := readScalar_value h
  cases v with
  | array | object => simp [Value.tokens] at hv
  | null | bool | number | text => cases hv; exact Iff.rfl

/-- **A scan opens no more brackets than it allows.** -/
theorem scan_opensWithin (goal : Goal) (outer : List Bracket) (cur : Cursor) :
    ∀ n, outer.length + n + 1 = maxDepth → OpensWithin n ((scan goal outer cur).tokens.map Prod.fst) := by
  -- induction along the scan: what is open and what may still be opened add up to the limit
  fun_induction scan goal outer cur with
  | case1 goal outer cur _ =>
    rcases goal with _ | _ | _ | _ <;> rcases outer with _ | ⟨bracket, outer⟩ <;> exact fun _ _ => trivial
  | case3 cur c rest _ here behind outer bracket _ hdepth ih =>
    intro n hn
    -- the bracket that is opened is one of those that may be
    exact ⟨by omega, ih (n - 1) (by rw [List.length_cons]; omega)⟩
  | case5 cur c rest _ outer _ token after hread ih =>
    intro n hn
    exact (opensWithin_scalar hread n _).mpr (ih n hn)
  | case7 => exact fun _ _ => trivial
  | case8 cur rest here outer name after refusal member _ _ behind _ ih => exact ih
  | case10 cur rest here bracket outer _ behind ih =>
    intro n hn
    rw [List.length_cons] at hn
    exact ih (n + 1) (by omega)
  | case11 cur c rest _ here bracket outer _ ih => exact ih
  | case12 cur rest here bracket outer _ behind ih =>
    intro n hn
    rw [List.length_cons] at hn
    exact ih (n + 1) (by omega)
  | case14 cur rest here bracket outer _ behind _ ahead _ ih => exact ih
  | case2 | case4 | case6 | case9 | case13 | case15 | case16 => exact fun _ _ => trivial

mutual

/-- **A value nests no deeper than its brackets are open.** -/
theorem nestsWithin_of_opensWithin (v : Value) {n : Nat} {ts : List Token} (h : OpensWithin n (v.tokens ++ ts)) :
    v.nestsWithin n = true ∧ OpensWithin n ts := by
  cases v with
  | null | bool | number | text =>
    refine ⟨?_, h⟩
    cases n <;> rfl
  | array vs =>
    rw [Value.tokens, List.cons_append, List.append_assoc] at h
    obtain ⟨hpos, hinside⟩ := h
    obtain ⟨n, rfl⟩ := Nat.exists_eq_add_of_le' hpos
    obtain ⟨hvs, hrest⟩ := elements_of_opensWithin vs hinside
    exact ⟨hvs, hrest⟩
  | object ms =>
    rw [Value.tokens, List.cons_append, List.append_assoc] at h
    obtain ⟨hpos, hinside⟩ := h
    obtain ⟨n, rfl⟩ := Nat.exists_eq_add_of_le' hpos
    obtain ⟨hms, hrest⟩ := members_of_opensWithin ms hinside
    exact ⟨hms, hrest⟩

theorem elements_of_opensWithin (vs : List Value) {n : Nat} {ts : List Token}
    (h : OpensWithin n (Value.elementTokens vs ++ ts)) :
    vs.all (Value.nestsWithin n) = true ∧ OpensWithin n ts := by
  match vs with
  | [] => exact ⟨rfl, h⟩
  | v :: vs =>
    rw [Value.elementTokens, List.append_assoc] at h
    obtain ⟨hv, hmore⟩ := nestsWithin_of_opensWithin v h
    obtain ⟨hvs, hrest⟩ := elements_of_opensWithin vs hmore
    exact ⟨by rw [List.all_cons, hv, hvs]; rfl, hrest⟩

theorem members_of_opensWithin (ms : List (String × Value)) {n : Nat} {ts : List Token}
    (h : OpensWithin n (Value.memberTokens ms ++ ts)) :
    (ms.map (·.2)).all (Value.nestsWithin n) = true ∧ OpensWithin n ts := by
  match ms with
  | [] => exact ⟨rfl, h⟩
  | (name, v) :: ms =>
    rw [Value.memberTokens, List.cons_append, List.append_assoc] at h
    obtain ⟨hv, hmore⟩ := nestsWithin_of_opensWithin v h
    obtain ⟨hms, hrest⟩ := members_of_opensWithin ms hmore
    exact ⟨by rw [List.map_cons, List.all_cons, hv, hms]; rfl, hrest⟩

end

/-- **The value of a text is nested in fewer than `maxDepth` levels.** -/
theorem Reads.nestsWithin {text : String} {v : Value} (h : Reads text v) : v.nestsWithin (maxDepth - 1) = true := by
  have hopens := scan_opensWithin .value [] (.ofText text) (maxDepth - 1) rfl
  have htokens : (scan .value [] (.ofText text)).tokens.map Prod.fst = v.tokens ++ [] := by
    rw [List.append_nil]
    exact h.2
  rw [htokens] at hopens
  exact (nestsWithin_of_opensWithin v hopens).1

/-! ## Fields of values -/

theorem Tree.length_encode_le_of_mem {t : Tree} {ts : List Tree} (h : t ∈ ts) :
    t.encode.length ≤ (Tree.encodeAll ts).length := by
  induction ts with
  | nil => cases h
  | cons first ts ih =>
    rw [Tree.encodeAll, List.length_append]
    rcases List.mem_cons.mp h with rfl | h
    · exact Nat.le_add_right _ _
    · exact Nat.le_trans (ih h) (Nat.le_add_left _ _)

namespace Value

theorem elementTrees_eq_map (vs : List Value) : elementTrees vs = vs.map Value.tree := by
  induction vs with
  | nil => rfl
  | cons v vs ih => rw [elementTrees, List.map_cons, ih]

/-- Every name is followed by its value. -/
theorem pairUp_memberTrees (ms : List (String × Value)) :
    Field.pairUp ((memberTrees ms).map Tree.field) =
      ms.map fun member => ((textTree member.1).field, some member.2.tree.field) := by
  induction ms with
  | nil => rfl
  | cons member ms ih =>
    obtain ⟨name, v⟩ := member
    rw [memberTrees, List.map_cons, List.map_cons, Field.pairUp, ih]
    rfl

/-- **The elements of a value are the elements of its field.** -/
theorem elements_field (v : Value) (hfits : v.tree.encode.length ≤ maxLength) :
    v.tree.field.elements = v.elements.map fun w => w.tree.field := by
  -- a scalar has no elements on either side; those of a container are its children, or every second one
  cases hcontainer : v.isContainer with
  | false =>
    rw [Field.elements_of_not_container (by rw [isContainer_tree, hcontainer])]
    cases v with
    | null | bool | number | text => rfl
    | array | object => cases hcontainer
  | true =>
    cases v with
    | null | bool | number | text => cases hcontainer
    | array vs =>
      have htype : (array vs).tree.field.type = .array := Tree.type_field_node
      rw [Field.elements, htype]
      dsimp only
      rw [tree, Tree.children_field hfits, elementTrees_eq_map, List.map_map]
      rfl
    | object ms =>
      have htype : (object ms).tree.field.type = .table := Tree.type_field_node
      rw [Field.elements, htype]
      dsimp only
      rw [Field.pairs, tree, Tree.children_field hfits, pairUp_memberTrees]
      simp [elements]

theorem mem_memberTrees {ms : List (String × Value)} {v : Value} (h : v ∈ ms.map (·.2)) :
    v.tree ∈ memberTrees ms := by
  induction ms with
  | nil => cases h
  | cons member ms ih =>
    rw [memberTrees]
    rcases List.mem_cons.mp h with rfl | h
    · exact List.mem_cons_of_mem _ List.mem_cons_self
    · exact List.mem_cons_of_mem _ (List.mem_cons_of_mem _ (ih h))

/-- What is inside a value is no longer than the value. -/
theorem length_encode_elements_le {v w : Value} (h : w ∈ v.elements) :
    w.tree.encode.length ≤ v.tree.encode.length := by
  have hnode : ∀ {bracket : Bracket} {ts : List Tree}, w.tree ∈ ts →
      w.tree.encode.length ≤ (Tree.node bracket ts).encode.length := by
    intro bracket ts hmem
    rw [Tree.length_encode_node]
    exact Nat.le_trans (Tree.length_encode_le_of_mem hmem) (Nat.le_add_left _ _)
  cases v with
  | null | bool | number | text => cases h
  | array vs =>
    apply hnode
    rw [elementTrees_eq_map]
    exact List.mem_map_of_mem h
  | object ms => exact hnode (mem_memberTrees h)

/-- **A field is nested as its value is.** -/
theorem nestsWithin_field (v : Value) (n : Nat) (hfits : v.tree.encode.length ≤ maxLength) :
    v.tree.field.nestsWithin n = v.nestsWithin n := by
  induction n generalizing v with
  | zero => rw [Field.nestsWithin, isContainer_tree, nestsWithin]
  | succ n ih =>
    rw [Field.nestsWithin, nestsWithin, elements_field v hfits, List.all_map, Bool.eq_iff_iff, List.all_eq_true,
      List.all_eq_true]
    refine forall₂_congr fun w hw => ?_
    rw [Function.comp_apply, ih w (Nat.le_trans (length_encode_elements_le hw) hfits)]

/-- A document is nested as its value is; a scalar is alone in an array. -/
theorem nestsWithin_document (v : Value) {n : Nat} (hfits : v.document.encode.length ≤ maxLength)
    (h : v.nestsWithin (n + 1) = true) : v.document.field.nestsWithin (n + 1) = true := by
  cases hcontainer : v.isContainer with
  | true =>
    rw [document_eq_tree hcontainer] at hfits ⊢
    rw [nestsWithin_field v _ hfits]
    exact h
  | false =>
    have hbracket : v.rootBracket = .square := by
      cases v with
      | null | bool | number | text | array => rfl
      | object => cases hcontainer
    rw [document, hbracket, rootTrees_eq hcontainer] at hfits ⊢
    rw [Field.nestsWithin_array Tree.type_field_node, Tree.children_field hfits, List.map_singleton, List.all_cons,
      Field.nestsWithin_of_not_container (by rw [isContainer_tree, hcontainer])]
    rfl

end Value

/-- **A blob that was made of a text is nested in fewer than `maxDepth` levels.** -/
theorem nestsWithin_ofJson {config : Config} {text : String} {b : Blob} (h : (Blob.ofJson config text).1 = .ok b) :
    b.head.nestsWithin (maxDepth - 1) = true := by
  obtain ⟨v, hreads, -⟩ := existsUnique_reads (accepted_of_ofJson h)
  obtain ⟨-, hhead, hmax⟩ := head_ofJson hreads h
  rw [hhead]
  exact v.nestsWithin_document hmax hreads.nestsWithin

/-! ## Both limits -/

/-- A decoding ends in the fault of the scan, unless a field does not fit. -/
theorem fault?_decode_eq_or_refused (fillsRoot : Bool) (b : Blob) (text : String) :
    (decode fillsRoot b text).fault? = (Scan.ofText text).fault? ∨
      ∃ fault, (decode fillsRoot b text).fault? = some fault ∧ ∃ limit, fault.cause = .refused limit := by
  rw [fault?_decode]
  cases hwritten : (writeTokens fillsRoot [] b (Scan.ofText text).tokens).fault? with
  | none => exact Or.inl rfl
  | some fault => exact Or.inr ⟨fault, rfl, cause_writeTokens fillsRoot [] b _ hwritten⟩

/-- **What is decoded is rendered in full, but what is rendered in full is not always decoded.** Containers are
    rendered up to `maxDepth` levels; where there are as many, the text is refused for them, and where there are
    fewer, it is accepted. In a blob that was made of a text there are fewer. -/
theorem nesting_limits (style : Style) (f : Field) :
    (f.nestsWithin maxDepth = true → ∀ depth, maxDepth ≤ depth →
      String.ofList (renderAt style depth style.indent f) = render style f) ∧
    (f.nestsWithin (maxDepth - 1) = true → (Scan.ofText (render style f)).fault? = none ∧
      ∀ fillsRoot b fault, (decode fillsRoot b (render style f)).fault? = some fault →
        ∃ limit, fault.cause = .refused limit) ∧
    (f.nestsWithin (maxDepth - 1) = false →
      (∃ p, (Scan.ofText (render style f)).fault? = some ⟨.recursionLimit, p⟩) ∧
      ∀ fillsRoot b, ∃ fault, (decode fillsRoot b (render style f)).fault? = some fault ∧
        (fault.cause = .recursionLimit ∨ ∃ limit, fault.cause = .refused limit)) ∧
    ∀ (config : Config) (text : String) (b : Blob), (Blob.ofJson config text).1 = .ok b → b.head = f →
      f.nestsWithin (maxDepth - 1) = true ∧ ∀ depth, maxDepth ≤ depth →
        String.ofList (renderAt style depth style.indent f) = render style f := by
  have hdecode := fun fillsRoot b => fault?_decode_eq_or_refused fillsRoot b (render style f)
  refine ⟨fun hfull depth hdepth => ?_, fun hfits => ?_, fun hdeep => ?_, fun config text b hb hhead => ?_⟩
  · rw [render, renderAt_of_nestsWithin hfull style hdepth (Nat.le_refl _)]
  · -- a rendering that is scanned to its end can only be refused for want of room
    have haccepted := (fault?_render style f).1 hfits
    refine ⟨haccepted, fun fillsRoot b fault hfault => ?_⟩
    rcases hdecode fillsRoot b with hscan | ⟨fault', hrefused, hcause⟩
    · rw [hscan, haccepted] at hfault
      cases hfault
    · rw [hrefused] at hfault
      obtain rfl := Option.some.inj hfault
      exact hcause
  · -- a scan that goes too deep ends every decoding, unless the room ends first
    obtain ⟨p, hlimit⟩ := (fault?_render style f).2 hdeep
    refine ⟨⟨p, hlimit⟩, fun fillsRoot b => ?_⟩
    rcases hdecode fillsRoot b with hscan | ⟨fault, hrefused, hcause⟩
    · exact ⟨_, hscan.trans hlimit, Or.inl rfl⟩
    · exact ⟨fault, hrefused, Or.inr hcause⟩
  · have hnested : f.nestsWithin (maxDepth - 1) = true := hhead ▸ nestsWithin_ofJson hb
    refine ⟨hnested, fun depth hdepth => ?_⟩
    rw [render, renderAt_of_nestsWithin hnested style (Nat.le_trans (Nat.sub_le _ _) hdepth) (Nat.sub_le _ _)]

/-- Arrays around an array, each the only element of the next. -/
def sampleNested : (outer : Nat) → Tree
  | 0 => .node .square []
  | outer + 1 => .node .square [sampleNested outer]

theorem length_encode_sampleNested (outer : Nat) :
    (sampleNested outer).encode.length = headerSize * (outer + 1) := by
  induction outer with
  | zero => rfl
  | succ outer ih =>
    rw [sampleNested, Tree.length_encode_node, Tree.encodeAll, Tree.encodeAll, List.append_nil, ih,
      Nat.mul_succ _ (outer + 1), Nat.add_comm]

theorem nestsWithin_sampleNested {outer : Nat} (h : headerSize * (outer + 1) ≤ maxLength) (n : Nat) :
    (sampleNested outer).field.nestsWithin n = decide (outer < n) := by
  rw [← length_encode_sampleNested] at h
  induction outer generalizing n with
  | zero =>
    cases n with
    | zero => rfl
    | succ n =>
      rw [sampleNested, Field.nestsWithin_array Tree.type_field_node, Tree.children_field h,
        decide_eq_true (Nat.succ_pos n)]
      rfl
  | succ outer ih =>
    cases n with
    | zero => rfl
    | succ n =>
      -- the length grows with the nesting, so what is inside fits as well
      have hinside : (sampleNested outer).encode.length ≤ maxLength := by
        rw [length_encode_sampleNested] at h ⊢
        exact Nat.le_trans (Nat.mul_le_mul_left _ (Nat.le_succ _)) h
      rw [sampleNested] at h ⊢
      rw [Field.nestsWithin_array Tree.type_field_node, Tree.children_field h, List.map_singleton, List.all_cons,
        ih hinside]
      simp

/-- An array of an object and of a number, and in the object an array that has an empty object in it. -/
def sampleMixed : String := "[\x7b\"k\":[\x7b\x7d]\x7d,-0.5e-7]"

theorem nesting_limits_sampleMixed :
    ∃ b, (Blob.ofJson {} sampleMixed).1 = .ok b ∧
      (b.head.nestsWithin (maxDepth - 1) = true ∧ ∀ depth, maxDepth ≤ depth →
        String.ofList (renderAt { pretty := true } depth 0 b.head) = render { pretty := true } b.head) ∧
      (Scan.ofText (render { pretty := true } b.head)).fault? = none ∧
      (sampleNested 127).field.nestsWithin (maxDepth - 1) = false ∧
      ∃ p, (Scan.ofText (render {} (sampleNested 127).field)).fault? = some ⟨.recursionLimit, p⟩ := by
  have hok : (Blob.ofJson {} sampleMixed).1.isOk = true := by decide +kernel
  have hdeep : (sampleNested 127).field.nestsWithin (maxDepth - 1) = false :=
    nestsWithin_sampleNested (by decide) (maxDepth - 1)
  cases hb : (Blob.ofJson {} sampleMixed).1 with
  | error e => rw [hb] at hok; cases hok
  | ok b =>
    obtain ⟨-, haccepted, -, hmade⟩ := nesting_limits { pretty := true } b.head
    obtain ⟨-, -, hrefused, -⟩ := nesting_limits {} (sampleNested 127).field
    have hblob := hmade {} sampleMixed b hb rfl
    exact ⟨b, rfl, hblob, (haccepted hblob.1).1, hdeep, (hrefused hdeep).1⟩

/-- **A field is rendered in full as a text that is refused for its nesting**: 128 arrays in each other. -/
theorem recursionLimit_sampleNested :
    (sampleNested 127).field.nestsWithin maxDepth = true ∧
      ¬∀ (f : Field) (p : Position), (Scan.ofText f.toJson).fault? ≠ some ⟨.recursionLimit, p⟩ := by
  have hfull : (sampleNested 127).field.nestsWithin maxDepth = true :=
    nestsWithin_sampleNested (by decide) maxDepth
  have hdeep : (sampleNested 127).field.nestsWithin (maxDepth - 1) = false :=
    nestsWithin_sampleNested (by decide) (maxDepth - 1)
  refine ⟨hfull, fun hnever => ?_⟩
  obtain ⟨p, hlimit⟩ := (fault?_render {} (sampleNested 127).field).2 hdeep
  exact hnever (sampleNested 127).field p hlimit

end Json

end FieldTree
