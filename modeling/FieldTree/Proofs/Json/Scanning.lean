import FieldTree.Proofs.Json.Printing
import FieldTree.Proofs.Json.Scalar

/-!
# Printed Documents are Scanned

The text of a document is scanned into the tokens of its value. A scan is followed from stage to stage; what
it yields on the way does not depend on the positions that it keeps.

## Architecture

- `Stage`, `Stage.Yields`: where a scan stands, and what it yields up to another stage.
- One lemma for each thing that a scan steps over: blanks, brackets, commas, names, scalars.
- `Pieces`, `yields_enclose`: elements or members between brackets.
- `Document.reads_print`: **the text of a document has the document's value.**
-/

namespace FieldTree.Json

/-! ## Stages -/

/-- Where a scan stands: what it looks for, the brackets that are open, and what is left of the text. -/
structure Stage where
  goal : Goal
  outer : List Bracket
  text : List Char

/-- The scan comes from one stage to another, whatever the position, and yields the tokens on the way. -/
def Stage.Yields (s : Stage) (ts : List Token) (s' : Stage) : Prop :=
  ∀ p, ∃ p', (scan s.goal s.outer ⟨s.text, p⟩).fault? = (scan s'.goal s'.outer ⟨s'.text, p'⟩).fault? ∧
    (scan s.goal s.outer ⟨s.text, p⟩).tokens.map Prod.fst =
      ts ++ (scan s'.goal s'.outer ⟨s'.text, p'⟩).tokens.map Prod.fst

namespace Stage.Yields

variable {s s' s'' : Stage} {ts us : List Token} {token : Token}

/-- A step that yields no token. -/
theorem of_eq (h : ∀ p, ∃ p', scan s.goal s.outer ⟨s.text, p⟩ = scan s'.goal s'.outer ⟨s'.text, p'⟩) :
    s.Yields [] s' := by
  intro p
  obtain ⟨p', h⟩ := h p
  exact ⟨p', by rw [h], by rw [h]; rfl⟩

/-- A step that yields one token. -/
theorem of_emit (h : ∀ p, ∃ p' refusal, scan s.goal s.outer ⟨s.text, p⟩ =
    (scan s'.goal s'.outer ⟨s'.text, p'⟩).emit token refusal) : s.Yields [token] s' := by
  intro p
  obtain ⟨p', refusal, h⟩ := h p
  exact ⟨p', by rw [h]; rfl, by rw [h]; rfl⟩

theorem trans (h : s.Yields ts s') (h' : s'.Yields us s'') : s.Yields (ts ++ us) s'' := by
  intro p
  obtain ⟨p₁, hfault₁, htokens₁⟩ := h p
  obtain ⟨p₂, hfault₂, htokens₂⟩ := h' p₁
  refine ⟨p₂, hfault₁.trans hfault₂, ?_⟩
  rw [htokens₁, htokens₂, List.append_assoc]

/-- A step without a token in front. -/
theorem silent_trans (h : s.Yields [] s') (h' : s'.Yields us s'') : s.Yields us s'' := h.trans h'

end Stage.Yields

/-! ## Steps -/

theorem skipBlanks_cons {c : Char} (h : Cursor.isBlank c = false) (rest : List Char) (p : Position) :
    Cursor.skipBlanks ⟨c :: rest, p⟩ = ⟨c :: rest, p⟩ := by
  simp [Cursor.skipBlanks, Cursor.skip, h]

theorem skipBlanks_append {blanks : List Char} (h : ∀ c ∈ blanks, Cursor.isBlank c = true)
    (rest : List Char) (p : Position) :
    ∃ p', Cursor.skipBlanks ⟨blanks ++ rest, p⟩ = Cursor.skipBlanks ⟨rest, p'⟩ := by
  induction blanks generalizing p with
  | nil => exact ⟨p, rfl⟩
  | cons c blanks ih =>
    obtain ⟨p', hskip⟩ := ih (fun d hd => h d (List.mem_cons_of_mem c hd)) (p.after c)
    refine ⟨p', ?_⟩
    rw [← hskip]
    simp [Cursor.skipBlanks, Cursor.skip, h c List.mem_cons_self]

/-- A scan looks at a text from its first character that is not blank. -/
theorem scan_congr {cur cur' : Cursor} (h : cur.skipBlanks = cur'.skipBlanks) (goal : Goal)
    (outer : List Bracket) : scan goal outer cur = scan goal outer cur' := by
  rw [scan.eq_def, scan.eq_def goal outer cur', h]

theorem yields_blanks {blanks : List Char} (h : ∀ c ∈ blanks, Cursor.isBlank c = true) (goal : Goal)
    (outer : List Bracket) (text : List Char) :
    Stage.Yields ⟨goal, outer, blanks ++ text⟩ [] ⟨goal, outer, text⟩ := by
  apply Stage.Yields.of_eq
  intro p
  obtain ⟨p', hskip⟩ := skipBlanks_append h text p
  exact ⟨p', scan_congr hskip goal outer⟩

theorem yields_opening {outer : List Bracket} (h : outer.length + 1 < maxDepth) (bracket : Bracket)
    (text : List Char) :
    Stage.Yields ⟨.value, outer, bracket.opening :: text⟩ [.opening bracket]
      ⟨.first, bracket :: outer, text⟩ := by
  have hblank : Cursor.isBlank bracket.opening = false := by cases bracket <;> rfl
  have hopens : opens? bracket.opening = some bracket := by cases bracket <;> rfl
  apply Stage.Yields.of_emit
  intro p
  refine ⟨p.after bracket.opening,
    (behindClosing bracket ⟨text, p.after bracket.opening⟩).position, ?_⟩
  rw [scan, skipBlanks_cons hblank]
  simp only [hopens, if_neg (Nat.not_le.mpr h)]

theorem yields_closing {goal : Goal} (h : goal = .first ∨ goal = .next) (bracket : Bracket)
    (outer : List Bracket) (text : List Char) :
    Stage.Yields ⟨goal, bracket :: outer, bracket.closing :: text⟩ [.closing] ⟨.next, outer, text⟩ := by
  have hblank : Cursor.isBlank bracket.closing = false := by cases bracket <;> rfl
  apply Stage.Yields.of_emit
  intro p
  refine ⟨p.after bracket.closing, p.after bracket.closing, ?_⟩
  rcases h with rfl | rfl
  · rw [scan, skipBlanks_cons hblank]
    simp only [if_true]
  · rw [scan, skipBlanks_cons hblank]
    simp only [if_true]

/-- A scalar in front of what may stand behind it. -/
theorem yields_scalar {text rest : List Char} {token : Token} (h : Spells text token)
    (hrest : Delimited rest) (outer : List Bracket) :
    Stage.Yields ⟨.value, outer, text ++ rest⟩ [token] ⟨.next, outer, rest⟩ := by
  obtain ⟨c, tail, rfl, hblank, hopens, -⟩ := h.exists_cons
  apply Stage.Yields.of_emit
  intro p
  obtain ⟨p', hread⟩ := h rest hrest p
  refine ⟨p', p', ?_⟩
  rw [List.cons_append] at hread
  rw [List.cons_append, scan, skipBlanks_cons hblank]
  simp only [hopens]
  rw [hread]

/-- The text starts with what is neither blank nor a closing bracket. -/
def Starts (text : List Char) : Prop :=
  ∃ c rest, text = c :: rest ∧ Cursor.isBlank c = false ∧ c ≠ ']' ∧ c ≠ '\x7d'

theorem Spells.starts {text : List Char} {token : Token} (h : Spells text token) : Starts text := by
  obtain ⟨c, rest, rfl, hblank, -, hsquare, hbrace⟩ := h.exists_cons
  exact ⟨c, rest, rfl, hblank, hsquare, hbrace⟩

theorem Starts.append {text : List Char} (h : Starts text) (rest : List Char) : Starts (text ++ rest) := by
  obtain ⟨c, tail, rfl, hc⟩ := h
  exact ⟨c, tail ++ rest, rfl, hc⟩

theorem ne_closing {c : Char} (hsquare : c ≠ ']') (hbrace : c ≠ '\x7d') (bracket : Bracket) :
    c ≠ bracket.closing := by
  cases bracket with
  | square => exact hsquare
  | brace => exact hbrace

/-- The first element of a container. -/
theorem yields_first {text : List Char} (h : Starts text) (bracket : Bracket) (outer : List Bracket) :
    Stage.Yields ⟨.first, bracket :: outer, text⟩ [] ⟨.ofElement bracket, bracket :: outer, text⟩ := by
  obtain ⟨c, rest, rfl, hblank, hsquare, hbrace⟩ := h
  apply Stage.Yields.of_eq
  intro p
  refine ⟨p, ?_⟩
  rw [scan, skipBlanks_cons hblank]
  simp only [if_neg (ne_closing hsquare hbrace bracket)]

/-- A comma and one more element. -/
theorem yields_comma {blanks text : List Char} (hblanks : ∀ c ∈ blanks, Cursor.isBlank c = true)
    (h : Starts text) (bracket : Bracket) (outer : List Bracket) :
    Stage.Yields ⟨.next, bracket :: outer, ',' :: (blanks ++ text)⟩ []
      ⟨.ofElement bracket, bracket :: outer, text⟩ := by
  refine Stage.Yields.silent_trans (Stage.Yields.of_eq fun p => ⟨p.after ',', ?_⟩)
    (yields_blanks hblanks _ _ text)
  obtain ⟨c, rest, rfl, hblank, hsquare, hbrace⟩ := h
  have hclosing : ',' ≠ bracket.closing := by cases bracket <;> decide
  -- behind the comma stands no closing bracket
  have hahead : (Cursor.skipBlanks ⟨blanks ++ c :: rest, p.after ','⟩).rest.head? ≠ some bracket.closing := by
    obtain ⟨p', hskip⟩ := skipBlanks_append hblanks (c :: rest) (p.after ',')
    rw [hskip, skipBlanks_cons hblank]
    intro hc
    exact ne_closing hsquare hbrace bracket (Option.some.inj hc)
  rw [scan, skipBlanks_cons (by rfl)]
  simp only [if_neg hclosing, if_true, if_neg hahead]

/-- The name of a member, with its colon. -/
theorem yields_name (name : String) (style : Style) (outer : List Bracket) (text : List Char) :
    Stage.Yields ⟨.key, outer, quote name ++ style.colon ++ text⟩ [.key name] ⟨.value, outer, text⟩ := by
  obtain ⟨blanks, hcolon, hblanks⟩ : ∃ blanks, style.colon = ':' :: blanks ∧
      ∀ c ∈ blanks, Cursor.isBlank c = true := by
    unfold Style.colon
    split
    · exact ⟨[' '], rfl, fun c hc => List.mem_singleton.mp hc ▸ rfl⟩
    · exact ⟨[], rfl, fun c hc => absurd hc List.not_mem_nil⟩
  have hname : Stage.Yields ⟨.key, outer, quote name ++ style.colon ++ text⟩ [.key name]
      ⟨.value, outer, blanks ++ text⟩ := by
    apply Stage.Yields.of_emit
    intro p
    -- the text is read to its closing quote, then the colon, and blanks are left for the value
    obtain ⟨p₁, hbody⟩ := stringBody_flatMap_escape name.toList (p.after '"') (':' :: (blanks ++ text))
    have hbehind : colon ⟨':' :: (blanks ++ text), p₁⟩ = .ok ⟨blanks ++ text, p₁.after ':'⟩ := by
      rw [colon, skipBlanks_cons (by rfl)]
      rfl
    refine ⟨p₁.after ':', (behindClosing .brace ⟨':' :: (blanks ++ text), p₁⟩).position, ?_⟩
    have htext : quote name ++ style.colon ++ text =
        '"' :: (name.toList.flatMap escape ++ '"' :: ':' :: (blanks ++ text)) := by
      simp [quote, hcolon]
    rw [htext, scan, skipBlanks_cons (by rfl)]
    simp only [if_true]
    rw [hbody]
    dsimp only
    rw [hbehind, String.ofList_toList]
  exact hname.trans (yields_blanks hblanks _ _ text)

theorem isBlank_of_mem_separator (style : Style) (level : Nat) :
    ∀ c ∈ style.separator level, Cursor.isBlank c = true := by
  intro c hc
  unfold Style.separator at hc
  split at hc
  · rcases List.mem_cons.mp hc with rfl | hc
    · rfl
    · obtain rfl := List.eq_of_mem_replicate hc
      rfl
  · cases hc

/-! ## Containers -/

/-- A text that a scan takes as one element of a container. -/
structure Piece (bracket : Bracket) (outer : List Bracket) (text : List Char) (ts : List Token) : Prop where
  starts : Starts text
  yields : ∀ rest, Delimited rest →
    Stage.Yields ⟨.ofElement bracket, bracket :: outer, text ++ rest⟩ ts ⟨.next, bracket :: outer, rest⟩

/-- Texts of elements one after the other, and the tokens of all of them. -/
inductive Pieces (bracket : Bracket) (outer : List Bracket) : List (List Char) → List Token → Prop where
  | nil : Pieces bracket outer [] []
  | cons {text : List Char} {texts : List (List Char)} {ts us : List Token} :
      Piece bracket outer text ts → Pieces bracket outer texts us →
      Pieces bracket outer (text :: texts) (ts ++ us)

section Containers

variable {bracket : Bracket} {outer : List Bracket} {texts : List (List Char)} {ts : List Token}

theorem delimited_separator (style : Style) (level : Nat) {rest : List Char} (h : Delimited rest) :
    Delimited (style.separator level ++ rest) := by
  unfold Style.separator
  split
  · exact Or.inr (Or.inl rfl)
  · exact h

theorem delimited_closing (bracket : Bracket) (rest : List Char) : Delimited (bracket.closing :: rest) := by
  cases bracket with
  | square => exact Or.inr (Or.inr (Or.inl rfl))
  | brace => exact Or.inr (Or.inr (Or.inr rfl))

/-- What stands behind an element is a comma, or what stands behind the last one. -/
theorem delimited_more (style : Style) (level : Nat) (texts : List (List Char)) {rest : List Char}
    (hrest : Delimited rest) :
    Delimited (texts.flatMap (fun e => ',' :: style.separator level ++ e) ++ rest) := by
  cases texts with
  | nil => exact hrest
  | cons => exact Or.inl rfl

/-- The elements behind the first, each with a comma in front. -/
theorem Pieces.yields_more (h : Pieces bracket outer texts ts) (style : Style) (level : Nat)
    {rest : List Char} (hrest : Delimited rest) :
    Stage.Yields ⟨.next, bracket :: outer,
        texts.flatMap (fun e => ',' :: style.separator level ++ e) ++ rest⟩ ts
      ⟨.next, bracket :: outer, rest⟩ := by
  induction h with
  | nil => exact Stage.Yields.of_eq fun p => ⟨p, rfl⟩
  | @cons text texts ts us hpiece _ ih =>
    -- a comma with blanks, the element, and the elements behind it
    have hcomma := yields_comma (isBlank_of_mem_separator style level)
      (hpiece.starts.append (texts.flatMap (fun e => ',' :: style.separator level ++ e) ++ rest)) bracket outer
    have hsplit := hcomma.silent_trans ((hpiece.yields _ (delimited_more style level texts hrest)).trans ih)
    simpa using hsplit

/-- **Elements between brackets are scanned one after the other.** -/
theorem Pieces.yields_enclose (h : Pieces bracket outer texts ts) (hdepth : outer.length + 1 < maxDepth)
    (style : Style) (level : Nat) (rest : List Char) :
    Stage.Yields ⟨.value, outer, enclose style level bracket texts ++ rest⟩
      (.opening bracket :: (ts ++ [.closing])) ⟨.next, outer, rest⟩ := by
  cases h with
  | nil =>
    exact (yields_opening hdepth bracket (bracket.closing :: rest)).trans
      (yields_closing (Or.inl rfl) bracket outer rest)
  | @cons text texts ts us hpiece hpieces =>
    -- blanks, the first element, the other elements, blanks, and the closing bracket
    have hfirst := yields_blanks (isBlank_of_mem_separator style (level + 1)) .first (bracket :: outer)
      (text ++ (texts.flatMap (fun e => ',' :: style.separator (level + 1) ++ e) ++
        (style.separator level ++ bracket.closing :: rest)))
    have hlast := yields_blanks (isBlank_of_mem_separator style level) .next (bracket :: outer)
      (bracket.closing :: rest)
    have hend := delimited_separator style level (delimited_closing bracket rest)
    have hdelimited := delimited_more style (level + 1) texts hend
    have hmore := hpieces.yields_more style (level + 1) hend
    have hinside := hfirst.silent_trans <| (yields_first (hpiece.starts.append _) bracket outer).silent_trans <|
      (hpiece.yields _ hdelimited).trans <| hmore.trans <| hlast.silent_trans <|
        yields_closing (Or.inr rfl) bracket outer rest
    have hwhole := (yields_opening hdepth bracket _).trans hinside
    simpa [enclose] using hwhole

end Containers

theorem starts_enclose (style : Style) (level : Nat) (bracket : Bracket) (texts : List (List Char)) :
    Starts (enclose style level bracket texts) := by
  have hopening : Cursor.isBlank bracket.opening = false ∧ bracket.opening ≠ ']' ∧
      bracket.opening ≠ '\x7d' := by
    cases bracket <;> decide
  cases texts with
  | nil => exact ⟨bracket.opening, _, rfl, hopening⟩
  | cons text texts => exact ⟨bracket.opening, _, rfl, hopening⟩

/-! ## Whole texts -/

/-- **A text that a scan comes through to its end is accepted.** -/
theorem Stage.Yields.scan_ofText {text : List Char} {ts : List Token}
    (h : Stage.Yields ⟨.value, [], text⟩ ts ⟨.next, [], []⟩) :
    (Scan.ofText (String.ofList text)).fault? = none ∧
      (Scan.ofText (String.ofList text)).tokens.map Prod.fst = ts := by
  obtain ⟨p, hfault, htokens⟩ := h .start
  -- outside of all brackets the text may end
  have hend : scan .next [] ⟨[], p⟩ = .done := by
    rw [scan]
    rfl
  rw [hend] at hfault htokens
  rw [Scan.ofText, Cursor.ofText, String.toList_ofList]
  exact ⟨hfault, htokens.trans (List.append_nil _)⟩

/-! ## Documents -/

namespace Document

theorem spells_int (v : Int64) : Spells (Decimal.integer v.toInt) (.number (.whole v.toInt)) :=
  spells_integer v.le_toInt (Int.lt_trans v.toInt_lt (by decide))

theorem starts_print (d : Document) (style : Style) (level : Nat) : Starts (d.print style level) := by
  cases d with
  | bool v => exact (spells_bool v).starts
  | int v => exact (spells_int v).starts
  | text v => exact (spells_quote v.text).starts
  | array elements => exact starts_enclose style level .square _
  | object members => exact starts_enclose style level .brace _

mutual

/-- **The text of a document is scanned into the tokens of its value**, inside brackets or outside. -/
theorem yields_print (d : Document) (style : Style) (level : Nat) {outer : List Bracket}
    (hdepth : outer.length + d.depth < maxDepth) {rest : List Char} (hrest : Delimited rest) :
    Stage.Yields ⟨.value, outer, d.print style level ++ rest⟩ d.value.tokens ⟨.next, outer, rest⟩ := by
  cases d with
  | bool v => exact yields_scalar (spells_bool v) hrest outer
  | int v => exact yields_scalar (spells_int v) hrest outer
  | text v => exact yields_scalar (spells_quote v.text) hrest outer
  | array elements =>
    rw [depth, Nat.add_comm (elementDepth elements), ← Nat.add_assoc] at hdepth
    rw [print, value, Value.tokens]
    exact (pieces_elements elements style (level + 1) hdepth).yields_enclose
      (Nat.lt_of_le_of_lt (Nat.le_add_right _ _) hdepth) style level rest
  | object members =>
    rw [depth, Nat.add_comm (memberDepth members), ← Nat.add_assoc] at hdepth
    rw [print, value, Value.tokens]
    exact (pieces_members members style (level + 1) hdepth).yields_enclose
      (Nat.lt_of_le_of_lt (Nat.le_add_right _ _) hdepth) style level rest

theorem pieces_elements (ds : List Document) (style : Style) (level : Nat) {outer : List Bracket}
    (hdepth : outer.length + 1 + elementDepth ds < maxDepth) :
    Pieces .square outer (printElements style level ds) (Value.elementTokens (elementValues ds)) := by
  match ds with
  | [] => exact .nil
  | d :: ds =>
    rw [elementDepth] at hdepth
    have hmore := pieces_elements ds style level
      (show outer.length + 1 + elementDepth ds < maxDepth by omega)
    have hinside : (Bracket.square :: outer).length + d.depth < maxDepth := by
      rw [List.length_cons]
      omega
    refine .cons ⟨starts_print d style level, fun rest hrest => ?_⟩ hmore
    exact yields_print d style level hinside hrest

theorem pieces_members (ms : List (PlainText × Document)) (style : Style) (level : Nat)
    {outer : List Bracket} (hdepth : outer.length + 1 + memberDepth ms < maxDepth) :
    Pieces .brace outer (printMembers style level ms) (Value.memberTokens (memberValues ms)) := by
  match ms with
  | [] => exact .nil
  | (name, d) :: ms =>
    rw [memberDepth] at hdepth
    have hinside : (Bracket.brace :: outer).length + d.depth < maxDepth := by
      rw [List.length_cons]
      omega
    have hmore := pieces_members ms style level
      (show outer.length + 1 + memberDepth ms < maxDepth by omega)
    have hstarts : Starts (quote name.text ++ style.colon ++ d.print style level) :=
      ⟨'"', _, rfl, by decide⟩
    show Pieces .brace outer (_ :: printMembers style level ms)
      ((.key name.text :: d.value.tokens) ++ Value.memberTokens (memberValues ms))
    refine .cons ⟨hstarts, fun rest hrest => ?_⟩ hmore
    have hname := yields_name name.text style (.brace :: outer) (d.print style level ++ rest)
    rw [← List.append_assoc] at hname
    exact hname.trans (yields_print d style level hinside hrest)

end

/-- **The text of a document has the document's value.** -/
theorem reads_print (d : Document) (style : Style) (level : Nat) (hdepth : d.depth < maxDepth) :
    Reads (String.ofList (d.print style level)) d.value := by
  have hyields : Stage.Yields ⟨.value, [], d.print style level ++ []⟩ d.value.tokens ⟨.next, [], []⟩ :=
    yields_print d style level (by rwa [List.length_nil, Nat.zero_add]) trivial
  rw [List.append_nil] at hyields
  exact hyields.scan_ofText

end Document

end FieldTree.Json
