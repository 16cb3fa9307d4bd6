import FieldTree.Proofs.Json.Value
import FieldTree.Proofs.Json.Writing

/-!
# The Value of a Text

A text that is scanned without a fault has a value, and only one. The scan keeps no more than the brackets
that are open, so what is proved of it is what the tokens that are still to come have to be: the rest of
every open container, innermost first.

## Architecture

- `Json.Reads`: a text has a value.
- `Json.Closes`: the tokens that complete all open brackets.
- `Json.Goal.Completed`: the tokens that a scan still yields, for each goal.
- `Json.scan_completed`, `Json.scan_inRange`: **what a scan without a fault yields.**
- `Json.existsUnique_reads`: every accepted text has exactly one value.
-/

namespace FieldTree.Json

/-- The text is accepted, and its tokens are those of the value. -/
def Reads (text : String) (v : Value) : Prop :=
  (Scan.ofText text).fault? = none ∧ (Scan.ofText text).tokens.map Prod.fst = v.tokens

/-! ## Integers in range -/

theorem inRange_realNumber {negative : Bool} {significand : Nat} {e : Int} {cur cur' : Cursor} {v : Number}
    (h : realNumber negative significand e cur = .ok (v, cur')) : (Token.number v).InRange := by
  unfold realNumber at h
  split at h
  · cases h
  · cases h; trivial

theorem inRange_exponentPart {negative : Bool} {significand : Nat} {e : Int} {cur cur' : Cursor}
    {v : Number} (h : exponentPart negative significand e cur = .ok (v, cur')) :
    (Token.number v).InRange := by
  unfold exponentPart at h
  dsimp only at h
  split at h
  · cases h
  · split at h
    · split at h
      · split at h
        · cases h
        · cases h; trivial
      · exact inRange_realNumber h
    · cases h

theorem inRange_realPart {negative : Bool} {significand : Nat} {e : Int} {cur cur' : Cursor} {v : Number}
    (h : realPart negative significand e cur = .ok (v, cur')) : (Token.number v).InRange := by
  unfold realPart at h
  split at h
  · split at h
    · exact inRange_exponentPart h
    · exact inRange_realNumber h
  · exact inRange_realNumber h

theorem inRange_fractionPart {negative : Bool} {significand : Nat} {e : Int} {cur cur' : Cursor}
    {v : Number} (h : fractionPart negative significand e cur = .ok (v, cur')) :
    (Token.number v).InRange := by
  unfold fractionPart at h
  split at h
  · cases h
  · split at h
    · exact inRange_realPart h
    · cases h

/-- What is below 64 bits with a sign is read as a real number. -/
theorem inRange_wholeNumber (negative : Bool) (n : Nat) :
    (Token.number (wholeNumber negative n)).InRange := by
  unfold wholeNumber
  split
  · split
    · trivial
    · show (-2 ^ 63 : Int) ≤ -(n : Int)
      omega
  · show (-2 ^ 63 : Int) ≤ (n : Int)
    omega

theorem inRange_afterWhole {negative : Bool} {significand dropped : Nat} {cur cur' : Cursor} {v : Number}
    (h : afterWhole negative significand dropped cur = .ok (v, cur')) : (Token.number v).InRange := by
  unfold afterWhole at h
  split at h
  · exact inRange_fractionPart h
  · split at h
    · exact inRange_realPart h
    · cases h; exact inRange_wholeNumber _ _
  · split at h
    · exact inRange_realPart h
    · cases h; exact inRange_wholeNumber _ _

theorem inRange_unsignedNumber {negative : Bool} {cur cur' : Cursor} {v : Number}
    (h : unsignedNumber negative cur = .ok (v, cur')) : (Token.number v).InRange := by
  unfold unsignedNumber at h
  split at h
  · cases h
  · split at h
    · cases h
    · split at h
      · split at h
        · cases h
        · exact inRange_afterWhole h
      · exact inRange_afterWhole h

theorem inRange_number {cur cur' : Cursor} {v : Number} (h : number cur = .ok (v, cur')) :
    (Token.number v).InRange := by
  unfold number at h
  split at h
  · exact inRange_unsignedNumber h
  · exact inRange_unsignedNumber h

/-- Helper: what is mapped to a result comes from a result. -/
private theorem exists_of_map_eq_ok {ε α β : Type} {e : Except ε α} {f : α → β} {b : β}
    (h : e.map f = .ok b) : ∃ a, e = .ok a ∧ f a = b := by
  cases e with
  | error e => cases h
  | ok a => cases h; exact ⟨a, rfl, rfl⟩

/-- **Scalars are values of one token**, and integers among them are in range. -/
theorem readScalar_value {cur cur' : Cursor} {token : Token} (h : readScalar cur = .ok (token, cur')) :
    token.InRange ∧ ∃ v : Value, v.tokens = [token] := by
  unfold readScalar at h
  split at h
  · cases h
  · dsimp only at h
    split at h
    · obtain ⟨_, -, hr⟩ := exists_of_map_eq_ok h
      cases hr; exact ⟨trivial, .null, rfl⟩
    · obtain ⟨_, -, hr⟩ := exists_of_map_eq_ok h
      cases hr; exact ⟨trivial, .bool true, rfl⟩
    · obtain ⟨_, -, hr⟩ := exists_of_map_eq_ok h
      cases hr; exact ⟨trivial, .bool false, rfl⟩
    · obtain ⟨⟨cs, _⟩, -, hr⟩ := exists_of_map_eq_ok h
      cases hr; exact ⟨trivial, .text (.ofList cs), rfl⟩
    · split at h
      · obtain ⟨⟨v, _⟩, hv, hr⟩ := exists_of_map_eq_ok h
        cases hr; exact ⟨inRange_number hv, .number v, rfl⟩
      · cases h

/-! ## The rest of open containers -/

/-- The tokens complete all open brackets, innermost first. -/
inductive Closes : List Bracket → List Token → Prop where
  | done : Closes [] []
  | closing {bracket : Bracket} {outer : List Bracket} {ts : List Token} (rest : Closes outer ts) :
      Closes (bracket :: outer) (.closing :: ts)
  | element {outer : List Bracket} {ts : List Token} (v : Value) (rest : Closes (.square :: outer) ts) :
      Closes (.square :: outer) (v.tokens ++ ts)
  | member {outer : List Bracket} {ts : List Token} (name : String) (v : Value)
      (rest : Closes (.brace :: outer) ts) : Closes (.brace :: outer) (.key name :: (v.tokens ++ ts))

/-- The tokens that a scan yields if it reaches its end. -/
def Goal.Completed (outer : List Bracket) (ts : List Token) : Goal → Prop
  | value => ∃ v rest, ts = Value.tokens v ++ rest ∧ Closes outer rest
  | key => ∃ name v rest, ts = .key name :: (Value.tokens v ++ rest) ∧ Closes outer rest
  | first | next => Closes outer ts

/-- What is inside square brackets is a list of elements. -/
theorem Closes.elements {outer : List Bracket} {ts : List Token} (h : Closes (.square :: outer) ts) :
    ∃ vs rest, ts = Value.elementTokens vs ++ .closing :: rest ∧ Closes outer rest := by
  -- induction on what completes the brackets, with the innermost one held fixed
  generalize hopen : Bracket.square :: outer = brackets at h
  induction h with
  | done => cases hopen
  | closing rest _ => cases hopen; exact ⟨[], _, rfl, rest⟩
  | element v _ ih =>
    obtain ⟨vs, rest, rfl, hrest⟩ := ih hopen
    refine ⟨v :: vs, rest, ?_, hrest⟩
    rw [Value.elementTokens, List.append_assoc]
  | member => cases hopen

/-- What is inside braces is a list of members. -/
theorem Closes.members {outer : List Bracket} {ts : List Token} (h : Closes (.brace :: outer) ts) :
    ∃ ms rest, ts = Value.memberTokens ms ++ .closing :: rest ∧ Closes outer rest := by
  generalize hopen : Bracket.brace :: outer = brackets at h
  induction h with
  | done => cases hopen
  | closing rest _ => cases hopen; exact ⟨[], _, rfl, rest⟩
  | element => cases hopen
  | member name v _ ih =>
    obtain ⟨ms, rest, rfl, hrest⟩ := ih hopen
    refine ⟨(name, v) :: ms, rest, ?_, hrest⟩
    rw [Value.memberTokens, List.cons_append, List.append_assoc]

/-- Brackets with what is inside them are a value. -/
theorem Closes.value {bracket : Bracket} {outer : List Bracket} {ts : List Token}
    (h : Closes (bracket :: outer) ts) :
    ∃ v rest, Token.opening bracket :: ts = Value.tokens v ++ rest ∧ Closes outer rest := by
  cases bracket with
  | square =>
    obtain ⟨vs, rest, rfl, hrest⟩ := h.elements
    refine ⟨.array vs, rest, ?_, hrest⟩
    rw [Value.tokens, List.cons_append, List.append_assoc]
    rfl
  | brace =>
    obtain ⟨ms, rest, rfl, hrest⟩ := h.members
    refine ⟨.object ms, rest, ?_, hrest⟩
    rw [Value.tokens, List.cons_append, List.append_assoc]
    rfl

/-- An element or member goes in front of what completes its container. -/
theorem Closes.of_element {bracket : Bracket} {outer : List Bracket} {ts : List Token}
    (h : (Goal.ofElement bracket).Completed (bracket :: outer) ts) : Closes (bracket :: outer) ts := by
  cases bracket with
  | square =>
    obtain ⟨v, rest, rfl, hrest⟩ := h
    exact .element v hrest
  | brace =>
    obtain ⟨name, v, rest, rfl, hrest⟩ := h
    exact .member name v hrest

/-! ## Scans -/

/-- **A scan without a fault completes what it was looking for.** -/
theorem scan_completed (goal : Goal) (outer : List Bracket) (cur : Cursor)
    (h : (scan goal outer cur).fault? = none) :
    goal.Completed outer ((scan goal outer cur).tokens.map Prod.fst) := by
  fun_induction scan goal outer cur with
  | case1 goal outer cur _ =>
    -- the text has ended: only outside of all brackets nothing is missing
    cases goal with
    | value => cases h
    | key => cases h
    | first =>
      cases outer with
      | nil => exact .done
      | cons => cases h
    | next =>
      cases outer with
      | nil => exact .done
      | cons => cases h
  | case3 cur c rest _ here behind outer bracket _ _ ih =>
    -- a container: what closes it and all that is outside makes up its value
    obtain ⟨v, ts, hts, hclose⟩ := (ih h).value
    exact ⟨v, ts, hts, hclose⟩
  | case5 cur c rest _ outer _ token after hread ih =>
    -- a scalar: one token, which is a value
    obtain ⟨-, v, hv⟩ := readScalar_value hread
    refine ⟨v, _, ?_, ih h⟩
    rw [hv]
    rfl
  | case8 cur rest here outer name after refusal member _ _ behind _ ih =>
    -- a name: its value is what comes behind the colon
    obtain ⟨v, ts, hts, hclose⟩ := ih h
    refine ⟨String.ofList name, v, ts, ?_, hclose⟩
    exact congrArg (List.cons (Token.key (String.ofList name))) hts
  -- the end of a container, or one more element in it
  | case10 cur rest here bracket outer _ behind ih => exact .closing (ih h)
  | case11 cur c rest _ here bracket outer _ ih => exact .of_element (ih h)
  | case12 cur rest here bracket outer _ behind ih => exact .closing (ih h)
  | case14 cur rest here bracket outer _ behind _ ahead _ ih => exact .of_element (ih h)
  | case2 | case4 | case6 | case7 | case9 | case13 | case15 | case16 => cases h

/-- **The integers that a scan yields are in range.** -/
theorem scan_inRange (goal : Goal) (outer : List Bracket) (cur : Cursor) :
    ∀ token ∈ (scan goal outer cur).tokens.map Prod.fst, token.InRange := by
  -- induction along the scan; only a scalar yields an integer, and the tokens of all other steps hold none
  fun_induction scan goal outer cur with
  | case1 goal outer cur _ =>
    rcases goal with _ | _ | _ | _ <;> rcases outer with _ | ⟨bracket, outer⟩ <;>
      exact fun _ h => absurd h List.not_mem_nil
  | case3 cur c rest _ here behind outer bracket _ _ ih =>
    intro token hmem
    rcases List.mem_cons.mp hmem with rfl | hmem
    · trivial
    · exact ih token hmem
  | case5 cur c rest _ outer _ token after hread ih =>
    intro t hmem
    rcases List.mem_cons.mp hmem with rfl | hmem
    · exact (readScalar_value hread).1
    · exact ih t hmem
  | case7 cur rest here outer name after e _ _ behind _ refusal =>
    intro token hmem
    obtain rfl := List.mem_singleton.mp hmem
    trivial
  | case8 cur rest here outer name after refusal member _ _ behind _ ih =>
    intro token hmem
    rcases List.mem_cons.mp hmem with rfl | hmem
    · trivial
    · exact ih token hmem
  | case10 cur rest here bracket outer _ behind ih =>
    intro token hmem
    rcases List.mem_cons.mp hmem with rfl | hmem
    · trivial
    · exact ih token hmem
  | case11 cur c rest _ here bracket outer _ ih => exact ih
  | case12 cur rest here bracket outer _ behind ih =>
    intro token hmem
    rcases List.mem_cons.mp hmem with rfl | hmem
    · trivial
    · exact ih token hmem
  | case14 cur rest here bracket outer _ behind _ ahead _ ih => exact ih
  -- a scan that stops here yields nothing more
  | case2 | case4 | case6 | case9 | case13 | case15 | case16 => exact fun _ h => absurd h List.not_mem_nil

/-! ## Texts -/

/-- **Every accepted text has exactly one value.** -/
theorem existsUnique_reads {text : String} (h : (Scan.ofText text).fault? = none) :
    ∃ v, Reads text v ∧ ∀ w, Reads text w → w = v := by
  obtain ⟨v, rest, hts, hrest⟩ := scan_completed .value [] (.ofText text) h
  -- outside of all brackets nothing is left
  cases hrest
  rw [List.append_nil] at hts
  refine ⟨v, ⟨h, hts⟩, fun w hw => ?_⟩
  exact Value.tokens_inj (hw.2.symm.trans hts)

end FieldTree.Json
