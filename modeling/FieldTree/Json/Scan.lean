import FieldTree.Json.Literal

/-!
# Scanning JSON Texts

A JSON text is scanned from left to right into tokens. The scan of a faulty text is not lost: it has the
tokens in front of the fault, so that a consumer that acts on each token at once sees exactly those.

Next to every token stands the position that a fault has if the consumer refuses the token. For a scalar it
is the position behind it; for a key or an opening bracket the scan first moves over what would close the
container.

## Architecture

- `Token`, `Scan`: what a scan yields.
- `Goal`: what the scan looks for next.
- `scan`: the scan proper, with the brackets that are open.
- `Scan.ofText`: the scan of a whole text.
-/

namespace FieldTree.Json

/-! ## Tokens -/

/-- What a text is made of. Commas and colons leave no token. -/
inductive Token where
  | null
  | bool (v : Bool)
  | number (v : Number)
  | string (text : String)
  /-- the name of an object's member -/
  | key (text : String)
  | opening (bracket : Bracket)
  | closing
  deriving DecidableEq, Repr

/-- The tokens of a text, each with the position of its refusal, up to the end or to a fault. -/
structure Scan where
  tokens : List (Token × Position)
  fault? : Option Fault
  deriving DecidableEq, Repr

namespace Scan

/-- A scan that ends at once in a fault. -/
def fail (fault : Fault) : Scan := ⟨[], some fault⟩

/-- A scan that is complete. -/
def done : Scan := ⟨[], none⟩

/-- A scan with one more token in front. -/
def emit (s : Scan) (token : Token) (refusal : Position) : Scan :=
  { s with tokens := (token, refusal) :: s.tokens }

end Scan

/-! ## Scalars -/

/-- The scalar at the cursor. -/
def readScalar (cur : Cursor) : Except Fault (Token × Cursor) :=
  match cur.rest with
  | [] => .error (cur.faultAhead .endInValue)
  | c :: rest =>
    let behind := cur.position.after c
    match c with
    | 'n' => (word behind ['u', 'l', 'l'] rest).map fun cur => (.null, cur)
    | 't' => (word behind ['r', 'u', 'e'] rest).map fun cur => (.bool true, cur)
    | 'f' => (word behind ['a', 'l', 's', 'e'] rest).map fun cur => (.bool false, cur)
    | '"' => (stringBody behind rest).map fun (cs, cur) => (.string (String.ofList cs), cur)
    | c =>
      if c = '-' ∨ c.isDigit then (number cur).map fun (v, cur) => (.number v, cur)
      else .error (cur.faultAhead .expectedValue)

theorem readScalar_shorter {cur cur' : Cursor} {token : Token}
    (h : readScalar cur = .ok (token, cur')) : cur'.rest.length < cur.rest.length := by
  -- a word is read behind its first letter
  have ofWord : ∀ {p expected rest} {t : Token},
      ((word p expected rest).map fun cur => (t, cur)) = .ok (token, cur') →
      cur'.rest.length ≤ rest.length := by
    intro p expected rest t hw
    cases hk : word p expected rest with
    | error e => rw [hk] at hw; cases hw
    | ok r => rw [hk] at hw; cases hw; exact word_le hk
  unfold readScalar at h
  split at h
  · cases h
  · next c rest heq =>
    rw [heq, List.length_cons]
    dsimp only at h
    -- the first character decides what is read: a word, a text, or a number
    split at h
    · exact Nat.lt_succ_of_le (ofWord h)
    · exact Nat.lt_succ_of_le (ofWord h)
    · exact Nat.lt_succ_of_le (ofWord h)
    · cases hk : stringBody (cur.position.after '"') rest with
      | error e => rw [hk] at h; cases h
      | ok r =>
        rw [hk] at h; cases h
        exact Nat.lt_succ_of_lt (stringBody_shorter hk)
    · split at h
      · cases hk : number cur with
        | error e => rw [hk] at h; cases h
        | ok r =>
          rw [hk] at h; cases h
          have := number_shorter hk
          rw [heq, List.length_cons] at this
          exact this
      · cases h

/-! ## Containers -/

/-- The bracket that a character opens, if it opens one. -/
def opens? (c : Char) : Option Bracket :=
  if c = '[' then some .square else if c = '\x7b' then some .brace else none

/-- What is looked for next. -/
inductive Goal where
  | value
  | key
  /-- the first element of a container, or its closing bracket -/
  | first
  /-- what follows a value -/
  | next
  deriving DecidableEq, Repr

/-- What the elements of a container start with. -/
def Goal.ofElement : Bracket → Goal
  | .square => value
  | .brace => key

/-- The fault of a container that ends with the text. -/
def endInside : Bracket → Cause
  | .square => .endInList
  | .brace => .endInObject

/-- The fault of a container in which something else stands instead of a comma. -/
def expectedComma : Bracket → Cause
  | .square => .expectedListComma
  | .brace => .expectedObjectComma

/-- The scan of a text that has ended. -/
def scanEnd (goal : Goal) (outer : List Bracket) (cur : Cursor) : Scan :=
  match goal, outer with
  | .value, _ => .fail (cur.faultAhead .endInValue)
  | .key, _ => .fail (cur.faultAhead .endInValue)
  | _, bracket :: _ => .fail (cur.faultAhead (endInside bracket))
  | _, [] => .done

/-- The cursor behind what would close a container, as far as it is there: blanks and the closing bracket,
    or in an array a comma and the blanks behind it. -/
def behindClosing (bracket : Bracket) (cur : Cursor) : Cursor :=
  let cur := cur.skipBlanks
  match cur.rest with
  | [] => cur
  | c :: rest =>
    let behind : Cursor := ⟨rest, cur.position.after c⟩
    if c = bracket.closing then behind
    else if bracket = .square ∧ c = ',' then behind.skipBlanks
    else cur

/-- Behind a key: the colon that must follow. -/
def colon (cur : Cursor) : Except Fault Cursor :=
  let cur := cur.skipBlanks
  match cur.rest with
  | [] => .error (cur.faultAhead .endInObject)
  | c :: rest =>
    if c = ':' then .ok ⟨rest, cur.position.after c⟩ else .error (cur.faultAhead .expectedColon)

theorem colon_le {cur cur' : Cursor} (h : colon cur = .ok cur') :
    cur'.rest.length ≤ cur.rest.length := by
  have hs := cur.skipBlanks_le
  unfold colon at h
  dsimp only at h
  split at h
  · cases h
  · next c rest heq =>
    rw [heq, List.length_cons] at hs
    split at h
    · cases h; dsimp only; omega
    · cases h

/-- The scan from a cursor on, inside the brackets `outer`, innermost first. At most `maxDepth - 1` brackets
    can be open. -/
def scan (goal : Goal) (outer : List Bracket) (cur : Cursor) : Scan :=
  match _hr : cur.skipBlanks.rest with
  | [] => scanEnd goal outer cur.skipBlanks
  | c :: rest =>
    let here := cur.skipBlanks
    let behind : Cursor := ⟨rest, here.position.after c⟩
    match goal, outer with
    | .value, outer =>
      -- a bracket enters a container; everything else is a scalar that is read as a whole
      match opens? c with
      | some bracket =>
        if maxDepth ≤ outer.length + 1 then .fail (here.faultAhead .recursionLimit)
        else
          (scan .first (bracket :: outer) behind).emit (.opening bracket)
            (behindClosing bracket behind).position
      | none =>
        match _hs : readScalar cur.skipBlanks with
        | .error e => .fail e
        | .ok (token, after) => (scan .next outer after).emit token after.position
    | .key, outer =>
      if c = '"' then
        match _hs : stringBody behind.position rest with
        | .error e => .fail e
        | .ok (name, after) =>
          -- whoever refuses the name says so behind what would close the object
          let refusal := (behindClosing .brace after).position
          match _hc : colon after with
          | .error e => (Scan.fail e).emit (.key (String.ofList name)) refusal
          | .ok member => (scan .value outer member).emit (.key (String.ofList name)) refusal
      else .fail (here.faultAhead .keyNotString)
    | .first, bracket :: outer =>
      if c = bracket.closing then (scan .next outer behind).emit .closing behind.position
      -- nothing was taken, but the goal is no longer the first element
      else scan (.ofElement bracket) (bracket :: outer) here
    | .next, bracket :: outer =>
      if c = bracket.closing then (scan .next outer behind).emit .closing behind.position
      else if c = ',' then
        -- a comma in front of the closing bracket has a fault of its own
        let ahead := behind.skipBlanks
        if ahead.rest.head? = some bracket.closing then .fail (ahead.faultAhead .trailingComma)
        else scan (.ofElement bracket) (bracket :: outer) behind
      else .fail (here.faultAhead (expectedComma bracket))
    | _, [] => .fail (here.faultAhead .trailingCharacters)
  termination_by 2 * cur.rest.length + (if goal = .first then 1 else 0)
  decreasing_by
    all_goals
      have hlen := cur.skipBlanks_le
      rw [_hr, List.length_cons] at hlen
    · simp; omega
    · have := readScalar_shorter _hs
      rw [_hr, List.length_cons] at this
      simp; omega
    · have := stringBody_shorter _hs
      have := colon_le _hc
      simp; omega
    · simp; omega
    · have hg : Goal.ofElement bracket ≠ .first := by cases bracket <;> simp [Goal.ofElement]
      simp [hg, _hr]; omega
    · simp; omega
    · have hg : Goal.ofElement bracket ≠ .first := by cases bracket <;> simp [Goal.ofElement]
      simp [hg]; omega

/-- The scan of a whole text. -/
def Scan.ofText (text : String) : Scan := scan .value [] (.ofText text)

end FieldTree.Json
