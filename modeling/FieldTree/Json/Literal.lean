import FieldTree.Json.Cursor
import FieldTree.Numeral

/-!
# Words, Strings and Numbers

The scalars of a JSON text. Each reader takes a cursor at the scalar's first character and gives the value
and the cursor behind it.

## Architecture

- `word`: the rest of `null`, `true` or `false`.
- `stringBody`: the characters up to the closing quote, escapes resolved.
- `number`: a whole number of 64 bits, or a double by `Decimal.scaled`.

## Main statements

- `stringBody_shorter`, `number_shorter`: a reader that succeeds has moved on.
-/

namespace FieldTree.Json

/-! ## Words -/

/-- Takes the expected characters, and gives the cursor behind them. -/
def word (p : Position) : (expected : List Char) → List Char → Except Fault Cursor
  | [], rest => .ok ⟨rest, p⟩
  | _ :: _, [] => .error ⟨.endInValue, p⟩
  | e :: expected, c :: rest =>
    if c = e then word (p.after c) expected rest
    else .error ⟨.expectedIdent, p.afterBytes 1 [c]⟩

/-! ## Strings -/

/-- The character that a one-letter escape stands for. -/
def simpleEscape? : Char → Option Char
  | '"' => some '"'
  | '\\' => some '\\'
  | '/' => some '/'
  | 'b' => some '\x08'
  | 'f' => some '\x0c'
  | 'n' => some '\n'
  | 'r' => some '\r'
  | 't' => some '\t'
  | _ => none

/-- The four hexadecimal digits of an escape, as a number. -/
def hexEscape (p : Position) (text : List Char) : Except Fault (Nat × Cursor) :=
  if (text.take 4).foldl (fun n c => n + c.utf8Size) 0 < 4 then
    .error ⟨.endInString, p.afterBytes 4 text⟩
  else
    match (text.take 4).mapM (Numeral.digitValue? 16) with
    | some [a, b, c, d] => .ok (((a * 16 + b) * 16 + c) * 16 + d, ⟨text.drop 4, ⟨p.line, p.column + 4⟩⟩)
    | _ => .error ⟨.invalidEscape, p.afterBytes 4 text⟩

/-- The expected character in the middle of a pair of escapes. -/
def pairLink (expected : Char) (p : Position) : List Char → Except Fault Cursor
  | [] => .error ⟨.endInString, p⟩
  | c :: rest =>
    if c = expected then .ok ⟨rest, p.after c⟩
    else .error ⟨.endOfHexEscape, p.afterBytes 1 [c]⟩

/-- Whether a code is the first of a pair. -/
def isLeading (n : Nat) : Bool := 0xD800 ≤ n && n ≤ 0xDBFF

/-- Whether a code is the second of a pair. -/
def isTrailing (n : Nat) : Bool := 0xDC00 ≤ n && n ≤ 0xDFFF

/-- The character beyond the first plane that a pair of codes stands for. -/
def pairedCharacter (first second : Nat) : Char :=
  Char.ofNat (0x10000 + (first - 0xD800) * 0x400 + (second - 0xDC00))

/-- The character behind `\u`: one code, or a pair of codes for a character beyond the first plane. -/
def unicodeEscape (p : Position) (text : List Char) : Except Fault (Char × Cursor) := do
  let (first, cur) ← hexEscape p text
  if isTrailing first then throw (cur.fault .loneSurrogate)
  else if isLeading first then
    -- the second code of the pair is another escape
    let cur ← pairLink '\\' cur.position cur.rest
    let cur ← pairLink 'u' cur.position cur.rest
    let (second, cur) ← hexEscape cur.position cur.rest
    if isTrailing second then
      pure (pairedCharacter first second, cur)
    else throw (cur.fault .loneSurrogate)
  else pure (Char.ofNat first, cur)

/-- The character behind a backslash. -/
def escaped (p : Position) : List Char → Except Fault (Char × Cursor)
  | [] => .error ⟨.endInString, p⟩
  | c :: rest =>
    match simpleEscape? c with
    | some d => .ok (d, ⟨rest, p.after c⟩)
    | none =>
      if c = 'u' then unicodeEscape (p.after c) rest
      else .error ⟨.invalidEscape, p.afterBytes 1 [c]⟩

theorem length_hexEscape {p : Position} {text : List Char} {n : Nat} {cur : Cursor}
    (h : hexEscape p text = .ok (n, cur)) : cur.rest.length ≤ text.length := by
  unfold hexEscape at h
  split at h
  · cases h
  · split at h
    · cases h; simp
    · cases h

theorem length_pairLink {expected : Char} {p : Position} {text : List Char} {cur : Cursor}
    (h : pairLink expected p text = .ok cur) : cur.rest.length ≤ text.length := by
  unfold pairLink at h
  split at h
  · cases h
  · split at h
    · cases h; simp
    · cases h

theorem length_unicodeEscape {p : Position} {text : List Char} {c : Char} {cur : Cursor}
    (h : unicodeEscape p text = .ok (c, cur)) : cur.rest.length ≤ text.length := by
  unfold unicodeEscape at h
  -- each part of the escape that is read takes something off, and the second half of a pair takes off more
  cases h₁ : hexEscape p text with
  | error e => rw [h₁] at h; cases h
  | ok r₁ =>
    obtain ⟨first, cur₁⟩ := r₁
    have l₁ := length_hexEscape h₁
    simp only [h₁, bind, Except.bind] at h
    split at h
    · cases h
    · split at h
      · cases h₂ : pairLink '\\' cur₁.position cur₁.rest with
        | error e => rw [h₂] at h; cases h
        | ok cur₂ =>
          have l₂ := length_pairLink h₂
          simp only [h₂] at h
          cases h₃ : pairLink 'u' cur₂.position cur₂.rest with
          | error e => rw [h₃] at h; cases h
          | ok cur₃ =>
            have l₃ := length_pairLink h₃
            simp only [h₃] at h
            cases h₄ : hexEscape cur₃.position cur₃.rest with
            | error e => rw [h₄] at h; cases h
            | ok r₄ =>
              obtain ⟨second, cur₄⟩ := r₄
              have l₄ := length_hexEscape h₄
              simp only [h₄] at h
              split at h
              · simp only [pure, Except.pure, Except.ok.injEq, Prod.mk.injEq] at h
                obtain ⟨-, rfl⟩ := h
                omega
              · cases h
      · cases h; exact l₁

theorem escaped_shorter {p : Position} {text : List Char} {c : Char} {cur : Cursor}
    (h : escaped p text = .ok (c, cur)) : cur.rest.length < text.length := by
  unfold escaped at h
  split at h
  · cases h
  · split at h
    · cases h; simp
    · split at h
      · exact Nat.lt_succ_of_le (length_unicodeEscape h)
      · cases h

/-- The characters of a string up to its closing quote, and the cursor behind the quote. -/
def stringBody (p : Position) : List Char → Except Fault (List Char × Cursor)
  | [] => .error ⟨.endInString, p⟩
  | c :: rest =>
    if c = '"' then .ok ([], ⟨rest, p.after c⟩)
    else if c = '\\' then
      match _h : escaped (p.after c) rest with
      | .error e => .error e
      | .ok (d, cur) => (stringBody cur.position cur.rest).map fun (ds, cur) => (d :: ds, cur)
    else if c.toNat < 0x20 then .error ⟨.controlCharacter, p.after c⟩
    else (stringBody (p.after c) rest).map fun (ds, cur) => (c :: ds, cur)
  termination_by text => text.length
  decreasing_by
    · have := escaped_shorter _h
      simp; omega
    · simp

theorem word_le {p : Position} {expected text : List Char} {cur : Cursor}
    (h : word p expected text = .ok cur) : cur.rest.length ≤ text.length := by
  fun_induction word p expected text with
  | case1 => cases h; exact Nat.le_refl _
  | case2 => cases h
  | case3 p expected c rest ih => exact Nat.le_succ_of_le (ih h)
  | case4 => cases h

theorem stringBody_shorter {p : Position} {text : List Char} {ds : List Char} {cur : Cursor}
    (h : stringBody p text = .ok (ds, cur)) : cur.rest.length < text.length := by
  -- induction along the reading; behind an escape or a character the rest is shorter than the text was
  fun_induction stringBody p text generalizing ds cur with
  | case1 => cases h
  | case2 => cases h; simp
  | case3 => cases h
  | case4 p rest d mid _ hd ih =>
    have hm := escaped_shorter hd
    cases hs : stringBody mid.position mid.rest with
    | error e => rw [hs] at h; cases h
    | ok r =>
      rw [hs] at h
      cases h
      have := ih hs
      simp only [List.length_cons]; omega
  | case5 => cases h
  | case6 p c rest _ _ _ ih =>
    cases hs : stringBody (p.after c) rest with
    | error e => rw [hs] at h; cases h
    | ok r =>
      rw [hs] at h
      cases h
      have := ih hs
      simp only [List.length_cons]; omega

/-! ## Numbers -/

/-- The largest whole number that is not read as a double. -/
def maxWhole : Nat := 2 ^ 64 - 1

/-- The largest magnitude of an exponent. -/
def maxExponent : Nat := 2 ^ 31 - 1

/-- The value of a decimal digit. -/
def digit (c : Char) : Nat := c.toNat - '0'.toNat

theorem digit_lt_ten {c : Char} (h : c.isDigit) : digit c < 10 := by
  simp only [Char.isDigit, Bool.and_eq_true, decide_eq_true_eq] at h
  have h9 : c.val.toNat ≤ 57 := UInt32.le_iff_toNat_le.mp h.2
  simp only [digit, Char.toNat, Char.reduceVal, UInt32.reduceToNat]
  omega

/-- Decimal digits up to the first that would bring the number above `bound`: the number, and how many
    digits were taken. -/
def boundedDigits (bound : Nat) : (sofar taken : Nat) → List Char → Nat × Nat
  | n, taken, c :: rest =>
    if c.isDigit && n * 10 + digit c ≤ bound then
      boundedDigits bound (n * 10 + digit c) (taken + 1) rest
    else (n, taken)
  | n, taken, [] => (n, taken)

/-- How many digits the text starts with. -/
def digitRun (text : List Char) : Nat := (text.takeWhile Char.isDigit).length

/-- What a number in a text is. -/
inductive Number where
  | whole (v : Int)
  | real (v : Double)
  deriving DecidableEq, Repr

/-- Whether the text goes on with a digit. -/
def startsWithDigit : List Char → Bool
  | c :: _ => c.isDigit
  | [] => false

/-- A number with a sign. -/
def signed (negative : Bool) (x : Double) : Double := if negative then x.neg else x

/-- The double with the given significand and exponent; the cursor is behind the number. -/
def realNumber (negative : Bool) (significand : Nat) (e : Int) (cur : Cursor) :
    Except Fault (Number × Cursor) :=
  match Decimal.scaled (.ofNat significand) e with
  | none => .error (cur.fault .numberOutOfRange)
  | some x => .ok (.real (signed negative x), cur)

/-- Takes a sign if there is one; true for a minus. -/
def behindSign (cur : Cursor) : Bool × Cursor :=
  match cur.rest with
  | '-' :: _ => (true, cur.forward 1)
  | '+' :: _ => (false, cur.forward 1)
  | _ => (false, cur)

/-- Ends a number whose integer and fraction digits were read, with `e` the exponent so far. `cur` is behind
    the mark of the written exponent. -/
def exponentPart (negative : Bool) (significand : Nat) (e : Int) (cur : Cursor) :
    Except Fault (Number × Cursor) :=
  let (minus, cur) := behindSign cur
  match cur.rest with
  | [] => .error (cur.fault .endInValue)
  | c :: _ =>
    if c.isDigit then
      let (n, taken) := boundedDigits maxExponent 0 0 cur.rest
      let cur := cur.forward taken
      if startsWithDigit cur.rest then
        -- the exponent is beyond its bound: too large a number, or one that vanishes
        if significand ≠ 0 ∧ !minus then .error ((cur.forward 1).fault .numberOutOfRange)
        else .ok (.real (signed negative (.ofRank false 0)), cur.forward (digitRun cur.rest))
      else
        -- the exponent saturates at 32 bits
        let sum := if minus then e - n else e + n
        let clamped := max (-2 ^ 31) (min (2 ^ 31 - 1) sum)
        realNumber negative significand clamped cur
    else .error (cur.faultAhead .invalidNumber)

/-- Whether a character marks an exponent. -/
def isExponentMark (c : Char) : Bool := c == 'e' || c == 'E'

/-- Ends a number that is a double: an exponent may follow. -/
def realPart (negative : Bool) (significand : Nat) (e : Int) (cur : Cursor) :
    Except Fault (Number × Cursor) :=
  match cur.rest with
  | c :: _ =>
    if isExponentMark c then exponentPart negative significand e (cur.forward 1)
    else realNumber negative significand e cur
  | [] => realNumber negative significand e cur

/-- Ends a number behind its decimal point. Digits that do not fit the significand are left out. -/
def fractionPart (negative : Bool) (significand : Nat) (e : Int) (cur : Cursor) :
    Except Fault (Number × Cursor) :=
  match cur.rest with
  | [] => .error (cur.faultAhead .endInValue)
  | c :: _ =>
    if c.isDigit then
      -- the significand goes on where the integer digits left it
      let (n, taken) := boundedDigits maxWhole significand 0 cur.rest
      let cur := cur.forward taken
      realPart negative n (e - taken) (cur.forward (digitRun cur.rest))
    else .error (cur.faultAhead .invalidNumber)

/-- A number without fraction and exponent. Zero with a minus sign, and what is below 64 bits, is a
    double. -/
def wholeNumber (negative : Bool) (n : Nat) : Number :=
  if negative then
    if n = 0 ∨ 2 ^ 63 < n then .real (Binary.ofNat n : Double).neg else .whole (-n)
  else .whole n

/-- Ends a number behind its integer digits, of which `dropped` did not fit the significand. -/
def afterWhole (negative : Bool) (significand dropped : Nat) (cur : Cursor) :
    Except Fault (Number × Cursor) :=
  match cur.rest with
  | '.' :: _ => fractionPart negative significand dropped (cur.forward 1)
  | c :: _ =>
    if isExponentMark c ∨ dropped ≠ 0 then realPart negative significand dropped cur
    else .ok (wholeNumber negative significand, cur)
  | [] =>
    if dropped ≠ 0 then realPart negative significand dropped cur
    else .ok (wholeNumber negative significand, cur)

/-- A number without its sign; the cursor is at its first character. -/
def unsignedNumber (negative : Bool) (cur : Cursor) : Except Fault (Number × Cursor) :=
  match cur.rest with
  | [] => .error (cur.fault .endInValue)
  | c :: rest =>
    if !c.isDigit then .error (cur.faultAhead .invalidNumber)
    else if c = '0' then
      -- no number has a leading zero
      if startsWithDigit rest then .error ((cur.forward 1).faultAhead .invalidNumber)
      else afterWhole negative 0 0 (cur.forward 1)
    else
      let (n, taken) := boundedDigits maxWhole 0 0 (c :: rest)
      let cur := cur.forward taken
      -- digits that do not fit count as powers of ten
      let extra := digitRun cur.rest
      afterWhole negative n extra (cur.forward extra)

/-- A number; the cursor is at its first character, a minus sign or a digit. -/
def number (cur : Cursor) : Except Fault (Number × Cursor) :=
  match cur.rest with
  | '-' :: _ => unsignedNumber true (cur.forward 1)
  | _ => unsignedNumber false cur

/-! ## Readers move on -/

theorem behindSign_le (cur : Cursor) : (behindSign cur).2.rest.length ≤ cur.rest.length := by
  unfold behindSign
  split
  · exact cur.forward_le 1
  · exact cur.forward_le 1
  · exact Nat.le_refl _

/-- Digits that were taken stay taken. -/
theorem taken_le_boundedDigits (bound n taken : Nat) (text : List Char) :
    taken ≤ (boundedDigits bound n taken text).2 := by
  fun_induction boundedDigits bound n taken text with
  | case1 n taken c rest _ ih => exact Nat.le_of_succ_le ih
  | case2 => exact Nat.le_refl _
  | case3 => exact Nat.le_refl _

theorem realNumber_le {negative : Bool} {significand : Nat} {e : Int} {cur cur' : Cursor} {v : Number}
    (h : realNumber negative significand e cur = .ok (v, cur')) :
    cur'.rest.length ≤ cur.rest.length := by
  unfold realNumber at h
  split at h
  · cases h
  · cases h; exact Nat.le_refl _

theorem exponentPart_le {negative : Bool} {significand : Nat} {e : Int} {cur cur' : Cursor}
    {v : Number} (h : exponentPart negative significand e cur = .ok (v, cur')) :
    cur'.rest.length ≤ cur.rest.length := by
  have hs := behindSign_le cur
  unfold exponentPart at h
  dsimp only at h
  split at h
  · cases h
  · split at h
    · split at h
      · split at h
        · cases h
        · cases h
          exact Nat.le_trans (Cursor.forward_le _ _) (Nat.le_trans (Cursor.forward_le _ _) hs)
      · exact Nat.le_trans (realNumber_le h) (Nat.le_trans (Cursor.forward_le _ _) hs)
    · cases h

theorem realPart_le {negative : Bool} {significand : Nat} {e : Int} {cur cur' : Cursor} {v : Number}
    (h : realPart negative significand e cur = .ok (v, cur')) :
    cur'.rest.length ≤ cur.rest.length := by
  unfold realPart at h
  split at h
  · split at h
    · exact Nat.le_trans (exponentPart_le h) (Cursor.forward_le _ _)
    · exact realNumber_le h
  · exact realNumber_le h

theorem fractionPart_le {negative : Bool} {significand : Nat} {e : Int} {cur cur' : Cursor}
    {v : Number} (h : fractionPart negative significand e cur = .ok (v, cur')) :
    cur'.rest.length ≤ cur.rest.length := by
  unfold fractionPart at h
  split at h
  · cases h
  · split at h
    · exact Nat.le_trans (realPart_le h)
        (Nat.le_trans (Cursor.forward_le _ _) (Cursor.forward_le _ _))
    · cases h

theorem afterWhole_le {negative : Bool} {significand dropped : Nat} {cur cur' : Cursor} {v : Number}
    (h : afterWhole negative significand dropped cur = .ok (v, cur')) :
    cur'.rest.length ≤ cur.rest.length := by
  unfold afterWhole at h
  split at h
  · exact Nat.le_trans (fractionPart_le h) (Cursor.forward_le _ _)
  · split at h
    · exact realPart_le h
    · cases h; exact Nat.le_refl _
  · split at h
    · exact realPart_le h
    · cases h; exact Nat.le_refl _

/-- The first digit of a number always fits. -/
theorem one_le_boundedDigits {c : Char} (rest : List Char) (hc : c.isDigit) :
    1 ≤ (boundedDigits maxWhole 0 0 (c :: rest)).2 := by
  have hfit : c.isDigit && 0 * 10 + digit c ≤ maxWhole := by
    have hd := digit_lt_ten hc
    have hle : 0 * 10 + digit c ≤ maxWhole := by unfold maxWhole; omega
    rw [hc, decide_eq_true hle, Bool.and_self]
  rw [boundedDigits, if_pos hfit]
  exact taken_le_boundedDigits _ _ _ _

theorem unsignedNumber_shorter {negative : Bool} {cur cur' : Cursor} {v : Number}
    (h : unsignedNumber negative cur = .ok (v, cur')) :
    cur'.rest.length < cur.rest.length := by
  unfold unsignedNumber at h
  split at h
  · cases h
  · next c rest heq =>
    -- one digit at least is taken, and what is behind the digits only takes more
    have step : ∀ n, 1 ≤ n → (cur.forward n).rest.length < cur.rest.length := by
      intro n hn
      rw [Cursor.rest_forward, List.length_drop, heq, List.length_cons]
      omega
    split at h
    · cases h
    · next hc =>
      split at h
      · split at h
        · cases h
        · exact Nat.lt_of_le_of_lt (afterWhole_le h) (step 1 (Nat.le_refl _))
      · have ht := one_le_boundedDigits rest (by simpa using hc)
        exact Nat.lt_of_le_of_lt (afterWhole_le h)
          (Nat.lt_of_le_of_lt (Cursor.forward_le _ _) (step _ ht))

/-- **A number takes at least one character.** -/
theorem number_shorter {cur cur' : Cursor} {v : Number} (h : number cur = .ok (v, cur')) :
    cur'.rest.length < cur.rest.length := by
  unfold number at h
  split at h
  · exact Nat.lt_of_lt_of_le (unsignedNumber_shorter h) (Cursor.forward_le _ _)
  · exact unsignedNumber_shorter h

end FieldTree.Json
