import FieldTree.Error

/-!
# Cursors

A cursor is what is left of a text together with its position in lines and bytes. Positions in faults are
those of a cursor, or lie one byte further where a character was looked at but not taken.

## Main statements

- `Cursor.skipBlanks_le`, `Cursor.forward_le`: moving on never gives text back.
-/

namespace FieldTree.Json

namespace Position

/-- Where every text starts. -/
def start : Position := ⟨1, 0⟩

/-- The position behind a character. -/
def after (p : Position) (c : Char) : Position :=
  if c = '\n' then ⟨p.line + 1, 0⟩ else ⟨p.line, p.column + c.utf8Size⟩

/-- The position `n` bytes into a text, or at its end if it is shorter. -/
def afterBytes (p : Position) : (n : Nat) → List Char → Position
  | 0, _ => p
  | _, [] => p
  | n + 1, c :: rest =>
    if c.utf8Size ≤ n + 1 then (p.after c).afterBytes (n + 1 - c.utf8Size) rest
    else ⟨p.line, p.column + n + 1⟩

end Position

/-- What is left to read, and where it starts. -/
structure Cursor where
  rest : List Char
  position : Position
  deriving DecidableEq, Repr

namespace Cursor

/-- The cursor at the front of a text. -/
def ofText (text : String) : Cursor := ⟨text.toList, .start⟩

/-- A fault at the cursor. -/
def fault (cur : Cursor) (cause : Cause) : Fault := ⟨cause, cur.position⟩

/-- A fault one byte behind the cursor, or at the end of the text. -/
def faultAhead (cur : Cursor) (cause : Cause) : Fault :=
  ⟨cause, cur.position.afterBytes 1 cur.rest⟩

/-- The blanks between tokens. -/
def isBlank (c : Char) : Bool := c == ' ' || c == '\t' || c == '\n' || c == '\r'

/-- Moves over blanks. -/
def skip (p : Position) : List Char → Cursor
  | [] => ⟨[], p⟩
  | c :: rest => if isBlank c then skip (p.after c) rest else ⟨c :: rest, p⟩

/-- The cursor at the next character that is not blank. -/
def skipBlanks (cur : Cursor) : Cursor := skip cur.position cur.rest

/-- The cursor `n` characters further, where they are ASCII and end no line. -/
def forward (cur : Cursor) (n : Nat) : Cursor :=
  ⟨cur.rest.drop n, ⟨cur.position.line, cur.position.column + n⟩⟩

@[simp] theorem rest_forward (cur : Cursor) (n : Nat) : (cur.forward n).rest = cur.rest.drop n := rfl

theorem forward_le (cur : Cursor) (n : Nat) : (cur.forward n).rest.length ≤ cur.rest.length := by
  simp

theorem length_skip_le (p : Position) (text : List Char) :
    (skip p text).rest.length ≤ text.length := by
  induction text generalizing p with
  | nil => simp [skip]
  | cons c rest ih =>
    unfold skip
    split
    · exact Nat.le_trans (ih _) (by simp)
    · simp

theorem skipBlanks_le (cur : Cursor) : cur.skipBlanks.rest.length ≤ cur.rest.length :=
  length_skip_le _ _

end Cursor

end FieldTree.Json
