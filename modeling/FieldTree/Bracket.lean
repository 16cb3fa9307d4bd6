import FieldTree.FieldType

/-!
# Brackets

Square brackets and braces. In JSON texts and in signatures alike, the first stand around arrays and the
second around tables.
-/

namespace FieldTree

/-- The two kinds of brackets. -/
inductive Bracket where
  | square
  | brace
  deriving DecidableEq, Repr

namespace Bracket

/-- The opening character. -/
def opening : Bracket → Char
  | square => '['
  | brace => '\x7b'

/-- The closing character. -/
def closing : Bracket → Char
  | square => ']'
  | brace => '\x7d'

/-- The type of the containers that the brackets stand around. -/
def container : Bracket → FieldType
  | square => .array
  | brace => .table

/-- What stands between brackets is always a container. -/
@[simp] theorem isContainer_container (bracket : Bracket) : bracket.container.isContainer = true := by
  cases bracket <;> rfl

end Bracket

end FieldTree
