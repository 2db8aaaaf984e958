import MiniLisp.Text.Basic

/-!
# Sources: named texts, and the line and column of a byte position

A position is found by walking over the characters before it (`Position.after`): a newline starts the next line, every
other character moves one column to the right.
-/

namespace MiniLisp

/-- A line and a column, both counted from one; columns count characters. -/
structure Position where
  line : Nat := 1
  column : Nat := 1
  deriving DecidableEq, Repr, Inhabited

namespace Position

/-- The position after one more character. -/
def advance (p : Position) (c : Char) : Position :=
  if c == '\n' then ⟨p.line + 1, 1⟩ else ⟨p.line, p.column + 1⟩

/-- The position after a run of characters. -/
def after (p : Position) (cs : List Char) : Position := cs.foldl advance p

@[simp]
theorem after_nil (p : Position) : p.after [] = p := rfl

@[simp]
theorem after_cons (p : Position) (c : Char) (cs : List Char) : p.after (c :: cs) = (p.advance c).after cs := rfl

@[simp]
theorem after_append (p : Position) (as bs : List Char) : p.after (as ++ bs) = (p.after as).after bs := by
  simp [after]

end Position

/-- A named text that errors can point into. -/
structure Source where
  name : String
  content : String
  deriving DecidableEq, Repr, Inhabited

namespace Source

/-- A source for an error whose text is not at hand: one comment that says what was going on. -/
def fallback (context : String) : Source := ⟨"fallback", "; " ++ context⟩

/-- The source of an error about which nothing is known. -/
def unknown : Source := fallback "default context"

def chars (s : Source) : List Char := s.content.toList

/-- The line and column of a byte position; a position past the end is the end. -/
def position (s : Source) (offset : Nat) : Position := Position.after {} (takeBytes offset s.chars)

end Source

end MiniLisp
