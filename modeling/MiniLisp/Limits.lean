/-!
# Limits: how deep evaluation may nest and how far macros may expand
-/

namespace MiniLisp

/-- The limits of an interpreter. -/
structure Limits where
  /-- Evaluations that may be under way inside one another; a tail call ends the one it is called from. -/
  maxDepth : Nat := 20000
  /-- Replacements of one form, and replaced forms inside one another. -/
  maxMacroExpansions : Nat := 1000
  deriving DecidableEq, Repr, Inhabited

end MiniLisp
