/-!
# Primitives: the functions every program starts with

This module lists them and gives their names; what each of them does is in the modules beside it.
-/

namespace MiniLisp

/-- A function that is not written in the language itself. -/
inductive Primitive where
  | add | sub | mul | div | mod
  | numEq | less | greater | atMost | atLeast | same | not | isNil | isPair
  | list | cons | head | tail | length | append | reverse | nth
  | vector | set | get | assoc | dissoc | contains | count | keys | values | conj
  | str | symbol | gensym
  | println | display
  deriving DecidableEq, Repr

namespace Primitive

/-- The name under which a program finds the function. -/
def name : Primitive → String
  | .add => "+"
  | .sub => "-"
  | .mul => "*"
  | .div => "/"
  | .mod => "mod"
  | .numEq => "="
  | .less => "<"
  | .greater => ">"
  | .atMost => "<="
  | .atLeast => ">="
  | .same => "eq?"
  | .not => "not"
  | .isNil => "nil?"
  | .isPair => "pair?"
  | .list => "list"
  | .cons => "cons"
  | .head => "head"
  | .tail => "tail"
  | .length => "length"
  | .append => "append"
  | .reverse => "reverse"
  | .nth => "nth"
  | .vector => "vector"
  | .set => "set"
  | .get => "get"
  | .assoc => "assoc"
  | .dissoc => "dissoc"
  | .contains => "contains?"
  | .count => "count"
  | .keys => "keys"
  | .values => "values"
  | .conj => "conj"
  | .str => "str"
  | .symbol => "symbol"
  | .gensym => "gensym"
  | .println => "println"
  | .display => "display"

/-- Every primitive. -/
def all : List Primitive :=
  [.add, .sub, .mul, .div, .mod,
    .numEq, .less, .greater, .atMost, .atLeast, .same, .not, .isNil, .isPair,
    .list, .cons, .head, .tail, .length, .append, .reverse, .nth,
    .vector, .set, .get, .assoc, .dissoc, .contains, .count, .keys, .values, .conj,
    .str, .symbol, .gensym,
    .println, .display]

/-- Every primitive is in the list of all. -/
theorem mem_all (p : Primitive) : p ∈ all := by cases p <;> decide

/-- The names of all primitives, in alphabetical order of their characters. -/
def sortedNames : List String := (all.map name).mergeSort fun a b => decide (a ≤ b)

end Primitive

end MiniLisp
