import MiniLisp.Primitive.Argument

/-!
# Arithmetic and comparison of numbers

Sums and products start from zero and one; a single argument of `-` is negated and one of `/` inverted. Comparisons hold when
they hold between each argument and the next.
-/

namespace MiniLisp.Primitive

def addAll (args : List Value) : Except Error Value := do
  let ns ← numbers .add args
  return .num (ns.foldl Number.add (.ofInt 0))

def subtract (args : List Value) : Except Error Value := do
  needAtLeast .sub 1 args
  match ← numbers .sub args with
  | [] => return .ofInt 0
  | [only] => return .num only.neg
  | first :: rest => return .num (rest.foldl Number.sub first)

def multiplyAll (args : List Value) : Except Error Value := do
  let ns ← numbers .mul args
  return .num (ns.foldl Number.mul (.ofInt 1))

/-- One division, with its complaint about a zero divisor. -/
def quotient (a b : Number) : Except Error Number :=
  match a.div? b with
  | some q => .ok q
  | none => .error ((Error.invalidOperation "/" "a zero divisor").withHelp "division by zero")

def divide (args : List Value) : Except Error Value := do
  needAtLeast .div 1 args
  match ← numbers .div args with
  | [] => return .ofInt 1
  | [only] => return .num (← quotient (.ofInt 1) only)
  | first :: rest => return .num (← rest.foldlM quotient first)

/-- The complaint about a number at a place that is no integer. -/
def integerAt (p : Primitive) (index : Nat) (v : Value) (n : Number) : Except Error Unit :=
  if n.isInteger then .ok () else .error (p.typeError index "an integer" v)

def remainder (args : List Value) : Except Error Value := do
  let (x, y) ← twoArguments .mod args
  let a ← numberAt .mod 0 x
  let b ← numberAt .mod 1 y
  integerAt .mod 0 x a
  integerAt .mod 1 y b
  match a.mod? b with
  | some r => return .num r
  | none => throw ((Error.invalidOperation "mod" "a zero divisor").withHelp "modulo by zero")

/-- Whether an order of numbers holds along all arguments. -/
def compareAll (p : Primitive) (holds : Ordering → Bool) (args : List Value) : Except Error Value := do
  needAtLeast p 2 args
  let ns ← numbers p args
  return .bool (chain (fun a b => (a.compare? b).any holds) ns)

/-- Equality that compares numbers by what they stand for and everything else as it is built. -/
def looselyEqual (a b : Value) : Bool :=
  match a.asNumber?, b.asNumber? with
  | some x, some y => x.numEq y
  | _, _ => a == b

def equalAll (args : List Value) : Except Error Value := do
  needAtLeast .numEq 2 args
  return .bool (chain looselyEqual args)

def sameAll (args : List Value) : Except Error Value := do
  needAtLeast .same 2 args
  return .bool (chain (· == ·) args)

end MiniLisp.Primitive
