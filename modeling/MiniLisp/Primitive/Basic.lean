import MiniLisp.Machine
import MiniLisp.Primitive.Arithmetic
import MiniLisp.Primitive.Sequence

/-!
# Calling a primitive

Most primitives are functions of their arguments. Three of them act on the machine: one generates a symbol, two print.
-/

namespace MiniLisp.Primitive

def negation (args : List Value) : Except Error Value := do return .bool !(← oneArgument .not args).isTruthy

def nilTest (args : List Value) : Except Error Value := do
  match ← oneArgument .isNil args with
  | .nil => return .bool true
  | _ => return .bool false

def pairTest (args : List Value) : Except Error Value := do
  match ← oneArgument .isPair args with
  | .pair .. => return .bool true
  | _ => return .bool false

/-- The texts of all arguments, one behind another. -/
def concatenate (args : List Value) : Except Error Value :=
  .ok (.str (args.foldl (fun text v => text ++ v.displayText) ""))

def toSymbol (args : List Value) : Except Error Value := do
  match ← oneArgument .symbol args with
  | .str name => return .sym name
  | .sym name => return .sym name
  | v => throw (typeError .symbol 0 "a string" v)

/-- How a generated symbol is to begin. -/
def symbolBeginning : List Value → Except Error String
  | [] => .ok "g"
  | [.str s] => .ok s
  | [.sym s] => .ok s
  | [v] => .error (typeError .gensym 0 "a string or symbol" v)
  | args => .error (arityError .gensym "0 or 1" args.length)

/-- The texts of all arguments with blanks between them. -/
def joined (args : List Value) : String := String.intercalate " " (args.map Value.displayText)

/-- Call a primitive with arguments that are values. -/
def call (p : Primitive) (args : List Value) : Action Value :=
  match p with
  | .add => .ofExcept (addAll args)
  | .sub => .ofExcept (subtract args)
  | .mul => .ofExcept (multiplyAll args)
  | .div => .ofExcept (divide args)
  | .mod => .ofExcept (remainder args)
  | .numEq => .ofExcept (equalAll args)
  | .less => .ofExcept (compareAll .less Ordering.isLT args)
  | .greater => .ofExcept (compareAll .greater Ordering.isGT args)
  | .atMost => .ofExcept (compareAll .atMost Ordering.isLE args)
  | .atLeast => .ofExcept (compareAll .atLeast Ordering.isGE args)
  | .same => .ofExcept (sameAll args)
  | .not => .ofExcept (negation args)
  | .isNil => .ofExcept (nilTest args)
  | .isPair => .ofExcept (pairTest args)
  | .list => pure (.list args)
  | .cons => .ofExcept (consOf args)
  | .head => .ofExcept (headOf args)
  | .tail => .ofExcept (tailOf args)
  | .length => .ofExcept (lengthOf args)
  | .append => .ofExcept (appendAll args)
  | .reverse => .ofExcept (reverseOf args)
  | .nth => .ofExcept (nthOf args)
  | .vector => pure (.vector args)
  | .set => pure (.set (.ofList args))
  | .get => .ofExcept (getFrom args)
  | .assoc => .ofExcept (assocAll args)
  | .dissoc => .ofExcept (dissocAll args)
  | .contains => .ofExcept (containsOf args)
  | .count => .ofExcept (countOf args)
  | .keys => .ofExcept (keysOf args)
  | .values => .ofExcept (valuesOf args)
  | .conj => .ofExcept (conjAll args)
  | .str => .ofExcept (concatenate args)
  | .symbol => .ofExcept (toSymbol args)
  | .gensym => do return .sym (← Action.generateSymbol (← Action.ofExcept (symbolBeginning args)))
  | .println => do
    Action.emit (joined args ++ "\n")
    return .nil
  | .display => do
    Action.emit (joined args)
    return .nil

end MiniLisp.Primitive
