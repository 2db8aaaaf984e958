import MiniLisp.Value.Equality
import MiniLisp.Value.Printer

/-!
# Arguments of primitives: how many there are and what they must be

Every complaint names the primitive in its help text, and the argument by its place counted from one.
-/

namespace MiniLisp.Primitive

/-- The complaint about the number of arguments. -/
def arityError (p : Primitive) (expected : String) (actual : Nat) : Error :=
  (Error.arityMismatch expected actual).withHelp ("in call to `" ++ p.name ++ "`")

/-- The complaint about the argument at a place that counts from zero. -/
def typeError (p : Primitive) (index : Nat) (expected : String) (found : Value) : Error :=
  (Error.typeMismatch expected found.describe).withHelp
    ("argument " ++ toString (index + 1) ++ " of `" ++ p.name ++ "`")

/-- The complaint about fewer than `least` arguments. -/
def needAtLeast (p : Primitive) (least : Nat) (args : List Value) : Except Error Unit :=
  if least ≤ args.length then .ok () else .error (p.arityError ("at least " ++ toString least) args.length)

/-- The only argument. -/
def oneArgument (p : Primitive) : List Value → Except Error Value
  | [x] => .ok x
  | args => .error (p.arityError "1" args.length)

/-- The only two arguments. -/
def twoArguments (p : Primitive) : List Value → Except Error (Value × Value)
  | [x, y] => .ok (x, y)
  | args => .error (p.arityError "2" args.length)

/-- The number at a place. -/
def numberAt (p : Primitive) (index : Nat) (v : Value) : Except Error Number :=
  match v.asNumber? with
  | some n => .ok n
  | none => .error (p.typeError index "a number" v)

/-- The numbers that all arguments from a place on are. -/
def numbersFrom (p : Primitive) (index : Nat) : List Value → Except Error (List Number)
  | [] => .ok []
  | v :: vs => do
    let n ← p.numberAt index v
    let ns ← p.numbersFrom (index + 1) vs
    return n :: ns

/-- The numbers that all arguments are. -/
def numbers (p : Primitive) (args : List Value) : Except Error (List Number) := p.numbersFrom 0 args

/-- The index that the second argument is: an integer in a word, and none at all if it is negative. -/
def indexArgument (p : Primitive) : Value → Except Error (Option Nat)
  | .num (.int i) => .ok (if 0 ≤ i.toInt then some i.toInt.toNat else none)
  | v => .error (p.typeError 1 "an integer" v)

/-- Whether a relation holds between each element of a list and the next. -/
def chain {α : Type} (holds : α → α → Bool) : List α → Bool
  | x :: y :: rest => holds x y && chain holds (y :: rest)
  | _ => true

end MiniLisp.Primitive
