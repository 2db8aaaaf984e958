import MiniLisp.Machine
import MiniLisp.Value.Equality
import MiniLisp.Value.Printer

/-!
# Templates: what a quasiquoted form gives

A template is copied as data, except where it is unquoted at its own level: there the code is evaluated, and with a splicing
mark its elements are put in place. A quasiquote inside a template raises the level and an unquote lowers it, so an inner
template is kept for when it is evaluated itself. At level one the set and map forms of a template become sets and maps.
-/

namespace MiniLisp

/-- The elements that a spliced value contributes. -/
def splicedItems (v : Value) : Except Error (List Value) :=
  match v with
  | .vector items => .ok items
  | .nil | .pair .. =>
    match v.toList? with
    | some items => .ok items
    | none => .error (.typeMismatch "a proper list to splice" v.describe)
  | v => .error (.typeMismatch "a list or vector to splice" v.describe)

/-- The complaint about a splicing mark that has no list or vector around it. -/
def misplacedSplice : Error :=
  (Error.invalidOperation "unquote-splicing" "a position outside a list or vector").withHelp
    "`,@` may only appear as an element of a list or vector"

/-- The elements that one element of a template gives: those of the spliced code at level one, else its own instance. -/
def spliceOr (eval : Evaluator) (env : Env) (level : Nat) (item : Value) (copy : Action Value) :
    Action (List Value) :=
  match item.argumentOf? "unquote-splicing", level with
  | some code, 1 => do Action.ofExcept (splicedItems (← eval code env))
  | _, _ => return [← copy]

mutual

/-- The instance of a template at a level. With `inTail` the template is the tail of a list, which is no form of its own. -/
def instantiate (eval : Evaluator) (env : Env) (inTail : Bool) (level : Nat) : Value → Action Value
  | .pair (.sym s) (.pair arg .nil) =>
    if inTail then do
      let tail ← instantiate eval env true level (.pair arg .nil)
      return .pair (.sym s) tail
    else if s = "unquote" then
      if level = 1 then eval arg env
      else return .wrap s (← instantiate eval env false (level - 1) arg)
    else if s = "quasiquote" then return .wrap s (← instantiate eval env false (level + 1) arg)
    else if s = "unquote-splicing" then
      if level = 1 then Action.fail misplacedSplice
      else return .wrap s (← instantiate eval env false (level - 1) arg)
    else do
      let tail ← instantiate eval env true level (.pair arg .nil)
      return .pair (.sym s) tail
  | .pair h t => do
    let items ← spliceOr eval env level h (instantiate eval env false level h)
    let tail ← instantiate eval env true level t
    return .listWithTail items tail
  | .vector xs => return .vector (← instantiateItems eval env level xs)
  | .set ⟨xs⟩ => return .set (.ofList (← instantiateItems eval env level xs))
  | .map ⟨es⟩ => return .map (.ofList (← instantiateEntries eval env level es))
  | .setForm xs => do
    let items ← instantiateItems eval env level xs
    return if level = 1 then .set (.ofList items) else .setForm items
  | .mapForm es => do
    let entries ← instantiateEntries eval env level es
    return if level = 1 then .map (.ofList entries) else .mapForm entries
  | v => pure v

/-- The elements that the elements of a template give. -/
def instantiateItems (eval : Evaluator) (env : Env) (level : Nat) : List Value → Action (List Value)
  | [] => pure []
  | x :: xs => do
    let items ← spliceOr eval env level x (instantiate eval env false level x)
    let rest ← instantiateItems eval env level xs
    return items ++ rest

/-- The instances of the keys and values of a map in a template. -/
def instantiateEntries (eval : Evaluator) (env : Env) (level : Nat) :
    List (Value × Value) → Action (List (Value × Value))
  | [] => pure []
  | (k, v) :: es => do
    let key ← instantiate eval env false level k
    let value ← instantiate eval env false level v
    let rest ← instantiateEntries eval env level es
    return (key, value) :: rest

end

end MiniLisp
