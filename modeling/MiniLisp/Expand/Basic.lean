import MiniLisp.Expand.Children
import MiniLisp.Expand.Macro

/-!
# Expansion: replacing every macro call of a form

A form that calls a macro is replaced until its head calls none, and then the code inside it is expanded. One form may be
replaced `limit` times, and `limit` replaced forms may lie inside one another; each of the two is an error beyond that. So
expansion ends, whatever the macros do: between two replaced forms it only goes inwards. The evaluator that runs the bodies of
macros is given.
-/

namespace MiniLisp

mutual

/-- The number of parts of a value; a part has fewer than the whole. -/
def Value.size : Value → Nat
  | .pair h t => h.size + t.size + 1
  | .vector xs => Value.sizeItems xs + 1
  | .set ⟨xs⟩ => Value.sizeItems xs + 1
  | .map ⟨es⟩ => Value.sizeEntries es + 1
  | .setForm xs => Value.sizeItems xs + 1
  | .mapForm es => Value.sizeEntries es + 1
  | _ => 1

/-- The number of parts of several values. -/
def Value.sizeItems : List Value → Nat
  | [] => 0
  | x :: xs => x.size + Value.sizeItems xs

/-- The number of parts of the keys and values of a map. -/
def Value.sizeEntries : List (Value × Value) → Nat
  | [] => 0
  | (k, v) :: es => k.size + v.size + Value.sizeEntries es

end

/-- The forms given to the macro that a form calls. -/
def macroArguments (f : Lambda Value) : Value → Except Error (List Value)
  | .pair _ args =>
    match args.toList? with
    | some args => .ok args
    | none => .error (expansionError (macroName f) "macro call has an improper argument list")
  | _ => .error (expansionError (macroName f) "macro call has an improper argument list")

/-- Replace a form while its head calls a macro, at most `remaining` times; the flag says whether it was replaced at all. -/
def replaceHead (eval : Evaluator) (env : Env) (limit : Nat) (replaced : Bool) :
    (remaining : Nat) → Value → Action (Value × Bool)
  | remaining, form => do
    match ← Action.ask fun m => m.macroAtHead? env form with
    | none => return (form, replaced)
    | some f =>
      match remaining with
      | 0 => Action.fail (expansionError (macroName f) ("no fixed point after " ++ toString limit ++ " rewrites"))
      | remaining + 1 => do
        let args ← Action.ofExcept (macroArguments f form)
        let form ← expandCall eval f args
        replaceHead eval env limit true remaining form

/-- Expand a form of at most `rank` parts that lies at some level of replacing; `deeper` expands one level further in. -/
def expandWithin (eval : Evaluator) (env : Env) (limit : Nat) (deeper : Value → Action Value) :
    (rank : Nat) → Value → Action Value
  | 0, _ => throw .outOfFuel
  | rank + 1, form => do
    let (form, replaced) ← replaceHead eval env limit false limit form
    if replaced then expandChildren deeper form
    else expandChildren (expandWithin eval env limit deeper rank) form

/-- The complaint about replaced forms that lie too deep inside one another. -/
def tooDeep (limit : Nat) (form : Value) : Error :=
  expansionError (form.headSymbol?.getD "<form>") ("expansion nested deeper than " ++ toString limit ++ " levels")

/-- Expand a form when `levels` more levels of replacing are allowed. -/
def expandLevel (eval : Evaluator) (env : Env) (limit : Nat) : (levels : Nat) → Value → Action Value
  | 0, form => Action.fail (tooDeep limit form)
  | levels + 1, form => expandWithin eval env limit (expandLevel eval env limit levels) form.size form

/-- Expand every macro call of a form, with macros as they are seen in an environment. -/
def expand (eval : Evaluator) (form : Value) (env : Env) : Action Value := do
  let limit ← Action.ask fun m => m.limits.maxMacroExpansions
  expandLevel eval env limit (limit + 1) form

end MiniLisp
