import MiniLisp.Eval.Apply
import MiniLisp.SpecialForm

/-!
# Macros: finding and running them

A macro is a function over forms. A list calls a macro when its head is a symbol bound to one, or the access to a member of a
module that is one; a special form never does, whatever its keyword may be bound to.
-/

namespace MiniLisp

/-- The module and member named by a list `(. Module 'member)`. -/
def qualifiedName? : Value → Option (Symbol × Symbol)
  | .pair (.sym ".") (.pair (.sym module) (.pair (.pair (.sym "quote") (.pair (.sym member) .nil)) .nil)) =>
    some (module, member)
  | _ => none

/-- The macro that a value is. -/
def Value.asMacro? : Value → Option (Lambda Value)
  | .macroFn f => some f
  | _ => none

/-- The macro that a form calls in an environment. A name that is bound to anything hides the module of that name. -/
def Machine.macroAtHead? (m : Machine) (env : Env) : Value → Option (Lambda Value)
  | .pair (.sym s) _ => if isSpecial s then none else (m.heap.lookup? env s).bind Value.asMacro?
  | .pair head _ => do
    let (module, member) ← qualifiedName? head
    if m.heap.isBound env module then none
    else
      let home ← m.modules.lookup module
      (m.heap.lookupLocal? home.frame member).bind Value.asMacro?
  | _ => none

/-- The name of a macro in error messages. -/
def macroName (f : Lambda Value) : String := f.name.getD "<anonymous>"

/-- A complaint about an expansion. -/
def expansionError (name reason : String) : Error := .ofKind (.macroExpansion name reason)

/-- The complaint about the number of forms given to a macro. -/
def macroArityError (f : Lambda Value) (actual : Nat) : Error :=
  expansionError (macroName f) ("expected " ++ f.params.arity ++ " argument(s), got " ++ toString actual)

/-- Run a macro on forms: its body is evaluated with its parameters bound to the forms themselves. -/
def expandCall (eval : Evaluator) (f : Lambda Value) (args : List Value) : Action Value :=
  if f.params.accepts args.length then do
    let scope ← parameterScope f args
    force eval (← evalBody eval scope f.body)
  else Action.fail (macroArityError f args.length)

end MiniLisp
