import MiniLisp.Params
import MiniLisp.Primitive.Basic

/-!
# Application: bodies, arguments and calls

Everything here is written over an evaluator that it is given for the forms that are not in tail position. A form in tail
position, such as the last one of a body, is not evaluated but handed back as the next step.
-/

namespace MiniLisp

/-- The values of forms, from left to right. -/
def evalAll (eval : Evaluator) (env : Env) : List Value → Action (List Value)
  | [] => pure []
  | form :: forms => do
    let v ← eval form env
    let vs ← evalAll eval env forms
    return v :: vs

/-- The values of keys and values, from left to right, each key before its value. -/
def evalEntries (eval : Evaluator) (env : Env) : List (Value × Value) → Action (List (Value × Value))
  | [] => pure []
  | (key, value) :: entries => do
    let k ← eval key env
    let v ← eval value env
    let rest ← evalEntries eval env entries
    return (k, v) :: rest

/-- Evaluate all forms of a body but the last, which is the next step; an empty body is `nil`. -/
def evalBody (eval : Evaluator) (env : Env) : List Value → Action Step
  | [] => pure (.done .nil)
  | [last] => pure (.tail last env)
  | form :: forms => do
    let _ ← eval form env
    evalBody eval env forms

/-- The value that a step leads to. -/
def force (eval : Evaluator) : Step → Action Value
  | .done v => pure v
  | .tail form env => eval form env

/-- A new scope inside the environment of a function, with its parameters bound to arguments, none of them mutable. -/
def parameterScope (f : Lambda Value) (args : List Value) : Action Env := do
  let scope ← Action.newScope f.env
  Action.defineAll scope (f.params.bind args)
  return scope

/-- The scope of a call, if the function takes that many arguments. -/
def bindArguments (f : Lambda Value) (args : List Value) : Action Env :=
  if f.params.accepts args.length then parameterScope f args
  else
    let e := Error.arityMismatch f.params.arity args.length
    match f.name with
    | some name => Action.fail (e.withHelp ("in call to `" ++ name ++ "`"))
    | none => Action.fail e

/-- A record with one value per field of its variant. -/
def construct (variant : Variant) (args : List Value) : Except Error Value :=
  if args.length = variant.fields.length then .ok (.record variant args)
  else
    .error ((Error.arityMismatch (toString variant.fields.length) args.length).withHelp
      ("constructor `" ++ variant.tag ++ "` takes one value per field"))

/-- Call a value with arguments that are values. -/
def applyValue (eval : Evaluator) (callee : Value) (args : List Value) : Action Step :=
  match callee with
  | .closure f => do
    let scope ← bindArguments f args
    evalBody eval scope f.body
  | .native p => return .done (← p.call args)
  | .constructor variant => return .done (← Action.ofExcept (construct variant args))
  | v => Action.fail (.typeMismatch "a function" v.describe)

end MiniLisp
