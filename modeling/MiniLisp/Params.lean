import MiniLisp.Value.Printer

/-!
# Parameter lists: which arguments a function takes, and how they are named

A parameter list is a list of names, the last of which may be marked `(varg name)` to take all further arguments as a list; a
bare name takes every argument. Reading the list (`Params.parse`), counting arguments (`Params.accepts`) and naming them
(`Params.bind`) are separate steps: a call counts first and names afterwards.
-/

namespace MiniLisp.Params

/-- The complaint about a form that is no parameter. -/
def notAParameter (v : Value) : Error := .typeMismatch "parameter name" v.describe

/-- The name behind the marker of a parameter that takes all further arguments. -/
def restName? : Value → Option Symbol
  | .pair (.sym "varg") (.pair (.sym name) .nil) => some name
  | _ => none

/-- The parameters that a list of forms declares, after those found already. -/
def parseItems (params : Params) : List Value → Except Error Params
  | [] => .ok params
  | item :: items =>
    if params.rest.isSome then
      .error ((notAParameter item).withHelp "a variadic parameter must come last")
    else
      match item with
      | .sym name => parseItems { params with required := params.required ++ [name] } items
      | item =>
        match restName? item with
        | some name => parseItems { params with rest := some name } items
        | none => .error (notAParameter item)

/-- The parameters that a form declares. -/
def parse : Value → Except Error Params
  | .sym name => .ok { required := [], rest := some name }
  | form => do parseItems {} (← form.expectList "a parameter list")

/-- Whether a call with `count` arguments gives each required parameter one, and leaves none over without a rest parameter. -/
def accepts (p : Params) (count : Nat) : Bool :=
  if p.rest.isSome then decide (p.required.length ≤ count) else count == p.required.length

/-- The number of arguments wanted, in words. -/
def arity (p : Params) : String :=
  if p.rest.isSome then "at least " ++ toString p.required.length else toString p.required.length

/-- The required parameters with their arguments, and the arguments that are left; a missing argument is `nil`. -/
def bindRequired : List Symbol → List Value → List (Symbol × Value) × List Value
  | [], args => ([], args)
  | name :: names, args =>
    let (bound, rest) := bindRequired names args.tail
    ((name, args.headD .nil) :: bound, rest)

/-- Every parameter with its argument, the rest parameter with the list of what is left. -/
def bind (p : Params) (args : List Value) : List (Symbol × Value) :=
  let (bound, left) := bindRequired p.required args
  match p.rest with
  | some name => bound ++ [(name, Value.list left)]
  | none => bound

end MiniLisp.Params
