import MiniLisp.Eval.Special

/-!
# Evaluation

`evalStep` takes one step in the evaluation of a form: it evaluates what is not in tail position with the evaluator that it is
given, and hands back what is. `run` takes steps until one of them gives a value; since a tail form takes the place of the form
before it, a loop written as tail calls nests no deeper than one call. `eval` is a run that counts as one level of nesting.

A run is given a number of steps (`fuel`) that it may take one after another or inside one another. It ends when they are used
up, so running is a total function; no answer depends on the number, as long as it is large enough.
-/

namespace MiniLisp

/-- Call what the head of a list evaluates to. A macro is run on the argument forms, and its expansion is the next step. -/
def evalCall (eval : Evaluator) (head args : Value) (env : Env) : Action Step := do
  match ← eval head env with
  | .macroFn f =>
    let forms ← Action.ofExcept (args.expectList "macro arguments")
    let expansion ← expandCall eval f forms
    return .tail (← expand eval expansion env) env
  | callee =>
    let values ← evalAll eval env args.heads
    applyValue eval callee values

/-- One step of evaluation. -/
def evalStep (eval : Evaluator) (form : Value) (env : Env) : Action Step :=
  match form with
  | .sym name => return .done (← resolveSymbol name env)
  | .pair (.sym name) args =>
    match SpecialForm.ofSymbol? name with
    | some special => special.step eval env args
    | none => evalCall eval (.sym name) args env
  | .pair head args => evalCall eval head args env
  | .vector items => return .done (.vector (← evalAll eval env items))
  | .set s => return .done (.set (.ofList (← evalAll eval env s.elements)))
  | .map m => return .done (.map (.ofList (← evalEntries eval env m.entries)))
  | .setForm items => return .done (.set (.ofList (← evalAll eval env items)))
  | .mapForm entries => return .done (.map (.ofList (← evalEntries eval env entries)))
  | v => return .done v

/-- Take steps until one gives a value; the forms that they evaluate on the way are nested runs. -/
def run : (fuel : Nat) → Evaluator
  | 0, _, _ => throw .outOfFuel
  | fuel + 1, form, env => do
    match ← evalStep (fun form env => Action.nested (Action.onOwnStack (run fuel form env))) form env with
    | .done v => return v
    | .tail form env => run fuel form env

/-- Evaluate a form one level deeper than what asks for it. -/
def eval (fuel : Nat) : Evaluator := fun form env => Action.nested (Action.onOwnStack (run fuel form env))

end MiniLisp
