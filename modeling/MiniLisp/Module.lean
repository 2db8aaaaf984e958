import MiniLisp.Expand.Basic

/-!
# Modules: named frames

A module is a frame inside the global environment, in which its declarations were evaluated. It is registered when all of them
succeeded; its name must be free both before and after. Using a module binds each of its names, in the frame where it is used,
to the very slot it has in the module.
-/

namespace MiniLisp

/-- The complaint about a second module of a name. -/
def duplicateModule (name : Symbol) : Error := .ofKind (.duplicateModule name)

/-- The complaint about a module that is not there. -/
def moduleNotFound (name : Symbol) : Error := .ofKind (.moduleNotFound name)

/-- Register a frame as a module, if its name is free. -/
def registerModule (name : Symbol) (home : Env) : Action Unit := do
  if (← Action.findModule? name).isSome then Action.fail (duplicateModule name)
  else fun m => .ok () { m with modules := (name, home) :: m.modules }

/-- Expand and evaluate declarations one after another. -/
def evalDeclarations (eval : Evaluator) (home : Env) : List Value → Action Unit
  | [] => pure ()
  | declaration :: declarations => do
    let form ← expand eval declaration home
    let _ ← eval form home
    evalDeclarations eval home declarations

/-- Make a module of declarations. -/
def defineModule (eval : Evaluator) (name : Symbol) (declarations : List Value) : Action Unit := do
  if (← Action.findModule? name).isSome then Action.fail (duplicateModule name)
  else
    let home ← Action.newScope (← Action.ask fun m => m.global)
    evalDeclarations eval home declarations
    registerModule name home

/-- Bind every name of a module in the innermost frame of an environment. -/
def useModule (name : Symbol) (env : Env) : Action Unit := do
  match ← Action.findModule? name with
  | none => Action.fail (moduleNotFound name)
  | some home => Action.changeHeap fun h => h.bindAll env.frame (h.localBindings home.frame)

/-- What stands left of the dot in `Name.member`: a variable if the name is bound, else a module. -/
def resolveQualifier (name : Symbol) (env : Env) : Action Value := do
  match ← Action.lookup? env name with
  | some v => return v
  | none =>
    match ← Action.findModule? name with
    | some home => return .module name home
    | none => Action.fail (moduleNotFound name)

/-- The value of a symbol: that of the variable, else the module of that name. -/
def resolveSymbol (name : Symbol) (env : Env) : Action Value := do
  match ← Action.lookup? env name with
  | some v => return v
  | none =>
    match ← Action.findModule? name with
    | some home => return .module name home
    | none => Action.fail (.unboundVariable name)

/-- The registered names of a machine, in alphabetical order. -/
def Machine.moduleNames (m : Machine) : List Symbol := (m.modules.map (·.1)).mergeSort fun a b => decide (a ≤ b)

end MiniLisp
