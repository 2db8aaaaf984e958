import MiniLisp.Heap
import MiniLisp.Limits

/-!
# The machine: the state of an interpreter and the actions on it

An action may change the machine and ends with a result or is aborted; the changes made before an abort stay. Evaluation is
aborted by an error of the program, or because the steps that it was given are used up, which no program can tell from running
on.
-/

namespace MiniLisp

/-- The state of an interpreter. -/
structure Machine where
  heap : Heap
  /-- The environment of top-level forms; the frames of modules lie inside it. -/
  global : Env
  /-- The modules defined so far, latest first. -/
  modules : List (Symbol × Env) := []
  /-- Everything printed so far. -/
  output : String := ""
  /-- The number of evaluations under way inside one another. -/
  depth : Nat := 0
  limits : Limits := {}
  /-- How many symbols were generated so far. -/
  generated : Nat := 0
  /-- How many functions and macros were made so far. -/
  lambdas : Nat := 0

/-- Why an action ended without a result. -/
inductive Abort where
  | error (e : Error)
  | outOfFuel

/-- A computation on the machine. -/
abbrev Action := EStateM Abort Machine

/-- Evaluation of a form in an environment, as the parts of the evaluator see it. -/
abbrev Evaluator := Value → Env → Action Value

/-- What one step of evaluation gives: a value, or a form left to evaluate in the place of the one before. -/
inductive Step where
  | done (v : Value)
  | tail (form : Value) (env : Env)

namespace Action

variable {α : Type}

/-- End with an error of the program. -/
def fail (e : Error) : Action α := throw (.error e)

/-- The result of a computation that needs no machine. -/
def ofExcept : Except Error α → Action α
  | .ok a => pure a
  | .error e => fail e

/-- A value that depends on the machine and leaves it as it is. -/
def ask (f : Machine → α) : Action α := fun m => .ok (f m) m

/-- A change of the heap that gives a value. -/
def onHeap (f : Heap → α × Heap) : Action α := fun m =>
  let (a, heap) := f m.heap
  .ok a { m with heap }

/-- A change of the heap. -/
def changeHeap (f : Heap → Heap) : Action Unit := fun m => .ok () { m with heap := f m.heap }

/-- The value of a name in an environment. -/
def lookup? (env : Env) (name : Symbol) : Action (Option Value) := ask fun m => m.heap.lookup? env name

/-- Whether a name stands for a slot in an environment. -/
def isBound (env : Env) (name : Symbol) : Action Bool := ask fun m => m.heap.isBound env name

/-- The value of a name in one frame. -/
def lookupLocal? (frame : FrameId) (name : Symbol) : Action (Option Value) := ask fun m => m.heap.lookupLocal? frame name

/-- The environment of a module. -/
def findModule? (name : Symbol) : Action (Option Env) := ask fun m => m.modules.lookup name

/-- A new frame inside an environment. -/
def newScope (env : Env) : Action Env := onHeap (·.newChild env)

/-- Bind a name in the innermost frame of an environment. -/
def define (env : Env) (name : Symbol) (value : Value) (mutable : Bool) : Action Unit :=
  changeHeap (·.define env.frame name value mutable)

/-- Bind several names in the innermost frame of an environment, none of them mutable. -/
def defineAll (env : Env) (bindings : List (Symbol × Value)) : Action Unit :=
  changeHeap (·.defineAll env.frame false bindings)

/-- Bind a name in the innermost frame of an environment to a slot that is filled later, and give the slot. -/
def reserve (env : Env) (name : Symbol) (mutable : Bool) : Action SlotId := onHeap (·.reserve env.frame name mutable)

/-- Put a value into a slot, mutable or not. -/
def fill (slot : SlotId) (value : Value) : Action Unit := changeHeap (·.fill slot value)

/-- Put a value into the slot that a name stands for. -/
def assign (env : Env) (name : Symbol) (value : Value) : Action Unit := do
  let slot ← ofExcept (← ask fun m => m.heap.assignable env name)
  fill slot value

/-- A number that no function or macro has yet. -/
def newLambdaId : Action Nat := fun m => .ok m.lambdas { m with lambdas := m.lambdas + 1 }

/-- A symbol with this beginning that was not generated before: it ends in the number of symbols generated so far. -/
def generateSymbol (beginning : String) : Action Symbol := fun m =>
  let n := m.generated + 1
  .ok (beginning ++ "__" ++ toString n) { m with generated := n }

/-- Print a text. -/
def emit (text : String) : Action Unit := fun m => .ok () { m with output := m.output ++ text }

/-- Run an action one level deeper, if the limit allows it; the level is left however the action ends. -/
def nested (a : Action α) : Action α := fun m =>
  if m.limits.maxDepth ≤ m.depth then
    .error (.error (.ofKind (.recursionLimit m.limits.maxDepth))) m
  else
    match a { m with depth := m.depth + 1 } with
    | .ok v m => .ok v { m with depth := m.depth - 1 }
    | .error e m => .error e { m with depth := m.depth - 1 }

/-- The levels of nesting that share a stack. -/
def levelsPerStack : Nat := 500

/-- The same action. Where a new stack is due, it runs on one of its own, so that nesting is bounded by the limits of the machine
and not by the room of one stack. -/
def onOwnStack (a : Action α) : Action α := fun m =>
  if m.depth % levelsPerStack == 0 then (Task.spawn (fun _ => a m) .dedicated).get else a m

theorem onOwnStack_eq (a : Action α) : onOwnStack a = a := by
  funext m
  unfold onOwnStack
  split <;> rfl

end Action

end MiniLisp
