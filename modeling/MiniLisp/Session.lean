import MiniLisp.Eval.Basic
import MiniLisp.Reader.Basic

/-!
# Sessions: running sources in one interpreter

Every top-level form is read, expanded in the global environment as it is by then, and evaluated, before the next one is looked
at; so a macro can be used by every form after its definition. An error is given the place of its top-level form, unless it has
one already. The machine keeps what the forms before an error did.
-/

namespace MiniLisp

/-- A new interpreter: the primitives and `t` are bound in the global frame. -/
def Machine.fresh (limits : Limits) : Machine :=
  let (global, heap) := ({} : Heap).newRoot
  let heap := Primitive.all.foldl (fun h p => h.define global.frame p.name (.native p) false) heap
  { heap := heap.define global.frame "t" (.bool true) false, global, limits }

namespace Session

/-- Steps enough for any program that ends. -/
def defaultFuel : Nat := 1000000000000000000

/-- Start again at the outermost level. -/
def resetDepth : Action Unit := fun m => .ok () { m with depth := 0 }

/-- Give the errors of an action a place, unless they have one. -/
def locating {α : Type} (source : Source) (span : Span) (a : Action α) : Action α := fun m =>
  match a m with
  | .error (.error e) m => .error (.error (e.orLocatedAt source span)) m
  | result => result

/-- Expand and evaluate a form in the global environment. -/
def evalForm (fuel : Nat) (form : Value) : Action Value := do
  resetDepth
  let global ← Action.ask fun m => m.global
  let expanded ← expand (eval fuel) form global
  eval fuel expanded global

/-- Evaluate the forms that were read from a source, up to the first error; the value of the last is the result. -/
def runForms (fuel : Nat) (source : Source) (last : Value) : List (Except Error (Value × Span)) → Action Value
  | [] => pure last
  | .error e :: _ => Action.fail e
  | .ok (form, span) :: rest => do
    let v ← locating source span (evalForm fuel form)
    runForms fuel source v rest

/-- Run a source up to its first error. -/
def runSource (fuel : Nat) (source : Source) : Action Value := runForms fuel source .nil (Reader.results source)

/-- Evaluate the forms that were read from a source, each whatever the others give. -/
def runEachForm (fuel : Nat) (source : Source) (m : Machine) :
    List (Except Error (Value × Span)) → List (Except Abort Value) × Machine
  | [] => ([], m)
  | .error e :: rest =>
    let (outcomes, m) := runEachForm fuel source m rest
    (.error (.error e) :: outcomes, m)
  | .ok (form, span) :: rest =>
    match locating source span (evalForm fuel form) m with
    | .ok v m =>
      let (outcomes, m) := runEachForm fuel source m rest
      (.ok v :: outcomes, m)
    | .error e m =>
      let (outcomes, m) := runEachForm fuel source m rest
      (.error e :: outcomes, m)

/-- Run every form of a source; a malformed form or an error hides none of the others. -/
def runEach (fuel : Nat) (source : Source) (m : Machine) : List (Except Abort Value) × Machine :=
  runEachForm fuel source m (Reader.results source)

/-- Expand the forms that were read from a source, up to the first error. Of the expanded forms, only the definitions of macros
are evaluated. -/
def expandForms (fuel : Nat) (source : Source) : List (Except Error (Value × Span)) → Action (List Value)
  | [] => pure []
  | .error e :: _ => Action.fail e
  | .ok (form, span) :: rest => do
    let global ← Action.ask fun m => m.global
    let expanded ← locating source span (expand (eval fuel) form global)
    if expanded.isForm "macro" then
      let _ ← locating source span (eval fuel expanded global)
    let forms ← expandForms fuel source rest
    return expanded :: forms

/-- Expand every form of a source. -/
def expandSource (fuel : Nat) (source : Source) : Action (List Value) :=
  expandForms fuel source (Reader.results source)

/-- Call a value with arguments that are values. -/
def call (fuel : Nat) (callee : Value) (args : List Value) : Action Value := do
  resetDepth
  force (eval fuel) (← applyValue (eval fuel) callee args)

/-- The macro that a form calls at the top level. -/
def macroAtHead? (m : Machine) (form : Value) : Option (Lambda Value) := m.macroAtHead? m.global form

end Session

end MiniLisp
