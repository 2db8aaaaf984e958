import MiniLisp.Expand.Template
import MiniLisp.SpecialForm
import MiniLisp.Value.Datum

/-!
# The code inside a form

Which elements of a list are code depends on the special form it is: a quoted form holds data, a parameter list and a pattern
hold names, and the declarations of a type, a module or a use are left for their evaluation. `expandChildren` visits the code
inside a form and puts what the visits give in its place.
-/

namespace MiniLisp

/-- Visit forms from left to right. -/
def visitAll (visit : Value → Action Value) : List Value → Action (List Value)
  | [] => pure []
  | x :: xs => do
    let first ← visit x
    let rest ← visitAll visit xs
    return first :: rest

/-- Visit the keys and values of a map form from left to right. -/
def visitEntries (visit : Value → Action Value) : List (Value × Value) → Action (List (Value × Value))
  | [] => pure []
  | (k, v) :: es => do
    let key ← visit k
    let value ← visit v
    let rest ← visitEntries visit es
    return (key, value) :: rest

/-- Visit the elements of a list behind the first `keep`; what an improper list ends in is kept. -/
def visitList (visit : Value → Action Value) : (keep : Nat) → Value → Action Value
  | 0, .pair h t => do
    let head ← visit h
    let tail ← visitList visit 0 t
    return .pair head tail
  | keep + 1, .pair h t => do
    let tail ← visitList visit keep t
    return .pair h tail
  | _, v => pure v

/-- Visit the expression of a binding `(name expression)`; a binding of any other shape is kept. -/
def visitBinding (visit : Value → Action Value) (binding : Value) : Action Value :=
  match binding.toList? with
  | some [name, form] => return .list [name, ← visit form]
  | _ => pure binding

/-- Visit the code of a `let` form: the expression behind a name, the body behind a signature, or the expressions of a list of
bindings and the body behind them. -/
def visitLet (visit : Value → Action Value) (form : Value) : Action Value :=
  match form.toList? with
  | some (keyword :: target :: body) =>
    match target with
    | .sym _ | .pair (.sym _) _ => visitList visit 2 form
    | target =>
      if target.isList then do
        let bindings ← visitAll (visitBinding visit) target.heads
        let forms ← visitAll visit body
        return .list (keyword :: .list bindings :: forms)
      else pure form
  | _ => pure form

/-- Visit the body of a clause `(pattern body...)`. -/
def visitClause (visit : Value → Action Value) (clause : Value) : Action Value :=
  match clause.toList? with
  | some (pattern :: body) => return .list (pattern :: (← visitAll visit body))
  | _ => pure clause

/-- Visit the code of a `match` form: the expression and the bodies of the clauses. -/
def visitMatch (visit : Value → Action Value) (form : Value) : Action Value :=
  match form.toList? with
  | some (keyword :: scrutinee :: clauses) => do
    let first ← visit scrutinee
    let rest ← visitAll (visitClause visit) clauses
    return .list (keyword :: first :: rest)
  | _ => pure form

/-- Visit the code of a special form. -/
def visitSpecial (visit : Value → Action Value) (special : SpecialForm) (form : Value) : Action Value :=
  match special with
  | .quote => pure form.toDatum
  | .typeForm | .moduleForm | .useForm => pure form
  | .quasiquote =>
    match form.argumentOf? "quasiquote" with
    | some template => return .wrap "quasiquote" (← visitTemplate visit false 1 template)
    | none => pure form
  | .lambda | .defineMacro => visitList visit 2 form
  | .letForm | .letMutable => visitLet visit form
  | .matchForm => visitMatch visit form
  | _ => visitList visit 1 form

/-- Visit the code inside a form. -/
def expandChildren (visit : Value → Action Value) (form : Value) : Action Value :=
  match form with
  | .pair (.sym s) _ =>
    match SpecialForm.ofSymbol? s with
    | some special => visitSpecial visit special form
    | none => visitList visit 0 form
  | .pair .. => visitList visit 0 form
  | .vector items => return .vector (← visitAll visit items)
  | .setForm items => return .setForm (← visitAll visit items)
  | .mapForm entries => return .mapForm (← visitEntries visit entries)
  | v => pure v

end MiniLisp
