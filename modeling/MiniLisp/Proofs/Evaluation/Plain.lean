import MiniLisp.Eval.Basic

/-!
# The plain evaluator

The evaluator hands back the form in tail position as the next step. Here is the evaluator that does not: each form in tail
position is evaluated where it stands, by a recursive call, and no nesting is counted. Every function takes the evaluator of the
forms that are not in tail position (`eval`) and the one of those that are (`tail`); the plain evaluator is itself both of them.

The main statement is `evalStep_force`: a step, followed by the evaluation of the form that it hands back, is the plain step.
So a run is a plain step whose inner forms are nested evaluations and whose tail form is the rest of the run (`run_succ`).
-/

namespace MiniLisp

/-- Evaluate the forms of a body; the last one is in tail position, and an empty body is `nil`. -/
def plainBody (eval tail : Evaluator) (env : Env) : List Value → Action Value
  | [] => pure .nil
  | [last] => tail last env
  | form :: forms => do
    let _ ← eval form env
    plainBody eval tail env forms

/-- Call a value with arguments that are values. -/
def plainApply (eval tail : Evaluator) (callee : Value) (args : List Value) : Action Value :=
  match callee with
  | .closure f => do
    let scope ← bindArguments f args
    plainBody eval tail scope f.body
  | .native p => p.call args
  | .constructor variant => Action.ofExcept (construct variant args)
  | v => Action.fail (.typeMismatch "a function" v.describe)

namespace SpecialForm

/-- Both branches of a condition are in tail position. -/
def plainIf (eval tail : Evaluator) (env : Env) (args : List Value) : Action Value :=
  match args with
  | [condition, consequent] => do
    if (← eval condition env).isTruthy then tail consequent env else return .nil
  | [condition, consequent, alternative] => do
    if (← eval condition env).isTruthy then tail consequent env else tail alternative env
  | args => Action.fail ((Error.arityMismatch "2 or 3" args.length).withHelp "usage: (if condition then else)")

/-- Try clauses in order; the body of the first that matches is evaluated in the scope of its names. -/
def plainClauses (eval tail : Evaluator) (env : Env) (v : Value) (count : Nat) : List Value → Action Value
  | [] =>
    Action.fail ((Error.typeMismatch ("a value matching one of " ++ toString count ++ " clause(s)") v.describe).withHelp
      "add a `t` clause to handle every other value")
  | clause :: clauses => do
    match ← Action.ofExcept (clause.expectList "a match clause") with
    | [] => Action.fail (.typeMismatch "a (pattern body...) clause" clause.describe)
    | pattern :: body =>
      match ← Action.ofExcept (← Action.ask fun m => matchPattern m.heap env pattern v) with
      | some bindings =>
        let scope ← clauseScope env bindings
        plainBody eval tail scope body
      | none => plainClauses eval tail env v count clauses

def plainMatch (eval tail : Evaluator) (env : Env) (args : List Value) : Action Value :=
  match args with
  | [] => Action.fail (tooFew "match" 1 0)
  | scrutinee :: clauses => do
    let v ← eval scrutinee env
    plainClauses eval tail env v clauses.length clauses

def plainApplyForm (eval tail : Evaluator) (env : Env) (args : List Value) : Action Value :=
  match args with
  | [function, arguments] => do
    let callee ← eval function env
    match ← eval arguments env with
    | .vector items => plainApply eval tail callee items
    | list => do plainApply eval tail callee (← Action.ofExcept (list.expectList "`apply`"))
  | args => Action.fail (wrongCount "apply" 2 args.length)

/-- Of the three kinds of `let`, only the block has a form in tail position: the last one of its body. -/
def plainLet (eval tail : Evaluator) (env : Env) (keyword : String) (mutable : Bool) (args : List Value) : Action Value :=
  match args with
  | [] => Action.fail (tooFew keyword 1 0)
  | .sym name :: rest =>
    match rest with
    | [form] => do
      let v ← eval form env
      Action.define env name (← named name v) mutable
      return .nil
    | rest => Action.fail (wrongCount keyword 2 (rest.length + 1))
  | .pair (.sym name) signature :: body => do
    let params ← Action.ofExcept (Params.parse signature)
    let slot ← Action.reserve env name mutable
    let f ← newLambda (some name) params body env
    Action.fill slot (.closure f)
    return .nil
  | target :: body =>
    if target.isList then do
      let scope ← Action.newScope env
      let bindings ← Action.ofExcept (target.expectList ("`" ++ keyword ++ "` bindings"))
      evalBindings eval scope mutable bindings
      plainBody eval tail scope body
    else
      Action.fail (.typeMismatch "a name, a (name params...) signature, or a binding list" target.describe)

/-- Evaluate a special form, given what follows its keyword. -/
def plain (eval tail : Evaluator) (env : Env) (special : SpecialForm) (args : Value) : Action Value :=
  match special with
  | .ifForm => do plainIf eval tail env (← arguments special args)
  | .begin => do plainBody eval tail env (← arguments special args)
  | .letForm => do plainLet eval tail env "let" false (← arguments special args)
  | .letMutable => do plainLet eval tail env "let!" true (← arguments special args)
  | .matchForm => do plainMatch eval tail env (← arguments special args)
  | .apply => do plainApplyForm eval tail env (← arguments special args)
  -- The others have no form in tail position: their step is always a value.
  | special => do force tail (← special.step eval env args)

end SpecialForm

/-- Call what the head of a list evaluates to. The expansion of a macro is in tail position. -/
def plainCall (eval tail : Evaluator) (head args : Value) (env : Env) : Action Value := do
  match ← eval head env with
  | .macroFn f =>
    let forms ← Action.ofExcept (args.expectList "macro arguments")
    let expansion ← expandCall eval f forms
    tail (← expand eval expansion env) env
  | callee =>
    let values ← evalAll eval env args.heads
    plainApply eval tail callee values

/-- Evaluate a form, given the evaluators of the forms inside it. -/
def plainStep (eval tail : Evaluator) (form : Value) (env : Env) : Action Value :=
  match form with
  | .sym name => resolveSymbol name env
  | .pair (.sym name) args =>
    match SpecialForm.ofSymbol? name with
    | some special => special.plain eval tail env args
    | none => plainCall eval tail (.sym name) args env
  | .pair head args => plainCall eval tail head args env
  | .vector items => return .vector (← evalAll eval env items)
  | .set s => return .set (.ofList (← evalAll eval env s.elements))
  | .map m => return .map (.ofList (← evalEntries eval env m.entries))
  | .setForm items => return .set (.ofList (← evalAll eval env items))
  | .mapForm entries => return .map (.ofList (← evalEntries eval env entries))
  | v => return v

/-- The plain evaluator: every form inside a form is evaluated by a recursive call, in tail position or not, and nesting has no
limit. It may nest `fuel` deep. -/
def plainEval : (fuel : Nat) → Evaluator
  | 0, _, _ => throw .outOfFuel
  | fuel + 1, form, env => plainStep (plainEval fuel) (plainEval fuel) form env

/-! ## A step and what it hands back -/

@[simp]
theorem force_done (tail : Evaluator) (v : Value) : force tail (.done v) = pure v := rfl

@[simp]
theorem force_tail (tail : Evaluator) (form : Value) (env : Env) : force tail (.tail form env) = tail form env := rfl

/-- An action that fails has no step to continue with. -/
@[simp]
theorem fail_bind {α β : Type} (e : Error) (k : α → Action β) : (Action.fail e >>= k) = Action.fail e := rfl

/-- Of a body only the last form is in tail position. -/
theorem evalBody_force (eval tail : Evaluator) (env : Env) (forms : List Value) :
    (evalBody eval env forms >>= force tail) = plainBody eval tail env forms := by
  fun_induction evalBody eval env forms with
  | case1 => simp [plainBody]
  | case2 last => simp [plainBody]
  | case3 form forms hne ih =>
    rw [plainBody.eq_3 _ _ _ _ _ hne, bind_assoc]
    simp only [ih]

/-- The body of a function is in tail position of its call. -/
theorem applyValue_force (eval tail : Evaluator) (callee : Value) (args : List Value) :
    (applyValue eval callee args >>= force tail) = plainApply eval tail callee args := by
  cases callee <;> simp [applyValue, plainApply, evalBody_force]

namespace SpecialForm

/-- What follows the keyword is a list of arguments. -/
theorem arguments_of_list (special : SpecialForm) {args : Value} {items : List Value} (h : args.toList? = some items) :
    special.arguments args = pure items := by
  rw [arguments, Value.expectList, h]
  rfl

/-- What follows the keyword is no proper list, which is an error. -/
theorem arguments_of_improper (special : SpecialForm) {args : Value} (h : args.toList? = none) :
    special.arguments args =
      Action.fail (.typeMismatch ("a proper list for " ++ ("`" ++ special.keyword ++ "` arguments")) args.describe) := by
  rw [arguments, Value.expectList, h]
  rfl

/-- The branch that is chosen is in tail position. -/
theorem evalIf_force (eval tail : Evaluator) (env : Env) (args : List Value) :
    (evalIf eval env args >>= force tail) = plainIf eval tail env args := by
  unfold evalIf plainIf
  split
  · rw [bind_assoc]
    congr 1
    funext v
    split <;> simp
  · rw [bind_assoc]
    congr 1
    funext v
    split <;> simp
  · simp

/-- The body of the clause that matches is in tail position. -/
theorem evalClauses_force (eval tail : Evaluator) (env : Env) (v : Value) (count : Nat) (clauses : List Value) :
    (evalClauses eval env v count clauses >>= force tail) = plainClauses eval tail env v count clauses := by
  induction clauses with
  | nil => simp [evalClauses, plainClauses]
  | cons clause clauses ih =>
    simp only [evalClauses, plainClauses, bind_assoc]
    congr 1
    funext parts
    cases parts with
    | nil => simp
    | cons pattern body =>
      simp only [bind_assoc]
      congr 1
      funext found
      congr 1
      funext bindings
      cases bindings with
      | none => exact ih
      | some bindings => simp [evalBody_force]

/-- So a match goes on in the clause that is chosen. -/
theorem evalMatch_force (eval tail : Evaluator) (env : Env) (args : List Value) :
    (evalMatch eval env args >>= force tail) = plainMatch eval tail env args := by
  cases args with
  | nil => simp [evalMatch, plainMatch]
  | cons scrutinee clauses => simp [evalMatch, plainMatch, evalClauses_force]

/-- A call with a list of arguments is a call. -/
theorem evalApply_force (eval tail : Evaluator) (env : Env) (args : List Value) :
    (evalApply eval env args >>= force tail) = plainApplyForm eval tail env args := by
  unfold evalApply plainApplyForm
  split
  · simp only [bind_assoc]
    congr 1
    funext callee
    congr 1
    funext arguments
    cases arguments <;> simp [applyValue_force]
  · simp

/-- Of the forms that bind names, a block has its last form in tail position. -/
theorem evalLet_force (eval tail : Evaluator) (env : Env) (keyword : String) (mutable : Bool) (args : List Value) :
    (evalLet eval env keyword mutable args >>= force tail) = plainLet eval tail env keyword mutable args := by
  unfold evalLet plainLet
  split
  · simp
  · split <;> simp
  · simp
  · rename_i target body _ _
    by_cases hl : target.isList = true <;> simp [hl, evalBody_force]

/-- A special form, followed by the evaluation of the form that it hands back. -/
theorem step_force (eval tail : Evaluator) (env : Env) (special : SpecialForm) (args : Value) :
    (special.step eval env args >>= force tail) = special.plain eval tail env args := by
  cases special <;>
    simp [step, plain, evalBody_force, evalIf_force, evalLet_force, evalMatch_force, evalApply_force]

end SpecialForm

/-- A call of a macro goes on with its expansion, another call with the body of the function. -/
theorem evalCall_force (eval tail : Evaluator) (head args : Value) (env : Env) :
    (evalCall eval head args env >>= force tail) = plainCall eval tail head args env := by
  simp only [evalCall, plainCall, bind_assoc]
  congr 1
  funext callee
  cases callee <;> simp [applyValue_force]

/-- A step, followed by the evaluation of the form that it hands back, is the plain step. -/
theorem evalStep_force (eval tail : Evaluator) (form : Value) (env : Env) :
    (evalStep eval form env >>= force tail) = plainStep eval tail form env := by
  cases form with
  | pair head args =>
    cases head with
    | sym name =>
      simp only [evalStep, plainStep]
      cases SpecialForm.ofSymbol? name with
      | some special => exact SpecialForm.step_force eval tail env special args
      | none => exact evalCall_force eval tail _ args env
    | _ => exact evalCall_force eval tail _ args env
  | _ => simp [evalStep, plainStep]

/-- A nested run, whatever stack it runs on. -/
theorem eval_eq (fuel : Nat) (form : Value) (env : Env) : eval fuel form env = Action.nested (run fuel form env) := by
  rw [eval, Action.onOwnStack_eq]

/-- A run is a plain step: its inner forms are nested runs, and its tail form is the rest of the run. -/
theorem run_succ (fuel : Nat) (form : Value) (env : Env) :
    run (fuel + 1) form env = plainStep (eval fuel) (run fuel) form env := by
  rw [← evalStep_force, run]
  rfl

end MiniLisp
