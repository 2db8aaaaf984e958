import MiniLisp.Eval.Template
import MiniLisp.Module
import MiniLisp.Pattern

/-!
# Special forms: what each of them does

Every special form first checks that its arguments are a proper list of the right length. What it evaluates on the way goes
through the evaluator that it is given; what stands in tail position is handed back as the next step.
-/

namespace MiniLisp

namespace SpecialForm

/-- The arguments of a special form. -/
def arguments (special : SpecialForm) (args : Value) : Action (List Value) :=
  Action.ofExcept (args.expectList ("`" ++ special.keyword ++ "` arguments"))

/-- The complaint about any other number of arguments. -/
def wrongCount (keyword : String) (count actual : Nat) : Error :=
  (Error.arityMismatch (toString count) actual).withHelp
    ("`" ++ keyword ++ "` takes " ++ toString count ++ " argument(s)")

/-- The complaint about fewer arguments. -/
def tooFew (keyword : String) (least actual : Nat) : Error :=
  (Error.arityMismatch ("at least " ++ toString least) actual).withHelp
    ("`" ++ keyword ++ "` takes at least " ++ toString least ++ " argument(s)")

/-- A new function or macro. -/
def newLambda (name : Option Symbol) (params : Params) (body : List Value) (env : Env) : Action (Lambda Value) := do
  return { id := ← Action.newLambdaId, name, params, body, env }

/-- A function without a name takes the name that it is bound to, and is then another function. -/
def named (name : Symbol) (v : Value) : Action Value :=
  match v with
  | .closure { name := none, params, body, env, .. } =>
    return .closure (← newLambda (some name) params body env)
  | v => pure v

def evalIf (eval : Evaluator) (env : Env) (args : List Value) : Action Step :=
  match args with
  | [condition, consequent] => do
    if (← eval condition env).isTruthy then return .tail consequent env else return .done .nil
  | [condition, consequent, alternative] => do
    if (← eval condition env).isTruthy then return .tail consequent env else return .tail alternative env
  | args => Action.fail ((Error.arityMismatch "2 or 3" args.length).withHelp "usage: (if condition then else)")

/-- The scope of a clause: a new one if the pattern binds names, else the one around it. -/
def clauseScope (env : Env) (bindings : List (Symbol × Value)) : Action Env :=
  match bindings with
  | [] => pure env
  | bindings => do
    let scope ← Action.newScope env
    Action.defineAll scope bindings
    return scope

/-- Try clauses in order; `count` is the number of all of them. -/
def evalClauses (eval : Evaluator) (env : Env) (v : Value) (count : Nat) : List Value → Action Step
  | [] =>
    Action.fail ((Error.typeMismatch ("a value matching one of " ++ toString count ++ " clause(s)") v.describe).withHelp
      "add a `t` clause to handle every other value")
  | clause :: clauses => do
    match ← Action.ofExcept (clause.expectList "a match clause") with
    | [] => Action.fail (.typeMismatch "a (pattern body...) clause" clause.describe)
    | pattern :: body =>
      match ← Action.ofExcept (← Action.ask fun m => matchPattern m.heap env pattern v) with
      | some bindings =>
        let scope ← clauseScope env bindings
        evalBody eval scope body
      | none => evalClauses eval env v count clauses

def evalMatch (eval : Evaluator) (env : Env) (args : List Value) : Action Step :=
  match args with
  | [] => Action.fail (tooFew "match" 1 0)
  | scrutinee :: clauses => do
    let v ← eval scrutinee env
    evalClauses eval env v clauses.length clauses

def evalApply (eval : Evaluator) (env : Env) (args : List Value) : Action Step :=
  match args with
  | [function, arguments] => do
    let callee ← eval function env
    match ← eval arguments env with
    | .vector items => applyValue eval callee items
    | list => applyValue eval callee (← Action.ofExcept (list.expectList "`apply`"))
  | args => Action.fail (wrongCount "apply" 2 args.length)

/-- Evaluate the bindings `(name expression)` of a block in order, each in the scope that holds those before it. -/
def evalBindings (eval : Evaluator) (scope : Env) (mutable : Bool) : List Value → Action Unit
  | [] => pure ()
  | binding :: bindings =>
    match binding.toList? with
    | some [.sym name, form] => do
      let v ← eval form scope
      Action.define scope name (← named name v) mutable
      evalBindings eval scope mutable bindings
    | _ => Action.fail (.typeMismatch "a (name expr) binding" binding.describe)

/-- `(let name expression)`, `(let (name parameters...) body...)` or `(let ((name expression)...) body...)`. -/
def evalLet (eval : Evaluator) (env : Env) (keyword : String) (mutable : Bool) (args : List Value) : Action Step :=
  match args with
  | [] => Action.fail (tooFew keyword 1 0)
  | .sym name :: rest =>
    match rest with
    | [form] => do
      let v ← eval form env
      Action.define env name (← named name v) mutable
      return .done .nil
    | rest => Action.fail (wrongCount keyword 2 (rest.length + 1))
  | .pair (.sym name) signature :: body => do
    let params ← Action.ofExcept (Params.parse signature)
    -- The slot comes first: the environment of the function already holds its own name.
    let slot ← Action.reserve env name mutable
    let f ← newLambda (some name) params body env
    Action.fill slot (.closure f)
    return .done .nil
  | target :: body =>
    if target.isList then do
      let scope ← Action.newScope env
      let bindings ← Action.ofExcept (target.expectList ("`" ++ keyword ++ "` bindings"))
      evalBindings eval scope mutable bindings
      evalBody eval scope body
    else
      Action.fail (.typeMismatch "a name, a (name params...) signature, or a binding list" target.describe)

def evalAssign (eval : Evaluator) (env : Env) (args : List Value) : Action Step :=
  match args with
  | [target, form] => do
    let name ← Action.ofExcept (target.expectSymbol "variable name")
    let v ← eval form env
    Action.assign env name v
    return .done .nil
  | args => Action.fail (wrongCount "set!" 2 args.length)

def evalLambda (env : Env) (args : List Value) : Action Step :=
  match args with
  | [] => Action.fail (tooFew "lambda" 1 0)
  | signature :: body => do
    let params ← Action.ofExcept (Params.parse signature)
    return .done (.closure (← newLambda none params body env))

def evalMacro (env : Env) (args : List Value) : Action Step :=
  match args with
  | [] => Action.fail (tooFew "macro" 1 0)
  | .pair head signature :: body => do
    let name ← Action.ofExcept (head.expectSymbol "macro name")
    let params ← Action.ofExcept (Params.parse signature)
    let f ← newLambda (some name) params body env
    Action.define env name (.macroFn f) false
    return .done .nil
  | target :: _ => Action.fail (.typeMismatch "a (name params...) signature" target.describe)

/-- The names of the fields that a variant declares. -/
def declaredFields : List Value → Except Error (List Symbol)
  | [] => .ok []
  | v :: vs => do
    let name ← v.expectSymbol "field name"
    let names ← declaredFields vs
    return name :: names

/-- The variant that a declaration `Tag` or `(Tag field...)` stands for. -/
def declaredVariant (typeName : Symbol) (declaration : Value) : Except Error Variant :=
  match declaration with
  | .sym tag => .ok ⟨typeName, tag, []⟩
  | .pair .. => do
    match ← declaration.expectList "a variant declaration" with
    | [] => .ok ⟨typeName, "", []⟩
    | head :: fields =>
      let tag ← head.expectSymbol "variant tag"
      return ⟨typeName, tag, ← declaredFields fields⟩
  | v => .error (.typeMismatch "a variant declaration" v.describe)

/-- What a tag is bound to: the only record of a variant without fields, else the constructor. -/
def tagValue (variant : Variant) : Value :=
  if variant.fields.isEmpty then .record variant [] else .constructor variant

/-- Bind the tags of declarations, one after another. -/
def declareVariants (env : Env) (typeName : Symbol) : List Value → Action Unit
  | [] => pure ()
  | declaration :: declarations => do
    let variant ← Action.ofExcept (declaredVariant typeName declaration)
    Action.define env variant.tag (tagValue variant) false
    declareVariants env typeName declarations

def evalType (env : Env) (args : List Value) : Action Step :=
  match args with
  | target :: declaration :: declarations => do
    let typeName ← Action.ofExcept (target.expectSymbol "type name")
    declareVariants env typeName (declaration :: declarations)
    return .done .nil
  | args => Action.fail (tooFew "type" 2 args.length)

def evalModule (eval : Evaluator) (args : List Value) : Action Step :=
  match args with
  | [] => Action.fail (tooFew "module" 1 0)
  | target :: declarations => do
    let name ← Action.ofExcept (target.expectSymbol "module name")
    defineModule eval name declarations
    return .done .nil

def evalUse (env : Env) (args : List Value) : Action Step :=
  match args with
  | [target] => do
    let name ← Action.ofExcept (target.expectSymbol "module name")
    useModule name env
    return .done .nil
  | args => Action.fail (wrongCount "use" 1 args.length)

/-- The value of a field of a record. -/
def recordField? (variant : Variant) (values : List Value) (field : Symbol) : Option Value :=
  (variant.fields.findIdx? (· == field)).bind fun i => values[i]?

/-- What a value holds under a key: a map its value, a module its member, a record its field, a pair its head or tail, a vector
its element. -/
def accessField (h : Heap) (target key : Value) : Except Error Value :=
  match target with
  | .map m => .ok ((m.get? key).getD .nil)
  | .module name home => do
    let field ← key.expectSymbol "a symbol naming a module member"
    match h.lookupLocal? home.frame field with
    | some v => .ok v
    | none => .error (.unboundVariable (name ++ "." ++ field))
  | .record variant values => do
    let field ← key.expectSymbol "a field name"
    match recordField? variant values field with
    | some v => .ok v
    | none => .error (.typeMismatch ("a field of `" ++ variant.tag ++ "`") key.describe)
  | .pair head tail =>
    match key with
    | .sym "head" => .ok head
    | .sym "tail" => .ok tail
    | key => .error (.typeMismatch "`head` or `tail`" key.describe)
  | .vector items =>
    match key with
    | .num (.int i) => .ok (if 0 ≤ i.toInt then items[i.toInt.toNat]?.getD .nil else .nil)
    | key => .error (.typeMismatch "an integer index" key.describe)
  | v => .error (.typeMismatch "a map, record, module, pair or vector" v.describe)

def evalDot (eval : Evaluator) (env : Env) (args : List Value) : Action Step :=
  match args with
  | [target, field] => do
    let owner ← match target with
      | .sym name => resolveQualifier name env
      | form => eval form env
    let key ← eval field env
    return .done (← Action.ofExcept (← Action.ask fun m => accessField m.heap owner key))
  | args => Action.fail (wrongCount "." 2 args.length)

def evalQuote (args : List Value) : Action Step :=
  match args with
  | [datum] => return .done datum
  | args => Action.fail (wrongCount "quote" 1 args.length)

def evalQuasiquote (eval : Evaluator) (env : Env) (args : List Value) : Action Step :=
  match args with
  | [template] => return .done (← instantiate eval env false 1 template)
  | args => Action.fail (wrongCount "quasiquote" 1 args.length)

/-- Evaluate a special form, given what follows its keyword. -/
def step (eval : Evaluator) (env : Env) (special : SpecialForm) (args : Value) : Action Step :=
  match special with
  | .unquote | .unquoteSplicing =>
    Action.fail (.invalidOperation "unquote" "code outside a quasiquote template")
  | .varg => Action.fail (.invalidOperation "variadic marker" "code outside a parameter list")
  | .quote => do evalQuote (← arguments special args)
  | .quasiquote => do evalQuasiquote eval env (← arguments special args)
  | .ifForm => do evalIf eval env (← arguments special args)
  | .begin => do evalBody eval env (← arguments special args)
  | .letForm => do evalLet eval env "let" false (← arguments special args)
  | .letMutable => do evalLet eval env "let!" true (← arguments special args)
  | .assign => do evalAssign eval env (← arguments special args)
  | .lambda => do evalLambda env (← arguments special args)
  | .defineMacro => do evalMacro env (← arguments special args)
  | .matchForm => do evalMatch eval env (← arguments special args)
  | .typeForm => do evalType env (← arguments special args)
  | .moduleForm => do evalModule eval (← arguments special args)
  | .useForm => do evalUse env (← arguments special args)
  | .dot => do evalDot eval env (← arguments special args)
  | .apply => do evalApply eval env (← arguments special args)

end SpecialForm

end MiniLisp
