import MiniLisp.Proofs.Evaluation.Plain

/-!
# Evaluation under watch

A watch looks on while a form is evaluated. It is shown the machine at each event: when an evaluation takes a turn or ends with a
value, when a primitive is about to be called, and when a name is about to be bound or assigned to. There it may stop the run with
an alarm, which ends it as an error does. So where a run is stopped is a state that it passes through, and a watch that stops it
nowhere changes nothing (`Watch.eval_never`).

The functions here are those of the plain evaluator, with `Watch.pass` at each event; all other functions are the same ones.
-/

namespace MiniLisp

variable {α : Type}

/-- What a watch is told of. -/
inductive Event where
  /-- A form is about to be evaluated, by a new evaluation or in tail position. -/
  | turn (form : Value) (env : Env)
  /-- An evaluation has ended with a value. -/
  | ended (v : Value)
  /-- A primitive is about to be called. -/
  | call (p : Primitive) (args : List Value)
  /-- A definition is about to bind a name in a frame. -/
  | binding (frame : FrameId) (name : Symbol)
  /-- The names of a module are about to be bound in a frame. -/
  | sharing (frame : FrameId) (module : Symbol)
  /-- A value is about to be put into the slot that a name stands for. -/
  | assigning (env : Env) (name : Symbol) (v : Value)

/-- Whether to stop at an event, where the machine is like this, and with which alarm. -/
abbrev Watch := Event → Machine → Option Abort

namespace Watch

/-- A watch that never stops anything. -/
def never : Watch := fun _ _ => none

open Classical in
/-- A watch that stops with this alarm at this event of this machine, and elsewhere where the other one does. -/
noncomputable def orAt (w : Watch) (event : Event) (s : Machine) (alarm : Abort) : Watch := fun event' m =>
  if event' = event ∧ m = s then some alarm else w event' m

/-- Go on, unless the watch stops here. -/
def pass (w : Watch) (event : Event) : Action Unit := fun m =>
  match w event m with
  | none => .ok () m
  | some alarm => .error alarm m

/-! ## Calls -/

/-- Call a value with arguments that are values. -/
def apply (w : Watch) (eval tail : Evaluator) (callee : Value) (args : List Value) : Action Value :=
  match callee with
  | .native p => do
    w.pass (.call p args)
    p.call args
  | callee => plainApply eval tail callee args

def applyForm (w : Watch) (eval tail : Evaluator) (env : Env) (args : List Value) : Action Value :=
  match args with
  | [function, arguments] => do
    let callee ← eval function env
    match ← eval arguments env with
    | .vector items => w.apply eval tail callee items
    | list => do w.apply eval tail callee (← Action.ofExcept (list.expectList "`apply`"))
  | args => Action.fail (SpecialForm.wrongCount "apply" 2 args.length)

/-- Call what the head of a list evaluates to. -/
def call (w : Watch) (eval tail : Evaluator) (head args : Value) (env : Env) : Action Value := do
  match ← eval head env with
  | .macroFn f =>
    let forms ← Action.ofExcept (args.expectList "macro arguments")
    let expansion ← expandCall eval f forms
    tail (← expand eval expansion env) env
  | callee =>
    let values ← evalAll eval env args.heads
    w.apply eval tail callee values

/-! ## Definitions and assignments -/

/-- Bind a name in the innermost frame of an environment to the value that an action gives. -/
def define (w : Watch) (env : Env) (name : Symbol) (value : Action Value) (mutable : Bool) : Action Unit := do
  w.pass (.binding env.frame name)
  Action.define env name (← value) mutable

/-- Bind every name of a module in the innermost frame of an environment. -/
def share (w : Watch) (module : Symbol) (env : Env) : Action Unit := do
  w.pass (.sharing env.frame module)
  useModule module env

/-- Put a value into the slot that a name stands for. -/
def assign (w : Watch) (env : Env) (name : Symbol) (v : Value) : Action Unit := do
  w.pass (.assigning env name v)
  Action.assign env name v

/-- Evaluate the bindings of a block in order, each in the scope that holds those before it. -/
def bindings (w : Watch) (eval : Evaluator) (scope : Env) (mutable : Bool) : List Value → Action Unit
  | [] => pure ()
  | binding :: rest =>
    match binding.toList? with
    | some [.sym name, form] => do
      let v ← eval form scope
      w.define scope name (SpecialForm.named name v) mutable
      w.bindings eval scope mutable rest
    | _ => Action.fail (.typeMismatch "a (name expr) binding" binding.describe)

def letForm (w : Watch) (eval tail : Evaluator) (env : Env) (keyword : String) (mutable : Bool) (args : List Value) :
    Action Value :=
  match args with
  | [] => Action.fail (SpecialForm.tooFew keyword 1 0)
  | .sym name :: rest =>
    match rest with
    | [form] => do
      let v ← eval form env
      w.define env name (SpecialForm.named name v) mutable
      return .nil
    | rest => Action.fail (SpecialForm.wrongCount keyword 2 (rest.length + 1))
  | .pair (.sym name) signature :: body => do
    let params ← Action.ofExcept (Params.parse signature)
    w.pass (.binding env.frame name)
    let slot ← Action.reserve env name mutable
    let f ← SpecialForm.newLambda (some name) params body env
    Action.fill slot (.closure f)
    return .nil
  | target :: body =>
    if target.isList then do
      let scope ← Action.newScope env
      let items ← Action.ofExcept (target.expectList ("`" ++ keyword ++ "` bindings"))
      w.bindings eval scope mutable items
      plainBody eval tail scope body
    else
      Action.fail (.typeMismatch "a name, a (name params...) signature, or a binding list" target.describe)

def macroForm (w : Watch) (env : Env) (args : List Value) : Action Value :=
  match args with
  | [] => Action.fail (SpecialForm.tooFew "macro" 1 0)
  | .pair head signature :: body => do
    let name ← Action.ofExcept (head.expectSymbol "macro name")
    let params ← Action.ofExcept (Params.parse signature)
    w.define env name (do return .macroFn (← SpecialForm.newLambda (some name) params body env)) false
    return .nil
  | target :: _ => Action.fail (.typeMismatch "a (name params...) signature" target.describe)

/-- Bind the tags of declarations, one after another. -/
def variants (w : Watch) (env : Env) (typeName : Symbol) : List Value → Action Unit
  | [] => pure ()
  | declaration :: declarations => do
    let variant ← Action.ofExcept (SpecialForm.declaredVariant typeName declaration)
    w.define env variant.tag (pure (SpecialForm.tagValue variant)) false
    w.variants env typeName declarations

def typeForm (w : Watch) (env : Env) (args : List Value) : Action Value :=
  match args with
  | target :: declaration :: declarations => do
    let typeName ← Action.ofExcept (target.expectSymbol "type name")
    w.variants env typeName (declaration :: declarations)
    return .nil
  | args => Action.fail (SpecialForm.tooFew "type" 2 args.length)

def useForm (w : Watch) (env : Env) (args : List Value) : Action Value :=
  match args with
  | [target] => do
    let module ← Action.ofExcept (target.expectSymbol "module name")
    w.share module env
    return .nil
  | args => Action.fail (SpecialForm.wrongCount "use" 1 args.length)

def assignForm (w : Watch) (eval : Evaluator) (env : Env) (args : List Value) : Action Value :=
  match args with
  | [target, form] => do
    let name ← Action.ofExcept (target.expectSymbol "variable name")
    let v ← eval form env
    w.assign env name v
    return .nil
  | args => Action.fail (SpecialForm.wrongCount "set!" 2 args.length)

/-! ## Forms and runs -/

/-- Evaluate a special form, given what follows its keyword. -/
def special (w : Watch) (eval tail : Evaluator) (env : Env) (special : SpecialForm) (args : Value) : Action Value :=
  match special with
  | .letForm => do w.letForm eval tail env "let" false (← special.arguments args)
  | .letMutable => do w.letForm eval tail env "let!" true (← special.arguments args)
  | .assign => do w.assignForm eval env (← special.arguments args)
  | .defineMacro => do w.macroForm env (← special.arguments args)
  | .typeForm => do w.typeForm env (← special.arguments args)
  | .useForm => do w.useForm env (← special.arguments args)
  | .apply => do w.applyForm eval tail env (← special.arguments args)
  | special => special.plain eval tail env args

/-- Evaluate a form, given the evaluators of the forms inside it. -/
def step (w : Watch) (eval tail : Evaluator) (form : Value) (env : Env) : Action Value :=
  match form with
  | .pair (.sym name) args =>
    match SpecialForm.ofSymbol? name with
    | some special => w.special eval tail env special args
    | none => w.call eval tail (.sym name) args env
  | .pair head args => w.call eval tail head args env
  | form => plainStep eval tail form env

/-- An evaluation one level deeper. -/
def level (w : Watch) (a : Action Value) : Action Value := Action.nested do
  let v ← a
  w.pass (.ended v)
  return v

/-- Take turns until one gives a value. -/
def run (w : Watch) : (fuel : Nat) → Evaluator
  | 0, _, _ => throw .outOfFuel
  | fuel + 1, form, env => do
    w.pass (.turn form env)
    w.step (fun form env => w.level (w.run fuel form env)) (w.run fuel) form env

/-- Evaluate a form under watch. -/
def eval (w : Watch) (fuel : Nat) : Evaluator := fun form env => w.level (w.run fuel form env)

/-- A turn is watched before its step. -/
theorem run_succ (w : Watch) (fuel : Nat) (form : Value) (env : Env) :
    w.run (fuel + 1) form env = (w.pass (.turn form env) >>= fun _ => w.step (w.eval fuel) (w.run fuel) form env) := rfl

/-! ## A watch that never stops -/

theorem pass_never (event : Event) : never.pass event = pure () := rfl

/-- Calls are those of the plain evaluator. -/
theorem apply_never (eval tail : Evaluator) (callee : Value) (args : List Value) :
    never.apply eval tail callee args = plainApply eval tail callee args := by
  cases callee <;> rfl

theorem applyForm_never (eval tail : Evaluator) (env : Env) (args : List Value) :
    never.applyForm eval tail env args = SpecialForm.plainApplyForm eval tail env args := by
  unfold applyForm SpecialForm.plainApplyForm
  split
  · congr 1
    funext callee
    congr 1
    funext arguments
    cases arguments <;> simp only [apply_never]
  · simp

theorem call_never (eval tail : Evaluator) (head args : Value) (env : Env) :
    never.call eval tail head args env = plainCall eval tail head args env := by
  unfold call plainCall
  congr 1
  funext callee
  cases callee <;> simp only [apply_never]

/-- A definition without a watch evaluates its value and binds the name. -/
theorem define_never (env : Env) (name : Symbol) (value : Action Value) (mutable : Bool) :
    never.define env name value mutable = value >>= fun v => Action.define env name v mutable := rfl

/-- The bindings of a block are those of the plain evaluator, one after another. -/
theorem bindings_never (eval : Evaluator) (scope : Env) (mutable : Bool) (items : List Value) :
    never.bindings eval scope mutable items = SpecialForm.evalBindings eval scope mutable items := by
  induction items with
  | nil => rfl
  | cons binding rest ih =>
    unfold bindings SpecialForm.evalBindings
    generalize binding.toList? = parts
    split <;> simp [define_never, ih]

/-- The definitions are those of the plain evaluator. -/
theorem letForm_never (eval tail : Evaluator) (env : Env) (keyword : String) (mutable : Bool) (args : List Value) :
    never.letForm eval tail env keyword mutable args = SpecialForm.plainLet eval tail env keyword mutable args := by
  unfold letForm SpecialForm.plainLet
  split
  · simp
  · split <;> simp [define_never]
  · simp [pass_never]
  · simp only [bindings_never]

/-- What gives no form to go on with is the same step, forced. -/
theorem macroForm_never (tail : Evaluator) (env : Env) (args : List Value) :
    never.macroForm env args = SpecialForm.evalMacro env args >>= force tail := by
  unfold macroForm SpecialForm.evalMacro
  split <;> simp [define_never]

/-- The tags of a type are bound as without a watch. -/
theorem variants_never (env : Env) (typeName : Symbol) (declarations : List Value) :
    never.variants env typeName declarations = SpecialForm.declareVariants env typeName declarations := by
  induction declarations with
  | nil => rfl
  | cons declaration declarations ih => simp [variants, SpecialForm.declareVariants, define_never, ih]

theorem typeForm_never (tail : Evaluator) (env : Env) (args : List Value) :
    never.typeForm env args = SpecialForm.evalType env args >>= force tail := by
  unfold typeForm SpecialForm.evalType
  split <;> simp [variants_never]

theorem useForm_never (tail : Evaluator) (env : Env) (args : List Value) :
    never.useForm env args = SpecialForm.evalUse env args >>= force tail := by
  unfold useForm SpecialForm.evalUse
  split <;> simp [share, pass_never]

theorem assignForm_never (eval tail : Evaluator) (env : Env) (args : List Value) :
    never.assignForm eval env args = SpecialForm.evalAssign eval env args >>= force tail := by
  unfold assignForm SpecialForm.evalAssign
  split <;> simp [assign, pass_never]

/-- So every special form is that of the plain evaluator. -/
theorem special_never (eval tail : Evaluator) (env : Env) (special : SpecialForm) (args : Value) :
    never.special eval tail env special args = special.plain eval tail env args := by
  cases special with
  | letForm | letMutable => simp only [Watch.special, SpecialForm.plain, letForm_never]
  | apply => simp only [Watch.special, SpecialForm.plain, applyForm_never]
  | assign => simp [Watch.special, SpecialForm.plain, SpecialForm.step, assignForm_never eval tail]
  | defineMacro => simp [Watch.special, SpecialForm.plain, SpecialForm.step, macroForm_never tail]
  | typeForm => simp [Watch.special, SpecialForm.plain, SpecialForm.step, typeForm_never tail]
  | useForm => simp [Watch.special, SpecialForm.plain, SpecialForm.step, useForm_never tail]
  | _ => rfl

/-- And so is every step. -/
theorem step_never (eval tail : Evaluator) (form : Value) (env : Env) :
    never.step eval tail form env = plainStep eval tail form env := by
  cases form with
  | pair head args =>
    cases head with
    | sym name =>
      simp only [step, plainStep]
      cases SpecialForm.ofSymbol? name with
      | some special => exact special_never eval tail env special args
      | none => exact call_never eval tail _ args env
    | _ => exact call_never eval tail _ args env
  | _ => rfl

/-- A level without a watch is a nested action. -/
theorem level_never (a : Action Value) : never.level a = Action.nested a := by
  simp [level, pass_never]

/-- By induction on the fuel: runs are those of the plain evaluator. -/
theorem run_never (fuel : Nat) : never.run fuel = MiniLisp.run fuel := by
  induction fuel with
  | zero => rfl
  | succ fuel ih =>
    funext form env
    have he : never.eval fuel = MiniLisp.eval fuel := by
      funext form env
      rw [eval, level_never, ih, eval_eq]
    rw [run_succ, pass_never, pure_bind, step_never, he, ih, MiniLisp.run_succ]

/-- Under a watch that never stops, evaluation does what it does without one. -/
theorem eval_never (fuel : Nat) : never.eval fuel = MiniLisp.eval fuel := by
  funext form env
  rw [eval, level_never, run_never, eval_eq]

end Watch

/-- Under this watch the action passes through this machine at this event: the watch lets it go on there, and any alarm that is
raised there is what the action ends with. -/
def Action.Passes (a : Watch → Action α) (w : Watch) (m : Machine) (event : Event) (s : Machine) : Prop :=
  w event s = none ∧ ∀ alarm, ∃ m', a (w.orAt event s alarm) m = .error alarm m'

end MiniLisp
