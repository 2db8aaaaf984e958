import MiniLisp.Proofs.Evaluation.Plain
import MiniLisp.Proofs.Heap

/-!
# Routines: all that evaluation can do

A routine is an action over an evaluator of inner forms and an evaluator of the form in tail position that is put together from
a short list of elementary actions. A routine belongs to a frame: it defines names there and evaluates forms there, and it can
do the same in new scopes, which are routines of their own frames. What it cannot do is bind a name in any other frame. Whether it
may bind names in its own frame, assign to names, expand forms or generate symbols is said by its abilities; the names of a new
scope, such as the parameters of a function, are bound when it is made.

Every part of the evaluator and of the expander is a routine (`plainStep_routine` for the step of evaluation). So what holds of
every routine needs one case for each elementary action, and none for each special form: `Routine` is the only place that
knows both.
-/

namespace MiniLisp

/-- What a routine may be allowed to do besides. -/
inductive Ability where
  /-- Expand a form. -/
  | expand
  /-- Bind a name in the own frame. -/
  | bind
  /-- Assign to a name. -/
  | assign
  /-- Generate a symbol. -/
  | generate

/-- A new scope inside an environment, with names bound in it, none of them mutable. -/
def Action.openScope (env : Env) (bindings : List (Symbol × Value)) : Action Env := do
  let scope ← Action.newScope env
  Action.defineAll scope bindings
  return scope

/-- The actions over an evaluator of inner forms and one of the tail form that are put together from elementary ones, and that
define names in the frame `own` and in new frames only. -/
inductive Routine (can : Ability → Prop) : (own : FrameId) → {α : Type} → (Evaluator → Evaluator → Action α) → Prop where
  | value {own : FrameId} {α : Type} (a : α) : Routine can own fun _ _ => pure a
  | abort {own : FrameId} {α : Type} (e : Abort) : Routine can own fun _ _ => (throw e : Action α)
  | andThen {own : FrameId} {α β : Type} {p : Evaluator → Evaluator → Action α}
      {q : α → Evaluator → Evaluator → Action β} (hp : Routine can own p) (hq : ∀ a, Routine can own (q a)) :
      Routine can own fun eval tail => p eval tail >>= fun a => q a eval tail
  /-- Look at the names, the slots and the modules, but not at the depth or the limits. -/
  | look {own : FrameId} {α : Type} (f : Heap → Env → List (Symbol × Env) → α) :
      Routine can own fun _ _ => Action.ask fun m => f m.heap m.global m.modules
  | inner {own : FrameId} (form : Value) (env : Env) (he : env.frame = own) : Routine can own fun eval _ => eval form env
  | tail {own : FrameId} (form : Value) (env : Env) (he : env.frame = own) : Routine can own fun _ tail => tail form env
  | expansion {own : FrameId} (form : Value) (env : Env) (hc : can .expand) :
      Routine can own fun eval _ => expand eval form env
  | definition {own : FrameId} (env : Env) (name : Symbol) (v : Value) (mutable : Bool) (he : env.frame = own)
      (hc : can .bind) : Routine can own fun _ _ => Action.define env name v mutable
  | sharing {own : FrameId} (name : Symbol) (env : Env) (he : env.frame = own) (hc : can .bind) :
      Routine can own fun _ _ => useModule name env
  | assignment {own : FrameId} (env : Env) (name : Symbol) (v : Value) (hc : can .assign) :
      Routine can own fun _ _ => Action.assign env name v
  | lambdaId {own : FrameId} : Routine can own fun _ _ => Action.newLambdaId
  | symbol {own : FrameId} (beginning : String) (hc : can .generate) :
      Routine can own fun _ _ => Action.generateSymbol beginning
  | output {own : FrameId} (text : String) : Routine can own fun _ _ => Action.emit text
  /-- Work in a new frame. -/
  | scope {own : FrameId} {α : Type} (env : Env) (bindings : List (Symbol × Value))
      {q : Env → Evaluator → Evaluator → Action α} (hq : ∀ s, Routine can s.frame (q s)) :
      Routine can own fun eval tail => Action.openScope env bindings >>= fun s => q s eval tail
  /-- Work in a new frame, and register the frame in the end. -/
  | newModule {own : FrameId} (env : Env) (name : Symbol) {q : Env → Evaluator → Evaluator → Action Unit}
      (hq : ∀ home, Routine can home.frame (q home)) :
      Routine can own fun eval tail =>
        Action.newScope env >>= fun home => q home eval tail >>= fun _ => registerModule name home

variable {can : Ability → Prop} {own : FrameId} {α β : Type}

/-- An action that is a routine when written in another way is one. -/
theorem Routine.of_eq {p q : Evaluator → Evaluator → Action α} (hq : Routine can own q)
    (h : ∀ eval tail, p eval tail = q eval tail) : Routine can own p := by
  have : p = q := funext fun eval => funext fun tail => h eval tail
  exact this ▸ hq

/-- A routine whose tail form is evaluated like an inner one. -/
theorem Routine.innerTail {p : Evaluator → Evaluator → Action α} (hp : Routine can own p) :
    Routine can own fun eval _ => p eval eval := by
  induction hp with
  | value a => exact .value a
  | abort e => exact .abort e
  | andThen _ _ ihp ihq => exact .andThen ihp ihq
  | look f => exact .look f
  | inner form env he => exact .inner form env he
  | tail form env he => exact .inner form env he
  | expansion form env hc => exact .expansion form env hc
  | definition env name v mutable he hc => exact .definition env name v mutable he hc
  | sharing name env he hc => exact .sharing name env he hc
  | assignment env name v hc => exact .assignment env name v hc
  | lambdaId => exact .lambdaId
  | symbol beginning hc => exact .symbol beginning hc
  | output text => exact .output text
  | scope env bindings _ ihq => exact .scope env bindings ihq
  | newModule env name _ ihq => exact .newModule env name ihq

/-- A routine with fewer abilities is one with more. -/
theorem Routine.mono {can' : Ability → Prop} {p : Evaluator → Evaluator → Action α} (hp : Routine can own p)
    (h : ∀ ability, can ability → can' ability) : Routine can' own p := by
  induction hp with
  | value a => exact .value a
  | abort e => exact .abort e
  | andThen _ _ ihp ihq => exact .andThen ihp ihq
  | look f => exact .look f
  | inner form env he => exact .inner form env he
  | tail form env he => exact .tail form env he
  | expansion form env hc => exact .expansion form env (h _ hc)
  | definition env name v mutable he hc => exact .definition env name v mutable he (h _ hc)
  | sharing name env he hc => exact .sharing name env he (h _ hc)
  | assignment env name v hc => exact .assignment env name v (h _ hc)
  | lambdaId => exact .lambdaId
  | symbol beginning hc => exact .symbol beginning (h _ hc)
  | output text => exact .output text
  | scope env bindings _ ihq => exact .scope env bindings ihq
  | newModule env name _ ihq => exact .newModule env name ihq

theorem Routine.fail (e : Error) : Routine can own fun _ _ => (Action.fail e : Action α) := .abort (.error e)

theorem Routine.ofExcept (r : Except Error α) : Routine can own fun _ _ => Action.ofExcept r := by
  cases r with
  | ok a => exact .value a
  | error e => exact .fail e

/-- A routine whose result is changed by a function. -/
theorem Routine.returning {p : Evaluator → Evaluator → Action α} (hp : Routine can own p) (f : α → β) :
    Routine can own fun eval tail => p eval tail >>= fun a => pure (f a) :=
  .andThen hp fun a => .value (f a)

/-! ## Bodies and calls -/

/-- Forms are evaluated one after another in the environment that is given. -/
theorem evalAll_routine (env : Env) (forms : List Value) :
    Routine can env.frame fun eval _ => evalAll eval env forms := by
  induction forms with
  | nil => exact .value []
  | cons form forms ih => exact .andThen (.inner form env rfl) fun v => ih.returning (v :: ·)

/-- So are the keys and values of a map. -/
theorem evalEntries_routine (env : Env) (entries : List (Value × Value)) :
    Routine can env.frame fun eval _ => evalEntries eval env entries := by
  induction entries with
  | nil => exact .value []
  | cons entry entries ih =>
    exact .andThen (.inner entry.1 env rfl) fun k => .andThen (.inner entry.2 env rfl) fun v => ih.returning ((k, v) :: ·)

/-- A body is evaluated in the environment that is given. -/
theorem plainBody_routine (env : Env) (forms : List Value) :
    Routine can env.frame fun eval tail => plainBody eval tail env forms := by
  induction forms with
  | nil => exact .value Value.nil
  | cons form forms ih =>
    cases forms with
    | nil => exact .tail form env rfl
    | cons next rest => exact .andThen (.inner form env rfl) fun _ => ih

/-- A body whose last form is handed back. -/
theorem evalBody_routine (env : Env) (forms : List Value) : Routine can env.frame fun eval _ => evalBody eval env forms := by
  induction forms with
  | nil => exact .value (Step.done .nil)
  | cons form forms ih =>
    cases forms with
    | nil => exact .value (Step.tail form env)
    | cons next rest => exact .andThen (.inner form env rfl) fun _ => ih

/-- What is done in the scope of a call is done in a new frame. -/
theorem parameterScope_routine (f : Lambda Value) (args : List Value) {q : Env → Evaluator → Evaluator → Action α}
    (hq : ∀ s, Routine can s.frame (q s)) :
    Routine can own fun eval tail => parameterScope f args >>= fun s => q s eval tail :=
  .scope f.env (f.params.bind args) hq

/-- The arguments of a call are bound in a new frame, where the call goes on. -/
theorem bindArguments_routine (f : Lambda Value) (args : List Value) {q : Env → Evaluator → Evaluator → Action α}
    (hq : ∀ s, Routine can s.frame (q s)) :
    Routine can own fun eval tail => bindArguments f args >>= fun s => q s eval tail := by
  unfold bindArguments
  split
  · exact parameterScope_routine f args hq
  · split <;> exact .fail _

/-- Of the primitives, only `gensym` generates a symbol. -/
theorem call_routine (p : Primitive) (args : List Value) (hg : p = .gensym → can .generate) :
    Routine can own fun _ _ => p.call args := by
  cases p with
  | list | vector | set => exact .value _
  | gensym => exact .andThen (.ofExcept _) fun beginning => (Routine.symbol beginning (hg rfl)).returning _
  | println | display => exact (Routine.output _).returning _
  | str => exact .ofExcept (Primitive.concatenate args)
  | _ => exact .ofExcept _

/-- A call works in a frame of its own; only the call of `gensym` generates a symbol. -/
theorem plainApply_routine (callee : Value) (args : List Value) (hg : callee = .native .gensym → can .generate) :
    Routine can own fun eval tail => plainApply eval tail callee args := by
  cases callee with
  | closure f => exact bindArguments_routine f args fun s => plainBody_routine s f.body
  | native p => exact call_routine p args fun hp => hg (hp ▸ rfl)
  | constructor variant => exact .ofExcept _
  | _ => exact .fail _

/-- A call whose tail form is handed back. -/
theorem applyValue_routine (callee : Value) (args : List Value) (hg : callee = .native .gensym → can .generate) :
    Routine can own fun eval _ => applyValue eval callee args := by
  cases callee with
  | closure f => exact bindArguments_routine f args fun s => evalBody_routine s f.body
  | native p => exact (call_routine p args fun hp => hg (hp ▸ rfl)).returning _
  | constructor variant => exact (Routine.ofExcept _).returning _
  | _ => exact .fail _

/-- A macro is run in a scope of its own. -/
theorem expandCall_routine (f : Lambda Value) (args : List Value) :
    Routine can own fun eval _ => expandCall eval f args := by
  unfold expandCall
  split
  · have hb : Routine can own fun eval _ => parameterScope f args >>= fun s => plainBody eval eval s f.body :=
      parameterScope_routine f args fun s => (plainBody_routine s f.body).innerTail
    exact hb.of_eq fun eval _ => by simp [evalBody_force]
  · exact .fail _

/-! ## Templates -/

/-- A form that is spliced in is evaluated in the environment of the template. -/
theorem spliceOr_routine (env : Env) (level : Nat) (item : Value) {copy : Evaluator → Evaluator → Action Value}
    (hc : Routine can env.frame copy) :
    Routine can env.frame fun eval tail => spliceOr eval env level item (copy eval tail) := by
  unfold spliceOr
  split
  · exact .andThen (.inner _ env rfl) fun v => .ofExcept (splicedItems v)
  · exact hc.returning _

mutual

/-- The forms that are unquoted in a template are evaluated in the environment of the template. -/
theorem instantiate_routine (env : Env) (inTail : Bool) (level : Nat) (template : Value) :
    Routine can env.frame fun eval _ => instantiate eval env inTail level template := by
  unfold instantiate
  split
  · rename_i s arg
    split
    · exact (instantiate_routine env true level (.pair arg .nil)).returning _
    · split
      · split
        · exact .inner arg env rfl
        · exact (instantiate_routine env false (level - 1) arg).returning _
      · split
        · exact (instantiate_routine env false (level + 1) arg).returning _
        · split
          · split
            · exact .fail _
            · exact (instantiate_routine env false (level - 1) arg).returning _
          · exact (instantiate_routine env true level (.pair arg .nil)).returning _
  · rename_i h t _
    exact .andThen (spliceOr_routine env level h (instantiate_routine env false level h)) fun items =>
      (instantiate_routine env true level t).returning _
  · rename_i xs
    exact (instantiateItems_routine env level xs).returning _
  · rename_i xs
    exact (instantiateItems_routine env level xs).returning _
  · rename_i es
    exact (instantiateEntries_routine env level es).returning _
  · rename_i xs
    exact (instantiateItems_routine env level xs).returning _
  · rename_i es
    exact (instantiateEntries_routine env level es).returning _
  · exact .value _
termination_by sizeOf template

theorem instantiateItems_routine (env : Env) (level : Nat) (templates : List Value) :
    Routine can env.frame fun eval _ => instantiateItems eval env level templates := by
  cases templates with
  | nil => exact .value []
  | cons x xs =>
    unfold instantiateItems
    exact .andThen (spliceOr_routine env level x (instantiate_routine env false level x)) fun items =>
      (instantiateItems_routine env level xs).returning _
termination_by sizeOf templates

theorem instantiateEntries_routine (env : Env) (level : Nat) (templates : List (Value × Value)) :
    Routine can env.frame fun eval _ => instantiateEntries eval env level templates := by
  cases templates with
  | nil => exact .value []
  | cons e es =>
    obtain ⟨k, v⟩ := e
    unfold instantiateEntries
    exact .andThen (instantiate_routine env false level k) fun key =>
      .andThen (instantiate_routine env false level v) fun value => (instantiateEntries_routine env level es).returning _
termination_by sizeOf templates

end

end MiniLisp
