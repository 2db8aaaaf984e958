import MiniLisp.Proofs.Evaluation.Watch
import MiniLisp.Proofs.Expansion.Routine

/-!
# A step of evaluation is a routine

Each special form, each call and so each step is a routine of the frame in which it is evaluated (`plainStep_routine`). It needs
the abilities to expand, to bind names in that frame and to generate symbols, and only `set!` needs the ability to assign.

Under watch a step is put together from routines that can do none of this but expand, and from calls, bindings and assignments at
which the watch looks on (`Watched`, `Watch.step_watched`). A watch that stops nowhere leaves the routine.
-/

namespace MiniLisp

variable {can : Ability → Prop} {own : FrameId} {α : Type}

/-! ## Names and modules -/

theorem lookup_routine (env : Env) (name : Symbol) : Routine can own fun _ _ => Action.lookup? env name :=
  .look fun heap _ _ => heap.lookup? env name

theorem findModule_routine (name : Symbol) : Routine can own fun _ _ => Action.findModule? name :=
  .look fun _ _ modules => modules.lookup name

/-- The value of a variable, else the module of that name, else a complaint. -/
theorem resolve_routine (name : Symbol) (env : Env) (e : Error) :
    Routine can own fun _ _ => (do
      match ← Action.lookup? env name with
      | some v => return v
      | none =>
        match ← Action.findModule? name with
        | some home => return Value.module name home
        | none => Action.fail e) := by
  refine .andThen (lookup_routine env name) fun found => ?_
  cases found with
  | some v => exact .value v
  | none =>
    refine .andThen (findModule_routine name) fun home => ?_
    cases home with
    | some home => exact .value _
    | none => exact .fail e

/-- A symbol is looked up in the environment, or it is a complaint. -/
theorem resolveSymbol_routine (name : Symbol) (env : Env) : Routine can own fun _ _ => resolveSymbol name env :=
  resolve_routine name env _

theorem resolveQualifier_routine (name : Symbol) (env : Env) : Routine can own fun _ _ => resolveQualifier name env :=
  resolve_routine name env _

/-- The declarations of a module are expanded and evaluated in its frame. -/
theorem evalDeclarations_routine (hx : can .expand) (home : Env) (declarations : List Value) :
    Routine can home.frame fun eval _ => evalDeclarations eval home declarations := by
  induction declarations with
  | nil => exact .value ()
  | cons declaration declarations ih =>
    exact .andThen (.expansion declaration home hx) fun form => .andThen (.inner form home rfl) fun _ => ih

/-- The declarations of a module are evaluated in a frame of its own. -/
theorem defineModule_routine (hx : can .expand) (name : Symbol) (declarations : List Value) :
    Routine can own fun eval _ => defineModule eval name declarations := by
  refine .andThen (findModule_routine name) fun home => ?_
  cases home with
  | some home => exact .fail _
  | none =>
    refine .andThen (.look fun _ global _ => global) fun global => ?_
    exact .newModule global name fun home => evalDeclarations_routine hx home declarations

namespace SpecialForm

/-- The symbol that makes a special form is its keyword. -/
theorem eq_keyword_of_ofSymbol? {s : Symbol} {special : SpecialForm} (h : ofSymbol? s = some special) :
    s = special.keyword := by
  unfold ofSymbol? at h
  split at h <;> cases h <;> rfl

/-- What follows a keyword is checked to be a list. -/
theorem arguments_routine (special : SpecialForm) (args : Value) : Routine can own fun _ _ => special.arguments args :=
  .ofExcept _

/-- A form whose step is a routine once its arguments are known. -/
theorem arguments_force (special : SpecialForm) (args : Value) {q : List Value → Evaluator → Evaluator → Action Step}
    (hq : ∀ args, Routine can own fun eval tail => q args eval tail >>= force tail) :
    Routine can own fun eval tail => (special.arguments args >>= fun args => q args eval tail) >>= force tail := by
  simp only [bind_assoc]
  exact .andThen (arguments_routine special args) hq

/-- A new function takes the next number. -/
theorem newLambda_routine (name : Option Symbol) (params : Params) (body : List Value) (env : Env) :
    Routine can own fun _ _ => newLambda name params body env :=
  Routine.lambdaId.returning _

/-- A function without a name is given one, and a number with it. -/
theorem named_routine (name : Symbol) (v : Value) : Routine can own fun _ _ => named name v := by
  unfold named
  split
  · exact (newLambda_routine _ _ _ _).returning _
  · exact .value v

/-! ## Forms with a form in tail position -/

/-- The condition and the chosen branch are evaluated in the environment that is given. -/
theorem plainIf_routine (env : Env) (args : List Value) :
    Routine can env.frame fun eval tail => plainIf eval tail env args := by
  unfold plainIf
  split
  · refine .andThen (.inner _ env rfl) fun v => ?_
    split
    · exact .tail _ env rfl
    · exact .value _
  · refine .andThen (.inner _ env rfl) fun v => ?_
    split
    · exact .tail _ env rfl
    · exact .tail _ env rfl
  · exact .fail _

/-- The body of a clause is evaluated in the frame around it, or in a new one. -/
theorem clauseScope_routine (env : Env) (bindings : List (Symbol × Value)) {q : Env → Evaluator → Evaluator → Action α}
    (hq : ∀ s, Routine can s.frame (q s)) :
    Routine can env.frame fun eval tail => clauseScope env bindings >>= fun s => q s eval tail := by
  cases bindings with
  | nil => exact (hq env).of_eq fun eval tail => by simp [clauseScope]
  | cons b bs => exact .scope env (b :: bs) hq

/-- The body of a clause is evaluated in a frame of its own, if its pattern has bound anything. -/
theorem plainClauses_routine (env : Env) (v : Value) (count : Nat) (clauses : List Value) :
    Routine can env.frame fun eval tail => plainClauses eval tail env v count clauses := by
  induction clauses with
  | nil => exact .fail _
  | cons clause clauses ih =>
    refine .andThen (.ofExcept _) fun parts => ?_
    cases parts with
    | nil => exact .fail _
    | cons pattern body =>
      refine .andThen (.look fun heap _ _ => matchPattern heap env pattern v) fun found => ?_
      refine .andThen (.ofExcept found) fun bindings => ?_
      cases bindings with
      | some bindings => exact clauseScope_routine env bindings fun s => plainBody_routine s body
      | none => exact ih

theorem plainMatch_routine (env : Env) (args : List Value) :
    Routine can env.frame fun eval tail => plainMatch eval tail env args := by
  cases args with
  | nil => exact .fail _
  | cons scrutinee clauses =>
    exact .andThen (.inner scrutinee env rfl) fun v => plainClauses_routine env v clauses.length clauses

/-- A slot that is reserved, and filled with a function made in between, is the same as a definition. -/
theorem reserve_fill (env : Env) (name : Symbol) (mutable : Bool) (params : Params) (body : List Value) :
    (do
      let slot ← Action.reserve env name mutable
      let f ← newLambda (some name) params body env
      Action.fill slot (.closure f)) =
    (do
      let f ← newLambda (some name) params body env
      Action.define env name (.closure f) mutable) := by
  funext m
  let f : Lambda Value := { id := m.lambdas, name := some name, params, body, env }
  exact congrArg (fun heap => EStateM.Result.ok () { m with heap, lambdas := m.lambdas + 1 })
    (Heap.fill_reserve m.heap env.frame name (.closure f) mutable)

/-! ## Forms whose step is a value -/

theorem evalLambda_routine (env : Env) (args : List Value) :
    Routine can env.frame fun _ tail => evalLambda env args >>= force tail := by
  cases args with
  | nil => exact .fail _
  | cons signature body =>
    simp only [evalLambda, bind_assoc, pure_bind, force_done]
    exact .andThen (.ofExcept _) fun params => (newLambda_routine _ _ _ _).returning _

/-- A module is defined in a frame of its own, which is registered in the end. -/
theorem evalModule_routine (hx : can .expand) (args : List Value) :
    Routine can own fun eval tail => evalModule eval args >>= force tail := by
  cases args with
  | nil => exact .fail _
  | cons target declarations =>
    simp only [evalModule, bind_assoc, pure_bind, force_done]
    exact .andThen (.ofExcept _) fun name => (defineModule_routine hx name declarations).returning _

/-- Access to a member evaluates the object alone. -/
theorem evalDot_routine (env : Env) (args : List Value) :
    Routine can env.frame fun eval tail => evalDot eval env args >>= force tail := by
  unfold evalDot
  split
  · rename_i target field
    have hk (owner : Value) : Routine can env.frame fun eval _ => (do
        let key ← eval field env
        Action.ofExcept (← Action.ask fun m => accessField m.heap owner key)) :=
      .andThen (.inner field env rfl) fun key =>
        .andThen (.look fun heap _ _ => accessField heap owner key) fun found => .ofExcept found
    split
    · rename_i name
      exact (Routine.andThen (resolveQualifier_routine name env) hk).of_eq fun _ _ => by simp
    · exact (Routine.andThen (.inner target env rfl) hk).of_eq fun _ _ => by simp
  · exact .fail _

theorem evalQuote_routine (args : List Value) : Routine can own fun _ tail => evalQuote args >>= force tail := by
  unfold evalQuote
  split
  · exact .value _
  · exact .fail _

/-- A template is filled in the environment that is given. -/
theorem evalQuasiquote_routine (env : Env) (args : List Value) :
    Routine can env.frame fun eval tail => evalQuasiquote eval env args >>= force tail := by
  unfold evalQuasiquote
  split
  · simp only [bind_assoc, pure_bind, force_done]
    exact (instantiate_routine env false 1 _).returning _
  · exact .fail _

end SpecialForm

/-! ## Steps under watch -/

/-- What may be done without telling a watch: neither to bind, nor to assign, nor to generate a symbol. -/
def Ability.Quiet (ability : Ability) : Prop := ability = .expand

theorem Ability.quiet_expand : Ability.Quiet .expand := rfl

/-- The actions under a watch that are put together from quiet routines, and from calls, bindings and assignments that the watch is
told of. -/
inductive Watched (can : Ability → Prop) :
    (own : FrameId) → {α : Type} → (Watch → Evaluator → Evaluator → Action α) → Prop where
  | routine {own : FrameId} {α : Type} {p : Evaluator → Evaluator → Action α} (hp : Routine Ability.Quiet own p) :
      Watched can own fun _ eval tail => p eval tail
  | andThen {own : FrameId} {α β : Type} {p : Watch → Evaluator → Evaluator → Action α}
      {q : α → Watch → Evaluator → Evaluator → Action β} (hp : Watched can own p) (hq : ∀ a, Watched can own (q a)) :
      Watched can own fun w eval tail => p w eval tail >>= fun a => q a w eval tail
  | call {own : FrameId} (p : Primitive) (args : List Value) (hc : can .generate) :
      Watched can own fun w _ _ => w.pass (.call p args) >>= fun _ => p.call args
  | definition {own : FrameId} (env : Env) (name : Symbol) {value : Action Value} (mutable : Bool) (he : env.frame = own)
      (hv : Routine Ability.Quiet own fun _ _ => value) (hc : can .bind) :
      Watched can own fun w _ _ => w.define env name value mutable
  | sharing {own : FrameId} (module : Symbol) (env : Env) (he : env.frame = own) (hc : can .bind) :
      Watched can own fun w _ _ => w.share module env
  | assignment {own : FrameId} (env : Env) (name : Symbol) (v : Value) (hc : can .assign) :
      Watched can own fun w _ _ => w.assign env name v
  /-- Work in a new frame. -/
  | scope {own : FrameId} {α : Type} (env : Env) {q : Env → Watch → Evaluator → Evaluator → Action α}
      (hq : ∀ s, Watched can s.frame (q s)) :
      Watched can own fun w eval tail => Action.newScope env >>= fun s => q s w eval tail

namespace Watched

variable {p q : Watch → Evaluator → Evaluator → Action α}

theorem of_eq (hq : Watched can own q) (h : ∀ w eval tail, p w eval tail = q w eval tail) : Watched can own p := by
  have : p = q := funext fun w => funext fun eval => funext fun tail => h w eval tail
  exact this ▸ hq

/-- A watched action whose result is changed by a function. -/
theorem returning {β : Type} (hp : Watched can own p) (f : α → β) :
    Watched can own fun w eval tail => p w eval tail >>= fun a => pure (f a) :=
  .andThen hp fun a => .routine (.value (f a))

/-- Under a watch that never stops, a watched action is a routine. -/
theorem routine_never (hx : can .expand) (hp : Watched can own p) : Routine can own fun eval tail => p .never eval tail := by
  have hmono {own : FrameId} {α : Type} {p : Evaluator → Evaluator → Action α} (hp : Routine Ability.Quiet own p) :
      Routine can own p := hp.mono fun _ h => h ▸ hx
  induction hp with
  | routine hp => exact hmono hp
  | andThen _ _ ihp ihq => exact .andThen ihp ihq
  | call p args hc => exact call_routine p args fun _ => hc
  | definition env name mutable he hv hc =>
    exact (Routine.andThen (hmono hv) fun v => .definition env name v mutable he hc).of_eq fun _ _ => rfl
  | sharing module env he hc => exact .sharing module env he hc
  | assignment env name v hc => exact .assignment env name v hc
  | scope env _ ihq => exact .scope env [] ihq

end Watched

namespace Watch

section Calls

variable (hg : can .generate)

include hg

/-- Only the call of a primitive is shown to the watch. -/
theorem apply_watched (callee : Value) (args : List Value) :
    Watched can own fun w eval tail => w.apply eval tail callee args := by
  unfold apply
  split
  · exact .call _ args hg
  · rename_i hp
    exact .routine (plainApply_routine callee args fun h => absurd h (hp .gensym))

/-- A call with a list of arguments is watched where its primitive is called. -/
theorem applyForm_watched (env : Env) (args : List Value) :
    Watched can env.frame fun w eval tail => w.applyForm eval tail env args := by
  unfold applyForm
  split
  · refine .andThen (.routine (.inner _ env rfl)) fun callee => .andThen (.routine (.inner _ env rfl)) fun arguments => ?_
    split
    · exact apply_watched hg callee _
    · exact .andThen (.routine (.ofExcept _)) fun items => apply_watched hg callee items
  · exact .routine (.fail _)

/-- Every other call is watched there too. -/
theorem call_watched (head args : Value) (env : Env) :
    Watched can env.frame fun w eval tail => w.call eval tail head args env := by
  refine .andThen (.routine (.inner head env rfl)) fun callee => ?_
  split
  · exact .routine (.andThen (.ofExcept _) fun forms => .andThen (expandCall_routine _ forms) fun expansion =>
      .andThen (.expansion expansion env rfl) fun form => .tail form env rfl)
  · exact .andThen (.routine (evalAll_routine env _)) fun values => apply_watched hg callee values

end Calls

section Binding

variable (hb : can .bind)

include hb

/-- The bindings of a block are watched one by one. -/
theorem bindings_watched (scope : Env) (mutable : Bool) (items : List Value) :
    Watched can scope.frame fun w eval _ => w.bindings eval scope mutable items := by
  induction items with
  | nil => exact .routine (.value ())
  | cons binding rest ih =>
    unfold bindings
    split
    · rename_i name form _
      exact .andThen (.routine (.inner form scope rfl)) fun v =>
        .andThen (.definition scope name mutable rfl (SpecialForm.named_routine name v) hb) fun _ => ih
    · exact .routine (.fail _)

/-- A block of bindings is worked on in a frame of its own. -/
theorem block_watched (env : Env) (keyword : String) (mutable : Bool) (target : Value) (body : List Value) :
    Watched can own fun w eval tail => (do
      let scope ← Action.newScope env
      let items ← Action.ofExcept (target.expectList ("`" ++ keyword ++ "` bindings"))
      w.bindings eval scope mutable items
      plainBody eval tail scope body) :=
  .scope env fun scope => .andThen (.routine (.ofExcept _)) fun items =>
    .andThen (bindings_watched hb scope mutable items) fun _ => .routine (plainBody_routine scope body)

/-- A definition is watched before its name is bound. -/
theorem letForm_watched (env : Env) (keyword : String) (mutable : Bool) (args : List Value) :
    Watched can env.frame fun w eval tail => w.letForm eval tail env keyword mutable args := by
  unfold letForm
  split
  · exact .routine (.fail _)
  · rename_i name rest
    split
    · exact .andThen (.routine (.inner _ env rfl)) fun v =>
        (Watched.definition env name mutable rfl (SpecialForm.named_routine name v) hb).returning _
    · exact .routine (.fail _)
  · rename_i name signature body
    refine .andThen (.routine (.ofExcept _)) fun params => ?_
    have hf : Routine Ability.Quiet env.frame fun _ _ =>
        SpecialForm.newLambda (some name) params body env >>= fun f => (pure (.closure f) : Action Value) :=
      (SpecialForm.newLambda_routine _ _ _ _).returning _
    refine ((Watched.definition env name mutable rfl hf hb).returning fun _ => Value.nil).of_eq fun w _ _ => ?_
    have h := congrArg (fun a => w.pass (.binding env.frame name) >>= fun _ => a >>= fun _ => (pure Value.nil : Action Value))
      (SpecialForm.reserve_fill env name mutable params body)
    simpa [define] using h
  · split
    · exact block_watched hb env keyword mutable _ _
    · exact .routine (.fail _)

/-- So is the definition of a macro. -/
theorem macroForm_watched (env : Env) (args : List Value) : Watched can env.frame fun w _ _ => w.macroForm env args := by
  unfold macroForm
  split
  · exact .routine (.fail _)
  · exact .andThen (.routine (.ofExcept _)) fun name => .andThen (.routine (.ofExcept _)) fun params =>
      (Watched.definition env name false rfl ((SpecialForm.newLambda_routine _ _ _ _).returning _) hb).returning _
  · exact .routine (.fail _)

/-- The tags of a type are watched one by one. -/
theorem variants_watched (env : Env) (typeName : Symbol) (declarations : List Value) :
    Watched can env.frame fun w _ _ => w.variants env typeName declarations := by
  induction declarations with
  | nil => exact .routine (.value ())
  | cons declaration declarations ih =>
    exact .andThen (.routine (.ofExcept _)) fun variant =>
      .andThen (.definition env _ false rfl (.value (SpecialForm.tagValue variant)) hb) fun _ => ih

/-- So is a type definition. -/
theorem typeForm_watched (env : Env) (args : List Value) : Watched can env.frame fun w _ _ => w.typeForm env args := by
  unfold typeForm
  split
  · exact .andThen (.routine (.ofExcept _)) fun typeName => (variants_watched hb env typeName _).returning _
  · exact .routine (.fail _)

/-- The use of a module is watched before the names are bound. -/
theorem useForm_watched (env : Env) (args : List Value) : Watched can env.frame fun w _ _ => w.useForm env args := by
  unfold useForm
  split
  · exact .andThen (.routine (.ofExcept _)) fun module => (Watched.sharing module env rfl hb).returning _
  · exact .routine (.fail _)

end Binding

/-- An assignment is watched when its value is known. -/
theorem assignForm_watched (ha : can .assign) (env : Env) (args : List Value) :
    Watched can env.frame fun w eval _ => w.assignForm eval env args := by
  unfold assignForm
  split
  · exact .andThen (.routine (.ofExcept _)) fun name => .andThen (.routine (.inner _ env rfl)) fun v =>
      (Watched.assignment env name v ha).returning _
  · exact .routine (.fail _)

/-- A special form under watch; only `set!` assigns. -/
theorem special_watched (hb : can .bind) (hg : can .generate) (env : Env) (special : SpecialForm) (args : Value)
    (ha : special = .assign → can .assign) :
    Watched can env.frame fun w eval tail => w.special eval tail env special args := by
  have hargs : Watched can env.frame fun _ _ _ => special.arguments args := .routine (SpecialForm.arguments_routine special args)
  cases special with
  | letForm | letMutable => exact .andThen hargs fun args => letForm_watched hb env _ _ args
  | assign => exact .andThen hargs fun args => assignForm_watched (ha rfl) env args
  | defineMacro => exact .andThen hargs fun args => macroForm_watched hb env args
  | typeForm => exact .andThen hargs fun args => typeForm_watched hb env args
  | useForm => exact .andThen hargs fun args => useForm_watched hb env args
  | apply => exact .andThen hargs fun args => applyForm_watched hg env args
  | unquote | unquoteSplicing | varg => exact .routine (.fail _)
  | quote => exact .routine (SpecialForm.arguments_force _ args fun args => SpecialForm.evalQuote_routine args)
  | quasiquote => exact .routine (SpecialForm.arguments_force _ args fun args => SpecialForm.evalQuasiquote_routine env args)
  | ifForm => exact .routine (.andThen (SpecialForm.arguments_routine _ args) fun args => SpecialForm.plainIf_routine env args)
  | begin => exact .routine (.andThen (SpecialForm.arguments_routine _ args) fun args => plainBody_routine env args)
  | lambda => exact .routine (SpecialForm.arguments_force _ args fun args => SpecialForm.evalLambda_routine env args)
  | matchForm =>
    exact .routine (.andThen (SpecialForm.arguments_routine _ args) fun args => SpecialForm.plainMatch_routine env args)
  | moduleForm =>
    exact .routine (SpecialForm.arguments_force _ args fun args => SpecialForm.evalModule_routine Ability.quiet_expand args)
  | dot => exact .routine (SpecialForm.arguments_force _ args fun args => SpecialForm.evalDot_routine env args)

/-- A step of evaluation under watch; only the step of `set!` assigns. -/
theorem step_watched (hb : can .bind) (hg : can .generate) (form : Value) (env : Env)
    (ha : form.isForm "set!" → can .assign) : Watched can env.frame fun w eval tail => w.step eval tail form env := by
  cases form with
  | sym name => exact .routine (resolveSymbol_routine name env)
  | pair head args =>
    cases head with
    | sym name =>
      simp only [step]
      cases hs : SpecialForm.ofSymbol? name with
      | some special =>
        refine special_watched hb hg env special args fun he => ha ?_
        subst he
        rw [SpecialForm.eq_keyword_of_ofSymbol? hs]
        rfl
      | none => exact call_watched hg _ args env
    | _ => exact call_watched hg _ args env
  | vector items => exact .routine ((evalAll_routine env items).returning _)
  | set s => exact .routine ((evalAll_routine env s.elements).returning _)
  | map m => exact .routine ((evalEntries_routine env m.entries).returning _)
  | setForm items => exact .routine ((evalAll_routine env items).returning _)
  | mapForm entries => exact .routine ((evalEntries_routine env entries).returning _)
  | _ => exact .routine (.value _)

end Watch

/-! ## Steps -/

/-- A block of bindings is a routine of any frame. -/
theorem SpecialForm.block_routine (hx : can .expand) (hb : can .bind) (env : Env) (keyword : String) (mutable : Bool)
    (target : Value) (body : List Value) :
    Routine can own fun eval tail => (do
      let scope ← Action.newScope env
      let bindings ← Action.ofExcept (target.expectList ("`" ++ keyword ++ "` bindings"))
      evalBindings eval scope mutable bindings
      plainBody eval tail scope body) :=
  ((Watch.block_watched hb env keyword mutable target body).routine_never hx).of_eq fun _ _ => by
    simp only [Watch.bindings_never]

/-- A step of evaluation is a routine of the frame in which the form is evaluated; only the step of `set!` assigns. -/
theorem plainStep_routine (hx : can .expand) (hb : can .bind) (hg : can .generate) (form : Value) (env : Env)
    (ha : form.isForm "set!" → can .assign) : Routine can env.frame fun eval tail => plainStep eval tail form env :=
  ((Watch.step_watched hb hg form env ha).routine_never hx).of_eq fun eval tail => (Watch.step_never eval tail form env).symm

end MiniLisp
