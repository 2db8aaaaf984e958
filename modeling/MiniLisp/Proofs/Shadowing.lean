import MiniLisp.Proofs.Expansion.FixedPoint
import MiniLisp.Session

/-!
# Local bindings and macros of the same name

A name can be bound to a macro in the global environment and to something else in a scope inside it. Evaluation looks a name up
where the call stands, so there the local binding counts (`eval_local_call`). But a top-level form is expanded before it is
evaluated, and expansion looks names up in the global environment alone, whatever scope the call will be evaluated in. So a local
binding hides a macro from evaluation and not from expansion (`macro_hidden_from_evaluation_alone`).
-/

namespace MiniLisp

/-- In this machine the name stands for the value in this scope, because a construct of the language bound it: a call of a
function its parameter, a clause its field, a block of bindings its name. The scope may be one further in, and the machine a
later one, as long as the name means the same. -/
inductive LocalScope (s : Symbol) (c : Value) : Machine → Env → Prop where
  | parameter {f : Lambda Value} {args : List Value} {m m' : Machine} {scope : Env}
      (hscope : bindArguments f args m = .ok scope m') (hs : (f.params.bind args).reverse.lookup s = some c) :
      LocalScope s c m' scope
  | field {pattern v : Value} {bindings : List (Symbol × Value)} {m m' : Machine} {env scope : Env}
      (hmatch : matchPattern m.heap env pattern v = .ok (some bindings))
      (hscope : SpecialForm.clauseScope env bindings m = .ok scope m') (hs : bindings.reverse.lookup s = some c) :
      LocalScope s c m' scope
  | block {mutable : Bool} {m m' : Machine} {scope : Env} (hscope : scope.frame < m.heap.frames.size)
      (hs : Action.define scope s c mutable m = .ok () m') : LocalScope s c m' scope
  | within {m m' : Machine} {scope scope' : Env} (h : LocalScope s c m scope)
      (hsame : m'.heap.lookup? scope' s = m.heap.lookup? scope s) : LocalScope s c m' scope'

/-- Of several names bound in a new scope, each has the value that it was given last. -/
theorem lookup?_newScope (h : Heap) (env : Env) {bindings : List (Symbol × Value)} {s : Symbol} {c : Value}
    (hs : bindings.reverse.lookup s = some c) :
    ((h.newChild env).2.defineAll h.frames.size false bindings).lookup? (h.newChild env).1 s = some c := by
  have hlt : (h.newChild env).1.frame < (h.newChild env).2.frames.size := by simp [Heap.newChild]
  exact Heap.lookup?_defineAll (h.newChild env).2 hlt false hs

/-- In a local scope the name has the local value. -/
theorem LocalScope.lookup? {s : Symbol} {c : Value} {m : Machine} {scope : Env} (h : LocalScope s c m scope) :
    m.heap.lookup? scope s = some c := by
  induction h with
  | @parameter f args m m' scope hscope hs =>
    unfold bindArguments at hscope
    split at hscope
    · cases hscope
      exact lookup?_newScope m.heap f.env hs
    · cases hname : f.name with
      | some name =>
        simp only [hname] at hscope
        cases hscope
      | none =>
        simp only [hname] at hscope
        cases hscope
  | @field pattern v bindings m m' env scope hmatch hscope hs =>
    cases bindings with
    | nil => cases hs
    | cons b bs =>
      cases hscope
      exact lookup?_newScope m.heap env hs
  | block hscope hs =>
    cases hs
    exact Heap.lookup?_define_self _ hscope _ _ _
  | within h hsame ih => rw [hsame, ih]

/-! ## Evaluation -/

/-- Call a value with the values of forms, one level deeper. -/
def callWith (fuel : Nat) (c : Value) (forms : List Value) (env : Env) : Action Value :=
  Action.nested do
    let values ← evalAll (eval fuel) env forms
    plainApply (eval fuel) (run fuel) c values

/-- A symbol is evaluated to what it stands for. -/
theorem run_symbol (fuel : Nat) {s : Symbol} {c : Value} {env : Env} {m : Machine} (hs : m.heap.lookup? env s = some c) :
    run (fuel + 1) (.sym s) env m = .ok c m := by
  have hlookup : Action.lookup? env s m = .ok (some c) m := by rw [Action.lookup?, Action.ask, hs]
  rw [run_succ, plainStep, resolveSymbol, Action.bind_of_ok _ hlookup]
  rfl

/-- So it is on a level of its own. -/
theorem eval_symbol (fuel : Nat) {s : Symbol} {c : Value} {env : Env} {m : Machine} (hs : m.heap.lookup? env s = some c)
    (hd : m.depth < m.limits.maxDepth) : eval (fuel + 1) (.sym s) env m = .ok c m := by
  rw [eval_eq]
  exact Action.nested_of_ok hd (run_symbol fuel hs)

/-- A quoted datum is evaluated to itself. -/
theorem eval_quote (fuel : Nat) (datum : Value) (env : Env) {m : Machine} (hd : m.depth < m.limits.maxDepth) :
    eval (fuel + 1) (.wrap "quote" datum) env m = .ok datum m := by
  rw [eval_eq, run_succ]
  exact Action.nested_of_ok hd rfl

/-- A call by a name that stands for something other than a macro calls what it stands for. -/
theorem eval_local_call (fuel : Nat) {s : Symbol} {c : Value} (args : Value) {scope : Env} {m : Machine}
    (hs : isSpecial s = false) (hc : c.asMacro? = none) (hlookup : m.heap.lookup? scope s = some c)
    (hd : m.depth + 1 < m.limits.maxDepth) :
    eval (fuel + 2) (.pair (.sym s) args) scope m = callWith (fuel + 1) c args.heads scope m := by
  have hcall : SpecialForm.ofSymbol? s = none := by simpa [isSpecial] using hs
  have hhead : eval (fuel + 1) (.sym s) scope { m with depth := m.depth + 1 } = .ok c { m with depth := m.depth + 1 } :=
    eval_symbol fuel hlookup hd
  rw [eval_eq, run_succ]
  refine Action.nested_congr ?_
  simp only [plainStep, hcall, plainCall]
  rw [Action.bind_of_ok _ hhead]
  cases c with
  | macroFn f => cases hc
  | _ => rfl

/-! ## Running a top-level form -/

/-- A top-level form is expanded in the global environment, and what it expands to is evaluated. -/
theorem evalForm_apply (fuel : Nat) (form : Value) (m : Machine) :
    Session.evalForm fuel form m =
      (expand (eval fuel) form m.global >>= fun expanded => eval fuel expanded m.global) { m with depth := 0 } := rfl

/-- A list with this symbol at its head calls the macro that the symbol stands for. -/
theorem macroAtHead?_of_lookup {m : Machine} {env : Env} {s : Symbol} {f : Lambda Value} (hs : isSpecial s = false)
    (hf : m.heap.lookup? env s = some (.macroFn f)) (args : Value) : m.macroAtHead? env (.pair (.sym s) args) = some f := by
  simp [Machine.macroAtHead?, hs, hf, Value.asMacro?]

/-- Expand a call of this macro: run it on the forms of the call, go on with what it gives until that calls no macro, and expand
the code inside. -/
def expandMacroCall (eval : Evaluator) (env : Env) (limit : Nat) (deeper : Value → Action Value) (f : Lambda Value)
    (call : Value) : Action Value := do
  let forms ← Action.ofExcept (macroArguments f call)
  let v ← expandCall eval f forms
  let (accepted, _) ← replaceHead eval env (limit + 1) true limit v
  expandChildren deeper accepted

/-- A visit of a macro call expands the call. -/
theorem expandWithin_macroCall (eval : Evaluator) {env : Env} (limit : Nat) (deeper : Value → Action Value) (rank : Nat)
    {call : Value} {f : Lambda Value} {m : Machine} (hf : m.macroAtHead? env call = some f) :
    expandWithin eval env (limit + 1) deeper (rank + 1) call m = expandMacroCall eval env limit deeper f call m := by
  have hask : Action.ask (fun m => m.macroAtHead? env call) m = .ok (some f) m := by rw [Action.ask, hf]
  have hreplace : replaceHead eval env (limit + 1) false (limit + 1) call m = (do
      let forms ← Action.ofExcept (macroArguments f call)
      let v ← expandCall eval f forms
      replaceHead eval env (limit + 1) true limit v) m := by
    rw [replaceHead, Action.bind_of_ok _ hask]
  rw [expandWithin, Action.bind_congr_of_eq _ hreplace, bind_assoc]
  refine congrFun (Action.bind_congr_of_ok fun forms _ _ _ => ?_) m
  rw [bind_assoc]
  refine Action.bind_congr_of_ok fun v _ _ _ => Action.bind_congr_of_ok fun result _ _ hresult => ?_
  obtain ⟨accepted, replaced⟩ := result
  rw [replaced_of_replaceHead hresult]
  rfl

/-- A local binding hides a macro of the same name from evaluation alone. Where a name is bound locally to anything but a macro, a
call by it that is evaluated as it stands calls what the name is bound to there. Where the name is a macro in the global
environment, every visit of such a call in the expansion of a top-level form expands it with that macro, whatever scope the call
stands in. The form that comes to be evaluated has no such call left in a code position, as long as running macros leaves the
macros as they are and gives no bare name. A top-level form that calls no macro is evaluated as it stands. -/
theorem macro_hidden_from_evaluation_alone {s : Symbol} {c : Value} (hs : isSpecial s = false) (hc : c.asMacro? = none) :
    (∀ fuel args scope m, LocalScope s c m scope → m.depth + 1 < m.limits.maxDepth →
      eval (fuel + 2) (.pair (.sym s) args) scope m = callWith (fuel + 1) c args.heads scope m) ∧
    (∀ fuel limit deeper rank args m f, m.heap.lookup? m.global s = some (.macroFn f) →
      expandWithin (eval fuel) m.global (limit + 1) deeper (rank + 1) (.pair (.sym s) args) m =
        expandMacroCall (eval fuel) m.global limit deeper f (.pair (.sym s) args) m) ∧
    (∀ fuel form macros states m expanded m₁, QuietMacros Value.IsSymbol (eval fuel) m.global macros states →
      states { m with depth := 0 } → (∃ f, m.heap.lookup? m.global s = some (.macroFn f)) →
      expand (eval fuel) form m.global { m with depth := 0 } = .ok expanded m₁ →
      Session.evalForm fuel form m = eval fuel expanded m.global m₁ ∧ ∀ args, ¬expanded.InCode (.pair (.sym s) args)) ∧
    (∀ fuel form m, Expanded (m.macroAtHead? m.global) form →
      Session.evalForm fuel form m = eval fuel form m.global { m with depth := 0 }) := by
  refine ⟨fun fuel args scope m hlocal hd => eval_local_call fuel args hs hc hlocal.lookup? hd, ?_, ?_, ?_⟩
  · intro fuel limit deeper rank args m f hf
    exact expandWithin_macroCall (eval fuel) limit deeper rank (macroAtHead?_of_lookup hs hf args)
  · rintro fuel form macros states m expanded m₁ quiet hm ⟨f, hf⟩ hexpand
    refine ⟨?_, ?_⟩
    · rw [evalForm_apply]
      exact Action.bind_of_ok _ hexpand
    · intro args hin
      have decided : DecidedBy Value.IsSymbol macros (calledBySymbol macros) := quiet.sees hm ▸ decidedBy_isSymbol _ m.global
      have hexpanded := (quiet.expandLevel decided _ _ form _ expanded m₁ hm hexpand).2.1
      obtain ⟨hnone, -, -⟩ := hexpanded.of_inCode hin
      -- The list calls the macro in the environment of the expansion, whatever its own scope would be.
      have hsome : ({ m with depth := 0 } : Machine).macroAtHead? m.global (.pair (.sym s) args) = some f :=
        macroAtHead?_of_lookup hs hf args
      rw [← quiet.sees hm] at hnone
      cases hsome.symm.trans hnone
  · intro fuel form m hexpanded
    have hexpanded' : Expanded (({ m with depth := 0 } : Machine).macroAtHead? m.global) form := hexpanded
    rw [evalForm_apply, Action.bind_of_ok _ (expand_of_expanded (eval fuel) hexpanded')]

/-- The function `(lambda (y) false)`. -/
def falseFunction : Lambda Value where
  id := 1
  name := none
  params := { required := ["y"] }
  body := [.bool false]
  env := ⟨0, []⟩

/-- The function `(lambda (m) (m nil))`. -/
def callsParameter : Lambda Value where
  id := 2
  name := none
  params := { required := ["m"] }
  body := [.list [.sym "m", .nil]]
  env := ⟨0, []⟩

/-- The call of the second function with the first, `((lambda (m) (m nil)) (lambda (y) false))`. -/
def parameterCall : Value :=
  .list [.list [.sym "lambda", .list [.sym "m"], .list [.sym "m", .nil]],
    .list [.sym "lambda", .list [.sym "y"], .bool false]]

/-- An outcome is this truth value. -/
def isOutcome (b : Bool) : EStateM.Result Abort Machine Value → Bool
  | .ok (.bool b') _ => b' == b
  | _ => false

theorem eq_of_isOutcome {b : Bool} {r : EStateM.Result Abort Machine Value} (h : isOutcome b r = true) :
    ∃ m', r = .ok (.bool b) m' := by
  unfold isOutcome at h
  split at h
  · rename_i b' m'
    exact ⟨m', by rw [beq_iff_eq.1 h]⟩
  · cases h

/-- With `m` bound to a function as a parameter and to a macro globally, a call by `m` that is evaluated as it stands calls the
function, the expansion runs the macro, and of `parameterCall` as a top-level form a form without calls by `m` is evaluated. -/
theorem macro_hidden_from_evaluation_alone_parameter :
    (∃ scope m₁, bindArguments callsParameter [.closure falseFunction] trueMachine = .ok scope m₁ ∧
      eval 3 (.list [.sym "m", .nil]) scope m₁ = callWith 2 (.closure falseFunction) [.nil] scope m₁) ∧
    expandWithin (eval 5) ⟨0, []⟩ 1000 pure 7 (.list [.sym "m", .nil]) trueMachine =
      expandMacroCall (eval 5) ⟨0, []⟩ 999 pure trueMacro (.list [.sym "m", .nil]) trueMachine ∧
    (∃ expanded m₁, expand (eval 5) parameterCall ⟨0, []⟩ trueMachine = .ok expanded m₁ ∧
      Session.evalForm 5 parameterCall trueMachine = eval 5 expanded ⟨0, []⟩ m₁ ∧
      ∀ args, ¬expanded.InCode (.pair (.sym "m") args)) ∧
    Session.evalForm 5 .nil trueMachine = eval 5 .nil ⟨0, []⟩ trueMachine := by
  obtain ⟨hlocal, hvisit, hglobal, hsame⟩ :=
    macro_hidden_from_evaluation_alone (s := "m") (c := .closure falseFunction) (by decide) rfl
  refine ⟨?_, hvisit 5 999 pure 6 _ trueMachine trueMacro rfl, ?_, ?_⟩
  · obtain ⟨scope, m₁, hscope, hd⟩ : ∃ scope m₁,
        bindArguments callsParameter [.closure falseFunction] trueMachine = .ok scope m₁ ∧
          m₁.depth + 1 < m₁.limits.maxDepth := by
      refine ⟨_, _, rfl, ?_⟩
      decide
    exact ⟨scope, m₁, hscope, hlocal 1 _ scope m₁ (.parameter hscope rfl) hd⟩
  · obtain ⟨m', hrun⟩ : ∃ m', Session.evalForm 5 parameterCall trueMachine = .ok (.bool true) m' :=
      eq_of_isOutcome (by decide +kernel)
    obtain ⟨expanded, m₁, hexpand, -⟩ := Action.bind_eq_ok (evalForm_apply 5 parameterCall trueMachine ▸ hrun)
    have hquiet : QuietMacros Value.IsSymbol (eval 5) ⟨0, []⟩ (trueMachine.macroAtHead? ⟨0, []⟩) OnlyTrueMacro :=
      quiet_trueMacro (by rintro ⟨⟩) 4
    exact ⟨expanded, m₁, hexpand,
      hglobal 5 parameterCall _ _ trueMachine expanded m₁ hquiet onlyTrueMacro_trueMachine ⟨trueMacro, rfl⟩ hexpand⟩
  · exact hsame 5 .nil trueMachine (.intro rfl rfl (by simp [Value.code, Value.holes, Holes.solid]))

/-- Where `m` is the macro that gives true, the form evaluates to false as it stands, by the function that the parameter is bound
to, and running it as a top-level form gives true. -/
theorem parameter_hides_no_macro :
    (∃ m', eval 5 parameterCall ⟨0, []⟩ trueMachine = .ok (.bool false) m') ∧
      ∃ m', Session.evalForm 5 parameterCall trueMachine = .ok (.bool true) m' :=
  ⟨eq_of_isOutcome (by decide +kernel), eq_of_isOutcome (by decide +kernel)⟩

end MiniLisp
