import MiniLisp.Proofs.Expansion.Termination
import MiniLisp.Proofs.Shadowing

/-!
# Improper lists in code

Code is made of lists, and a macro may build lists that end in something other than `nil`. Special forms, macro calls and blocks
of bindings ask for a proper list and are refused with an error when they do not get one; since nothing in the language catches
an error, a form that reaches refused code ends with that error (`Action.Reaches.endsWith`).

Two walks over a list do not look at its end. A call of a function takes the heads of its argument list, and the expansion of a
block of bindings rebuilds the block from the heads of its binding list. There the rest is dropped, and the form does what it does
without it (`improper_code_refused`, `improper_code_accepted`).
-/

namespace MiniLisp

variable {α β : Type}

namespace Action

/-- The action ends with this error of the program. -/
def EndsWith (e : Error) (a : Action α) (m : Machine) : Prop := ∃ m', a m = .error (.error e) m'

/-- The action ends with an error of the program. -/
def Errs (a : Action α) (m : Machine) : Prop := ∃ e, a.EndsWith e m

/-- The action has no result. -/
def Fails (a : Action α) (m : Machine) : Prop := ∀ v m', a m ≠ .ok v m'

/-- In the course of an action, `part` is begun from the machine `start`: it is the action itself, or it is reached in a first
part, in what follows a first part that has a result, or one level deeper. -/
inductive Reaches (part : Action β) (start : Machine) : {α : Type} → Action α → Machine → Prop where
  | here : Reaches part start part start
  | first {α γ : Type} {a : Action α} {f : α → Action γ} {m : Machine} (h : Reaches part start a m) :
      Reaches part start (a >>= f) m
  | next {α γ : Type} {a : Action α} {f : α → Action γ} {v : α} {m m₁ : Machine} (ha : a m = .ok v m₁)
      (h : Reaches part start (f v) m₁) : Reaches part start (a >>= f) m
  | level {α : Type} {a : Action α} {m : Machine} (hd : m.depth < m.limits.maxDepth)
      (h : Reaches part start a { m with depth := m.depth + 1 }) : Reaches part start (nested a) m

/-- What ends with an error has no result. -/
theorem Errs.fails {a : Action α} {m : Machine} (h : a.Errs m) : a.Fails m := by
  intro v m' hok
  obtain ⟨e, m₁, herr⟩ := h
  rw [herr] at hok
  cases hok

/-- An action whose first part ends with an error ends with it. -/
theorem Errs.bind {a : Action α} {m : Machine} (h : a.Errs m) (f : α → Action β) : (a >>= f).Errs m := by
  obtain ⟨e, m', ha⟩ := h
  exact ⟨e, m', bind_of_error f ha⟩

/-- An action ends with an error if what follows its first part does. -/
theorem Errs.after {a : Action α} {f : α → Action β} {v : α} {m m' : Machine} (ha : a m = .ok v m') (h : (f v).Errs m') :
    (a >>= f).Errs m := by
  obtain ⟨e, m₁, hf⟩ := h
  exact ⟨e, m₁, (bind_of_ok f ha).trans hf⟩

theorem errs_fail (e : Error) (m : Machine) : (fail e : Action α).Errs m := ⟨e, m, rfl⟩

/-- Where a level is left, an action one level deeper ends with the same error. -/
theorem EndsWith.nested {e : Error} {a : Action α} {m : Machine} (hd : m.depth < m.limits.maxDepth)
    (h : a.EndsWith e { m with depth := m.depth + 1 }) : (nested a).EndsWith e m := by
  obtain ⟨m', ha⟩ := h
  exact ⟨{ m' with depth := m'.depth - 1 }, nested_of_error hd ha⟩

/-- An action one level deeper ends with an error if it does so there; where no level is left, that is the error. -/
theorem Errs.nested {a : Action α} {m : Machine} (h : a.Errs { m with depth := m.depth + 1 }) : (nested a).Errs m := by
  obtain ⟨e, he⟩ := h
  by_cases hd : m.depth < m.limits.maxDepth
  · exact ⟨e, he.nested hd⟩
  · refine ⟨.ofKind (.recursionLimit m.limits.maxDepth), m, ?_⟩
    simp only [Action.nested, Nat.not_lt.1 hd, if_true]

/-- An action that reaches one that ends with an error ends with the same error. -/
theorem Reaches.endsWith {part : Action β} {start m : Machine} {a : Action α} {e : Error} (h : Reaches part start a m)
    (hpart : part.EndsWith e start) : a.EndsWith e m := by
  induction h with
  | here => exact hpart
  | first _ ih =>
    obtain ⟨m', ha⟩ := ih
    exact ⟨m', bind_of_error _ ha⟩
  | next ha _ ih =>
    obtain ⟨m', hf⟩ := ih
    exact ⟨m', (bind_of_ok _ ha).trans hf⟩
  | level hd _ ih => exact ih.nested hd

end Action

/-! ## Code that is refused -/

/-- The evaluation of this code comes upon a list that must be proper and is not: the arguments of a special form, the arguments
of a macro that the head of a call stands for, or the bindings of a block. -/
inductive Refused (fuel : Nat) (env : Env) (m : Machine) : Value → Prop where
  | special {s : Symbol} {special : SpecialForm} {args : Value} (hs : SpecialForm.ofSymbol? s = some special)
      (hargs : args.toList? = none) : Refused fuel env m (.pair (.sym s) args)
  | macroCall {head args : Value} {f : Lambda Value} {m' : Machine} (hhead : head.IsCallee)
      (hvalue : eval fuel head env m = .ok (.macroFn f) m') (hargs : args.toList? = none) :
      Refused fuel env m (.pair head args)
  | block {special : SpecialForm} {target body : Value} (hlet : special = .letForm ∨ special = .letMutable)
      (htarget : target.isSignature = false) (hbindings : target.toList? = none) :
      Refused fuel env m (.pair (.sym special.keyword) (.pair target body))

section Refusal

variable {fuel : Nat} {env : Env} {m : Machine} {head args target : Value}

/-- What is no proper list is refused where one is asked for. -/
theorem errs_expectList {v : Value} (h : v.toList? = none) (purpose : String) (m : Machine) :
    (Action.ofExcept (v.expectList purpose)).Errs m := by
  simp only [Value.expectList, h]
  exact Action.errs_fail _ m

/-- Every special form checks its arguments before anything else, unless it is an error wherever it is evaluated. -/
theorem errs_special (eval : Evaluator) (special : SpecialForm) (hargs : args.toList? = none) :
    (special.step eval env args).Errs m := by
  have harguments : (special.arguments args).Errs m := errs_expectList hargs _ m
  cases special with
  | unquote | unquoteSplicing | varg => exact Action.errs_fail _ m
  | _ => exact harguments.bind _

/-- A block of bindings checks its bindings before it evaluates any of them. -/
theorem errs_evalLet (eval : Evaluator) (keyword : String) (mutable : Bool) (body : List Value)
    (htarget : target.isSignature = false) (hbindings : target.toList? = none) :
    (SpecialForm.evalLet eval env keyword mutable (target :: body)).Errs m := by
  unfold SpecialForm.evalLet
  split
  · rename_i heq
    cases heq
  · rename_i heq
    cases heq
    cases htarget
  · rename_i heq
    cases heq
    cases htarget
  · rename_i heq
    cases heq
    split
    · refine .after (v := (m.heap.newChild env).1) rfl ?_
      exact (errs_expectList hbindings _ _).bind _
    · exact Action.errs_fail _ m

/-- The step of a special form is the rule for its keyword. -/
theorem evalStep_special {s : Symbol} {special : SpecialForm} (hs : SpecialForm.ofSymbol? s = some special) (eval : Evaluator)
    (args : Value) (env : Env) : evalStep eval (.pair (.sym s) args) env = special.step eval env args := by
  simp only [evalStep, hs]

/-- The step of any other list is a call. -/
theorem evalStep_call (hhead : head.IsCallee) (eval : Evaluator) (args : Value) (env : Env) :
    evalStep eval (.pair head args) env = evalCall eval head args env := by
  cases head with
  | sym s => simp only [evalStep, hhead s rfl]
  | _ => rfl

/-- Refused code ends with an error, whatever the environment and the machine. -/
theorem Refused.errs {code : Value} (h : Refused fuel env m code) : (run (fuel + 1) code env).Errs m := by
  rw [run_succ, ← evalStep_force]
  refine Action.Errs.bind ?_ _
  cases h with
  | special hs hargs =>
    rw [evalStep_special hs]
    exact errs_special _ _ hargs
  | @macroCall head args f m' hhead hvalue hargs =>
    rw [evalStep_call hhead]
    exact .after hvalue ((errs_expectList hargs _ m').bind _)
  | @block special target body hlet htarget hbindings =>
    rw [evalStep_special special.ofSymbol?_keyword]
    cases hbody : (Value.pair target body).toList? with
    | none => exact errs_special _ _ hbody
    | some items =>
      obtain rfl : target :: body.heads = items := by
        rw [← Value.heads_pair]
        exact Value.heads_eq_of_toList? hbody
      have harguments (special : SpecialForm) : special.arguments (.pair target body) m = .ok (target :: body.heads) m := by
        rw [special.arguments_of_list hbody]
        rfl
      rcases hlet with rfl | rfl
      · exact .after (harguments _) (errs_evalLet _ _ _ _ htarget hbindings)
      · exact .after (harguments _) (errs_evalLet _ _ _ _ htarget hbindings)

/-- The evaluation of a special form with improper arguments ends with an error, on every level. -/
theorem errs_eval_special {s : Symbol} {special : SpecialForm} (hs : SpecialForm.ofSymbol? s = some special)
    (hargs : args.toList? = none) : (eval (fuel + 1) (.pair (.sym s) args) env).Errs m := by
  rw [eval_eq]
  have hrefused : Refused fuel env { m with depth := m.depth + 1 } (.pair (.sym s) args) := .special hs hargs
  exact hrefused.errs.nested

/-- A macro call whose arguments are no proper list is not expanded, however often the form was replaced before. -/
theorem errs_replaceHead {f : Lambda Value} (hf : m.macroAtHead? env (.pair head args) = some f) (hargs : args.toList? = none)
    (eval : Evaluator) (limit : Nat) (replaced : Bool) (remaining : Nat) :
    (replaceHead eval env limit replaced remaining (.pair head args)).Errs m := by
  have hask : Action.ask (fun m => m.macroAtHead? env (.pair head args)) m = .ok (some f) m := by rw [Action.ask, hf]
  rw [replaceHead]
  refine .after hask ?_
  cases remaining with
  | zero => exact Action.errs_fail _ m
  | succ remaining =>
    refine Action.Errs.bind ?_ _
    simp only [macroArguments, hargs]
    exact Action.errs_fail _ m

end Refusal

/-! ## The end of a list under expansion -/

section Expansion

variable {visit : Value → Action Value} {m m' : Machine} {v args : Value}

/-- An improper list is one that ends in something other than `nil`. -/
theorem Value.toList?_eq_none_iff {v : Value} : v.toList? = none ↔ v.remainder ≠ .nil := by
  unfold Value.toList?
  split
  · rename_i hnil
    simp [hnil]
  · rename_i hne
    simpa using hne

/-- A longer list is improper if its tail is. -/
theorem Value.toList?_pair_eq_none {h t : Value} : (Value.pair h t).toList? = none ↔ t.toList? = none := by
  rw [Value.toList?_eq_none_iff, Value.toList?_eq_none_iff]
  rfl

/-- A quoted list ends in what the list ended in, quoted. -/
theorem Value.remainder_toDatum (v : Value) : v.toDatum.remainder = v.remainder.toDatum := by
  fun_induction Value.remainder v with
  | case1 h t ih =>
    rw [Value.toDatum, Value.remainder]
    exact ih
  | case2 v hv =>
    cases v with
    | pair h t => exact absurd rfl (hv h t)
    | _ => simp [Value.toDatum, Value.remainder]

/-- The shape of an improper special form stays improper, whatever it is filled with. -/
theorem improper_specialHoles_fill (special : SpecialForm) {form : Value} (hform : form.toList? = none) (code : List Value) :
    ((specialHoles special form).fill code).toList? = none := by
  cases special with
  | quote =>
    show form.toDatum.toList? = none
    rw [Value.toList?_eq_none_iff] at hform ⊢
    rw [Value.remainder_toDatum]
    exact fun hnil => hform (eq_of_toDatum_eq_nil hnil)
  | quasiquote =>
    have hnone : form.argumentOf? "quasiquote" = none := by
      cases harg : form.argumentOf? "quasiquote" with
      | none => rfl
      | some arg =>
        rw [Value.eq_wrap_of_argumentOf? harg, Value.wrap, Value.toList?_list] at hform
        cases hform
    simp only [specialHoles, hnone]
    exact hform
  | typeForm | moduleForm | useForm => exact hform
  | letForm | letMutable =>
    simp only [specialHoles, letHoles, hform]
    exact hform
  | matchForm =>
    simp only [specialHoles, matchHoles, hform]
    exact hform
  | _ =>
    rw [Value.toList?_eq_none_iff] at hform ⊢
    intro hnil
    exact hform ((remainder_listHoles_fill _ form code).symm.trans hnil)

/-- A special form calls no macro, so its expansion is the walk over its code. -/
theorem expand_special {s : Symbol} {special : SpecialForm} (hs : SpecialForm.ofSymbol? s = some special) (eval : Evaluator)
    (args : Value) (env : Env) (m : Machine) :
    expand eval (.pair (.sym s) args) env m =
      visitSpecial (expandLevel eval env m.limits.maxMacroExpansions (m.limits.maxMacroExpansions + 1)) special
        (.pair (.sym s) args) m := by
  have hhead : m.macroAtHead? env (.pair (.sym s) args) = none := macroAtHead?_special hs args
  rw [expand_apply, expandLevel_succ, expandForm, Action.bind_of_ok _ (replaceHead_of_none eval _ false _ hhead)]
  simp only [expandChildren, hs, Bool.false_eq_true, if_false]

/-- A special form with improper arguments is still one when it is expanded. -/
theorem improper_of_expand {s : Symbol} {special : SpecialForm} (hs : SpecialForm.ofSymbol? s = some special)
    (hargs : args.toList? = none) {eval : Evaluator} {env : Env} (h : expand eval (.pair (.sym s) args) env m = .ok v m') :
    ∃ args', v = .pair (.sym s) args' ∧ args'.toList? = none := by
  rw [expand_special hs, visitSpecial_eq] at h
  obtain ⟨code, m₁, -, hv⟩ := Action.bind_eq_ok h
  cases hv
  obtain ⟨args', hargs'⟩ := specialHoles_fill_head special s args code
  have hform : (Value.pair (.sym s) args).toList? = none := Value.toList?_pair_eq_none.2 hargs
  have himproper := improper_specialHoles_fill special hform code
  rw [hargs'] at himproper
  exact ⟨args', hargs', Value.toList?_pair_eq_none.1 himproper⟩

/-- The walk over a block takes the bindings from the heads of their list. -/
theorem visitLet_block {keyword target : Value} (htarget : target.isSignature = false) (hlist : target.isList = true)
    (body : List Value) :
    visitLet visit (.list (keyword :: target :: body)) = visitLet visit (.list (keyword :: .list target.heads :: body)) := by
  have htarget' : (Value.list target.heads).isSignature = false := by
    cases target with
    | pair h t =>
      rw [Value.heads_pair, Value.list_cons]
      cases h with
      | sym s => cases htarget
      | _ => rfl
    | _ => rfl
  rw [visitLet_of_not_signature visit (Value.toList?_list _) htarget,
    visitLet_of_not_signature visit (Value.toList?_list _) htarget', Value.heads_list, Value.isList_list, hlist]
  simp

/-- The expansion of a block does not see what the list of its bindings ends in. -/
theorem expand_block {special : SpecialForm} (hlet : special = .letForm ∨ special = .letMutable) {target : Value}
    (htarget : target.isSignature = false) (hlist : target.isList = true) (body : List Value) (eval : Evaluator) (env : Env) :
    expand eval (.list (.sym special.keyword :: target :: body)) env =
      expand eval (.list (.sym special.keyword :: .list target.heads :: body)) env := by
  funext m
  have hspecial := special.ofSymbol?_keyword
  rw [Value.list_cons, expand_special hspecial, ← Value.list_cons, Value.list_cons _ (.list target.heads :: body),
    expand_special hspecial, ← Value.list_cons]
  rcases hlet with rfl | rfl
  · exact congrFun (visitLet_block htarget hlist body) m
  · exact congrFun (visitLet_block htarget hlist body) m

end Expansion

/-! ## Calls -/

/-- A call of anything but a macro does not see what the list of its arguments ends in. -/
theorem run_of_function {fuel : Nat} {head args callee : Value} {env : Env} {m m' : Machine} (hhead : head.IsCallee)
    (hcallee : eval fuel head env m = .ok callee m') (hvalue : callee.asMacro? = none) :
    run (fuel + 1) (.pair head args) env m = run (fuel + 1) (.pair head (.list args.heads)) env m := by
  have hcall : evalCall (eval fuel) head args env m = evalCall (eval fuel) head (.list args.heads) env m := by
    rw [evalCall, evalCall, Action.bind_of_ok _ hcallee, Action.bind_of_ok _ hcallee, Value.heads_list]
    cases callee with
    | macroFn f => cases hvalue
    | _ => rfl
  rw [run_succ, run_succ, ← evalStep_force, ← evalStep_force, evalStep_call hhead, evalStep_call hhead]
  exact Action.bind_congr_of_eq _ hcall

/-- A special form with improper arguments ends with an error as a top-level form, if the fuel lasts for its expansion. -/
theorem errs_evalForm_special {fuel : Nat} {s : Symbol} {special : SpecialForm} {args : Value} {m : Machine}
    (hs : SpecialForm.ofSymbol? s = some special) (hargs : args.toList? = none)
    (hends : ∀ m', expand (eval (fuel + 1)) (.pair (.sym s) args) m.global { m with depth := 0 } ≠ .error .outOfFuel m') :
    (Session.evalForm (fuel + 1) (.pair (.sym s) args)).Errs m := by
  unfold Action.Errs Action.EndsWith
  rw [evalForm_apply]
  cases hexpand : expand (eval (fuel + 1)) (.pair (.sym s) args) m.global { m with depth := 0 } with
  | ok expanded m₁ =>
    obtain ⟨args', rfl, hargs'⟩ := improper_of_expand hs hargs hexpand
    exact Action.Errs.after hexpand (errs_eval_special hs hargs')
  | error abort m₁ =>
    cases abort with
    | error e => exact ⟨e, m₁, Action.bind_of_error _ hexpand⟩
    | outOfFuel => exact absurd hexpand (hends m₁)

/-- A special form with improper arguments has no value as a top-level form, however much fuel there is. -/
theorem fails_evalForm_special {fuel : Nat} {s : Symbol} {special : SpecialForm} {args : Value} {m : Machine}
    (hs : SpecialForm.ofSymbol? s = some special) (hargs : args.toList? = none) :
    (Session.evalForm fuel (.pair (.sym s) args)).Fails m := by
  intro v m' hok
  rw [evalForm_apply] at hok
  obtain ⟨expanded, m₁, hexpand, heval⟩ := Action.bind_eq_ok hok
  obtain ⟨args', rfl, hargs'⟩ := improper_of_expand hs hargs hexpand
  cases fuel with
  | zero =>
    obtain ⟨m₂, hrun, -⟩ := Action.of_nested_eq_ok (eval_eq 0 _ _ ▸ heval)
    cases hrun
  | succ fuel => exact (errs_eval_special hs hargs').fails v m' heval

/-- Improper code is refused by all but two of the walks over it. Where the arguments of a special form or of a macro, or the
bindings of a block, are no proper list, their evaluation ends with an error, and so does the expansion of a macro call. A
top-level form that reaches such a place ends with that error. A special form with improper arguments is such a place itself: it
has no value as a top-level form, and ends with an error if the fuel lasts for its expansion. The other two accept what they
are given: a call of anything but a macro and the expansion of a block of bindings do what they do without the end of the list. -/
theorem improper_code_refused (fuel : Nat) (env : Env) (m : Machine) :
    (∀ code, Refused fuel env m code → ∃ e, (run (fuel + 1) code env).EndsWith e m ∧
      ∀ fuel' form m', Action.Reaches (run (fuel + 1) code env) m (Session.evalForm fuel' form) m' →
        (Session.evalForm fuel' form).EndsWith e m') ∧
    (∀ head args f, m.macroAtHead? env (.pair head args) = some f → args.toList? = none →
      ∀ limit replaced remaining, ∃ e,
        (replaceHead (eval fuel) env limit replaced remaining (.pair head args)).EndsWith e m ∧
          ∀ fuel' form m', Action.Reaches (replaceHead (eval fuel) env limit replaced remaining (.pair head args)) m
            (Session.evalForm fuel' form) m' → (Session.evalForm fuel' form).EndsWith e m') ∧
    (∀ s special args, SpecialForm.ofSymbol? s = some special → args.toList? = none →
      (Session.evalForm fuel (.pair (.sym s) args)).Fails m ∧
        (0 < fuel → (∀ m', expand (eval fuel) (.pair (.sym s) args) m.global { m with depth := 0 } ≠ .error .outOfFuel m') →
          (Session.evalForm fuel (.pair (.sym s) args)).Errs m)) ∧
    (∀ head args callee m', head.IsCallee → eval fuel head env m = .ok callee m' → callee.asMacro? = none →
      run (fuel + 1) (.pair head args) env m = run (fuel + 1) (.pair head (.list args.heads)) env m) ∧
    ∀ (special : SpecialForm) target body, special = .letForm ∨ special = .letMutable → target.isSignature = false →
      target.isList = true →
      Session.evalForm fuel (.list (.sym special.keyword :: target :: body)) m =
        Session.evalForm fuel (.list (.sym special.keyword :: .list target.heads :: body)) m := by
  refine ⟨?_, ?_, ?_, ?_, ?_⟩
  · intro code hrefused
    obtain ⟨e, he⟩ := hrefused.errs
    exact ⟨e, he, fun fuel' form m' hreach => hreach.endsWith he⟩
  · intro head args f hf hargs limit replaced remaining
    obtain ⟨e, he⟩ := errs_replaceHead hf hargs (eval fuel) limit replaced remaining
    exact ⟨e, he, fun fuel' form m' hreach => hreach.endsWith he⟩
  · intro s special args hs hargs
    refine ⟨fails_evalForm_special hs hargs, ?_⟩
    intro hpos hends
    obtain ⟨fuel, rfl⟩ := Nat.exists_eq_succ_of_ne_zero (Nat.ne_of_gt hpos)
    exact errs_evalForm_special hs hargs hends
  · intro head args callee m' hhead hcallee hvalue
    exact run_of_function hhead hcallee hvalue
  · intro special target body hlet htarget hlist
    rw [evalForm_apply, evalForm_apply, expand_block hlet htarget hlist]

/-- The form `(if . true)`. -/
def improperCondition : Value := .pair (.sym "if") (.bool true)

theorem expanded_if : Expanded (trueMachine.macroAtHead? ⟨0, []⟩) improperCondition :=
  .intro (macroAtHead?_special rfl _) rfl fun _ hg => (List.not_mem_nil hg).elim

theorem expanded_improperCondition : Expanded (trueMachine.macroAtHead? ⟨0, []⟩) (.list [.sym "begin", improperCondition]) := by
  refine .intro (macroAtHead?_special rfl _) rfl fun g hg => ?_
  have hcode : g = improperCondition := List.mem_singleton.1 hg
  subst hcode
  exact expanded_if

/-- Where `m` is a macro, `(begin (if . true))` and `(m . true)` end with an error, since the one reaches the arguments of `if`
and the other those of the macro. The call of a function and the block `(let ((x true) . true) x)` do what they do without the end
of the list. -/
theorem improper_code_refused_or_cut :
    (Session.evalForm 5 (.list [.sym "begin", improperCondition])).Errs trueMachine ∧
    (Session.evalForm 5 (.pair (.sym "m") (.bool true))).Errs trueMachine ∧
    (Session.evalForm 5 improperCondition).Errs trueMachine ∧
    run 6 (.pair (.native .not) (.pair (.bool true) (.bool true))) ⟨0, []⟩ trueMachine =
      run 6 (.list [.native .not, .bool true]) ⟨0, []⟩ trueMachine ∧
    Session.evalForm 5 (.list [.sym "let", .pair (.list [.sym "x", .bool true]) (.bool true), .sym "x"]) trueMachine =
      Session.evalForm 5 (.list [.sym "let", .list [.list [.sym "x", .bool true]], .sym "x"]) trueMachine := by
  obtain ⟨-, hexpansion, hspecial, hcall, hblock⟩ := improper_code_refused 5 ⟨0, []⟩ trueMachine
  refine ⟨?_, ?_, ?_, ?_, ?_⟩
  · have hrefused : Refused 3 ⟨0, []⟩ { trueMachine with depth := 1 } improperCondition := .special rfl rfl
    obtain ⟨hevaluation, -⟩ := improper_code_refused 3 ⟨0, []⟩ { trueMachine with depth := 1 }
    obtain ⟨e, -, hreached⟩ := hevaluation _ hrefused
    refine ⟨e, hreached 5 _ _ (.next rfl (.next rfl (.next (expand_of_expanded (eval 5) expanded_improperCondition) ?_)))⟩
    rw [eval_eq]
    refine .level (by decide) ?_
    rw [run_succ]
    exact .next rfl .here
  · obtain ⟨e, -, hreached⟩ := hexpansion (.sym "m") (.bool true) trueMacro rfl rfl
      trueMachine.limits.maxMacroExpansions false trueMachine.limits.maxMacroExpansions
    refine ⟨e, hreached 5 _ _ (.next rfl (.next rfl (.first (.next rfl ?_))))⟩
    rw [expandLevel_succ]
    exact .first .here
  · obtain ⟨-, herrs⟩ := hspecial "if" _ (.bool true) rfl rfl
    refine herrs (by decide) fun m' hfuel => ?_
    have hexpand := expand_of_expanded (eval 5) expanded_if
    cases hexpand.symm.trans hfuel
  · exact hcall _ _ (.native .not) trueMachine (fun s hs => by cases hs) rfl rfl
  · exact hblock .letForm _ _ (.inl rfl) rfl rfl

/-- Where the end of a list is not looked at, a macro may put anything there. -/
theorem improper_code_accepted :
    let call : String := "(macro (m) (cons 'not (cons true true))) (m)"
    let block : String := "(macro (m) (list 'let (cons '(x true) true) 'x)) (m)"
    (∃ m', Session.evalForm 5 (.pair (.sym "not") (.pair (.bool true) (.bool true))) (Machine.fresh {}) =
      .ok (.bool false) m') ∧
    (∃ m', Session.runSource 9 ⟨"input", call⟩ (Machine.fresh {}) = .ok (.bool false) m') ∧
    ∃ m', Session.runSource 9 ⟨"input", block⟩ (Machine.fresh {}) = .ok (.bool true) m' := by
  refine ⟨eq_of_isOutcome ?_, eq_of_isOutcome ?_, eq_of_isOutcome ?_⟩
  all_goals decide +kernel

end MiniLisp
