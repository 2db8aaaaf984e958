import MiniLisp.Proofs.Records.Expansion

/-!
# Evaluation keeps values saturated

Each special form, each call and so each step of evaluation gives saturated values for saturated forms, if the evaluator of the
forms inside it does (`evalStep_yields`). The evaluator itself does so by induction on its fuel (`eval_yields`).
-/

namespace MiniLisp

open Value (Saturated)
open MiniLisp.Action (Yields)

variable {eval : Evaluator}

/-! ## Names and modules -/

/-- The value of a variable, else a module. -/
theorem resolve_yields (name : Symbol) (env : Env) (e : Error) :
    (do
      match ← Action.lookup? env name with
      | some v => return v
      | none =>
        match ← Action.findModule? name with
        | some home => return Value.module name home
        | none => Action.fail e : Action Value).Yields Saturated := by
  refine (Yields.ask (P := fun found => ∀ v, found = some v → v.Saturated) fun m hm v hv => hm.lookup hv).bind fun found hv => ?_
  cases found with
  | some v => exact .value (hv v rfl)
  | none =>
    refine (Yields.ask (P := fun _ => True) fun _ _ => trivial).bind fun home _ => ?_
    cases home with
    | some home => exact .value (.module name home)
    | none => exact .fail e

/-- The declarations of a module keep the heap saturated. -/
theorem evalDeclarations_yields (he : eval.Yields) (home : Env) {declarations : List Value} (h : AllSaturated declarations) :
    (evalDeclarations eval home declarations).Yields fun _ => True := by
  induction declarations with
  | nil => exact .value trivial
  | cons declaration declarations ih =>
    obtain ⟨hd, hds⟩ := allSaturated_cons.1 h
    exact (expand_yields he home hd).bind fun form hform => (he form home hform).bind fun _ _ => ih hds

/-- The registration of a module does not touch the heap. -/
theorem registerModule_yields (name : Symbol) (home : Env) : (registerModule name home).Yields fun _ => True := by
  refine .aside fun m => ?_
  cases hn : m.modules.lookup name with
  | none => rw [Action.after_eq_of_ok (registerModule_of_free home hn)]
  | some other => rw [Action.after_eq_of_error (registerModule_of_taken home hn)]

/-- So a module can be defined. -/
theorem defineModule_yields (he : eval.Yields) (name : Symbol) {declarations : List Value} (h : AllSaturated declarations) :
    (defineModule eval name declarations).Yields fun _ => True := by
  refine (Yields.ask (P := fun _ => True) fun _ _ => trivial).bind fun found _ => ?_
  split
  · exact .fail _
  · exact (Yields.ask (P := fun _ => True) fun _ _ => trivial).bind fun global _ => (Yields.newScope global).bind fun home _ =>
      (evalDeclarations_yields he home h).bind fun _ _ => registerModule_yields name home

/-- The use of a module makes no value. -/
theorem useModule_yields (name : Symbol) (env : Env) : (useModule name env).Yields fun _ => True := by
  refine (Yields.ask (P := fun _ => True) fun _ _ => trivial).bind fun found _ => ?_
  cases found with
  | none => exact .fail _
  | some home => exact .changeHeap fun _ hs => hs.bindAll _ _

/-! ## Special forms -/

namespace SpecialForm

/-- A function of saturated forms has them as its body. -/
theorem newLambda_yields (name : Option Symbol) (params : Params) {body : List Value} (env : Env) (h : AllSaturated body) :
    (newLambda name params body env).Yields fun f => AllSaturated f.body :=
  (Yields.aside fun _ => rfl : Action.newLambdaId.Yields _).returning fun _ _ => h

/-- A saturated value that is given a name is saturated. -/
theorem named_yields (name : Symbol) {v : Value} (h : v.Saturated) : (named name v).Yields Saturated := by
  unfold named
  split
  · exact (newLambda_yields _ _ _ h.of_closure).returning fun _ hf => .closure hf
  · exact .value h

/-- The condition and the branches are saturated forms. -/
theorem evalIf_yields (he : eval.Yields) (env : Env) {args : List Value} (h : AllSaturated args) :
    (evalIf eval env args).Yields Step.Saturated := by
  unfold evalIf
  split
  · rename_i condition consequent
    refine (he condition env (h _ (by simp))).bind fun v _ => ?_
    split
    · exact .value (h consequent (by simp))
    · exact .value Value.Saturated.nil
  · rename_i condition consequent alternative
    refine (he condition env (h _ (by simp))).bind fun v _ => ?_
    split
    · exact .value (h consequent (by simp))
    · exact .value (h alternative (by simp))
  · exact .fail _

/-- What a pattern has bound may be bound in the scope of the clause. -/
theorem clauseScope_yields (env : Env) {bindings : List (Symbol × Value)} (h : BindingsSaturated bindings) :
    (clauseScope env bindings).Yields fun _ => True := by
  cases bindings with
  | nil => exact .value trivial
  | cons b bs => exact (Yields.newScope env).bind fun scope _ => (Yields.defineAll scope h).returning fun _ _ => trivial

/-- The body of a clause sees saturated values alone. -/
theorem evalClauses_yields (he : eval.Yields) (env : Env) {v : Value} (hv : v.Saturated) (count : Nat) {clauses : List Value}
    (h : AllSaturated clauses) : (evalClauses eval env v count clauses).Yields Step.Saturated := by
  induction clauses with
  | nil => exact .fail _
  | cons clause clauses ih =>
    obtain ⟨hclause, hclauses⟩ := allSaturated_cons.1 h
    refine (Yields.ofExcept (hclause.expectList _)).bind fun parts hparts => ?_
    cases parts with
    | nil => exact .fail _
    | cons pattern body =>
      obtain ⟨-, hbody⟩ := allSaturated_cons.1 hparts
      refine (Yields.ask fun m _ => matchPattern_gives m.heap env pattern hv).bind fun found hfound => ?_
      refine (Yields.ofExcept hfound).bind fun bindings hbindings => ?_
      cases bindings with
      | some bindings => exact (clauseScope_yields env (hbindings _ rfl)).bind fun scope _ => evalBody_yields he scope hbody
      | none => exact ih hclauses

/-- So a match of saturated forms leaves a saturated step. -/
theorem evalMatch_yields (he : eval.Yields) (env : Env) {args : List Value} (h : AllSaturated args) :
    (evalMatch eval env args).Yields Step.Saturated := by
  cases args with
  | nil => exact .fail _
  | cons scrutinee clauses =>
    obtain ⟨hs, hclauses⟩ := allSaturated_cons.1 h
    exact (he scrutinee env hs).bind fun v hv => evalClauses_yields he env hv _ hclauses

/-- So does a call with a list of arguments. -/
theorem evalApply_yields (he : eval.Yields) (env : Env) {args : List Value} (h : AllSaturated args) :
    (evalApply eval env args).Yields Step.Saturated := by
  unfold evalApply
  split
  · rename_i function arguments
    refine (he function env (h _ (by simp))).bind fun callee hc => (he arguments env (h _ (by simp))).bind fun list hl => ?_
    split
    · exact applyValue_yields he hc hl.of_vector
    · exact (Yields.ofExcept (hl.expectList _)).bind fun items hitems => applyValue_yields he hc hitems
  · exact .fail _

/-- The bindings of a block keep the heap saturated. -/
theorem evalBindings_yields (he : eval.Yields) (scope : Env) (mutable : Bool) {bindings : List Value}
    (h : AllSaturated bindings) : (evalBindings eval scope mutable bindings).Yields fun _ => True := by
  induction bindings with
  | nil => exact .value trivial
  | cons binding bindings ih =>
    obtain ⟨hb, hbs⟩ := allSaturated_cons.1 h
    unfold evalBindings
    split
    · rename_i name form hl
      exact (he form scope (hb.toList hl form (by simp))).bind fun v hv => (named_yields name hv).bind fun v hv =>
        (Yields.define scope name hv mutable).bind fun _ _ => ih hbs
    · exact .fail _

/-- So does every definition, and a block leaves a saturated step. -/
theorem evalLet_yields (he : eval.Yields) (env : Env) (keyword : String) (mutable : Bool) {args : List Value}
    (h : AllSaturated args) : (evalLet eval env keyword mutable args).Yields Step.Saturated := by
  unfold evalLet
  split
  · exact .fail _
  · rename_i name rest
    split
    · rename_i form
      exact (he form env (h form (by simp))).bind fun v hv => (named_yields name hv).bind fun v hv =>
        (Yields.define env name hv mutable).returning fun _ _ => Value.Saturated.nil
    · exact .fail _
  · rename_i name signature body
    obtain ⟨-, hbody⟩ := allSaturated_cons.1 h
    have hreserve : (Action.reserve env name mutable).Yields fun _ => True :=
      .onHeap fun _ hs => hs.define env.frame name .nil mutable
    exact (Yields.ofExcept (.any _)).bind fun params _ => hreserve.bind fun slot _ =>
      (newLambda_yields _ params env hbody).bind fun f hf =>
        (Yields.fill slot (.closure hf)).returning fun _ _ => Value.Saturated.nil
  · obtain ⟨htarget, hbody⟩ := allSaturated_cons.1 h
    split
    · exact (Yields.newScope env).bind fun scope _ => (Yields.ofExcept (htarget.expectList _)).bind fun bindings hb =>
        (evalBindings_yields he scope mutable hb).bind fun _ _ => evalBody_yields he scope hbody
    · exact .fail _

/-- An assignment puts a saturated value into a slot. -/
theorem evalAssign_yields (he : eval.Yields) (env : Env) {args : List Value} (h : AllSaturated args) :
    (evalAssign eval env args).Yields Step.Saturated := by
  unfold evalAssign
  split
  · rename_i target form
    have hassign {name : Symbol} {v : Value} (hv : v.Saturated) : (Action.assign env name v).Yields fun _ => True :=
      (Yields.ask (P := fun _ => True) fun _ _ => trivial).bind fun _ _ => (Yields.ofExcept (.any _)).bind fun slot _ =>
        .fill slot hv
    exact (Yields.ofExcept (.any _)).bind fun name _ => (he form env (h form (by simp))).bind fun v hv =>
      (hassign hv).returning fun _ _ => Value.Saturated.nil
  · exact .fail _

/-- A function of saturated forms is saturated. -/
theorem evalLambda_yields (env : Env) {args : List Value} (h : AllSaturated args) :
    (evalLambda env args).Yields Step.Saturated := by
  cases args with
  | nil => exact .fail _
  | cons signature body =>
    obtain ⟨-, hbody⟩ := allSaturated_cons.1 h
    exact (Yields.ofExcept (.any _)).bind fun params _ =>
      (newLambda_yields none params env hbody).returning fun f hf => Value.Saturated.closure hf

theorem evalMacro_yields (env : Env) {args : List Value} (h : AllSaturated args) :
    (evalMacro env args).Yields Step.Saturated := by
  unfold evalMacro
  split
  · exact .fail _
  · obtain ⟨-, hbody⟩ := allSaturated_cons.1 h
    exact (Yields.ofExcept (.any _)).bind fun name _ => (Yields.ofExcept (.any _)).bind fun params _ =>
      (newLambda_yields (some name) params env hbody).bind fun f hf =>
        (Yields.define env name (.macroFn hf) false).returning fun _ _ => Value.Saturated.nil
  · exact .fail _

/-- A tag is bound to a constructor, or to the record of a variant without fields. -/
theorem declareVariants_yields (env : Env) (typeName : Symbol) (declarations : List Value) :
    (declareVariants env typeName declarations).Yields fun _ => True := by
  induction declarations with
  | nil => exact .value trivial
  | cons declaration declarations ih =>
    exact (Yields.ofExcept (.any _)).bind fun variant _ =>
      (Yields.define env _ (tagValue_saturated variant) false).bind fun _ _ => ih

/-- The tags of a type are saturated: a tag without fields is a record without values, another one a constructor. -/
theorem evalType_yields (env : Env) (args : List Value) : (evalType env args).Yields Step.Saturated := by
  unfold evalType
  split
  · exact (Yields.ofExcept (.any _)).bind fun typeName _ =>
      (declareVariants_yields env typeName _).returning fun _ _ => Value.Saturated.nil
  · exact .fail _

/-- A module form leaves a saturated step. -/
theorem evalModule_yields (he : eval.Yields) {args : List Value} (h : AllSaturated args) :
    (evalModule eval args).Yields Step.Saturated := by
  cases args with
  | nil => exact .fail _
  | cons target declarations =>
    obtain ⟨-, hdeclarations⟩ := allSaturated_cons.1 h
    exact (Yields.ofExcept (.any _)).bind fun name _ =>
      (defineModule_yields he name hdeclarations).returning fun _ _ => Value.Saturated.nil

theorem evalUse_yields (env : Env) (args : List Value) : (evalUse env args).Yields Step.Saturated := by
  unfold evalUse
  split
  · exact (Yields.ofExcept (.any _)).bind fun name _ => (useModule_yields name env).returning fun _ _ => Value.Saturated.nil
  · exact .fail _

/-- What stands under a key is a part of the value, or a value of the heap. -/
theorem accessField_gives {heap : Heap} (hh : heap.Saturated) {target : Value} (ht : target.Saturated) (key : Value) :
    GivesOnly Saturated (accessField heap target key) := by
  unfold accessField
  split
  · exact .value (.getFromMap ht.of_map _ .nil)
  · refine .bind (.any _) fun field _ => ?_
    split
    · rename_i v hv
      exact .value (hh.lookupLocal hv)
    · exact .failure _
  · refine .bind (.any _) fun field _ => ?_
    split
    · rename_i v hv
      obtain ⟨i, -, hv⟩ := Option.bind_eq_some_iff.1 hv
      exact .value (ht.of_record.2 v (List.mem_of_getElem? hv))
    · exact .failure _
  · obtain ⟨hhead, htail⟩ := Value.saturated_pair.1 ht
    split
    · exact .value hhead
    · exact .value htail
    · exact .failure _
  · split
    · refine .value ?_
      split
      · exact ht.of_vector.getD _ .nil
      · exact .nil
    · exact .failure _
  · exact .failure _

/-- The members of a saturated object are saturated. -/
theorem evalDot_yields (he : eval.Yields) (env : Env) {args : List Value} (h : AllSaturated args) :
    (evalDot eval env args).Yields Step.Saturated := by
  unfold evalDot
  split
  · rename_i target field
    have hfield (owner : Value) (hown : owner.Saturated) : (do
        let key ← eval field env
        return Step.done (← Action.ofExcept (← Action.ask fun m => accessField m.heap owner key))).Yields Step.Saturated :=
      (he field env (h field (by simp))).bind fun key _ =>
        (Yields.ask fun m hm => accessField_gives hm hown key).bind fun _ hfound =>
          (Yields.ofExcept hfound).returning fun _ hv => hv
    split
    · rename_i name
      exact (resolve_yields name env _).bind hfield
    · exact (he target env (h target (by simp))).bind hfield
  · exact .fail _

/-- A saturated datum is quoted as a saturated value. -/
theorem evalQuote_yields {args : List Value} (h : AllSaturated args) : (evalQuote args).Yields Step.Saturated := by
  unfold evalQuote
  split
  · exact .value (h _ (by simp))
  · exact .fail _

/-- So is a saturated template. -/
theorem evalQuasiquote_yields (he : eval.Yields) (env : Env) {args : List Value} (h : AllSaturated args) :
    (evalQuasiquote eval env args).Yields Step.Saturated := by
  unfold evalQuasiquote
  split
  · exact (instantiate_yields he env false 1 (h _ (by simp))).returning fun _ hv => hv
  · exact .fail _

/-- Every special form of saturated forms leaves a saturated step. -/
theorem step_yields (he : eval.Yields) (env : Env) (special : SpecialForm) {args : Value} (h : args.Saturated) :
    (special.step eval env args).Yields Step.Saturated := by
  have hargs : (special.arguments args).Yields AllSaturated := .ofExcept (h.expectList _)
  cases special with
  | unquote | unquoteSplicing | varg => exact .fail _
  | quote => exact hargs.bind fun _ h => evalQuote_yields h
  | quasiquote => exact hargs.bind fun _ h => evalQuasiquote_yields he env h
  | ifForm => exact hargs.bind fun _ h => evalIf_yields he env h
  | begin => exact hargs.bind fun _ h => evalBody_yields he env h
  | letForm | letMutable => exact hargs.bind fun _ h => evalLet_yields he env _ _ h
  | assign => exact hargs.bind fun _ h => evalAssign_yields he env h
  | lambda => exact hargs.bind fun _ h => evalLambda_yields env h
  | defineMacro => exact hargs.bind fun _ h => evalMacro_yields env h
  | matchForm => exact hargs.bind fun _ h => evalMatch_yields he env h
  | typeForm => exact hargs.bind fun _ _ => evalType_yields env _
  | moduleForm => exact hargs.bind fun _ h => evalModule_yields he h
  | useForm => exact hargs.bind fun _ _ => evalUse_yields env _
  | dot => exact hargs.bind fun _ h => evalDot_yields he env h
  | apply => exact hargs.bind fun _ h => evalApply_yields he env h

end SpecialForm

/-! ## Steps and runs -/

theorem evalCall_yields (he : eval.Yields) {head args : Value} (hh : head.Saturated) (ha : args.Saturated) (env : Env) :
    (evalCall eval head args env).Yields Step.Saturated := by
  refine (he head env hh).bind fun callee hc => ?_
  split
  · exact (Yields.ofExcept (ha.expectList _)).bind fun forms hforms =>
      (expandCall_yields he hc.of_macroFn hforms).bind fun expansion hx =>
        (expand_yields he env hx).returning fun _ hform => hform
  · exact (evalAll_yields he env ha.heads).bind fun values hv => applyValue_yields he hc hv

/-- Every step of a saturated form is saturated. -/
theorem evalStep_yields (he : eval.Yields) {form : Value} (h : form.Saturated) (env : Env) :
    (evalStep eval form env).Yields Step.Saturated := by
  cases form with
  | sym name => exact (resolve_yields name env _).returning fun _ hv => hv
  | pair head args =>
    obtain ⟨hh, ha⟩ := Value.saturated_pair.1 h
    cases head with
    | sym name =>
      simp only [evalStep]
      cases SpecialForm.ofSymbol? name with
      | some special => exact special.step_yields he env ha
      | none => exact evalCall_yields he hh ha env
    | _ => exact evalCall_yields he hh ha env
  | vector items => exact (evalAll_yields he env h.of_vector).returning fun _ hitems => Value.Saturated.vector hitems
  | set s => exact (evalAll_yields he env h.of_set).returning fun _ hitems => Value.Saturated.setOf hitems
  | map m => exact (evalEntries_yields he env h.of_map).returning fun _ hentries => Value.Saturated.mapOf hentries
  | setForm items => exact (evalAll_yields he env h.of_setForm).returning fun _ hitems => Value.Saturated.setOf hitems
  | mapForm entries =>
    exact (evalEntries_yields he env h.of_mapForm).returning fun _ hentries => Value.Saturated.mapOf hentries
  | _ => exact .value h

/-- A run gives a saturated value: its inner forms are nested runs with less fuel, and so is its tail form. -/
theorem run_yields (fuel : Nat) : Evaluator.Yields (run fuel) := by
  induction fuel with
  | zero => exact fun form env _ => .abort .outOfFuel
  | succ fuel ih =>
    intro form env h
    have he : Evaluator.Yields (MiniLisp.eval fuel) := by
      intro form env h
      rw [eval_eq]
      exact (ih form env h).nested
    rw [run_succ, ← evalStep_force]
    exact (evalStep_yields he h env).bind fun _ hs => force_yields ih hs

/-- By induction on the fuel: saturated forms have saturated values, and the heap stays saturated. -/
theorem eval_yields (fuel : Nat) : Evaluator.Yields (MiniLisp.eval fuel) := by
  intro form env h
  rw [eval_eq]
  exact (run_yields fuel form env h).nested

end MiniLisp
