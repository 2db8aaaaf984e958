import MiniLisp.Expand.Basic
import MiniLisp.Proofs.Evaluation.Routine

/-!
# Expansion is a routine

Expansion visits the code inside a form and runs macros. If the visits are routines, so is the walk over a form; and a macro is
run in a scope of its own. So expansion with a given limit is a routine of any frame whatever (`expandLevel_routine`): it needs
no ability and binds no name in a frame that was there before.
-/

namespace MiniLisp

variable {can : Ability → Prop} {own : FrameId}

section Visit

variable {visit : Value → Evaluator → Evaluator → Action Value}

mutual

/-- A walk over a template is a routine if the visits are. -/
theorem visitTemplate_routine (hv : ∀ form, Routine can own (visit form)) (inTail : Bool) (level : Nat)
    (template : Value) :
    Routine can own fun eval tail => visitTemplate (fun form => visit form eval tail) inTail level template := by
  unfold visitTemplate
  split
  · rename_i s arg
    split
    · exact (visitTemplate_routine hv true level (.pair arg .nil)).returning _
    · split
      · split
        · exact (hv arg).returning _
        · exact (visitTemplate_routine hv false (level - 1) arg).returning _
      · split
        · exact (visitTemplate_routine hv false (level + 1) arg).returning _
        · exact (visitTemplate_routine hv true level (.pair arg .nil)).returning _
  · rename_i h t _
    exact .andThen (visitTemplate_routine hv false level h) fun head => (visitTemplate_routine hv true level t).returning _
  · rename_i xs
    exact (visitTemplates_routine hv level xs).returning _
  · rename_i xs
    exact (visitTemplates_routine hv level xs).returning _
  · rename_i es
    exact (visitTemplateEntries_routine hv level es).returning _
  · exact .value _
termination_by sizeOf template

/-- So is a walk over the items of a template. -/
theorem visitTemplates_routine (hv : ∀ form, Routine can own (visit form)) (level : Nat) (templates : List Value) :
    Routine can own fun eval tail => visitTemplates (fun form => visit form eval tail) level templates := by
  cases templates with
  | nil => exact .value []
  | cons x xs =>
    unfold visitTemplates
    exact .andThen (visitTemplate_routine hv false level x) fun first => (visitTemplates_routine hv level xs).returning _
termination_by sizeOf templates

/-- So is one over its entries. -/
theorem visitTemplateEntries_routine (hv : ∀ form, Routine can own (visit form)) (level : Nat)
    (templates : List (Value × Value)) :
    Routine can own fun eval tail => visitTemplateEntries (fun form => visit form eval tail) level templates := by
  cases templates with
  | nil => exact .value []
  | cons e es =>
    obtain ⟨k, v⟩ := e
    unfold visitTemplateEntries
    exact .andThen (visitTemplate_routine hv false level k) fun key =>
      .andThen (visitTemplate_routine hv false level v) fun value =>
        (visitTemplateEntries_routine hv level es).returning _
termination_by sizeOf templates

end

/-- Visits one after another are a routine. -/
theorem visitAll_routine (hv : ∀ form, Routine can own (visit form)) (forms : List Value) :
    Routine can own fun eval tail => visitAll (fun form => visit form eval tail) forms := by
  induction forms with
  | nil => exact .value []
  | cons form forms ih => exact .andThen (hv form) fun first => ih.returning _

/-- So are visits of keys and values. -/
theorem visitEntries_routine (hv : ∀ form, Routine can own (visit form)) (entries : List (Value × Value)) :
    Routine can own fun eval tail => visitEntries (fun form => visit form eval tail) entries := by
  induction entries with
  | nil => exact .value []
  | cons entry entries ih => exact .andThen (hv entry.1) fun key => .andThen (hv entry.2) fun value => ih.returning _

/-- A walk over a list is a routine. -/
theorem visitList_routine (hv : ∀ form, Routine can own (visit form)) (keep : Nat) (list : Value) :
    Routine can own fun eval tail => visitList (fun form => visit form eval tail) keep list := by
  fun_induction Value.remainder list generalizing keep with
  | case1 h t ih =>
    cases keep with
    | zero => exact .andThen (hv h) fun head => (ih 0).returning _
    | succ keep => exact (ih keep).returning _
  | case2 v hp =>
    exact (Routine.value v).of_eq fun _ _ =>
      visitList.eq_3 _ keep v (fun h t _ hv => hp h t hv) fun _ h t _ hv => hp h t hv

/-- A walk over a binding is a routine. -/
theorem visitBinding_routine (hv : ∀ form, Routine can own (visit form)) (binding : Value) :
    Routine can own fun eval tail => visitBinding (fun form => visit form eval tail) binding := by
  unfold visitBinding
  split
  · exact (hv _).returning _
  · exact .value _

/-- So is one over a `let`, whatever it binds. -/
theorem visitLet_routine (hv : ∀ form, Routine can own (visit form)) (form : Value) :
    Routine can own fun eval tail => visitLet (fun form => visit form eval tail) form := by
  unfold visitLet
  split
  · split
    · exact visitList_routine hv 2 form
    · exact visitList_routine hv 2 form
    · split
      · exact .andThen (visitAll_routine (visitBinding_routine hv) _) fun bindings => (visitAll_routine hv _).returning _
      · exact .value _
  · exact .value _

/-- A walk over a clause is a routine. -/
theorem visitClause_routine (hv : ∀ form, Routine can own (visit form)) (clause : Value) :
    Routine can own fun eval tail => visitClause (fun form => visit form eval tail) clause := by
  unfold visitClause
  split
  · exact (visitAll_routine hv _).returning _
  · exact .value _

/-- So is one over a match. -/
theorem visitMatch_routine (hv : ∀ form, Routine can own (visit form)) (form : Value) :
    Routine can own fun eval tail => visitMatch (fun form => visit form eval tail) form := by
  unfold visitMatch
  split
  · exact .andThen (hv _) fun first => (visitAll_routine (visitClause_routine hv) _).returning _
  · exact .value _

/-- So is the walk over every special form. -/
theorem visitSpecial_routine (hv : ∀ form, Routine can own (visit form)) (special : SpecialForm) (form : Value) :
    Routine can own fun eval tail => visitSpecial (fun form => visit form eval tail) special form := by
  cases special with
  | quote | typeForm | moduleForm | useForm => exact .value _
  | quasiquote =>
    unfold visitSpecial
    simp only
    split
    · exact (visitTemplate_routine hv false 1 _).returning _
    · exact .value _
  | lambda | defineMacro => exact visitList_routine hv 2 form
  | letForm | letMutable => exact visitLet_routine hv form
  | matchForm => exact visitMatch_routine hv form
  | _ => exact visitList_routine hv 1 form

/-- The walk over the code of a form is a routine if the visits are. -/
theorem expandChildren_routine (hv : ∀ form, Routine can own (visit form)) (form : Value) :
    Routine can own fun eval tail => expandChildren (fun form => visit form eval tail) form := by
  unfold expandChildren
  split
  · split
    · exact visitSpecial_routine hv _ _
    · exact visitList_routine hv 0 _
  · exact visitList_routine hv 0 _
  · exact (visitAll_routine hv _).returning _
  · exact (visitAll_routine hv _).returning _
  · exact (visitEntries_routine hv _).returning _
  · exact .value _

end Visit

/-- The replacing of macro calls runs macros, each in a frame of its own. -/
theorem replaceHead_routine (env : Env) (limit : Nat) (replaced : Bool) (remaining : Nat) (form : Value) :
    Routine can own fun eval _ => replaceHead eval env limit replaced remaining form := by
  induction remaining generalizing replaced form with
  | zero =>
    unfold replaceHead
    refine .andThen (.look fun heap global modules => ({ heap, global, modules } : Machine).macroAtHead? env form) ?_
    intro called
    cases called with
    | none => exact .value _
    | some f => exact .fail _
  | succ remaining ih =>
    unfold replaceHead
    refine .andThen (.look fun heap global modules => ({ heap, global, modules } : Machine).macroAtHead? env form) ?_
    intro called
    cases called with
    | none => exact .value _
    | some f => exact .andThen (.ofExcept _) fun args => .andThen (expandCall_routine f args) fun form => ih true form

/-- Expansion at one level is a routine if expansion one level further in is. -/
theorem expandWithin_routine (env : Env) (limit : Nat) {deeper : Value → Evaluator → Evaluator → Action Value}
    (hd : ∀ form, Routine can own (deeper form)) (rank : Nat) (form : Value) :
    Routine can own fun eval tail => expandWithin eval env limit (fun form => deeper form eval tail) rank form := by
  induction rank generalizing form with
  | zero => exact .abort _
  | succ rank ih =>
    refine .andThen (replaceHead_routine env limit false limit form) ?_
    rintro ⟨form, replaced⟩
    cases replaced with
    | true => exact expandChildren_routine hd form
    | false => exact expandChildren_routine ih form

/-- Expansion with a given limit is a routine of any frame. -/
theorem expandLevel_routine (env : Env) (limit levels : Nat) (form : Value) :
    Routine can own fun eval _ => expandLevel eval env limit levels form := by
  induction levels generalizing form with
  | zero => exact .fail _
  | succ levels ih => exact expandWithin_routine env limit ih form.size form

/-- The limit on macros is read once, when an expansion starts. -/
theorem expand_apply (eval : Evaluator) (form : Value) (env : Env) (m : Machine) :
    expand eval form env m =
      expandLevel eval env m.limits.maxMacroExpansions (m.limits.maxMacroExpansions + 1) form m := rfl

end MiniLisp
