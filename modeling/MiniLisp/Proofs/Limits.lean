import MiniLisp.Proofs.Evaluation.Agreement
import MiniLisp.Proofs.Expansion.FixedPoint
import MiniLisp.Proofs.Trampoline
import MiniLisp.Session

/-!
# Limits show only as the errors that report them

A run that reports no limit would have gone the same way under higher limits. The two runs are compared step by step: they are at
the same depth all the time, so where the lower limits let the first go on, the higher ones let the second go on too. Where the
lower limits stop the first, it ends with an error that no construct of the language catches, and which is therefore the outcome
of its top-level form (`limits_show_only_as_errors`).
-/

namespace MiniLisp

variable {α : Type}

/-- The machine with other limits. -/
def Machine.withLimits (m : Machine) (limits : Limits) : Machine := { m with limits }

/-- The causes that are limits: evaluation nested too deep, one form was replaced too often, or replaced forms lie too deep inside
one another. -/
def ErrorKind.reportsLimit : ErrorKind → Bool
  | .recursionLimit _ => true
  | .macroExpansion _ reason =>
    "no fixed point after ".toList.isPrefixOf reason.toList || "expansion nested deeper than ".toList.isPrefixOf reason.toList
  | _ => false

/-- Whether an action was aborted because of a limit. -/
def Abort.reportsLimit : Abort → Bool
  | .error e => e.kind.reportsLimit
  | .outOfFuel => false

/-- The reasons for which the run under the lower limits may go its own way. -/
def Abort.ReportsLimit (e : Abort) : Prop := e.reportsLimit = true

/-- The complaint about too many replacements reports a limit. -/
theorem reportsLimit_replacements (name : String) (limit : Nat) :
    (Abort.error (expansionError name ("no fixed point after " ++ toString limit ++ " rewrites"))).ReportsLimit := by
  have h : "no fixed point after ".toList.isPrefixOf ("no fixed point after " ++ toString limit ++ " rewrites").toList := by
    rw [List.isPrefixOf_iff_prefix, String.append_assoc, String.toList_append]
    exact List.prefix_append _ _
  exact Bool.or_eq_true_iff.2 (.inl h)

/-- So does the one about replaced forms too deep inside one another. -/
theorem reportsLimit_tooDeep (limit : Nat) (form : Value) : (Abort.error (tooDeep limit form)).ReportsLimit := by
  have h : "expansion nested deeper than ".toList.isPrefixOf
      ("expansion nested deeper than " ++ toString limit ++ " levels").toList := by
    rw [List.isPrefixOf_iff_prefix, String.append_assoc, String.toList_append]
    exact List.prefix_append _ _
  exact Bool.or_eq_true_iff.2 (.inr h)

/-- Both machines are at the same depth, the first under the lower limits and the second under the higher ones. -/
def Raised (low high : Limits) (d₁ : Nat) (l₁ : Limits) (d₂ : Nat) (l₂ : Limits) : Prop :=
  d₁ = d₂ ∧ l₁ = low ∧ l₂ = high

/-- The same machine with higher limits agrees with it. -/
theorem agree_withLimits (m : Machine) (low high : Limits) :
    (m.withLimits low).Agree (Raised low high) (m.withLimits high) :=
  ⟨⟨rfl, rfl, rfl, rfl, rfl, rfl⟩, rfl, rfl, rfl⟩

/-! ## Nesting -/

/-- A level that may be entered under the lower limit may be entered under the higher one. -/
theorem nested_follows_raised {low high : Limits} (hd : low.maxDepth ≤ high.maxDepth) {a b : Action α}
    (h : Action.Follows (Raised low high) Abort.ReportsLimit a b) :
    Action.Follows (Raised low high) Abort.ReportsLimit (Action.nested a) (Action.nested b) := by
  intro m₁ m₂ hm
  obtain ⟨hw, hdepth, hlow, hhigh⟩ := hm
  unfold Action.nested
  by_cases hle : m₁.limits.maxDepth ≤ m₁.depth
  · rw [if_pos hle]
    refine .excused ?_ _ _
    rfl
  · have hle₂ : ¬m₂.limits.maxDepth ≤ m₂.depth := by
      rw [hlow] at hle
      rw [hhigh, ← hdepth]
      omega
    rw [if_neg hle, if_neg hle₂]
    have hin : Machine.Agree (Raised low high) { m₁ with depth := m₁.depth + 1 } { m₂ with depth := m₂.depth + 1 } :=
      ⟨⟨hw.heap, hw.global, hw.modules, hw.output, hw.generated, hw.lambdas⟩, congrArg (· + 1) hdepth, hlow, hhigh⟩
    have hn := h _ _ hin
    generalize a { m₁ with depth := m₁.depth + 1 } = r₁ at hn
    generalize b { m₂ with depth := m₂.depth + 1 } = r₂ at hn
    have hout {m₁' m₂' : Machine} (ha : m₁'.Agree (Raised low high) m₂') :
        Machine.Agree (Raised low high) { m₁' with depth := m₁'.depth - 1 } { m₂' with depth := m₂'.depth - 1 } := by
      obtain ⟨hw', hdepth', hlow', hhigh'⟩ := ha
      exact ⟨⟨hw'.heap, hw'.global, hw'.modules, hw'.output, hw'.generated, hw'.lambdas⟩, congrArg (· - 1) hdepth',
        hlow', hhigh'⟩
    cases hn with
    | ok v ha => exact .ok v (hout ha)
    | error e ha => exact .error e (hout ha)
    | excused he m r => exact .excused he _ _

/-! ## Expansion -/

section Expansion

variable {T : Nat → Limits → Nat → Limits → Prop} {eval₁ eval₂ : Evaluator}

/-- Several visits follow one another if each of them does. -/
theorem visitAll_follows {excused : Abort → Prop} {visit₁ visit₂ : Value → Action Value}
    (hv : ∀ form, Action.Follows T excused (visit₁ form) (visit₂ form)) (forms : List Value) :
    Action.Follows T excused (visitAll visit₁ forms) (visitAll visit₂ forms) := by
  induction forms with
  | nil => exact .value []
  | cons form forms ih => exact (hv form).andThen fun first => ih.andThen fun rest => .value (first :: rest)

/-- Walking over a form follows itself if the visits of the code inside it do. -/
theorem expandChildren_follows {excused : Abort → Prop} {visit₁ visit₂ : Value → Action Value}
    (hv : ∀ form, Action.Follows T excused (visit₁ form) (visit₂ form)) (form : Value) :
    Action.Follows T excused (expandChildren visit₁ form) (expandChildren visit₂ form) := by
  rw [expandChildren_eq, expandChildren_eq]
  exact (visitAll_follows hv form.code).andThen fun code => .value (form.holes.fill code)

/-- A macro that is run follows the same macro with lower limits. -/
theorem expandCall_follows {excused : Abort → Prop}
    (he : ∀ form env, Action.Follows T excused (eval₁ form env) (eval₂ form env)) (f : Lambda Value) (args : List Value) :
    Action.Follows T excused (expandCall eval₁ f args) (expandCall eval₂ f args) := by
  have hr : Routine (fun _ => False) 0 fun eval _ => expandCall eval f args := expandCall_routine f args
  exact hr.follows he he fun hf => hf.elim

variable (he : ∀ form env, Action.Follows T Abort.ReportsLimit (eval₁ form env) (eval₂ form env))

include he

/-- With more replacements left, a form is replaced in the same way, unless there were too few. -/
theorem replaceHead_follows (env : Env) (limit₁ limit₂ : Nat) (replaced : Bool) {remaining₁ remaining₂ : Nat}
    (hr : remaining₁ ≤ remaining₂) (form : Value) :
    Action.Follows T Abort.ReportsLimit (replaceHead eval₁ env limit₁ replaced remaining₁ form)
      (replaceHead eval₂ env limit₂ replaced remaining₂ form) := by
  induction remaining₁ generalizing remaining₂ replaced form with
  | zero =>
    unfold replaceHead
    refine .andThen (.look fun heap global modules => ({ heap, global, modules } : Machine).macroAtHead? env form) ?_
    intro called
    cases called with
    | none => exact .value (form, replaced)
    | some f => exact .giveUp (reportsLimit_replacements (macroName f) limit₁) _
  | succ remaining₁ ih =>
    obtain ⟨remaining, rfl⟩ : ∃ remaining, remaining₂ = remaining + 1 := ⟨remaining₂ - 1, by omega⟩
    unfold replaceHead
    refine .andThen (.look fun heap global modules => ({ heap, global, modules } : Machine).macroAtHead? env form) ?_
    intro called
    cases called with
    | none => exact .value (form, replaced)
    | some f =>
      exact .andThen (.ofExcept _) fun args => (expandCall_follows he f args).andThen fun form =>
        ih true (Nat.le_of_succ_le_succ hr) form

/-- With more replacements allowed, expansion at one level follows the one with less. -/
theorem expandWithin_follows (env : Env) {limit₁ limit₂ : Nat} (hl : limit₁ ≤ limit₂) {deeper₁ deeper₂ : Value → Action Value}
    (hd : ∀ form, Action.Follows T Abort.ReportsLimit (deeper₁ form) (deeper₂ form)) (rank : Nat) (form : Value) :
    Action.Follows T Abort.ReportsLimit (expandWithin eval₁ env limit₁ deeper₁ rank form)
      (expandWithin eval₂ env limit₂ deeper₂ rank form) := by
  induction rank generalizing form with
  | zero => exact .abort .outOfFuel
  | succ rank ih =>
    refine (replaceHead_follows he env limit₁ limit₂ false hl form).andThen ?_
    rintro ⟨form, replaced⟩
    cases replaced with
    | true => exact expandChildren_follows hd form
    | false => exact expandChildren_follows ih form

/-- With more levels allowed as well, expansion follows. -/
theorem expandLevel_follows (env : Env) {limit₁ limit₂ : Nat} (hl : limit₁ ≤ limit₂) {levels₁ levels₂ : Nat}
    (hlevels : levels₁ ≤ levels₂) (form : Value) :
    Action.Follows T Abort.ReportsLimit (expandLevel eval₁ env limit₁ levels₁ form)
      (expandLevel eval₂ env limit₂ levels₂ form) := by
  induction levels₁ generalizing levels₂ form with
  | zero => exact .giveUp (reportsLimit_tooDeep limit₁ form) _
  | succ levels₁ ih =>
    obtain ⟨levels, rfl⟩ : ∃ levels, levels₂ = levels + 1 := ⟨levels₂ - 1, by omega⟩
    exact expandWithin_follows he env hl (ih (Nat.le_of_succ_le_succ hlevels)) form.size form

end Expansion

section Raise

variable {low high : Limits} (hdepth : low.maxDepth ≤ high.maxDepth)
  (hmacros : low.maxMacroExpansions ≤ high.maxMacroExpansions)

include hmacros in
/-- Under a higher limit on macros a form is expanded in the same way, unless the lower one is reported. -/
theorem expand_follows_raised {eval₁ eval₂ : Evaluator}
    (he : ∀ form env, Action.Follows (Raised low high) Abort.ReportsLimit (eval₁ form env) (eval₂ form env)) (form : Value)
    (env : Env) : Action.Follows (Raised low high) Abort.ReportsLimit (expand eval₁ form env) (expand eval₂ form env) := by
  intro m₁ m₂ hm
  obtain ⟨-, hlow, hhigh⟩ := hm.levels
  rw [expand_apply, expand_apply, hlow, hhigh]
  exact expandLevel_follows he env hmacros (Nat.succ_le_succ hmacros) form m₁ m₂ hm

include hdepth hmacros

/-- The run under the higher limits goes the way of the run under the lower ones. The induction is on the fuel, which both spend
alike. -/
theorem run_follows_raised (fuel : Nat) (form : Value) (env : Env) :
    Action.Follows (Raised low high) Abort.ReportsLimit (run fuel form env) (run fuel form env) := by
  induction fuel generalizing form env with
  | zero => exact .abort .outOfFuel
  | succ fuel ih =>
    have he : ∀ form env,
        Action.Follows (Raised low high) Abort.ReportsLimit (eval fuel form env) (eval fuel form env) := by
      intro form env
      rw [eval_eq]
      exact nested_follows_raised hdepth (ih form env)
    rw [run_succ]
    have hr : Routine (fun _ => True) env.frame fun eval tail => plainStep eval tail form env :=
      plainStep_routine trivial trivial trivial form env fun _ => trivial
    exact hr.follows he ih fun _ => expand_follows_raised hmacros he

/-- An evaluation with higher limits follows the one with lower limits. -/
theorem eval_follows_raised (fuel : Nat) (form : Value) (env : Env) :
    Action.Follows (Raised low high) Abort.ReportsLimit (eval fuel form env) (eval fuel form env) := by
  rw [eval_eq]
  exact nested_follows_raised hdepth (run_follows_raised hdepth hmacros fuel form env)

namespace Session

/-- So does the running of a top-level form. -/
theorem evalForm_follows_raised (fuel : Nat) (form : Value) :
    Action.Follows (Raised low high) Abort.ReportsLimit (evalForm fuel form) (evalForm fuel form) := by
  have hreset : Action.Follows (Raised low high) Abort.ReportsLimit resetDepth resetDepth := by
    intro m₁ m₂ hm
    obtain ⟨hw, -, hlow, hhigh⟩ := hm
    exact .ok () ⟨⟨hw.heap, hw.global, hw.modules, hw.output, hw.generated, hw.lambdas⟩, rfl, hlow, hhigh⟩
  have he := eval_follows_raised hdepth hmacros fuel
  exact hreset.andThen fun _ => (Action.Follows.look fun _ global _ => global).andThen fun global =>
    (expand_follows_raised hmacros he form global).andThen fun expanded => he expanded global

omit hdepth hmacros in
/-- Locating an error does not hide that it reports a limit. -/
theorem locating_follows {T : Nat → Limits → Nat → Limits → Prop} (source : Source) (span : Span) {a b : Action α}
    (h : Action.Follows T Abort.ReportsLimit a b) :
    Action.Follows T Abort.ReportsLimit (locating source span a) (locating source span b) := by
  intro m₁ m₂ hm
  have hab := h m₁ m₂ hm
  unfold locating
  generalize a m₁ = r₁ at hab
  generalize b m₂ = r₂ at hab
  cases hab with
  | ok v hm' => exact .ok v hm'
  | error e hm' =>
    cases e with
    | error e => exact .error _ hm'
    | outOfFuel => exact .error _ hm'
  | @excused e he m r =>
    cases e with
    | outOfFuel => cases he
    | error e =>
      refine .excused ?_ m _
      show (e.orLocatedAt source span).kind.reportsLimit = true
      unfold Error.orLocatedAt
      split <;> exact he

/-- Whether an outcome reports a limit. -/
def reportsLimit : Except Abort Value → Bool
  | .ok _ => false
  | .error e => e.reportsLimit

/-- The forms of a source, run one after another under both limits: each has the same outcome, as long as none reports a limit. -/
theorem runEachForm_raised (fuel : Nat) (source : Source) (results : List (Except Error (Value × Span))) {m₁ m₂ : Machine}
    (hm : m₁.Agree (Raised low high) m₂) (hn : ∀ outcome ∈ (runEachForm fuel source m₁ results).1, reportsLimit outcome = false) :
    (runEachForm fuel source m₂ results).1 = (runEachForm fuel source m₁ results).1 ∧
      (runEachForm fuel source m₁ results).2.Agree (Raised low high) (runEachForm fuel source m₂ results).2 := by
  induction results generalizing m₁ m₂ with
  | nil => exact ⟨rfl, hm⟩
  | cons result results ih =>
    cases result with
    | error e =>
      obtain ⟨hsame, hagree⟩ := ih hm fun outcome ho => hn outcome (List.mem_cons_of_mem _ ho)
      refine ⟨?_, hagree⟩
      simp only [runEachForm, hsame]
    | ok read =>
      obtain ⟨form, span⟩ := read
      have hstep := locating_follows source span (evalForm_follows_raised hdepth hmacros fuel form) m₁ m₂ hm
      simp only [runEachForm] at hn ⊢
      generalize locating source span (evalForm fuel form) m₁ = r₁ at hstep hn
      generalize locating source span (evalForm fuel form) m₂ = r₂ at hstep
      cases hstep with
      | ok v hm' =>
        obtain ⟨hsame, hagree⟩ := ih hm' fun outcome ho => hn outcome (List.mem_cons_of_mem _ ho)
        exact ⟨congrArg (List.cons (.ok v)) hsame, hagree⟩
      | error e hm' =>
        obtain ⟨hsame, hagree⟩ := ih hm' fun outcome ho => hn outcome (List.mem_cons_of_mem _ ho)
        exact ⟨congrArg (List.cons (.error e)) hsame, hagree⟩
      | @excused e he m r =>
        have hlimit : e.reportsLimit = false := hn (.error e) List.mem_cons_self
        rw [Abort.ReportsLimit, hlimit] at he
        cases he

/-- The running of several forms with higher limits follows the one with lower limits, up to the first error. -/
theorem runForms_follows_raised (fuel : Nat) (source : Source) (last : Value) (results : List (Except Error (Value × Span))) :
    Action.Follows (Raised low high) Abort.ReportsLimit (runForms fuel source last results)
      (runForms fuel source last results) := by
  induction results generalizing last with
  | nil => exact .value last
  | cons result results ih =>
    cases result with
    | error e => exact .abort (.error e)
    | ok read =>
      exact (locating_follows source read.2 (evalForm_follows_raised hdepth hmacros fuel read.1)).andThen fun v => ih v

end Session

end Raise

namespace Session

/-- Limits show only as the errors that report them. If no form of a source reports a limit, then under any limits that are no
lower each form has the same value or error as before, and the machine ends in the same world: with the same names, slots,
modules, output and counters. So it is for a source that is run up to its first error. -/
theorem limits_show_only_as_errors (fuel : Nat) (source : Source) (m : Machine) {low high : Limits}
    (hdepth : low.maxDepth ≤ high.maxDepth) (hmacros : low.maxMacroExpansions ≤ high.maxMacroExpansions) :
    ((∀ outcome ∈ (runEach fuel source (m.withLimits low)).1, reportsLimit outcome = false) →
      (runEach fuel source (m.withLimits high)).1 = (runEach fuel source (m.withLimits low)).1 ∧
        (runEach fuel source (m.withLimits low)).2.SameWorld (runEach fuel source (m.withLimits high)).2) ∧
    ((∀ e m', runSource fuel source (m.withLimits low) = .error e m' → e.reportsLimit = false) →
      SameOutcome (runSource fuel source (m.withLimits low)) (runSource fuel source (m.withLimits high))) := by
  have hm := agree_withLimits m low high
  refine ⟨fun hn => ?_, fun hn => ?_⟩
  · obtain ⟨hsame, hagree⟩ := runEachForm_raised hdepth hmacros fuel source (Reader.results source) hm hn
    exact ⟨hsame, hagree.world⟩
  · refine (runForms_follows_raised hdepth hmacros fuel source .nil (Reader.results source) _ _ hm).sameOutcome ?_
    intro e m' he hlimit
    rw [Abort.ReportsLimit, hn e m' he] at hlimit
    cases hlimit

/-- Where `m` is the macro that gives true, `(m 1) (m 1 2)` runs to a value and to an error of expansion that reports no limit,
under the least limits that allow it and so under any higher ones. -/
theorem limits_show_only_as_errors_expansion :
    let source : Source := ⟨"calls", "(m 1) (m 1 2)"⟩
    (∀ outcome ∈ (runEach 3 source (trueMachine.withLimits ⟨1, 1⟩)).1, reportsLimit outcome = false) ∧
    ∀ maxDepth ≥ 1, ∀ maxMacroExpansions ≥ 1,
      (runEach 3 source (trueMachine.withLimits ⟨maxDepth, maxMacroExpansions⟩)).1 =
        (runEach 3 source (trueMachine.withLimits ⟨1, 1⟩)).1 := by
  intro source
  have hn : ∀ outcome ∈ (runEach 3 source (trueMachine.withLimits ⟨1, 1⟩)).1, reportsLimit outcome = false := by
    have hall : (runEach 3 source (trueMachine.withLimits ⟨1, 1⟩)).1.all (fun outcome => !reportsLimit outcome) = true := by
      decide +kernel
    simpa using hall
  exact ⟨hn, fun maxDepth hdepth maxMacroExpansions hmacros =>
    ((limits_show_only_as_errors 3 source trueMachine hdepth hmacros).1 hn).1⟩

end Session

end MiniLisp
