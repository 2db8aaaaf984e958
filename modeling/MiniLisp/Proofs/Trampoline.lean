import MiniLisp.Proofs.Evaluation.Agreement

/-!
# The trampoline keeps the meaning of a form

Evaluation by steps, under a limit on nesting, gives what the plain evaluator gives without one: the same value or the same error,
with the same names, slots, modules, counters and output. A limit shows only as the error that reports it, and some limit is
large enough.
-/

namespace MiniLisp

variable {excused : Abort → Prop} {α : Type}

/-- An evaluation came to an end, with a value or with an error of the program. -/
def Terminates (r : EStateM.Result Abort Machine α) : Prop := ∀ m, r ≠ .error .outOfFuel m

/-- An evaluation ended because it nested too deep. -/
def ReachesRecursionLimit (r : EStateM.Result Abort Machine α) : Prop :=
  ∃ e m n, r = .error (.error e) m ∧ e.kind = .recursionLimit n

/-- The same value or the same error, and machines in the same world. -/
inductive SameOutcome : EStateM.Result Abort Machine α → EStateM.Result Abort Machine α → Prop where
  | ok (a : α) {m₁ m₂ : Machine} (h : m₁.SameWorld m₂) : SameOutcome (.ok a m₁) (.ok a m₂)
  | error (e : Abort) {m₁ m₂ : Machine} (h : m₁.SameWorld m₂) : SameOutcome (.error e m₁) (.error e m₂)

/-- The machine with another limit on nesting. -/
def Machine.withMaxDepth (m : Machine) (maxDepth : Nat) : Machine := { m with limits := { m.limits with maxDepth } }

/-- The first machine is at this depth under these limits, and both have the same limit on macros. -/
def AtLevel (depth : Nat) (limits : Limits) (d₁ : Nat) (l₁ : Limits) (_ : Nat) (l₂ : Limits) : Prop :=
  d₁ = depth ∧ l₁ = limits ∧ l₁.maxMacroExpansions = l₂.maxMacroExpansions

/-- The error that reports the limit on nesting. -/
def recursionLimitError (limits : Limits) : Abort := .error (.ofKind (.recursionLimit limits.maxDepth))

/-- What matches has the same outcome, where nothing is excused. -/
theorem Matches.sameOutcome {T : Nat → Limits → Nat → Limits → Prop} {r₁ r₂ : EStateM.Result Abort Machine α}
    (h : Matches T excused r₁ r₂) (hn : ∀ e m, r₁ = .error e m → ¬excused e) : SameOutcome r₁ r₂ := by
  cases h with
  | ok a h => exact .ok a h.world
  | error e h => exact .error e h.world
  | excused he m r => exact absurd he (hn _ m rfl)

/-- An evaluation that is nested, as long as the limit allows it, follows one that is not. -/
theorem nested_follows_plain {depth : Nat} {limits : Limits} {a b : Action α}
    (h : Action.Follows (AtLevel (depth + 1) limits) excused a b)
    (hl : limits.maxDepth ≤ depth → excused (recursionLimitError limits)) :
    Action.Follows (AtLevel depth limits) excused (Action.nested a) b := by
  intro m₁ m₂ hm
  obtain ⟨hw, rfl, rfl, hx⟩ := hm
  unfold Action.nested
  split
  · rename_i hle
    exact .excused (hl hle) _ _
  · have hn := h { m₁ with depth := m₁.depth + 1 } m₂
      ⟨⟨hw.heap, hw.global, hw.modules, hw.output, hw.generated, hw.lambdas⟩, rfl, rfl, hx⟩
    generalize a { m₁ with depth := m₁.depth + 1 } = r₁ at hn
    generalize b m₂ = r₂ at hn
    -- Leaving the level brings the depth back, however the evaluation inside ended.
    have hb {m₁' m₂' : Machine} (ha : m₁'.Agree (AtLevel (m₁.depth + 1) m₁.limits) m₂') :
        ({ m₁' with depth := m₁'.depth - 1 } : Machine).Agree (AtLevel m₁.depth m₁.limits) m₂' := by
      obtain ⟨hw', hd', hlim', hx'⟩ := ha
      exact ⟨⟨hw'.heap, hw'.global, hw'.modules, hw'.output, hw'.generated, hw'.lambdas⟩, by simp [hd'], hlim', hx'⟩
    cases hn with
    | ok v ha => exact .ok v (hb ha)
    | error e ha => exact .error e (hb ha)
    | excused he m r => exact .excused he _ _

/-- A run follows the plain evaluator with the same fuel, if the limit is beyond all that the fuel can nest or reaching it is
excused. The induction is on the fuel: an inner form is one level deeper with less fuel, a tail form on the same level. -/
theorem run_follows_plainEval (excused : Abort → Prop) (fuel depth : Nat) (limits : Limits) (form : Value) (env : Env)
    (hl : depth + fuel ≤ limits.maxDepth ∨ excused (recursionLimitError limits)) :
    Action.Follows (AtLevel depth limits) excused (run fuel form env) (plainEval fuel form env) := by
  induction fuel generalizing depth form env with
  | zero => exact .abort .outOfFuel
  | succ fuel ih =>
    have ht : ∀ form env, Action.Follows (AtLevel depth limits) excused (run fuel form env) (plainEval fuel form env) :=
      fun form env => ih depth form env (hl.imp_left (by omega))
    have he : ∀ form env, Action.Follows (AtLevel depth limits) excused (eval fuel form env) (plainEval fuel form env) := by
      intro form env
      rw [eval_eq]
      refine nested_follows_plain (ih (depth + 1) form env (hl.imp_left (by omega))) fun hle => ?_
      exact hl.resolve_left (by omega)
    rw [run_succ]
    exact plainStep_follows (fun h => h.2.2) he ht form env

/-- An evaluation follows the plain evaluator with the same fuel. -/
theorem eval_follows_plainEval (excused : Abort → Prop) (fuel depth : Nat) (limits : Limits) (form : Value) (env : Env)
    (hl : depth + fuel < limits.maxDepth ∨ excused (recursionLimitError limits)) :
    Action.Follows (AtLevel depth limits) excused (eval fuel form env) (plainEval fuel form env) := by
  rw [eval_eq]
  refine nested_follows_plain (run_follows_plainEval excused fuel (depth + 1) limits form env (hl.imp_left (by omega))) fun hle => ?_
  exact hl.resolve_left (by omega)

/-- A machine with the higher limit is on its level, whatever that is. -/
theorem agree_withMaxDepth (m : Machine) (maxDepth : Nat) :
    (m.withMaxDepth maxDepth).Agree (AtLevel m.depth { m.limits with maxDepth }) m :=
  ⟨⟨rfl, rfl, rfl, rfl, rfl, rfl⟩, rfl, rfl, rfl⟩

/-- Once the plain evaluator terminates, more fuel makes no difference to it. -/
theorem plainEval_eq_of_terminates {fuel : Nat} {form : Value} {env : Env} {m : Machine}
    (h : Terminates (plainEval fuel form env m)) (more : Nat) :
    plainEval fuel form env m = plainEval (fuel + more) form env m := by
  refine (plainEval_fuel fuel more form env m m (.refl m)).eq fun e m' he hf => ?_
  exact h m' (hf ▸ he)

/-- Where the plain evaluator terminates, evaluation by steps ends in the same way under every limit on nesting that it does not
reach; and there is a limit beyond which it reaches none. -/
theorem eval_sameOutcome_plainEval (fuel : Nat) (form : Value) (env : Env) (m : Machine)
    (h : Terminates (plainEval fuel form env m)) :
    (∀ more maxDepth, ¬ReachesRecursionLimit (eval (fuel + more) form env (m.withMaxDepth maxDepth)) →
      SameOutcome (eval (fuel + more) form env (m.withMaxDepth maxDepth)) (plainEval fuel form env m)) ∧
    ∃ enough, ∀ maxDepth ≥ enough, ∀ more,
      SameOutcome (eval (fuel + more) form env (m.withMaxDepth maxDepth)) (plainEval fuel form env m) := by
  refine ⟨fun more maxDepth hn => ?_, m.depth + fuel + 1, fun maxDepth hle more => ?_⟩
  · have hm := eval_follows_plainEval (· = recursionLimitError { m.limits with maxDepth }) (fuel + more) m.depth
      { m.limits with maxDepth } form env (.inr rfl) _ m (agree_withMaxDepth m maxDepth)
    rw [plainEval_eq_of_terminates h more]
    refine hm.sameOutcome fun e m' he hf => hn ?_
    exact ⟨_, m', maxDepth, he.trans (by rw [hf]; rfl), rfl⟩
  · have hm := eval_follows_plainEval (fun _ => False) fuel m.depth { m.limits with maxDepth } form env
      (.inl (show m.depth + fuel < maxDepth from hle)) _ m (agree_withMaxDepth m maxDepth)
    have hs := hm.sameOutcome fun _ _ _ hf => hf
    have hf := (eval_fuel fuel more form env _ _ (.refl (m.withMaxDepth maxDepth))).eq ?_
    · rw [← hf]
      exact hs
    · rintro e m' he rfl
      rw [he] at hs
      generalize plainEval fuel form env m = r at hs h
      cases hs
      exact h _ rfl

/-- The call `((lambda (x) (if x x nil)) true)`: the body of the function and the branch of the condition are tail forms. -/
def tailForms : Value :=
  .list [.list [.sym "lambda", .list [.sym "x"], .list [.sym "if", .sym "x", .sym "x", .nil]], .bool true]

/-- On an empty machine the tail forms evaluate in the same way under every limit that is not reached. -/
theorem tailForms_sameOutcome :
    let m : Machine := { heap := { frames := #[{}] }, global := ⟨0, []⟩ }
    Terminates (plainEval 5 tailForms m.global m) ∧
    (∀ more maxDepth, ¬ReachesRecursionLimit (eval (5 + more) tailForms m.global (m.withMaxDepth maxDepth)) →
      SameOutcome (eval (5 + more) tailForms m.global (m.withMaxDepth maxDepth)) (plainEval 5 tailForms m.global m)) ∧
    ∃ enough, ∀ maxDepth ≥ enough, ∀ more,
      SameOutcome (eval (5 + more) tailForms m.global (m.withMaxDepth maxDepth)) (plainEval 5 tailForms m.global m) := by
  intro m
  have h : Terminates (plainEval 5 tailForms m.global m) := by
    intro m' he
    cases he
  exact ⟨h, eval_sameOutcome_plainEval 5 tailForms m.global m h⟩

end MiniLisp
