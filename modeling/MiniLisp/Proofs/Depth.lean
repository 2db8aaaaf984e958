import MiniLisp.Proofs.Evaluation.Agreement
import MiniLisp.Proofs.Session

/-!
# Nesting is balanced and bounded

However an evaluation ends, the depth is what it was at the beginning. In between it is watched: `watchedEval` is the evaluator
with an alarm that goes off when a loop takes a turn at another depth than its first turn, or beyond the limit. Whatever the
alarm is, no routine gives another outcome under watch, so the alarm never goes off (`depth_kept`).
-/

namespace MiniLisp

variable {α : Type}

/-- Begin an action where the machine passes a check; raise an alarm where it does not. -/
def Action.guarded (check : Machine → Bool) (alarm : Abort) (a : Action α) : Action α := fun m =>
  if check m then a m else .error alarm m

/-- The loop of a run that began at this depth, under watch at each turn. -/
def watchedRun (alarm : Abort) : (fuel start : Nat) → Evaluator
  | 0, _, _, _ => throw .outOfFuel
  | fuel + 1, start, form, env =>
    Action.guarded (fun m => m.depth == start && decide (m.depth ≤ m.limits.maxDepth)) alarm do
      match ← evalStep (fun form env => Action.nested fun m => watchedRun alarm fuel m.depth form env m) form env with
      | .done v => return v
      | .tail form env => watchedRun alarm fuel start form env

/-- Evaluation under watch: every loop begins at the depth that it finds. -/
def watchedEval (alarm : Abort) (fuel : Nat) : Evaluator := fun form env =>
  Action.nested fun m => watchedRun alarm fuel m.depth form env m

/-- What is done with an evaluator leaves the depth as it was, and does the same under watch. -/
structure DepthKept (fuel : Nat) (p : Evaluator → Action α) (m : Machine) : Prop where
  restored : (Action.after (p (eval fuel)) m).depth = m.depth
  unalarmed : ∀ alarm, p (watchedEval alarm fuel) m = p (eval fuel) m

/-- Both machines are at this depth under these limits, and not beyond them. -/
def BothAt (start : Nat) (limits : Limits) (d₁ : Nat) (l₁ : Limits) (d₂ : Nat) (l₂ : Limits) : Prop :=
  d₁ = start ∧ d₂ = start ∧ l₁ = limits ∧ l₂ = limits ∧ start ≤ limits.maxDepth

/-- A check that never fails where the machines agree may be made on one of them. -/
theorem Action.Follows.guarded {T : Nat → Limits → Nat → Limits → Prop} {excused : Abort → Prop} {check : Machine → Bool}
    (alarm : Abort) {a b : Action α} (hc : ∀ {m₁ m₂ : Machine}, m₁.Agree T m₂ → check m₁ = true)
    (h : Action.Follows T excused a b) : Action.Follows T excused (Action.guarded check alarm a) b := by
  intro m₁ m₂ hm
  unfold Action.guarded
  rw [if_pos (hc hm)]
  exact h m₁ m₂ hm

/-- A turn of the watched loop, with the tail form evaluated at once. -/
theorem watchedRun_succ (alarm : Abort) (fuel start : Nat) (form : Value) (env : Env) :
    watchedRun alarm (fuel + 1) start form env =
      Action.guarded (fun m => m.depth == start && decide (m.depth ≤ m.limits.maxDepth)) alarm
        (plainStep (watchedEval alarm fuel) (watchedRun alarm fuel start) form env) := by
  rw [← evalStep_force]
  rfl

/-- Entering a level, the watched loop follows the loop if it does so where it finds itself. -/
theorem watchedLevel_follows {alarm : Abort} {fuel start : Nat} {limits : Limits} {form : Value} {env : Env}
    (h : ∀ start, Action.Follows (BothAt start limits) (fun _ => False) (watchedRun alarm fuel start form env)
      (run fuel form env)) :
    Action.Follows (BothAt start limits) (fun _ => False) (watchedEval alarm fuel form env)
      (Action.nested (run fuel form env)) := by
  have hin : Action.Follows (BothAt (start + 1) limits) (fun _ => False)
      (fun m => watchedRun alarm fuel m.depth form env m) (run fuel form env) := by
    intro m₁ m₂ hm
    have hd : m₁.depth = start + 1 := hm.levels.1
    simp only [hd]
    exact h (start + 1) m₁ m₂ hm
  refine nested_follows (fun hl => ?_) (fun hl hlt => ?_) (fun hl => ?_) hin
  · obtain ⟨rfl, rfl, rfl, rfl, -⟩ := hl
    exact ⟨rfl, rfl⟩
  · obtain ⟨rfl, rfl, rfl, rfl, -⟩ := hl
    exact ⟨rfl, rfl, rfl, rfl, hlt⟩
  · obtain ⟨rfl, rfl, rfl, rfl, hle⟩ := hl
    exact ⟨rfl, rfl, rfl, rfl, Nat.le_of_succ_le hle⟩

/-- The watched loop does what the loop does. The induction is on the fuel: a tail form is the next turn at the same depth, and an
inner form begins a loop one level deeper, where the limit still holds since the level could be entered. -/
theorem watchedRun_follows (alarm : Abort) (fuel start : Nat) (limits : Limits) (form : Value) (env : Env) :
    Action.Follows (BothAt start limits) (fun _ => False) (watchedRun alarm fuel start form env) (run fuel form env) := by
  induction fuel generalizing start form env with
  | zero => exact .abort .outOfFuel
  | succ fuel ih =>
    rw [watchedRun_succ, run_succ]
    refine .guarded alarm (fun hm => ?_) ?_
    · obtain ⟨hd, -, hl, -, hle⟩ := hm.levels
      simp [hd, hl, hle]
    · refine plainStep_follows (fun h => ?_) (fun form env => ?_) (fun form env => ih start form env) form env
      · obtain ⟨-, -, rfl, rfl, -⟩ := h
        rfl
      · rw [eval_eq]
        exact watchedLevel_follows fun start => ih start form env

/-- Outcomes that match at a depth are equal and leave the machine at that depth. -/
theorem Matches.kept {start : Nat} {limits : Limits} {a b : Action α} {m : Machine}
    (h : Matches (BothAt start limits) (fun _ => False) (a m) (b m)) :
    (Action.after b m).depth = start ∧ a m = b m := by
  have heq {m₁ m₂ : Machine} (ha : m₁.Agree (BothAt start limits) m₂) : m₁ = m₂ ∧ m₂.depth = start := by
    obtain ⟨hw, h₁, h₂, hl₁, hl₂, -⟩ := ha
    have hs : m₁.Agree SameLevel m₂ := ⟨hw, h₁.trans h₂.symm, hl₁.trans hl₂.symm⟩
    exact ⟨hs.eq, h₂⟩
  unfold Action.after
  generalize a m = r₁ at h
  generalize b m = r₂ at h
  cases h with
  | ok v ha =>
    obtain ⟨rfl, hd⟩ := heq ha
    exact ⟨hd, rfl⟩
  | error e ha =>
    obtain ⟨rfl, hd⟩ := heq ha
    exact ⟨hd, rfl⟩
  | excused he => exact he.elim

/-- Every routine keeps the depth, whatever evaluates its inner forms and its tail form. -/
theorem Routine.depthKept {can : Ability → Prop} {own : FrameId} {p : Evaluator → Evaluator → Action α}
    (hp : Routine can own p) (fuel : Nat) {m : Machine} (hm : m.depth ≤ m.limits.maxDepth) :
    DepthKept fuel (fun eval => p eval eval) m := by
  have hb : m.Agree (BothAt m.depth m.limits) m :=
    ⟨⟨rfl, rfl, rfl, rfl, rfl, rfl⟩, rfl, rfl, rfl, rfl, hm⟩
  have hfollows : ∀ alarm, Action.Follows (BothAt m.depth m.limits) (fun _ => False)
      (p (watchedEval alarm fuel) (watchedEval alarm fuel)) (p (eval fuel) (eval fuel)) := by
    intro alarm
    have he : ∀ form env, Action.Follows (BothAt m.depth m.limits) (fun _ => False)
        (watchedEval alarm fuel form env) (eval fuel form env) := by
      intro form env
      rw [eval_eq]
      exact watchedLevel_follows fun start => watchedRun_follows alarm fuel start m.limits form env
    refine hp.follows he he fun _ => expand_follows (fun h => ?_) he
    obtain ⟨-, -, rfl, rfl, -⟩ := h
    rfl
  exact ⟨(hfollows .outOfFuel m m hb).kept.1, fun alarm => (hfollows alarm m m hb).kept.2⟩

/-- At the outermost level no routine can begin beyond the limit. -/
theorem Routine.depth_zero {can : Ability → Prop} {own : FrameId} {p : Evaluator → Evaluator → Action α}
    (hp : Routine can own p) (fuel : Nat) {m : Machine} (hm : m.depth = 0) :
    (Action.after (p (eval fuel) (eval fuel)) m).depth = 0 := by
  have hle : m.depth ≤ m.limits.maxDepth := by omega
  rw [(hp.depthKept fuel hle).restored, hm]

/-- To go on with what a step has left is a routine in some frame. -/
theorem force_routine (step : Step) : ∃ own, Routine (fun _ => True) own fun eval _ => force eval step := by
  cases step with
  | done v => exact ⟨0, .value v⟩
  | tail form env => exact ⟨env.frame, .inner form env rfl⟩

/-- A session that begins at depth zero is at depth zero after every operation. -/
theorem Session.keeps_depth_zero (fuel : Nat) : Session.Keeps fuel fun m m' => m.depth = 0 → m'.depth = 0 where
  refl _ h := h
  trans h h' := fun hm => h' (h hm)
  reset _ _ := rfl
  eval form m hm := by
    have hr : Routine (fun _ => True) m.global.frame fun eval _ => eval form m.global := .inner form m.global rfl
    exact hr.depth_zero fuel hm
  expand form m hm := by
    have hr : Routine (fun _ => True) 0 fun eval _ => MiniLisp.expand eval form m.global := .expansion form m.global trivial
    exact hr.depth_zero fuel hm
  call callee args m hm := by
    have hr : Routine (fun _ => True) 0 fun eval tail => plainApply eval tail callee args :=
      plainApply_routine callee args fun _ => trivial
    rw [applyValue_force]
    exact hr.depth_zero fuel hm

/-- From a machine within its limit, evaluation, the forcing of a step, application, calls, expansion, the run of a macro, templates
and the making of modules all leave the depth as it was, however they end, and none of their loops takes a turn at another depth
than its first one or beyond the limit. So a new session is at depth zero after every run of operations. -/
theorem depth_kept (fuel : Nat) (m : Machine) (hm : m.depth ≤ m.limits.maxDepth) :
    (∀ form env, DepthKept fuel (fun eval => eval form env) m) ∧
    (∀ step, DepthKept fuel (fun eval => force eval step) m) ∧
    (∀ callee args, DepthKept fuel (fun eval => applyValue eval callee args) m) ∧
    (∀ callee args, DepthKept fuel (fun eval => applyValue eval callee args >>= force eval) m) ∧
    (∀ form env, DepthKept fuel (fun eval => expand eval form env) m) ∧
    (∀ f args, DepthKept fuel (fun eval => expandCall eval f args) m) ∧
    (∀ env inTail level template, DepthKept fuel (fun eval => instantiate eval env inTail level template) m) ∧
    (∀ name declarations, DepthKept fuel (fun eval => defineModule eval name declarations) m) ∧
    ∀ limits operations, (Session.performAll fuel (Machine.fresh limits) operations).depth = 0 := by
  refine ⟨fun form env => ?_, fun step => ?_, fun callee args => ?_, fun callee args => ?_, fun form env => ?_, fun f args => ?_,
    fun env inTail level template => ?_, fun name declarations => ?_, fun limits operations => ?_⟩
  · have hr : Routine (fun _ => True) env.frame fun eval _ => eval form env := .inner form env rfl
    exact hr.depthKept fuel hm
  · obtain ⟨own, hr⟩ := force_routine step
    exact hr.depthKept fuel hm
  · have hr : Routine (fun _ => True) 0 fun eval _ => applyValue eval callee args :=
      applyValue_routine callee args fun _ => trivial
    exact hr.depthKept fuel hm
  · have hr : Routine (fun _ => True) 0 fun eval tail => plainApply eval tail callee args :=
      plainApply_routine callee args fun _ => trivial
    have hd := hr.depthKept fuel hm
    simp only [← applyValue_force] at hd
    exact hd
  · have hr : Routine (fun _ => True) 0 fun eval _ => expand eval form env := .expansion form env trivial
    exact hr.depthKept fuel hm
  · have hr : Routine (fun _ => True) 0 fun eval _ => expandCall eval f args := expandCall_routine f args
    exact hr.depthKept fuel hm
  · have hr : Routine (fun _ => True) env.frame fun eval _ => instantiate eval env inTail level template :=
      instantiate_routine env inTail level template
    exact hr.depthKept fuel hm
  · have hr : Routine (fun _ => True) 0 fun eval _ => defineModule eval name declarations :=
      defineModule_routine trivial name declarations
    exact hr.depthKept fuel hm
  · exact (Session.keeps_depth_zero fuel).performAll (Machine.fresh limits) operations rfl

/-- One level below its limit, a machine keeps its depth in the evaluation of `(begin nil nil)`, which nests two levels. -/
theorem depth_kept_below_limit :
    let m : Machine := { heap := { frames := #[{}] }, global := ⟨0, []⟩, depth := 3, limits := { maxDepth := 4 } }
    m.depth ≤ m.limits.maxDepth ∧ DepthKept 5 (fun eval => eval (.list [.sym "begin", .nil, .nil]) m.global) m := by
  intro m
  have hm : m.depth ≤ m.limits.maxDepth := by decide
  exact ⟨hm, (depth_kept 5 m hm).1 _ _⟩

end MiniLisp
