import MiniLisp.Proofs.Evaluation.Step

/-!
# Agreement: routines over two evaluators

Two machines are in the same world when they differ in their depth and their limits at most. An action follows another when, from
machines in the same world, it ends in the same way with machines in the same world again; or it is aborted for a reason that
was excused beforehand, such as a limit or the want of fuel. A routine looks neither at the depth nor at the limits, so over
evaluators that follow each other it follows itself (`Routine.follows`).

More fuel changes nothing but the want of it: `run_fuel` and `plainEval_fuel`.
-/

namespace MiniLisp

/-- The machines have the same names, slots, modules, output and counters. -/
structure Machine.SameWorld (m₁ m₂ : Machine) : Prop where
  heap : m₁.heap = m₂.heap
  global : m₁.global = m₂.global
  modules : m₁.modules = m₂.modules
  output : m₁.output = m₂.output
  generated : m₁.generated = m₂.generated
  lambdas : m₁.lambdas = m₂.lambdas

/-- The machines are in the same world, and their depths and limits are related. -/
structure Machine.Agree (T : Nat → Limits → Nat → Limits → Prop) (m₁ m₂ : Machine) : Prop where
  world : m₁.SameWorld m₂
  levels : T m₁.depth m₁.limits m₂.depth m₂.limits

/-- Two outcomes are the same and leave machines that agree, or the first is an abort that is excused. -/
inductive Matches (T : Nat → Limits → Nat → Limits → Prop) (excused : Abort → Prop) {α : Type} :
    EStateM.Result Abort Machine α → EStateM.Result Abort Machine α → Prop where
  | ok (a : α) {m₁ m₂ : Machine} (h : m₁.Agree T m₂) : Matches T excused (.ok a m₁) (.ok a m₂)
  | error (e : Abort) {m₁ m₂ : Machine} (h : m₁.Agree T m₂) : Matches T excused (.error e m₁) (.error e m₂)
  | excused {e : Abort} (he : excused e) (m : Machine) (r : EStateM.Result Abort Machine α) :
      Matches T excused (.error e m) r

/-- From machines that agree, the first action does what the second does, unless it is excused. -/
def Action.Follows (T : Nat → Limits → Nat → Limits → Prop) (excused : Abort → Prop) {α : Type} (a b : Action α) : Prop :=
  ∀ m₁ m₂ : Machine, m₁.Agree T m₂ → Matches T excused (a m₁) (b m₂)

variable {T : Nat → Limits → Nat → Limits → Prop} {excused : Abort → Prop} {α β : Type}

namespace Action.Follows

theorem value (a : α) : Follows T excused (pure a) (pure a) := fun _ _ h => .ok a h

theorem abort (e : Abort) : Follows T excused (throw e : Action α) (throw e) := fun _ _ h => .error e h

/-- An action that is aborted for an excused reason follows any other. -/
theorem giveUp {e : Abort} (he : excused e) (b : Action α) : Follows T excused (throw e) b :=
  fun m₁ _ _ => .excused he m₁ _

/-- What follows the first part of an action is only done if the first part had a result. -/
theorem andThen {a b : Action α} {f g : α → Action β} (hab : Follows T excused a b)
    (hfg : ∀ v, Follows T excused (f v) (g v)) : Follows T excused (a >>= f) (b >>= g) := by
  intro m₁ m₂ h
  have hm := hab m₁ m₂ h
  show Matches T excused (EStateM.bind a f m₁) (EStateM.bind b g m₂)
  unfold EStateM.bind
  generalize a m₁ = r₁ at hm
  generalize b m₂ = r₂ at hm
  cases hm with
  | ok v h' => exact hfg v _ _ h'
  | error e h' => exact .error e h'
  | excused he m r => exact .excused he m _

/-- A look at the world. -/
theorem look (f : Heap → Env → List (Symbol × Env) → α) :
    Follows T excused (Action.ask fun m => f m.heap m.global m.modules) (Action.ask fun m => f m.heap m.global m.modules) := by
  intro m₁ m₂ h
  simp only [Action.ask, h.world.heap, h.world.global, h.world.modules]
  exact .ok _ h

/-- A check does not look at the machine. -/
theorem ofExcept (r : Except Error α) : Follows T excused (Action.ofExcept r) (Action.ofExcept r) := by
  cases r with
  | ok a => exact value a
  | error e => exact abort (.error e)

/-- Machines that agree have the same heap, so a function of the heap does the same on both. -/
theorem onHeap (f : Heap → α × Heap) : Follows T excused (Action.onHeap f) (Action.onHeap f) := by
  intro m₁ m₂ h
  have hw := h.world
  unfold Action.onHeap
  rw [hw.heap]
  exact .ok _ ⟨⟨rfl, hw.global, hw.modules, hw.output, hw.generated, hw.lambdas⟩, h.levels⟩

/-- The same of a change of the heap. -/
theorem changeHeap (f : Heap → Heap) : Follows T excused (Action.changeHeap f) (Action.changeHeap f) :=
  onHeap fun heap => ((), f heap)

/-- Machines that agree have counted the same functions. -/
theorem lambdaId : Follows T excused Action.newLambdaId Action.newLambdaId := by
  intro m₁ m₂ h
  have hw := h.world
  unfold Action.newLambdaId
  rw [hw.lambdas]
  exact .ok _ ⟨⟨hw.heap, hw.global, hw.modules, hw.output, hw.generated, rfl⟩, h.levels⟩

/-- They have counted the same generated symbols. -/
theorem symbol (beginning : String) :
    Follows T excused (Action.generateSymbol beginning) (Action.generateSymbol beginning) := by
  intro m₁ m₂ h
  have hw := h.world
  unfold Action.generateSymbol
  rw [hw.generated]
  exact .ok _ ⟨⟨hw.heap, hw.global, hw.modules, hw.output, rfl, hw.lambdas⟩, h.levels⟩

/-- They have printed the same text. -/
theorem output (text : String) : Follows T excused (Action.emit text) (Action.emit text) := by
  intro m₁ m₂ h
  have hw := h.world
  unfold Action.emit
  exact .ok _ ⟨⟨hw.heap, hw.global, hw.modules, by rw [hw.output], hw.generated, hw.lambdas⟩, h.levels⟩

/-- An assignment is refused on both or made on both. -/
theorem assignment (env : Env) (name : Symbol) (v : Value) :
    Follows T excused (Action.assign env name v) (Action.assign env name v) :=
  andThen (look fun heap _ _ => heap.assignable env name) fun found =>
    andThen (ofExcept found) fun slot => changeHeap (·.fill slot v)

/-- The module of a name is found on both or on neither. -/
theorem sharing (name : Symbol) (env : Env) : Follows T excused (useModule name env) (useModule name env) := by
  refine andThen (look fun _ _ modules => modules.lookup name) fun found => ?_
  cases found with
  | none => exact abort _
  | some home => exact changeHeap _

/-- A frame is registered on both, or its name is taken on both. -/
theorem registration (name : Symbol) (home : Env) :
    Follows T excused (registerModule name home) (registerModule name home) := by
  refine andThen (look fun _ _ modules => modules.lookup name) fun found => ?_
  cases found with
  | some other => exact abort _
  | none =>
    intro m₁ m₂ h
    have hw := h.world
    exact .ok _ ⟨⟨hw.heap, hw.global, by rw [hw.modules], hw.output, hw.generated, hw.lambdas⟩, h.levels⟩

end Action.Follows

/-- A routine over evaluators that follow each other follows itself. -/
theorem Routine.follows {can : Ability → Prop} {own : FrameId} {p : Evaluator → Evaluator → Action α}
    {eval₁ tail₁ eval₂ tail₂ : Evaluator} (hp : Routine can own p)
    (he : ∀ form env, Action.Follows T excused (eval₁ form env) (eval₂ form env))
    (ht : ∀ form env, Action.Follows T excused (tail₁ form env) (tail₂ form env))
    (hx : can .expand → ∀ form env, Action.Follows T excused (MiniLisp.expand eval₁ form env) (MiniLisp.expand eval₂ form env)) :
    Action.Follows T excused (p eval₁ tail₁) (p eval₂ tail₂) := by
  induction hp with
  | value a => exact .value a
  | abort e => exact .abort e
  | andThen _ _ ihp ihq => exact ihp.andThen ihq
  | look f => exact .look f
  | inner form env _ => exact he form env
  | tail form env _ => exact ht form env
  | expansion form env hc => exact hx hc form env
  | definition env name v mutable => exact .changeHeap _
  | sharing name env => exact .sharing name env
  | assignment env name v _ => exact .assignment env name v
  | lambdaId => exact .lambdaId
  | symbol beginning _ => exact .symbol beginning
  | output text => exact .output text
  | scope env bindings _ ihq =>
    refine .andThen ?_ ihq
    exact .andThen (.onHeap _) fun scope => .andThen (.changeHeap _) fun _ => .value scope
  | newModule env name _ ihq => exact .andThen (.onHeap _) fun home => (ihq home).andThen fun _ => .registration name home

/-- With the same limit on macros, expansions over evaluators that follow each other follow each other. -/
theorem expand_follows {eval₁ eval₂ : Evaluator}
    (hT : ∀ {d₁ l₁ d₂ l₂}, T d₁ l₁ d₂ l₂ → l₁.maxMacroExpansions = l₂.maxMacroExpansions)
    (he : ∀ form env, Action.Follows T excused (eval₁ form env) (eval₂ form env)) (form : Value) (env : Env) :
    Action.Follows T excused (expand eval₁ form env) (expand eval₂ form env) := by
  intro m₁ m₂ h
  rw [expand_apply, expand_apply, hT h.levels]
  have hr : Routine (fun _ => False) 0 fun eval _ => expandLevel eval env m₂.limits.maxMacroExpansions
      (m₂.limits.maxMacroExpansions + 1) form := expandLevel_routine env _ _ form
  exact hr.follows he he (fun hf => hf.elim) m₁ m₂ h

/-- With the same limit on macros, steps over evaluators that follow each other follow each other. -/
theorem plainStep_follows {eval₁ tail₁ eval₂ tail₂ : Evaluator}
    (hT : ∀ {d₁ l₁ d₂ l₂}, T d₁ l₁ d₂ l₂ → l₁.maxMacroExpansions = l₂.maxMacroExpansions)
    (he : ∀ form env, Action.Follows T excused (eval₁ form env) (eval₂ form env))
    (ht : ∀ form env, Action.Follows T excused (tail₁ form env) (tail₂ form env)) (form : Value) (env : Env) :
    Action.Follows T excused (plainStep eval₁ tail₁ form env) (plainStep eval₂ tail₂ form env) := by
  have hr : Routine (fun _ => True) env.frame fun eval tail => plainStep eval tail form env :=
    plainStep_routine trivial trivial trivial form env fun _ => trivial
  exact hr.follows he ht fun _ => expand_follows hT he

/-! ## More fuel -/

/-- The same depth and the same limits. -/
def SameLevel (d₁ : Nat) (l₁ : Limits) (d₂ : Nat) (l₂ : Limits) : Prop := d₁ = d₂ ∧ l₁ = l₂

/-- Machines that agree and are on the same level of nesting are equal. -/
theorem Machine.Agree.eq {m₁ m₂ : Machine} (h : m₁.Agree SameLevel m₂) : m₁ = m₂ := by
  obtain ⟨⟨h1, h2, h3, h4, h5, h6⟩, h7, h8⟩ := h
  cases m₁
  cases m₂
  simp only at h1 h2 h3 h4 h5 h6 h7 h8
  subst h1 h2 h3 h4 h5 h6 h7 h8
  rfl

theorem Machine.Agree.refl (m : Machine) : m.Agree SameLevel m := ⟨⟨rfl, rfl, rfl, rfl, rfl, rfl⟩, rfl, rfl⟩

/-- Outcomes that match at the same level are equal, unless the first is excused. -/
theorem Matches.eq {r₁ r₂ : EStateM.Result Abort Machine α} (h : Matches SameLevel excused r₁ r₂)
    (hn : ∀ e m, r₁ = .error e m → ¬excused e) : r₁ = r₂ := by
  cases h with
  | ok a h => rw [h.eq]
  | error e h => rw [h.eq]
  | excused he m r => exact absurd he (hn _ m rfl)

/-- Nested actions follow each other if the actions do one level deeper, where both sides count the levels in the same way. -/
theorem nested_follows {T T' : Nat → Limits → Nat → Limits → Prop} {a b : Action α}
    (hsame : ∀ {d₁ l₁ d₂ l₂}, T d₁ l₁ d₂ l₂ → d₁ = d₂ ∧ l₁ = l₂)
    (henter : ∀ {d₁ l₁ d₂ l₂}, T d₁ l₁ d₂ l₂ → d₁ < l₁.maxDepth → T' (d₁ + 1) l₁ (d₂ + 1) l₂)
    (hleave : ∀ {d₁ l₁ d₂ l₂}, T' d₁ l₁ d₂ l₂ → T (d₁ - 1) l₁ (d₂ - 1) l₂)
    (h : Action.Follows T' excused a b) : Action.Follows T excused (Action.nested a) (Action.nested b) := by
  intro m₁ m₂ hm
  obtain ⟨hw, hl⟩ := hm
  obtain ⟨hd, hlim⟩ := hsame hl
  unfold Action.nested
  by_cases hle : m₁.limits.maxDepth ≤ m₁.depth
  · have hle₂ : m₂.limits.maxDepth ≤ m₂.depth := by
      rw [← hd, ← hlim]
      exact hle
    rw [if_pos hle, if_pos hle₂, hlim]
    exact .error _ ⟨hw, hl⟩
  · have hle₂ : ¬m₂.limits.maxDepth ≤ m₂.depth := by
      rw [← hd, ← hlim]
      exact hle
    rw [if_neg hle, if_neg hle₂]
    have hin : Machine.Agree T' { m₁ with depth := m₁.depth + 1 } { m₂ with depth := m₂.depth + 1 } :=
      ⟨⟨hw.heap, hw.global, hw.modules, hw.output, hw.generated, hw.lambdas⟩, henter hl (Nat.lt_of_not_le hle)⟩
    have hn := h _ _ hin
    generalize a { m₁ with depth := m₁.depth + 1 } = r₁ at hn
    generalize b { m₂ with depth := m₂.depth + 1 } = r₂ at hn
    -- The level is left in the same way, however the actions inside ended.
    have hout {m₁' m₂' : Machine} (ha : m₁'.Agree T' m₂') :
        Machine.Agree T { m₁' with depth := m₁'.depth - 1 } { m₂' with depth := m₂'.depth - 1 } := by
      obtain ⟨hw', hl'⟩ := ha
      exact ⟨⟨hw'.heap, hw'.global, hw'.modules, hw'.output, hw'.generated, hw'.lambdas⟩, hleave hl'⟩
    cases hn with
    | ok v ha => exact .ok v (hout ha)
    | error e ha => exact .error e (hout ha)
    | excused he m r => exact .excused he _ _

/-- Nested actions follow each other at the same level if the actions do. -/
theorem nested_follows_sameLevel {a b : Action α} (h : Action.Follows SameLevel excused a b) :
    Action.Follows SameLevel excused (Action.nested a) (Action.nested b) := by
  refine nested_follows id (fun hl _ => ?_) (fun hl => ?_) h
  · obtain ⟨rfl, rfl⟩ := hl
    exact ⟨rfl, rfl⟩
  · obtain ⟨rfl, rfl⟩ := hl
    exact ⟨rfl, rfl⟩

/-- A run with more fuel does what the run does, unless the run has too little. -/
theorem run_fuel (fuel more : Nat) (form : Value) (env : Env) :
    Action.Follows SameLevel (· = .outOfFuel) (run fuel form env) (run (fuel + more) form env) := by
  induction fuel generalizing form env with
  | zero =>
    refine .giveUp (e := .outOfFuel) ?_ _
    rfl
  | succ fuel ih =>
    rw [Nat.add_right_comm, run_succ, run_succ]
    refine plainStep_follows (fun h => congrArg _ h.2) (fun form env => ?_) ih form env
    rw [eval_eq, eval_eq]
    exact nested_follows_sameLevel (ih form env)

/-- An evaluation with more fuel does what the evaluation does, unless it has too little. -/
theorem eval_fuel (fuel more : Nat) (form : Value) (env : Env) :
    Action.Follows SameLevel (· = .outOfFuel) (eval fuel form env) (eval (fuel + more) form env) := by
  rw [eval_eq, eval_eq]
  exact nested_follows_sameLevel (run_fuel fuel more form env)

/-- The plain evaluator with more fuel does what it does, unless it has too little. -/
theorem plainEval_fuel (fuel more : Nat) (form : Value) (env : Env) :
    Action.Follows SameLevel (· = .outOfFuel) (plainEval fuel form env) (plainEval (fuel + more) form env) := by
  induction fuel generalizing form env with
  | zero =>
    refine .giveUp (e := .outOfFuel) ?_ _
    rfl
  | succ fuel ih =>
    rw [Nat.add_right_comm]
    exact plainStep_follows (fun h => congrArg _ h.2) ih ih form env

end MiniLisp
