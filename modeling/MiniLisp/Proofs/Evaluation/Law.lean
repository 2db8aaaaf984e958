import MiniLisp.Proofs.Action
import MiniLisp.Proofs.Evaluation.Step

/-!
# Laws: what every evaluation does to the machine

A law is a relation between the machine before and the machine after some work in a frame that holds for nothing done, for one
thing done after another, and for each elementary change. Every routine obeys a law that its evaluators obey
(`Routine.obeys`), and so does every evaluation, however it ends (`eval_obeys`).
-/

namespace MiniLisp

variable {α β : Type}

/-! ## The table of modules -/

section Table

variable {name : Symbol} {m : Machine}

/-- A frame is registered under a free name. -/
theorem registerModule_of_free (home : Env) (h : m.modules.lookup name = none) :
    registerModule name home m = .ok () { m with modules := (name, home) :: m.modules } := by
  have hf : Action.findModule? name m = .ok none m := h ▸ rfl
  rw [registerModule, Action.bind_of_ok _ hf]
  rfl

/-- Under a name that is taken, no frame is registered. -/
theorem registerModule_of_taken {other : Env} (home : Env) (h : m.modules.lookup name = some other) :
    registerModule name home m = .error (.error (duplicateModule name)) m := by
  have hf : Action.findModule? name m = .ok (some other) m := h ▸ rfl
  rw [registerModule, Action.bind_of_ok _ hf]
  rfl

/-- The names of a module are bound by its use. -/
theorem useModule_of_found {home : Env} (env : Env) (h : m.modules.lookup name = some home) :
    useModule name env m = .ok () { m with heap := m.heap.bindAll env.frame (m.heap.localBindings home.frame) } := by
  have hf : Action.findModule? name m = .ok (some home) m := h ▸ rfl
  rw [useModule, Action.bind_of_ok _ hf]
  rfl

/-- What is no module is not used. -/
theorem useModule_of_not_found (env : Env) (h : m.modules.lookup name = none) :
    useModule name env m = .error (.error (moduleNotFound name)) m := by
  have hf : Action.findModule? name m = .ok none m := h ▸ rfl
  rw [useModule, Action.bind_of_ok _ hf]
  rfl

end Table

/-! ## Laws -/

/-- A relation between machines before and after work in a frame that all elementary changes keep to. -/
structure Law (can : Ability → Prop) (R : FrameId → Machine → Machine → Prop) : Prop where
  refl : ∀ own m, R own m m
  trans : ∀ {own m₁ m₂ m₃}, R own m₁ m₂ → R own m₂ m₃ → R own m₁ m₃
  definition : can .bind → ∀ own m name v mutable, R own m { m with heap := m.heap.define own name v mutable }
  sharing : can .bind → ∀ own m home, R own m { m with heap := m.heap.bindAll own (m.heap.localBindings home) }
  assignment : can .assign → ∀ own m env name slot v, m.heap.assignable env name = .ok slot →
    R own m { m with heap := m.heap.fill slot v }
  lambdaId : ∀ own m, R own m { m with lambdas := m.lambdas + 1 }
  symbol : can .generate → ∀ own m, R own m { m with generated := m.generated + 1 }
  output : ∀ own m text, R own m { m with output := m.output ++ text }
  /-- Work in a new frame. -/
  scope : ∀ {own m m'} env bindings,
    R m.heap.frames.size { m with heap := m.heap.withScope env bindings } m' → R own m m'
  /-- Work in a new frame that is registered in the end. -/
  newModule : ∀ {own m m'} env name, R m.heap.frames.size { m with heap := (m.heap.newChild env).2 } m' →
    m'.modules.lookup name = none →
    R own m { m' with modules := (name, (m.heap.newChild env).1) :: m'.modules }
  /-- Work one level deeper. -/
  nested : ∀ {own m m'}, m.depth < m.limits.maxDepth → R own { m with depth := m.depth + 1 } m' →
    R own m { m' with depth := m'.depth - 1 }

section Obeys

variable {can : Ability → Prop} {R : FrameId → Machine → Machine → Prop}

namespace Law

/-- A law with fewer abilities. -/
theorem weaken {can' : Ability → Prop} (law : Law can R) (h : ∀ ability, can' ability → can ability) : Law can' R :=
  { law with
    definition := fun hc => law.definition (h _ hc)
    sharing := fun hc => law.sharing (h _ hc)
    assignment := fun hc => law.assignment (h _ hc)
    symbol := fun hc => law.symbol (h _ hc) }

/-- One part of an action after another. -/
theorem bind (law : Law can R) {own : FrameId} {a : Action α} {f : α → Action β} {m : Machine}
    (ha : R own m (Action.after a m)) (hf : ∀ v m', R own m' (Action.after (f v) m')) :
    R own m (Action.after (a >>= f) m) := by
  cases hr : a m with
  | ok v m' =>
    rw [Action.after_bind_of_ok f hr]
    rw [Action.after_eq_of_ok hr] at ha
    exact law.trans ha (hf v m')
  | error e m' =>
    rw [Action.after_bind_of_error f hr]
    rw [Action.after_eq_of_error hr] at ha
    exact ha

/-- An assignment keeps to the law: it is refused, or a mutable slot is filled. -/
theorem assign (law : Law can R) (hc : can .assign) (own : FrameId) (env : Env) (name : Symbol) (v : Value) (m : Machine) :
    R own m (Action.after (Action.assign env name v) m) := by
  have h : Action.assign env name v m =
      (Action.ofExcept (m.heap.assignable env name) >>= fun slot => Action.fill slot v) m := rfl
  cases hs : m.heap.assignable env name with
  | ok slot =>
    rw [hs] at h
    rw [Action.after_eq_of_ok (h.trans rfl)]
    exact law.assignment hc own m env name slot v hs
  | error e =>
    rw [hs] at h
    rw [Action.after_eq_of_error (h.trans rfl)]
    exact law.refl own m

/-- The use of a module keeps to the law: there is no such module, or its frame is shared. -/
theorem useModule (law : Law can R) (hc : can .bind) (name : Symbol) (env : Env) (m : Machine) :
    R env.frame m (Action.after (MiniLisp.useModule name env) m) := by
  refine law.bind (law.refl env.frame m) fun found m' => ?_
  cases found with
  | none => exact law.refl env.frame m'
  | some home => exact law.sharing hc env.frame m' home.frame

/-- Work in a new frame with names bound in it. -/
theorem openScope (law : Law can R) {own : FrameId} (env : Env) (bindings : List (Symbol × Value)) {q : Env → Action α}
    {m : Machine} (hq : ∀ m', R (m.heap.newChild env).1.frame m' (Action.after (q (m.heap.newChild env).1) m')) :
    R own m (Action.after (Action.openScope env bindings >>= q) m) :=
  law.scope env bindings (hq _)

/-- Work in a new frame that is registered in the end, if its name is still free. -/
theorem registering (law : Law can R) {own : FrameId} (env : Env) (name : Symbol) {q : Env → Action Unit} {m : Machine}
    (hq : ∀ m', R (m.heap.newChild env).1.frame m' (Action.after (q (m.heap.newChild env).1) m')) :
    R own m (Action.after (Action.newScope env >>= fun home => q home >>= fun _ => registerModule name home) m) := by
  have hs : Action.newScope env m = .ok (m.heap.newChild env).1 { m with heap := (m.heap.newChild env).2 } := rfl
  rw [Action.after_bind_of_ok _ hs]
  have h := hq { m with heap := (m.heap.newChild env).2 }
  cases hr : q (m.heap.newChild env).1 { m with heap := (m.heap.newChild env).2 } with
  | error e m' =>
    rw [Action.after_bind_of_error _ hr]
    rw [Action.after_eq_of_error hr] at h
    exact law.scope env [] h
  | ok u m' =>
    rw [Action.after_bind_of_ok _ hr]
    rw [Action.after_eq_of_ok hr] at h
    cases hn : m'.modules.lookup name with
    | none =>
      rw [Action.after_eq_of_ok (registerModule_of_free _ hn)]
      exact law.newModule env name h hn
    | some other =>
      rw [Action.after_eq_of_error (registerModule_of_taken _ hn)]
      exact law.scope env [] h

end Law

/-- A routine obeys the law that its evaluators obey. -/
theorem Routine.obeys {own : FrameId} {p : Evaluator → Evaluator → Action α} {eval tail : Evaluator}
    (hp : Routine can own p) (law : Law can R) (he : ∀ form env m, R env.frame m (Action.after (eval form env) m))
    (ht : ∀ form env m, R env.frame m (Action.after (tail form env) m))
    (hx : can .expand → ∀ own form env m, R own m (Action.after (expand eval form env) m)) (m : Machine) :
    R own m (Action.after (p eval tail) m) := by
  induction hp generalizing m with
  | value a => exact law.refl _ m
  | abort e => exact law.refl _ m
  | andThen _ _ ihp ihq => exact law.bind (ihp m) ihq
  | look f => exact law.refl _ m
  | inner form env h => exact h ▸ he form env m
  | tail form env h => exact h ▸ ht form env m
  | expansion form env hc => exact hx hc _ form env m
  | definition env name v mutable h hc => exact h ▸ law.definition hc env.frame m name v mutable
  | sharing name env h hc => exact h ▸ law.useModule hc name env m
  | assignment env name v hc => exact law.assign hc _ env name v m
  | lambdaId => exact law.lambdaId _ m
  | symbol beginning hc => exact law.symbol hc _ m
  | output text => exact law.output _ m text
  | scope env bindings _ ihq => exact law.openScope env bindings (ihq (m.heap.newChild env).1)
  | newModule env name _ ihq =>
    exact law.registering env name (ihq (m.heap.newChild env).1)

/-- Expansion obeys the law that its evaluator obeys, as work in any frame whatever. -/
theorem expand_obeys {eval : Evaluator} (law : Law can R) (he : ∀ form env m, R env.frame m (Action.after (eval form env) m))
    (own : FrameId) (form : Value) (env : Env) (m : Machine) : R own m (Action.after (expand eval form env) m) := by
  have hl : Law (fun _ => False) R := law.weaken fun _ h => h.elim
  have hr : Routine (fun _ => False) own fun eval _ => expandLevel eval env m.limits.maxMacroExpansions
      (m.limits.maxMacroExpansions + 1) form := expandLevel_routine env _ _ form
  have h := hr.obeys hl he he (fun h => h.elim) m
  unfold Action.after at h ⊢
  rw [expand_apply]
  exact h

/-- A routine that may expand obeys the law that its evaluators obey. -/
theorem Routine.obeys_expanding {own : FrameId} {p : Evaluator → Evaluator → Action α} {eval tail : Evaluator}
    (hp : Routine can own p) (law : Law can R) (he : ∀ form env m, R env.frame m (Action.after (eval form env) m))
    (ht : ∀ form env m, R env.frame m (Action.after (tail form env) m)) (m : Machine) :
    R own m (Action.after (p eval tail) m) :=
  hp.obeys law he ht (fun _ => expand_obeys law he) m

/-- A step, followed by nothing, leaves the machine that the step leaves. -/
theorem after_force_idle (a : Action Step) (m : Machine) :
    Action.after (a >>= force fun _ _ => pure .nil) m = Action.after a m := by
  cases hr : a m with
  | ok step m' =>
    rw [Action.after_bind_of_ok _ hr, Action.after_eq_of_ok hr]
    cases step <;> rfl
  | error e m' => rw [Action.after_bind_of_error _ hr, Action.after_eq_of_error hr]

/-- A step obeys the law that its evaluator obeys; only the step of `set!` needs the ability to assign. -/
theorem evalStep_obeys {eval : Evaluator} (law : Law can R) (hx : can .expand) (hb : can .bind) (hg : can .generate)
    (he : ∀ form env m, R env.frame m (Action.after (eval form env) m)) (form : Value) (env : Env)
    (ha : form.isForm "set!" → can .assign) (m : Machine) : R env.frame m (Action.after (evalStep eval form env) m) := by
  rw [← after_force_idle, evalStep_force]
  have hr : Routine can env.frame fun eval tail => plainStep eval tail form env := plainStep_routine hx hb hg form env ha
  have ht : ∀ form env m, R env.frame m (Action.after ((fun _ _ => pure .nil : Evaluator) form env) m) :=
    fun _ env m => law.refl env.frame m
  exact hr.obeys_expanding law he ht m

end Obeys

section Run

variable {R : FrameId → Machine → Machine → Prop}

/-- A nested action obeys the law that the action obeys one level deeper. -/
theorem nested_obeys {can : Ability → Prop} (law : Law can R) {own : FrameId} {a : Action α}
    (ha : ∀ m, R own m (Action.after a m)) (m : Machine) : R own m (Action.after (Action.nested a) m) := by
  by_cases hd : m.depth < m.limits.maxDepth
  · rw [Action.after_nested a hd]
    exact law.nested hd (ha _)
  · rw [Action.after_nested_of_le a (by omega)]
    exact law.refl own m

/-- A run obeys every law, however it ends: by induction on the fuel, one step at a time. -/
theorem run_obeys (law : Law (fun _ => True) R) (fuel : Nat) (form : Value) (env : Env) (m : Machine) :
    R env.frame m (Action.after (run fuel form env) m) := by
  induction fuel generalizing form env m with
  | zero => exact law.refl env.frame m
  | succ fuel ih =>
    rw [run_succ]
    have hr : Routine (fun _ => True) env.frame fun eval tail => plainStep eval tail form env :=
      plainStep_routine trivial trivial trivial form env fun _ => trivial
    refine hr.obeys_expanding law (fun form env m => ?_) ih m
    rw [eval_eq]
    exact nested_obeys law (ih form env) m

/-- An evaluation obeys every law, however it ends. -/
theorem eval_obeys (law : Law (fun _ => True) R) (fuel : Nat) (form : Value) (env : Env) (m : Machine) :
    R env.frame m (Action.after (eval fuel form env) m) := by
  rw [eval_eq]
  exact nested_obeys law (run_obeys law fuel form env) m

/-- A call obeys every law, as work in any frame whatever. -/
theorem call_obeys (law : Law (fun _ => True) R) (fuel : Nat) (own : FrameId) (callee : Value) (args : List Value) (m : Machine) :
    R own m (Action.after (applyValue (eval fuel) callee args >>= force (eval fuel)) m) := by
  rw [applyValue_force]
  have hr : Routine (fun _ => True) own fun eval tail => plainApply eval tail callee args :=
    plainApply_routine callee args fun _ => trivial
  exact hr.obeys_expanding law (eval_obeys law fuel) (eval_obeys law fuel) m

end Run

end MiniLisp
