import MiniLisp.Proofs.Evaluation.Law
import MiniLisp.Session

/-!
# Runs of a session

A host asks an interpreter for one operation after another, and each of them may end with an error or with several. Whatever a
run of operations does to the machine, it does by evaluations and expansions in the global environment and by calls, each of which
begins again at the outermost level (`Keeps.performAll`).
-/

namespace MiniLisp.Session

variable {α β : Type}

/-- What a host can ask of an interpreter. -/
inductive Operation where
  | runSource (source : Source)
  | runEach (source : Source)
  | evalForm (form : Value)
  | expandSource (source : Source)
  | call (callee : Value) (args : List Value)

/-- The machine that an operation leaves, however it ends. -/
def Operation.perform (fuel : Nat) (m : Machine) : Operation → Machine
  | .runSource source => Action.after (Session.runSource fuel source) m
  | .runEach source => (Session.runEach fuel source m).2
  | .evalForm form => Action.after (Session.evalForm fuel form) m
  | .expandSource source => Action.after (Session.expandSource fuel source) m
  | .call callee args => Action.after (Session.call fuel callee args) m

/-- The machine that a run of operations leaves. -/
def performAll (fuel : Nat) (m : Machine) (operations : List Operation) : Machine :=
  operations.foldl (Operation.perform fuel) m

/-- What a relation between machines must allow so that every run of operations keeps to it. -/
structure Keeps (fuel : Nat) (R : Machine → Machine → Prop) : Prop where
  refl : ∀ m, R m m
  trans : ∀ {m₁ m₂ m₃}, R m₁ m₂ → R m₂ m₃ → R m₁ m₃
  reset : ∀ m, R m { m with depth := 0 }
  eval : ∀ form m, R m (Action.after (eval fuel form m.global) m)
  expand : ∀ form m, R m (Action.after (expand (MiniLisp.eval fuel) form m.global) m)
  call : ∀ callee args m,
    R m (Action.after (applyValue (MiniLisp.eval fuel) callee args >>= force (MiniLisp.eval fuel)) m)

/-- No work changes which environment is the global one. -/
theorem global_law : Law (fun _ => True) fun _ m m' => m'.global = m.global where
  refl _ _ := rfl
  trans h h' := h'.trans h
  definition _ _ _ _ _ _ := rfl
  sharing _ _ _ _ := rfl
  assignment _ _ _ _ _ _ _ _ := rfl
  lambdaId _ _ := rfl
  symbol _ _ _ := rfl
  output _ _ _ := rfl
  scope _ _ h := h
  newModule _ _ h _ := h
  nested _ h := h

/-- An expansion leaves the global environment. -/
theorem global_expand (fuel : Nat) (form : Value) (env : Env) (m : Machine) :
    (Action.after (expand (eval fuel) form env) m).global = m.global :=
  expand_obeys global_law (eval_obeys global_law fuel) 0 form env m

/-- Locating the errors of an action changes nothing about the machine. -/
theorem after_locating (source : Source) (span : Span) (a : Action α) (m : Machine) :
    Action.after (locating source span a) m = Action.after a m := by
  simp only [Action.after, locating]
  cases a m with
  | ok v m' => rfl
  | error e m' => cases e <;> rfl

/-- An action that begins by asking for the global environment. -/
theorem after_ask_global (f : Env → Action α) (m : Machine) :
    Action.after (Action.ask (fun m => m.global) >>= f) m = Action.after (f m.global) m := rfl

namespace Keeps

variable {fuel : Nat} {R : Machine → Machine → Prop}

/-- One part of an action after another; the second part is begun only when the first has a result. -/
theorem bind (h : Keeps fuel R) {a : Action α} {f : α → Action β} {m : Machine} (ha : R m (Action.after a m))
    (hf : ∀ v m', a m = .ok v m' → R m' (Action.after (f v) m')) : R m (Action.after (a >>= f) m) := by
  cases hr : a m with
  | ok v m' =>
    rw [Action.after_bind_of_ok f hr]
    rw [Action.after_eq_of_ok hr] at ha
    exact h.trans ha (hf v m' hr)
  | error e m' =>
    rw [Action.after_bind_of_error f hr]
    rw [Action.after_eq_of_error hr] at ha
    exact ha

/-- What the relation allows, the evaluation of a top-level form keeps to. -/
theorem evalForm (h : Keeps fuel R) (form : Value) (m : Machine) : R m (Action.after (Session.evalForm fuel form) m) := by
  refine h.bind (h.reset m) fun _ m' _ => ?_
  rw [after_ask_global]
  refine h.bind (h.expand form m') fun expanded m'' hr => ?_
  have hg := global_expand fuel form m'.global m'
  rw [Action.after_eq_of_ok hr] at hg
  rw [← hg]
  exact h.eval expanded m''

/-- So does the running of several forms, by induction on their number. -/
theorem runForms (h : Keeps fuel R) (source : Source) (last : Value) (results : List (Except Error (Value × Span)))
    (m : Machine) : R m (Action.after (Session.runForms fuel source last results) m) := by
  induction results generalizing last m with
  | nil => exact h.refl m
  | cons result rest ih =>
    cases result with
    | error e => exact h.refl m
    | ok read =>
      obtain ⟨form, span⟩ := read
      refine h.bind ?_ fun v m' _ => ih v m'
      rw [after_locating]
      exact h.evalForm form m

/-- Nothing about the other forms depends on whether one of them fails. -/
theorem runEachForm (h : Keeps fuel R) (source : Source) (results : List (Except Error (Value × Span))) (m : Machine) :
    R m (Session.runEachForm fuel source m results).2 := by
  induction results generalizing m with
  | nil => exact h.refl m
  | cons result rest ih =>
    cases result with
    | error e => exact ih m
    | ok read =>
      obtain ⟨form, span⟩ := read
      have hf := h.evalForm form m
      rw [← after_locating source span] at hf
      unfold Session.runEachForm
      split
      · rename_i v m' hr
        rw [Action.after_eq_of_ok hr] at hf
        exact h.trans hf (ih m')
      · rename_i e m' hr
        rw [Action.after_eq_of_error hr] at hf
        exact h.trans hf (ih m')

/-- The same of the expansion of several forms. -/
theorem expandForms (h : Keeps fuel R) (source : Source) (results : List (Except Error (Value × Span))) (m : Machine) :
    R m (Action.after (Session.expandForms fuel source results) m) := by
  induction results generalizing m with
  | nil => exact h.refl m
  | cons result rest ih =>
    cases result with
    | error e => exact h.refl m
    | ok read =>
      obtain ⟨form, span⟩ := read
      unfold Session.expandForms
      rw [after_ask_global]
      have hx := h.expand form m
      have hg := global_expand fuel form m.global m
      rw [← after_locating source span] at hx hg
      refine h.bind hx fun expanded m' hr => ?_
      rw [Action.after_eq_of_ok hr] at hg
      rw [← hg]
      have hrest : ∀ m'', R m'' (Action.after (do
          let forms ← Session.expandForms fuel source rest
          return expanded :: forms) m'') :=
        fun m'' => h.bind (ih m'') fun _ m'' _ => h.refl m''
      split
      · refine h.bind ?_ fun _ m'' _ => hrest m''
        rw [after_locating]
        exact h.eval expanded m'
      · exact hrest m'

/-- What the relation allows, an operation keeps to. -/
theorem perform (h : Keeps fuel R) (m : Machine) (operation : Operation) : R m (operation.perform fuel m) := by
  cases operation with
  | runSource source => exact h.runForms source .nil (Reader.results source) m
  | runEach source => exact h.runEachForm source (Reader.results source) m
  | evalForm form => exact h.evalForm form m
  | expandSource source => exact h.expandForms source (Reader.results source) m
  | call callee args => exact h.bind (h.reset m) fun _ m' _ => h.call callee args m'

/-- What the relation allows, a run of operations keeps to, by induction on their number. -/
theorem performAll (h : Keeps fuel R) (m : Machine) (operations : List Operation) :
    R m (Session.performAll fuel m operations) := by
  induction operations generalizing m with
  | nil => exact h.refl m
  | cons operation rest ih =>
    have hs : R m (operation.perform fuel m) := h.perform m operation
    exact h.trans hs (ih _)

end Keeps

end MiniLisp.Session
