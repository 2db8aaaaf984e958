import MiniLisp.Proofs.Shadowing
import MiniLisp.Proofs.Sharing

/-!
# The levels of nesting that an evaluation needs

Evaluation counts how deep it is nested and fails at a limit. `Action.Needs` says of an action how many levels must be free for it:
with so many it gives its value, with fewer it fails at the limit, and nothing depends on how many more there are. Of two actions
one after the other, the more demanding one counts (`Action.Needs.bind`), and only a nested run costs a level
(`Action.Needs.nested`). So a call costs one level for its head and those of its arguments, and the body of the function that it
calls, which is in tail position, costs what it costs by itself (`needs_call`, `needs_closure`).
-/

namespace MiniLisp

variable {α β : Type}

/-- The levels of nesting that the limit still allows. -/
def Machine.freeLevels (m : Machine) : Nat := m.limits.maxDepth - m.depth

/-- Why evaluation ends at the limit of nesting. -/
def Machine.tooDeep (m : Machine) : Abort := .error (.ofKind (.recursionLimit m.limits.maxDepth))

/-- If this many levels are free, the action gives the value and leaves the heap; if not, it fails at the limit of nesting. Nothing
but the heap is changed. -/
structure Action.Needs (levels : Nat) (a : Action α) (m : Machine) (v : α) (heap : Heap) : Prop where
  enough : levels ≤ m.freeLevels → a m = .ok v { m with heap }
  tooFew : m.freeLevels < levels → ∃ heap, a m = .error m.tooDeep { m with heap }

namespace Action.Needs

variable {j k levels : Nat} {m : Machine} {v : α} {w : β} {heap heap' : Heap}

/-- What does not nest needs no level. -/
theorem of_ok {a : Action α} (h : a m = .ok v { m with heap }) : Needs 0 a m v heap where
  enough _ := h
  tooFew hfree := absurd hfree (Nat.not_lt_zero _)

/-- The number of levels may be written in another way. -/
theorem congr {a : Action α} (h : Needs j a m v heap) (hj : j = k) : Needs k a m v heap := hj ▸ h

/-- Two parts after each other need as many levels as the one that needs more. -/
theorem bind {a : Action α} {f : α → Action β} (ha : Needs j a m v heap) (hf : Needs k (f v) { m with heap } w heap') :
    Needs (max j k) (a >>= f) m w heap' where
  enough hfree := by
    obtain ⟨hj, hk⟩ := Nat.max_le.1 hfree
    rw [Action.bind_of_ok f (ha.enough hj)]
    exact hf.enough hk
  tooFew hfree := by
    by_cases hj : j ≤ m.freeLevels
    · rw [Action.bind_of_ok f (ha.enough hj)]
      have hk : m.freeLevels < k := by omega
      exact hf.tooFew hk
    · obtain ⟨heap, he⟩ := ha.tooFew (Nat.not_le.1 hj)
      exact ⟨heap, Action.bind_of_error f he⟩

/-- What is made of a value in the end needs no further level. -/
theorem returning {a : Action α} (h : Needs levels a m v heap) (f : α → β) :
    Needs levels (a >>= fun v => pure (f v)) m (f v) heap := by
  have hpure : Needs 0 (pure (f v)) { m with heap } (f v) heap := of_ok rfl
  exact (h.bind hpure).congr (Nat.max_zero levels)

/-- A nested action costs one level. -/
theorem nested {a : Action α} (h : Needs levels a { m with depth := m.depth + 1 } v heap) :
    Needs (levels + 1) (Action.nested a) m v heap where
  enough hfree := by
    have hdepth : ¬m.limits.maxDepth ≤ m.depth := by
      unfold Machine.freeLevels at hfree
      omega
    have hrun := h.enough (by unfold Machine.freeLevels at hfree ⊢; simp only; omega)
    simp [Action.nested, hdepth, hrun]
  tooFew hfree := by
    by_cases hdepth : m.limits.maxDepth ≤ m.depth
    · exact ⟨m.heap, by simp [Action.nested, hdepth, Machine.tooDeep]⟩
    · obtain ⟨heap, hrun⟩ := h.tooFew (by unfold Machine.freeLevels at hfree ⊢; simp only; omega)
      exact ⟨heap, by simp [Action.nested, hdepth, hrun, Machine.tooDeep]⟩

end Action.Needs

/-! ## Evaluation -/

section Evaluation

open MiniLisp.Action (Needs)

variable {fuel j k levels : Nat} {env : Env} {m : Machine} {v : Value} {heap heap' : Heap}

/-- An evaluation needs one level more than the run in it. -/
theorem needs_eval {form : Value} (h : Needs levels (run fuel form env) { m with depth := m.depth + 1 } v heap) :
    Needs (levels + 1) (eval fuel form env) m v heap := by
  rw [eval_eq]
  exact h.nested

/-- A symbol is looked up on the same level. -/
theorem needs_symbol (fuel : Nat) {s : Symbol} (hs : m.heap.lookup? env s = some v) :
    Needs 0 (run (fuel + 1) (.sym s) env) m v m.heap :=
  .of_ok (run_symbol fuel hs)

/-- A number stands for itself on the same level. -/
theorem needs_integer (fuel : Nat) (n : Int) (env : Env) (m : Machine) :
    Needs 0 (run (fuel + 1) (.ofInt n) env) m (.ofInt n) m.heap := by
  refine .of_ok ?_
  rw [run_succ]
  rfl

theorem needs_evalAll_nil (fuel : Nat) (env : Env) (m : Machine) : Needs 0 (evalAll (eval fuel) env []) m [] m.heap := .of_ok rfl

/-- Of several forms, the one that needs most says how many levels are needed. -/
theorem needs_evalAll_cons {form : Value} {forms vs : List Value} (h : Needs j (eval fuel form env) m v heap)
    (hrest : Needs k (evalAll (eval fuel) env forms) { m with heap } vs heap') :
    Needs (max j k) (evalAll (eval fuel) env (form :: forms)) m (v :: vs) heap' := by
  rw [evalAll]
  exact h.bind (hrest.returning (v :: ·))

/-- A condition and the branch that it chooses, which is in tail position. -/
theorem needs_if {condition consequent alternative b : Value} (h : Needs j (eval fuel condition env) m b heap)
    (hbranch : Needs k (run fuel (if b.isTruthy then consequent else alternative) env) { m with heap } v heap') :
    Needs (max j k) (run (fuel + 1) (.list [.sym "if", condition, consequent, alternative]) env) m v heap' := by
  have hstep : run (fuel + 1) (.list [.sym "if", condition, consequent, alternative]) env =
      (eval fuel condition env >>= fun b => if b.isTruthy then run fuel consequent env else run fuel alternative env) := by
    rw [run_succ]
    rfl
  rw [hstep]
  refine h.bind ?_
  cases hb : b.isTruthy with
  | true => simpa [hb] using hbranch
  | false => simpa [hb] using hbranch

/-- A call costs a level for its head, what its arguments cost, and what the call itself costs. -/
theorem needs_call {s : Symbol} {c : Value} {forms vs : List Value} (hs : isSpecial s = false)
    (hlookup : m.heap.lookup? env s = some c) (hc : c.asMacro? = none)
    (hargs : Needs j (evalAll (eval (fuel + 1)) env forms) m vs heap)
    (happly : Needs k (plainApply (eval (fuel + 1)) (run (fuel + 1)) c vs) { m with heap } v heap') :
    Needs (max 1 (max j k)) (run (fuel + 2) (.list (.sym s :: forms)) env) m v heap' := by
  have hcall : SpecialForm.ofSymbol? s = none := by simpa [isSpecial] using hs
  have hhead : Needs 1 (eval (fuel + 1) (.sym s) env) m c m.heap := needs_eval (needs_symbol fuel hlookup)
  rw [run_succ, Value.list_cons]
  simp only [plainStep, hcall, plainCall, Value.heads_list]
  refine hhead.bind ?_
  cases c with
  | macroFn f => cases hc
  | _ => exact hargs.bind happly

/-- A primitive that changes nothing costs nothing. -/
theorem needs_native {p : Primitive} {args : List Value} (h : p.call args m = .ok v m) (eval tail : Evaluator) :
    Needs 0 (plainApply eval tail (.native p) args) m v m.heap := .of_ok h

/-- The body of a function is in tail position, so it costs what it costs by itself. -/
theorem needs_closure {eval tail : Evaluator} {f : Lambda Value} {args : List Value} {body : Value} (hbody : f.body = [body])
    (haccepts : f.params.accepts args.length = true)
    (h : Needs levels (tail body (m.heap.newChild f.env).1)
      { m with heap := (m.heap.newChild f.env).2.defineAll m.heap.frames.size false (f.params.bind args) } v heap') :
    Needs levels (plainApply eval tail (.closure f) args) m v heap' := by
  have hscope : bindArguments f args m = .ok (m.heap.newChild f.env).1
      { m with heap := (m.heap.newChild f.env).2.defineAll m.heap.frames.size false (f.params.bind args) } := by
    rw [bindArguments, if_pos haccepts, parameterScope_apply]
  have hzero : Needs 0 (bindArguments f args) m _ _ := .of_ok hscope
  refine (hzero.bind ?_).congr (Nat.zero_max levels)
  rw [hbody]
  exact h

/-- A primitive of two arguments, neither of which nests anything, such as a name or a number. -/
theorem needs_operation {s : Symbol} {p : Primitive} {a b x y : Value} (hs : isSpecial s = false)
    (hlookup : m.heap.lookup? env s = some (.native p))
    (ha : ∀ depth, Needs 0 (run (fuel + 1) a env) { m with depth } x m.heap)
    (hb : ∀ depth, Needs 0 (run (fuel + 1) b env) { m with depth } y m.heap) (hcall : ∀ m, p.call [x, y] m = .ok v m) :
    Needs 2 (eval (fuel + 2) (.list [.sym s, a, b]) env) m v m.heap := by
  have hfirst : Needs 1 (eval (fuel + 1) a env) { m with depth := m.depth + 1 } x m.heap := needs_eval (ha (m.depth + 2))
  have hsecond : Needs 1 (eval (fuel + 1) b env) { m with depth := m.depth + 1 } y m.heap := needs_eval (hb (m.depth + 2))
  have hargs : Needs 1 (evalAll (eval (fuel + 1)) env [a, b]) { m with depth := m.depth + 1 } [x, y] m.heap :=
    needs_evalAll_cons hfirst (needs_evalAll_cons hsecond (needs_evalAll_nil _ _ _))
  have hlookup' : ({ m with depth := m.depth + 1 } : Machine).heap.lookup? env s = some (.native p) := hlookup
  exact needs_eval (needs_call hs hlookup' rfl hargs (needs_native (hcall _) _ _))

/-- A call of a function of one parameter whose body is one form. -/
theorem needs_unaryCall {s param : Symbol} {f : Lambda Value} {arg body x : Value} (hs : isSpecial s = false)
    (hlookup : m.heap.lookup? env s = some (.closure f)) (hparams : f.params = { required := [param] }) (hbody : f.body = [body])
    (harg : Needs j (eval (fuel + 1) arg env) m x m.heap)
    (h : Needs k (run (fuel + 1) body (m.heap.newChild f.env).1)
      { m with heap := (m.heap.newChild f.env).2.define m.heap.frames.size param x false } v heap') :
    Needs (max 1 (max j k)) (run (fuel + 2) (.list [.sym s, arg]) env) m v heap' := by
  have hargs : Needs j (evalAll (eval (fuel + 1)) env [arg]) m [x] m.heap :=
    (needs_evalAll_cons harg (needs_evalAll_nil (fuel + 1) env m)).congr (Nat.max_zero j)
  have haccepts : f.params.accepts [x].length = true := by
    rw [hparams]
    rfl
  refine needs_call hs hlookup rfl hargs (needs_closure hbody haccepts ?_)
  rw [hparams]
  exact h

end Evaluation

/-! ## Names in the scope of a call -/

namespace Heap

variable {h : Heap} {env : Env} {names : List (Symbol × Value)}

/-- All frames of this environment are there, and in it these names have these values. -/
structure Knows (h : Heap) (env : Env) (names : List (Symbol × Value)) : Prop where
  frames : ∀ frame ∈ env.path, frame < h.frames.size
  values : ∀ b ∈ names, h.lookup? env b.1 = some b.2

/-- A new frame binds nothing, so no name has another value. -/
theorem lookup?_newChild (outer : Env) (s : Symbol) : (h.newChild outer).2.lookup? env s = h.lookup? env s := by
  have hpath : (h.newChild outer).2.resolvePath? s env.path = h.resolvePath? s env.path :=
    resolvePath?_congr fun frame _ => localSlot?_of_push (frames_newChild h outer) frame s
  rw [lookup?, resolve?, hpath]
  rfl

/-- A new frame has no names, so what stands in it sees what is around it. -/
theorem lookup?_newChild_self (s : Symbol) :
    (h.newChild env).2.lookup? (h.newChild env).1 s = h.lookup? env s := by
  have hnone : (h.newChild env).2.localSlot? h.frames.size s = none := by simp [localSlot?, Frame.slot?]
  have hresolve : (h.newChild env).2.resolve? (h.newChild env).1 s = (h.newChild env).2.resolve? env s := by
    show (h.newChild env).2.resolvePath? s (h.frames.size :: env.path) = _
    rw [resolvePath?, hnone]
    rfl
  rw [lookup?, hresolve]
  exact lookup?_newChild env s

/-- Inside a new scope the same names are known. -/
theorem Knows.newChild (hk : h.Knows env names) : (h.newChild env).2.Knows (h.newChild env).1 names where
  frames frame hframe := by
    rw [frames_newChild, Array.size_push]
    rcases List.mem_cons.1 hframe with rfl | hframe
    · exact Nat.lt_succ_self _
    · exact Nat.lt_succ_of_lt (hk.frames frame hframe)
  values b hb := (lookup?_newChild_self b.1).trans (hk.values b hb)

/-- A new scope elsewhere changes nothing of what is known. -/
theorem Knows.of_newChild (hk : h.Knows env names) (outer : Env) : (h.newChild outer).2.Knows env names where
  frames frame hframe := by
    rw [frames_newChild, Array.size_push]
    exact Nat.lt_succ_of_lt (hk.frames frame hframe)
  values b hb := (lookup?_newChild outer b.1).trans (hk.values b hb)

/-- Defining another name, in whatever frame, changes none of these. -/
theorem Knows.of_define (hk : h.Knows env names) (frame : FrameId) {name : Symbol} (hn : name ∉ names.map Prod.fst)
    (value : Value) (mutable : Bool) : (h.define frame name value mutable).Knows env names where
  frames f hf := by
    rw [size_frames_define]
    exact hk.frames f hf
  values b hb := by
    refine lookup?_define_of_ne h frame value mutable ?_ (hk.values b hb)
    rintro rfl
    exact hn (List.mem_map_of_mem hb)

/-- A new definition is known besides. -/
theorem Knows.define (hk : h.Knows env names) {name : Symbol} (hn : name ∉ names.map Prod.fst) (value : Value)
    (mutable : Bool) : (h.define env.frame name value mutable).Knows env ((name, value) :: names) where
  frames := (hk.of_define env.frame hn value mutable).frames
  values b hb := by
    rcases List.mem_cons.1 hb with rfl | hb
    · exact lookup?_define_self h (hk.frames env.frame List.mem_cons_self) name value mutable
    · exact (hk.of_define env.frame hn value mutable).values b hb

end Heap

/-- In the scope of a call of a function, the parameter is bound to the argument, and the names that the function knows from the
environment that it was made in are still known there and in the scope. -/
structure InCall (f : Lambda Value) (names : List (Symbol × Value)) (param : Symbol) (x : Value) (scope : Env) (h : Heap) :
    Prop where
  home : h.Knows f.env names
  scope : h.Knows scope ((param, x) :: names)

/-- A call makes such a scope. -/
theorem InCall.of_home {f : Lambda Value} {names : List (Symbol × Value)} {param : Symbol} {h : Heap}
    (hk : h.Knows f.env names) (hn : param ∉ names.map Prod.fst) (x : Value) :
    InCall f names param x (h.newChild f.env).1 ((h.newChild f.env).2.define h.frames.size param x false) where
  home := (hk.of_newChild f.env).of_define _ hn x false
  scope := hk.newChild.define hn x false

end MiniLisp
