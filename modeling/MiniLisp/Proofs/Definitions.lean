import MiniLisp.Proofs.Expansion.Code
import MiniLisp.Proofs.Frames
import MiniLisp.Proofs.Shadowing

/-!
# Definitions that fail

A definition checks what it is given before it binds anything: a function or macro its parameters, the use of a module the table,
and a block of bindings and a module work in a frame of their own. So a definition that fails has bound nothing in the frame in
which it stands; what has changed there was changed by the evaluation of its value. No slot stays behind reserved.

A `type` form is different. It binds the tags of its declarations one after another, and looks at each declaration only when it
comes to it. If one of them is faulty the form fails, and the tags before it stay bound (`TagsLeft`,
`type_leaves_tags_before_fault`).

The parts of a definition that cannot fail are total, its checks leave the machine alone, and checks followed by something total
are atomic: if they fail, the machine is as it was before.
-/

namespace MiniLisp

variable {α β : Type} {m m' : Machine} {e : Abort}

/-! ## How actions fail -/

namespace Action

/-- The action has a result, whatever the machine. -/
def Total (a : Action α) : Prop := ∀ m, ∃ v m', a m = .ok v m'

/-- The action leaves every machine as it is, however it ends. -/
def Idle (a : Action α) : Prop := ∀ m, after a m = m

/-- If the action fails, the machine is as it was before. -/
def Atomic (a : Action α) : Prop := ∀ m e m', a m = .error e m' → m' = m

/-- What consists of parts that have results has one. -/
theorem Total.bind {a : Action α} {f : α → Action β} (ha : a.Total) (hf : ∀ v, (f v).Total) : (a >>= f).Total := by
  intro m
  obtain ⟨v, m₁, hv⟩ := ha m
  obtain ⟨w, m₂, hw⟩ := hf v m₁
  exact ⟨w, m₂, (bind_of_ok f hv).trans hw⟩

/-- What always has a result leaves nothing behind on failure. -/
theorem Total.atomic {a : Action α} (ha : a.Total) : a.Atomic := by
  intro m e m' h
  obtain ⟨v, m₁, hv⟩ := ha m
  rw [hv] at h
  cases h

/-- If what follows the first part cannot fail, the first part does. -/
theorem error_of_bind_total {a : Action α} {f : α → Action β} (hf : ∀ v, (f v).Total) (h : (a >>= f) m = .error e m') :
    a m = .error e m' := by
  rcases bind_eq_error h with ha | ⟨v, m₁, -, hv⟩
  · exact ha
  · obtain ⟨w, m₂, hw⟩ := hf v m₁
    rw [hw] at hv
    cases hv

/-- An action stays atomic when something that cannot fail follows it. -/
theorem Atomic.bind_total {a : Action α} {f : α → Action β} (ha : a.Atomic) (hf : ∀ v, (f v).Total) : (a >>= f).Atomic :=
  fun m e m' h => ha m e m' (error_of_bind_total hf h)

/-- Checks may come before an action that is atomic. -/
theorem Atomic.check {a : Action α} {f : α → Action β} (ha : a.Idle) (hf : ∀ v, (f v).Atomic) : (a >>= f).Atomic := by
  intro m e m' h
  have hidle := ha m
  rcases bind_eq_error h with hv | ⟨v, m₁, hv, hrest⟩
  · rw [after_eq_of_error hv] at hidle
    exact hidle
  · rw [after_eq_of_ok hv] at hidle
    subst hidle
    exact hf v m₁ e m' hrest

theorem total_pure (v : α) : (pure v : Action α).Total := fun m => ⟨v, m, rfl⟩

theorem total_reserve (env : Env) (name : Symbol) (mutable : Bool) : (reserve env name mutable).Total := fun _ => ⟨_, _, rfl⟩

theorem total_changeHeap (f : Heap → Heap) : (changeHeap f).Total := fun _ => ⟨_, _, rfl⟩

theorem total_define (env : Env) (name : Symbol) (v : Value) (mutable : Bool) : (define env name v mutable).Total :=
  total_changeHeap _

theorem total_fill (slot : SlotId) (v : Value) : (fill slot v).Total := total_changeHeap _

theorem atomic_fail (e : Error) : (fail e : Action α).Atomic := by
  intro m e' m' h
  cases h
  rfl

theorem idle_ask (f : Machine → α) : (ask f).Idle := fun _ => rfl

theorem idle_ofExcept (r : Except Error α) : (ofExcept r).Idle := by
  intro m
  cases r with
  | ok v => rfl
  | error e => rfl

end Action

open MiniLisp.Action

namespace SpecialForm

theorem total_newLambda (name : Option Symbol) (params : Params) (body : List Value) (env : Env) :
    (newLambda name params body env).Total := fun _ => ⟨_, _, rfl⟩

/-- To give a function a name does not fail. -/
theorem total_named (name : Symbol) (v : Value) : (named name v).Total := by
  unfold named
  split
  · exact (total_newLambda _ _ _ _).bind fun f => total_pure _
  · exact total_pure v

/-! ## The parts of a definition -/

/-- The special forms that bind names. -/
def isDefinition : SpecialForm → Bool
  | .letForm | .letMutable | .defineMacro | .typeForm | .moduleForm | .useForm => true
  | _ => false

/-- The form whose value a `let` with one name binds, if it has these arguments. -/
def letValue : List Value → List Value
  | [.sym _, form] => [form]
  | _ => []

/-- Whether a `let` with these arguments is a block of bindings. -/
def isBlock : List Value → Bool
  | target :: _ => target.isList && !target.isSignature
  | [] => false

/-- The forms that a definition evaluates in the frame in which it stands. The values of a block and the declarations of a module
are evaluated in a frame of their own. -/
def valueForms (special : SpecialForm) (args : Value) : List Value :=
  match special with
  | .letForm | .letMutable => letValue (args.toList?.getD [])
  | _ => []

/-- Whether a definition does its work in a frame of its own. -/
def opensScope (special : SpecialForm) (args : Value) : Bool :=
  match special with
  | .moduleForm => true
  | .letForm | .letMutable => isBlock (args.toList?.getD [])
  | _ => false

/-- The tags that declarations bind, with their values, up to the first that is no declaration of a variant. -/
def tagsBeforeFault (typeName : Symbol) : List Value → List (Symbol × Value)
  | [] => []
  | declaration :: declarations =>
    match declaredVariant typeName declaration with
    | .ok variant => (variant.tag, tagValue variant) :: tagsBeforeFault typeName declarations
    | .error _ => []

/-- The tags that a `type` form with these arguments has bound when it fails, with their values. -/
def tagsLeft : List Value → List (Symbol × Value)
  | .sym typeName :: declaration :: declarations => tagsBeforeFault typeName (declaration :: declarations)
  | _ => []

/-! ## How each of them fails -/

section Failures

variable {eval tail : Evaluator} {env : Env} {args : List Value}

/-- Arguments that are no proper list are refused at once. -/
theorem arguments_bind_error {special : SpecialForm} {args : Value} {q : List Value → Action α}
    (h : (special.arguments args >>= q) m = .error e m') :
    (args.toList? = none ∧ m' = m) ∨ ∃ items, args.toList? = some items ∧ q items m = .error e m' := by
  unfold arguments Value.expectList at h
  cases hlist : args.toList? with
  | none =>
    rw [hlist] at h
    cases h
    exact .inl ⟨rfl, rfl⟩
  | some items =>
    rw [hlist] at h
    exact .inr ⟨items, rfl, h⟩

/-- What is neither a name nor a list with a name at its head is no signature. -/
theorem isSignature_eq_false {target : Value} (hsymbol : ∀ s, target ≠ .sym s)
    (hsignature : ∀ s rest, target ≠ .pair (.sym s) rest) : target.isSignature = false := by
  unfold Value.isSignature
  split
  · exact absurd rfl (hsymbol _)
  · exact absurd rfl (hsignature _ _)
  · rfl

/-- A block of bindings is worked on in a frame of its own, whatever frame it stands in. -/
theorem plainLet_routine_of_isBlock {can : Ability → Prop} {own : FrameId} (hx : can .expand) (hb : can .bind) (env : Env)
    (keyword : String) (mutable : Bool) (hblock : isBlock args = true) :
    Routine can own fun eval tail => plainLet eval tail env keyword mutable args := by
  unfold plainLet
  split
  · exact .fail _
  · cases hblock
  · cases hblock
  · split
    · exact block_routine hx hb env keyword mutable _ _
    · exact .fail _

/-- A definition that fails has left what the evaluation of its value left. -/
theorem plainLet_error {keyword : String} {mutable : Bool} (hblock : isBlock args = false)
    (h : plainLet eval tail env keyword mutable args m = .error e m') : m' = after (evalAll eval env (letValue args)) m := by
  unfold plainLet at h
  split at h
  · cases h
    rfl
  · rename_i name rest
    split at h
    · rename_i form
      -- Only the evaluation of the value can fail.
      have hvalue := error_of_bind_total (fun v => (total_named name v).bind fun w =>
        (total_define env name w mutable).bind fun _ => total_pure Value.nil) h
      show m' = after (evalAll eval env [form]) m
      rw [evalAll, after_bind_of_error _ hvalue]
    · rename_i hne
      have hnone : letValue (.sym name :: rest) = [] := by
        unfold letValue
        split
        · rename_i heq
          cases heq
          exact absurd rfl (hne _)
        · rfl
      cases h
      rw [hnone]
      rfl
  · rename_i name signature body
    -- The parameters are parsed before the slot is reserved, and nothing fails from there on.
    have hatomic : (do
        let params ← Action.ofExcept (Params.parse signature)
        let slot ← Action.reserve env name mutable
        let f ← newLambda (some name) params body env
        Action.fill slot (.closure f)
        return Value.nil : Action Value).Atomic :=
      .check (idle_ofExcept _) fun params => ((total_reserve env name mutable).bind fun slot =>
        (total_newLambda (some name) params body env).bind fun f =>
          (total_fill slot (.closure f)).bind fun _ => total_pure Value.nil).atomic
    exact hatomic m e m' h
  · rename_i target body hsymbol hsignature
    have hlist : target.isList = false := by
      have hnot : target.isSignature = false :=
        isSignature_eq_false (fun s hs => hsymbol s hs) fun s rest hs => hsignature s rest hs
      simpa [isBlock, hnot] using hblock
    have hnone : letValue (target :: body) = [] := by
      unfold letValue
      split
      · rename_i heq
        cases heq
        exact absurd rfl (hsymbol _)
      · rfl
    rw [if_neg (by simp [hlist])] at h
    cases h
    rw [hnone]
    rfl

/-- The definition of a macro is made as a whole or not at all. -/
theorem atomic_evalMacro (env : Env) (tail : Evaluator) (args : List Value) : (evalMacro env args >>= force tail).Atomic := by
  unfold evalMacro
  split
  · exact atomic_fail _
  · simp only [bind_assoc, pure_bind, force_done]
    exact .check (idle_ofExcept _) fun name => .check (idle_ofExcept _) fun params =>
      ((total_newLambda (some name) params _ env).bind fun f =>
        (total_define env name (.macroFn f) false).bind fun _ => total_pure Value.nil).atomic
  · exact atomic_fail _

/-- The names of a module are shared all together or not at all. -/
theorem atomic_useModule (name : Symbol) (env : Env) : (useModule name env).Atomic := by
  refine .check (idle_ask _) fun found => ?_
  cases found with
  | none => exact atomic_fail _
  | some home => exact (total_changeHeap _).atomic

/-- So the form `use` does all or nothing. -/
theorem atomic_evalUse (env : Env) (tail : Evaluator) (args : List Value) : (evalUse env args >>= force tail).Atomic := by
  unfold evalUse
  split
  · simp only [bind_assoc, pure_bind, force_done]
    exact .check (idle_ofExcept _) fun name => (atomic_useModule name env).bind_total fun _ => total_pure Value.nil
  · exact atomic_fail _

/-- Declarations of variants bind their tags up to the first that is faulty. -/
theorem declareVariants_error {typeName : Symbol} {declarations : List Value}
    (h : declareVariants env typeName declarations m = .error e m') :
    m' = { m with heap := m.heap.defineAll env.frame false (tagsBeforeFault typeName declarations) } := by
  induction declarations generalizing m with
  | nil => cases h
  | cons declaration declarations ih =>
    rw [declareVariants] at h
    cases hvariant : declaredVariant typeName declaration with
    | error e' =>
      rw [hvariant] at h
      cases h
      simp [tagsBeforeFault, hvariant, Heap.defineAll]
    | ok variant =>
      rw [hvariant] at h
      rw [ih h]
      simp [tagsBeforeFault, hvariant, Heap.defineAll]

/-- A `type` form that fails has bound the tags before the faulty declaration. -/
theorem evalType_error (h : (evalType env args >>= force tail) m = .error e m') :
    m' = { m with heap := m.heap.defineAll env.frame false (tagsLeft args) } := by
  unfold evalType at h
  split at h
  · rename_i target declaration declarations
    simp only [bind_assoc, pure_bind, force_done] at h
    cases target with
    | sym typeName => exact declareVariants_error (error_of_bind_total (fun _ => total_pure Value.nil) h)
    | _ =>
      cases h
      rfl
  · rename_i hfew
    have hnone : tagsLeft args = [] := by
      unfold tagsLeft
      split
      · exact absurd rfl (hfew _ _ _)
      · rfl
    cases h
    rw [hnone]
    rfl

/-- A definition that works in the frame in which it stands leaves the machine as the evaluation of its value left it. -/
theorem plain_error {special : SpecialForm} {args : Value} (hspecial : special.isDefinition = true)
    (htype : special ≠ .typeForm) (hscope : special.opensScope args = false)
    (h : special.plain eval tail env args m = .error e m') : m' = after (evalAll eval env (special.valueForms args)) m := by
  have hlet : ∀ (keyword : String) (mutable : Bool) (special : SpecialForm),
      isBlock (args.toList?.getD []) = false →
      (special.arguments args >>= fun args => plainLet eval tail env keyword mutable args) m = .error e m' →
      m' = after (evalAll eval env (letValue (args.toList?.getD []))) m := by
    intro keyword mutable special hblock h
    rcases arguments_bind_error h with ⟨hnone, rfl⟩ | ⟨items, hitems, h⟩
    · rw [hnone]
      rfl
    · rw [hitems] at hblock ⊢
      exact plainLet_error hblock h
  cases special with
  | letForm => exact hlet _ _ _ hscope h
  | letMutable => exact hlet _ _ _ hscope h
  | defineMacro =>
    have hatomic : Atomic (SpecialForm.plain eval tail env .defineMacro args) := by
      simp only [SpecialForm.plain, SpecialForm.step, bind_assoc]
      exact .check (idle_ofExcept _) fun items => atomic_evalMacro env tail items
    exact hatomic m e m' h
  | useForm =>
    have hatomic : Atomic (SpecialForm.plain eval tail env .useForm args) := by
      simp only [SpecialForm.plain, SpecialForm.step, bind_assoc]
      exact .check (idle_ofExcept _) fun items => atomic_evalUse env tail items
    exact hatomic m e m' h
  | typeForm => exact absurd rfl htype
  | moduleForm => cases hscope
  | _ => cases hspecial

/-- A type definition that fails has bound the tags before the declaration that is refused, and done nothing else. -/
theorem plain_type_error {args : Value} (h : SpecialForm.plain eval tail env .typeForm args m = .error e m') :
    m' = { m with heap := m.heap.defineAll env.frame false (tagsLeft (args.toList?.getD [])) } := by
  simp only [SpecialForm.plain, SpecialForm.step, bind_assoc] at h
  rcases arguments_bind_error h with ⟨hnone, rfl⟩ | ⟨items, hitems, h⟩
  · rw [hnone]
    rfl
  · rw [hitems]
    exact evalType_error h

/-- A block of bindings and a module are routines of any frame whatever: what they bind, they bind in a frame of their own. -/
theorem plain_routine_of_opensScope (env : Env) {special : SpecialForm} {args : Value}
    (hscope : special.opensScope args = true) (own : FrameId) :
    Routine (fun _ => True) own fun eval tail => special.plain eval tail env args := by
  have hlet : ∀ (keyword : String) (mutable : Bool) (special : SpecialForm), isBlock (args.toList?.getD []) = true →
      Routine (fun _ => True) own fun eval tail =>
        special.arguments args >>= fun args => plainLet eval tail env keyword mutable args := by
    intro keyword mutable special hblock
    cases hlist : args.toList? with
    | none =>
      rw [hlist] at hblock
      cases hblock
    | some items =>
      rw [hlist] at hblock
      simp only [special.arguments_of_list hlist, pure_bind]
      exact plainLet_routine_of_isBlock trivial trivial env keyword mutable hblock
  cases special with
  | letForm => exact hlet _ _ _ hscope
  | letMutable => exact hlet _ _ _ hscope
  | moduleForm => exact arguments_force _ args fun args => evalModule_routine trivial args
  | _ => cases hscope

end Failures

end SpecialForm

/-! ## Evaluating a definition -/

section Evaluation

variable {fuel : Nat} {special : SpecialForm} {args : Value} {env : Env}

/-- A special form is evaluated one level deeper, by the rule for its keyword. -/
theorem eval_special (fuel : Nat) (special : SpecialForm) (args : Value) (env : Env) :
    eval (fuel + 1) (.pair (.sym special.keyword) args) env =
      Action.nested (special.plain (eval fuel) (run fuel) env args) := by
  rw [eval_eq, run_succ]
  simp only [plainStep, SpecialForm.ofSymbol?_keyword]

/-- Where the limit of nesting is reached, no form is evaluated. -/
theorem after_evalAll_of_le (fuel : Nat) (env : Env) (forms : List Value) (hd : m.limits.maxDepth ≤ m.depth) :
    after (evalAll (eval fuel) env forms) m = m := by
  cases forms with
  | nil => rfl
  | cons form forms =>
    have hform : eval fuel form env m = .error (.error (.ofKind (.recursionLimit m.limits.maxDepth))) m := by
      rw [eval_eq, Action.nested, if_pos hd]
    rw [evalAll, after_bind_of_error _ hform]

/-- A form that opens a scope evaluates no value outside it. -/
theorem SpecialForm.valueForms_of_opensScope (hscope : special.opensScope args = true) : special.valueForms args = [] := by
  have hlet : ∀ items, SpecialForm.isBlock items = true → SpecialForm.letValue items = [] := by
    intro items hblock
    unfold SpecialForm.letValue
    split
    · cases hblock
    · rfl
  cases special with
  | letForm => exact hlet _ hscope
  | letMutable => exact hlet _ hscope
  | moduleForm => rfl
  | _ => cases hscope

/-- What a `type` form that fails has done: it has bound the tags before the faulty declaration, and nothing else. -/
structure TagsLeft (env : Env) (tags : List (Symbol × Value)) (m m' : Machine) : Prop where
  machine : m' = { m with heap := m.heap.defineAll env.frame false tags }
  bound : ∀ tag ∈ tags.map Prod.fst, ∃ slot, m.heap.slots.size ≤ slot ∧ m'.heap.localSlot? env.frame tag = some slot
  kept : ∀ name, name ∉ tags.map Prod.fst → m'.heap.localSlot? env.frame name = m.heap.localSlot? env.frame name

/-- Tags that are bound one after another are left bound, and everything else is as it was. -/
theorem tagsLeft_defineAll (henv : env.frame < m.heap.frames.size) (tags : List (Symbol × Value)) :
    TagsLeft env tags m { m with heap := m.heap.defineAll env.frame false tags } where
  machine := rfl
  bound _ htag := Heap.localSlot?_defineAll_of_mem m.heap henv false htag
  kept _ hname := Heap.localSlot?_defineAll_of_not_mem m.heap env.frame env.frame false hname

/-- A definition that works in a frame of its own changes no frame that was there. -/
theorem frames_of_opensScope (hscope : special.opensScope args = true)
    (h : special.plain (eval fuel) (run fuel) env args { m with depth := m.depth + 1 } = .error e m') :
    ∀ frame < m.heap.frames.size, m'.heap.frames[frame]? = m.heap.frames[frame]? := by
  intro frame hlt
  -- The work belongs to no frame that is there, so take one that is not.
  have hroutine := SpecialForm.plain_routine_of_opensScope env hscope m.heap.frames.size
  have hframes := hroutine.obeys_expanding frames_law (eval_obeys frames_law fuel) (run_obeys frames_law fuel)
    { m with depth := m.depth + 1 }
  rw [after_eq_of_error h] at hframes
  exact hframes.frames frame hlt hlt.ne

/-- A definition that fails, and is no `type` form, leaves the names of its frame as the evaluation of its value left them. Unless it
works in a frame of its own, it leaves all of the machine like that; if it does, it changes no frame that was there. A `type` form
that fails leaves the tags before its first faulty declaration bound to new slots, and all else as it was. -/
theorem failed_definition_leaves_frame (hspecial : special.isDefinition = true) (henv : env.frame < m.heap.frames.size)
    (h : eval (fuel + 1) (.pair (.sym special.keyword) args) env m = .error e m') :
    let values := after (evalAll (eval fuel) env (special.valueForms args)) { m with depth := m.depth + 1 }
    (special ≠ .typeForm → m'.heap.frames[env.frame]? = values.heap.frames[env.frame]?) ∧
    (special ≠ .typeForm → special.opensScope args = false → m' = { values with depth := values.depth - 1 }) ∧
    (special.opensScope args = true → ∀ frame < m.heap.frames.size, m'.heap.frames[frame]? = m.heap.frames[frame]?) ∧
    (special = .typeForm → m.depth < m.limits.maxDepth →
      TagsLeft env (SpecialForm.tagsLeft (args.toList?.getD [])) m m') := by
  intro values
  rw [eval_special] at h
  rcases Action.of_nested_eq_error h with ⟨hd, rfl⟩ | ⟨hd, m₁, hrun, rfl⟩
  · have hvalues : values = { m' with depth := m'.depth + 1 } := by
      refine after_evalAll_of_le fuel env _ ?_
      exact Nat.le_succ_of_le hd
    rw [hvalues]
    refine ⟨fun _ => rfl, fun _ _ => rfl, fun _ _ _ => rfl, fun _ hd' => ?_⟩
    exact absurd hd' (Nat.not_lt.2 hd)
  · have hplain : special ≠ .typeForm → special.opensScope args = false → m₁ = values :=
      fun htype hscope => SpecialForm.plain_error hspecial htype hscope hrun
    have hkept : special.opensScope args = true → ∀ frame < m.heap.frames.size,
        m₁.heap.frames[frame]? = m.heap.frames[frame]? := fun hscope => frames_of_opensScope hscope hrun
    refine ⟨fun htype => ?_, fun htype hscope => ?_, hkept, ?_⟩
    · cases hscope : special.opensScope args with
      | true =>
        have hvalues : values = { m with depth := m.depth + 1 } := by
          show after (evalAll (eval fuel) env (special.valueForms args)) _ = _
          rw [SpecialForm.valueForms_of_opensScope hscope]
          rfl
        rw [hvalues]
        exact hkept hscope env.frame henv
      | false => rw [hplain htype hscope]
    · rw [hplain htype hscope]
    · rintro rfl -
      rw [SpecialForm.plain_type_error hrun]
      exact tagsLeft_defineAll henv _

end Evaluation

/-- A machine with one frame that binds nothing. -/
def blankMachine : Machine where
  heap := { frames := #[{}] }
  global := ⟨0, []⟩

/-- The function `(let (f 5) nil)` has a faulty parameter: its definition fails, and no slot is reserved for `f`. -/
theorem failed_definition_leaves_frame_signature :
    ∃ e, eval 1 (.list [.sym "let", .list [.sym "f", .ofInt 5], .nil]) ⟨0, []⟩ blankMachine = .error e blankMachine := by
  obtain ⟨e, m', hrun⟩ : ∃ e m',
      eval 1 (.list [.sym "let", .list [.sym "f", .ofInt 5], .nil]) ⟨0, []⟩ blankMachine = .error e m' := ⟨_, _, rfl⟩
  have hspecial : SpecialForm.letForm.isDefinition = true := rfl
  obtain ⟨-, hmachine, -, -⟩ := failed_definition_leaves_frame hspecial (by decide) hrun
  exact ⟨e, hrun.trans (congrArg _ (hmachine (by decide) rfl))⟩

/-- The form `(type T A 5)` fails, since `5` is no declaration of a variant, and leaves `A` bound. -/
theorem type_leaves_tags_before_fault :
    ∃ e m', eval 1 (.list [.sym "type", .sym "T", .sym "A", .ofInt 5]) ⟨0, []⟩ blankMachine = .error e m' ∧
      blankMachine.heap.localSlot? 0 "A" = none ∧ m'.heap.localSlot? 0 "A" = some 0 :=
  ⟨_, _, rfl, rfl, rfl⟩

end MiniLisp
