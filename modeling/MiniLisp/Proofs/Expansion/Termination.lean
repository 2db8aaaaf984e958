import MiniLisp.Proofs.Expansion.FixedPoint

/-!
# Expansion always ends

An expansion may be larger than the call it replaces and may hold further calls, so neither the size of a form nor the number of
its macro calls goes down. `Walk` says what expansion does without a bound on its steps: a form is replaced while its head calls a
macro, and then the code inside it is walked over, one level further in if the form was replaced. The running of macros is any
function that gives a form or an error; only the limits it must leave as they are.

Such a walk ends from every form (`expansion_ends`): the levels that are left go down at every replaced form, and between two
replaced forms the size goes down. There is only one walk, and it is what `expand` does.
-/

namespace MiniLisp

variable {α β : Type}

/-- How work on a machine ended: with a value or with an error, and with some machine. -/
inductive Outcome (α : Type) where
  | value (v : α) (m : Machine)
  | error (e : Error) (m : Machine)

namespace Outcome

def machine : Outcome α → Machine
  | value _ m | error _ m => m

/-- The same end with something else made of the value. -/
def map (f : α → β) : Outcome α → Outcome β
  | value v m => value (f v) m
  | error e m => error e m

/-- The same end as the result of an action. -/
def result : Outcome α → EStateM.Result Abort Machine α
  | value v m => .ok v m
  | error e m => .error (.error e) m

@[simp]
theorem machine_map (f : α → β) (o : Outcome α) : (o.map f).machine = o.machine := by cases o <;> rfl

end Outcome

/-- Any way to run macros on forms that always ends. -/
abbrev MacroRunner := Lambda Value → List Value → Machine → Outcome Value

/-- Running a macro leaves the limits as they are. -/
def MacroRunner.KeepsLimits (call : MacroRunner) : Prop := ∀ f args m, (call f args m).machine.limits = m.limits

/-- A macro that gives a form has left the limits. -/
theorem MacroRunner.KeepsLimits.of_value {call : MacroRunner} (hk : call.KeepsLimits) {f : Lambda Value} {args : List Value}
    {v : Value} {m m' : Machine} (h : call f args m = .value v m') : m'.limits = m.limits := by
  have hlimits := hk f args m
  rwa [h] at hlimits

/-- A macro that fails has left the limits. -/
theorem MacroRunner.KeepsLimits.of_error {call : MacroRunner} (hk : call.KeepsLimits) {f : Lambda Value} {args : List Value}
    {e : Error} {m m' : Machine} (h : call f args m = .error e m') : m'.limits = m.limits := by
  have hlimits := hk f args m
  rwa [h] at hlimits

/-- The complaint about a form that was replaced too often. -/
def noFixedPoint (f : Lambda Value) (limit : Nat) : Error :=
  expansionError (macroName f) ("no fixed point after " ++ toString limit ++ " rewrites")

/-- A form that was replaced `times` times before is replaced while its head calls a macro, `total` times in the end. -/
inductive Replaces (call : MacroRunner) (env : Env) : (times : Nat) → Value → Machine → (total : Nat) → Outcome Value → Prop where
  | accepted {times : Nat} {form : Value} {m : Machine} (hnone : m.macroAtHead? env form = none) :
      Replaces call env times form m times (.value form m)
  | tooOften {times : Nat} {form : Value} {m : Machine} {f : Lambda Value} (hf : m.macroAtHead? env form = some f)
      (hle : m.limits.maxMacroExpansions ≤ times) :
      Replaces call env times form m times (.error (noFixedPoint f m.limits.maxMacroExpansions) m)
  | improper {times : Nat} {form : Value} {m : Machine} {f : Lambda Value} {e : Error} (hf : m.macroAtHead? env form = some f)
      (hlt : times < m.limits.maxMacroExpansions) (hargs : macroArguments f form = .error e) :
      Replaces call env times form m times (.error e m)
  | failed {times : Nat} {form : Value} {m m' : Machine} {f : Lambda Value} {args : List Value} {e : Error}
      (hf : m.macroAtHead? env form = some f) (hlt : times < m.limits.maxMacroExpansions)
      (hargs : macroArguments f form = .ok args) (hcall : call f args m = .error e m') :
      Replaces call env times form m times (.error e m')
  | again {times total : Nat} {form v : Value} {m m' : Machine} {f : Lambda Value} {args : List Value} {o : Outcome Value}
      (hf : m.macroAtHead? env form = some f) (hlt : times < m.limits.maxMacroExpansions)
      (hargs : macroArguments f form = .ok args) (hcall : call f args m = .value v m')
      (hrest : Replaces call env (times + 1) v m' total o) : Replaces call env times form m total o

/-- A form that was walked over: how many replaced forms lie around it, and how often it was replaced itself. -/
structure Visit where
  enclosing : Nat
  replaced : Nat

/-- The number of replaced forms around the code of the form. -/
def Visit.around (v : Visit) : Nat := if v.replaced = 0 then v.enclosing else v.enclosing + 1

/-- A replaced form uses up one level. -/
theorem Visit.around_add_levels (v : Visit) (levels : Nat) :
    v.around + (if v.replaced = 0 then levels + 1 else levels) = v.enclosing + (levels + 1) := by
  unfold Visit.around
  split <;> omega

/-- Forms with `enclosing` replaced forms around them are expanded from left to right. Each of them is replaced while its head
calls a macro, then the code inside it is expanded. -/
inductive Walk (call : MacroRunner) (env : Env) :
    (enclosing : Nat) → List Value → Machine → List Visit → Outcome (List Value) → Prop where
  | nil {enclosing : Nat} {m : Machine} : Walk call env enclosing [] m [] (.value [] m)
  | tooDeep {enclosing : Nat} {form : Value} {rest : List Value} {m : Machine}
      (hlt : m.limits.maxMacroExpansions < enclosing) :
      Walk call env enclosing (form :: rest) m [] (.error (tooDeep m.limits.maxMacroExpansions form) m)
  | stuck {enclosing replaced : Nat} {form : Value} {rest : List Value} {m m' : Machine} {e : Error}
      (hle : enclosing ≤ m.limits.maxMacroExpansions) (hreplace : Replaces call env 0 form m replaced (.error e m')) :
      Walk call env enclosing (form :: rest) m [⟨enclosing, replaced⟩] (.error e m')
  | inside {enclosing replaced : Nat} {form accepted : Value} {rest : List Value} {m m₁ m' : Machine} {visits : List Visit}
      {e : Error} (hle : enclosing ≤ m.limits.maxMacroExpansions)
      (hreplace : Replaces call env 0 form m replaced (.value accepted m₁))
      (hcode : Walk call env (Visit.around ⟨enclosing, replaced⟩) accepted.code m₁ visits (.error e m')) :
      Walk call env enclosing (form :: rest) m (⟨enclosing, replaced⟩ :: visits) (.error e m')
  | cons {enclosing replaced : Nat} {form accepted : Value} {rest code : List Value} {m m₁ m₂ : Machine}
      {visits more : List Visit} {o : Outcome (List Value)} (hle : enclosing ≤ m.limits.maxMacroExpansions)
      (hreplace : Replaces call env 0 form m replaced (.value accepted m₁))
      (hcode : Walk call env (Visit.around ⟨enclosing, replaced⟩) accepted.code m₁ visits (.value code m₂))
      (hrest : Walk call env enclosing rest m₂ more o) :
      Walk call env enclosing (form :: rest) m (⟨enclosing, replaced⟩ :: visits ++ more)
        (o.map (accepted.holes.fill code :: ·))

/-! ## Replacing a form -/

section Replace

variable {call : MacroRunner} {env : Env} {limit times total : Nat} {form : Value} {m : Machine} {o : Outcome Value}

/-- However often a form is replaced, the limit stays. -/
theorem Replaces.keepsLimit (hk : call.KeepsLimits) (h : Replaces call env times form m total o)
    (hm : m.limits.maxMacroExpansions = limit) : o.machine.limits.maxMacroExpansions = limit := by
  induction h with
  | accepted | tooOften | improper => exact hm
  | failed _ _ _ hcall => exact (congrArg Limits.maxMacroExpansions (hk.of_error hcall)).trans hm
  | again _ _ _ hcall _ ih => exact ih ((congrArg Limits.maxMacroExpansions (hk.of_value hcall)).trans hm)

/-- The replacements that were made before count. -/
theorem Replaces.le_total (h : Replaces call env times form m total o) : times ≤ total := by
  induction h with
  | again _ _ _ _ _ ih => omega
  | _ => exact Nat.le_refl _

/-- No form is replaced more often than the limit allows. -/
theorem Replaces.total_le (hk : call.KeepsLimits) (h : Replaces call env times form m total o)
    (hm : m.limits.maxMacroExpansions = limit) (hle : times ≤ limit) : total ≤ limit := by
  induction h with
  | again _ hlt _ hcall _ ih =>
    rw [hm] at hlt
    exact ih ((congrArg Limits.maxMacroExpansions (hk.of_value hcall)).trans hm) hlt
  | _ => exact hle

/-- A form that was not replaced is what it was. -/
theorem Replaces.eq_of_zero {accepted : Value} {m' : Machine} (h : Replaces call env 0 form m 0 (.value accepted m')) :
    accepted = form ∧ m' = m := by
  cases h with
  | accepted => exact ⟨rfl, rfl⟩
  | again _ _ _ _ hrest => exact absurd hrest.le_total (by omega)

/-- There is only one way to replace a form. -/
theorem Replaces.unique (h : Replaces call env times form m total o) {total' : Nat} {o' : Outcome Value}
    (h' : Replaces call env times form m total' o') : total = total' ∧ o = o' := by
  induction h generalizing total' o' with
  | accepted hnone => cases h' <;> simp_all
  | tooOften hf hle =>
    cases h' with
    | tooOften hf' => simp_all
    | accepted hnone => simp_all
    | improper _ hlt | failed _ hlt | again _ hlt => omega
  | improper hf hlt hargs =>
    cases h' with
    | tooOften _ hle => omega
    | _ => simp_all
  | failed hf hlt hargs hcall =>
    cases h' with
    | tooOften _ hle => omega
    | _ => simp_all
  | again hf hlt hargs hcall hrest ih =>
    cases h' with
    | tooOften _ hle => omega
    | again hf' _ hargs' hcall' hrest' =>
      obtain rfl := Option.some.inj (hf.symm.trans hf')
      obtain rfl := Except.ok.inj (hargs.symm.trans hargs')
      obtain ⟨rfl, rfl⟩ := Outcome.value.inj (hcall.symm.trans hcall')
      exact ih hrest'
    | _ => simp_all

/-- Replacing a form ends: every time there is one replacement less left. -/
theorem exists_replaces (hk : call.KeepsLimits) (env : Env) {left : Nat} (form : Value) {m : Machine}
    (hleft : times + left = m.limits.maxMacroExpansions) : ∃ total o, Replaces call env times form m total o := by
  induction left generalizing times form m with
  | zero =>
    cases hf : m.macroAtHead? env form with
    | none => exact ⟨_, _, .accepted hf⟩
    | some f => exact ⟨_, _, .tooOften hf (by omega)⟩
  | succ left ih =>
    have hlt : times < m.limits.maxMacroExpansions := by omega
    cases hf : m.macroAtHead? env form with
    | none => exact ⟨_, _, .accepted hf⟩
    | some f =>
      cases hargs : macroArguments f form with
      | error e => exact ⟨_, _, .improper hf hlt hargs⟩
      | ok args =>
        cases hcall : call f args m with
        | error e m' => exact ⟨_, _, .failed hf hlt hargs hcall⟩
        | value v m' =>
          have hrest : times + 1 + left = m'.limits.maxMacroExpansions := by
            rw [hk.of_value hcall]
            omega
          obtain ⟨total, o, h⟩ := ih v hrest
          exact ⟨total, o, .again hf hlt hargs hcall h⟩

end Replace

/-! ## Walking over forms -/

section Walk

variable {call : MacroRunner} {env : Env} {limit enclosing : Nat} {forms : List Value} {m : Machine} {visits : List Visit}
  {o : Outcome (List Value)}

/-- Wherever a walk ends, the limit is what it was. -/
theorem Walk.keepsLimit (hk : call.KeepsLimits) (h : Walk call env enclosing forms m visits o)
    (hm : m.limits.maxMacroExpansions = limit) : o.machine.limits.maxMacroExpansions = limit := by
  induction h with
  | nil | tooDeep => exact hm
  | stuck _ hreplace => exact hreplace.keepsLimit hk hm
  | inside _ hreplace _ ih => exact ih (hreplace.keepsLimit hk hm)
  | cons _ hreplace _ _ ihcode ihrest =>
    rw [Outcome.machine_map]
    exact ihrest (ihcode (hreplace.keepsLimit hk hm))

/-- Every form that is walked over keeps to both limits. -/
theorem Walk.bounded (hk : call.KeepsLimits) (h : Walk call env enclosing forms m visits o)
    (hm : m.limits.maxMacroExpansions = limit) : ∀ v ∈ visits, v.enclosing ≤ limit ∧ v.replaced ≤ limit := by
  induction h with
  | nil | tooDeep => simp
  | stuck hle hreplace =>
    rw [hm] at hle
    intro v hv
    obtain rfl := List.mem_singleton.1 hv
    exact ⟨hle, hreplace.total_le hk hm (Nat.zero_le _)⟩
  | inside hle hreplace _ ih =>
    rw [hm] at hle
    exact List.forall_mem_cons.2 ⟨⟨hle, hreplace.total_le hk hm (Nat.zero_le _)⟩, ih (hreplace.keepsLimit hk hm)⟩
  | cons hle hreplace hcode _ ihcode ihrest =>
    have hm₁ := hreplace.keepsLimit hk hm
    rw [hm] at hle
    intro v hv
    rcases List.mem_append.1 hv with hv | hv
    · rcases List.mem_cons.1 hv with rfl | hv
      · exact ⟨hle, hreplace.total_le hk hm (Nat.zero_le _)⟩
      · exact ihcode hm₁ v hv
    · exact ihrest (hcode.keepsLimit hk hm₁) v hv

/-- There is only one walk over some forms. -/
theorem Walk.unique (h : Walk call env enclosing forms m visits o) {visits' : List Visit} {o' : Outcome (List Value)}
    (h' : Walk call env enclosing forms m visits' o') : visits = visits' ∧ o = o' := by
  induction h generalizing visits' o' with
  | nil =>
    cases h'
    exact ⟨rfl, rfl⟩
  | tooDeep hlt =>
    cases h' with
    | tooDeep => exact ⟨rfl, rfl⟩
    | stuck hle | inside hle | cons hle => omega
  | stuck hle hreplace =>
    cases h' with
    | tooDeep hlt => omega
    | stuck _ hreplace' =>
      obtain ⟨rfl, ho⟩ := hreplace.unique hreplace'
      obtain ⟨rfl, rfl⟩ := Outcome.error.inj ho
      exact ⟨rfl, rfl⟩
    | inside _ hreplace' | cons _ hreplace' => cases (hreplace.unique hreplace').2
  | inside hle hreplace hcode ih =>
    cases h' with
    | tooDeep hlt => omega
    | stuck _ hreplace' => cases (hreplace.unique hreplace').2
    | inside _ hreplace' hcode' =>
      obtain ⟨rfl, ho⟩ := hreplace.unique hreplace'
      obtain ⟨rfl, rfl⟩ := Outcome.value.inj ho
      obtain ⟨rfl, ho⟩ := ih hcode'
      exact ⟨rfl, by rw [Outcome.error.injEq] at ho; rw [ho.1, ho.2]⟩
    | cons _ hreplace' hcode' =>
      obtain ⟨rfl, ho⟩ := hreplace.unique hreplace'
      obtain ⟨rfl, rfl⟩ := Outcome.value.inj ho
      cases (ih hcode').2
  | cons hle hreplace hcode hrest ihcode ihrest =>
    cases h' with
    | tooDeep hlt => omega
    | stuck _ hreplace' => cases (hreplace.unique hreplace').2
    | inside _ hreplace' hcode' =>
      obtain ⟨rfl, ho⟩ := hreplace.unique hreplace'
      obtain ⟨rfl, rfl⟩ := Outcome.value.inj ho
      cases (ihcode hcode').2
    | cons _ hreplace' hcode' hrest' =>
      obtain ⟨rfl, ho⟩ := hreplace.unique hreplace'
      obtain ⟨rfl, rfl⟩ := Outcome.value.inj ho
      obtain ⟨rfl, ho⟩ := ihcode hcode'
      obtain ⟨rfl, rfl⟩ := Outcome.value.inj ho
      obtain ⟨rfl, rfl⟩ := ihrest hrest'
      exact ⟨rfl, rfl⟩

/-- Forms of at most `rank` parts, if the walk one level further in ends from everywhere. -/
theorem exists_walk_within (hk : call.KeepsLimits) (hle : enclosing ≤ limit)
    (hdeeper : ∀ forms m, m.limits.maxMacroExpansions = limit → ∃ visits o, Walk call env (enclosing + 1) forms m visits o)
    {rank : Nat} (hrank : ∀ form ∈ forms, form.size ≤ rank) (hm : m.limits.maxMacroExpansions = limit) :
    ∃ visits o, Walk call env enclosing forms m visits o := by
  -- A form that is not replaced has smaller code, and the code of a replaced form lies one level further in.
  induction rank generalizing forms m with
  | zero =>
    cases forms with
    | nil => exact ⟨_, _, .nil⟩
    | cons form rest => exact absurd (hrank form List.mem_cons_self) (by have := form.size_pos; omega)
  | succ rank ih =>
    induction forms generalizing m with
    | nil => exact ⟨_, _, .nil⟩
    | cons form rest ihrest =>
      obtain ⟨hform, hrest⟩ := List.forall_mem_cons.1 hrank
      have hleft : 0 + limit = m.limits.maxMacroExpansions := by omega
      obtain ⟨replaced, o, hreplace⟩ := exists_replaces hk env form hleft
      have hle' : enclosing ≤ m.limits.maxMacroExpansions := by omega
      cases o with
      | error e m' => exact ⟨_, _, .stuck hle' hreplace⟩
      | value accepted m₁ =>
        have hm₁ : m₁.limits.maxMacroExpansions = limit := hreplace.keepsLimit hk hm
        have hcode : ∃ visits o, Walk call env (Visit.around ⟨enclosing, replaced⟩) accepted.code m₁ visits o := by
          by_cases hzero : replaced = 0
          · subst hzero
            obtain ⟨rfl, rfl⟩ := hreplace.eq_of_zero
            refine ih (fun g hg => ?_) hm
            have := Value.size_lt_of_mem_code hg
            omega
          · rw [Visit.around, if_neg hzero]
            exact hdeeper _ _ hm₁
        obtain ⟨visits, o, hcode⟩ := hcode
        cases o with
        | error e m' => exact ⟨_, _, .inside hle' hreplace hcode⟩
        | value code m₂ =>
          obtain ⟨more, o, hmore⟩ := ihrest hrest (hcode.keepsLimit hk hm₁)
          exact ⟨_, _, .cons hle' hreplace hcode hmore⟩

/-- A walk ends from all forms: by induction on the levels that are left. -/
theorem exists_walk (hk : call.KeepsLimits) (env : Env) {levels : Nat} (hlevels : enclosing + levels = limit + 1)
    (forms : List Value) {m : Machine} (hm : m.limits.maxMacroExpansions = limit) :
    ∃ visits o, Walk call env enclosing forms m visits o := by
  induction levels generalizing enclosing forms m with
  | zero =>
    cases forms with
    | nil => exact ⟨_, _, .nil⟩
    | cons form rest => exact ⟨_, _, .tooDeep (by omega)⟩
  | succ levels ih =>
    have hdeeper : ∀ forms m, m.limits.maxMacroExpansions = limit →
        ∃ visits o, Walk call env (enclosing + 1) forms m visits o := by
      intro forms m hm
      exact ih (by omega) forms hm
    have hrank : ∀ form ∈ forms, form.size ≤ Value.sizeItems forms := fun form hf => Value.size_le_of_mem hf
    exact exists_walk_within hk (by omega) hdeeper hrank hm

end Walk

/-! ## Expansion is such a walk -/

section Agree

variable {eval : Evaluator} {env : Env} {limit : Nat}

/-- A form that calls a macro after the last replacement is not accepted. -/
theorem replaceHead_of_tooOften (eval : Evaluator) (limit : Nat) (replaced : Bool) {form : Value} {f : Lambda Value} {m : Machine}
    (hf : m.macroAtHead? env form = some f) :
    replaceHead eval env limit replaced 0 form m = .error (.error (noFixedPoint f limit)) m := by
  have hask : Action.ask (fun m => m.macroAtHead? env form) m = .ok (some f) m := by rw [Action.ask, hf]
  rw [replaceHead, Action.bind_of_ok _ hask]
  rfl

/-- A macro call whose arguments are refused ends with the complaint. -/
theorem replaceHead_of_improper (eval : Evaluator) (limit : Nat) (replaced : Bool) (remaining : Nat) {form : Value}
    {f : Lambda Value} {e : Error} {m : Machine} (hf : m.macroAtHead? env form = some f)
    (hargs : macroArguments f form = .error e) :
    replaceHead eval env limit replaced (remaining + 1) form m = .error (.error e) m := by
  have hask : Action.ask (fun m => m.macroAtHead? env form) m = .ok (some f) m := by rw [Action.ask, hf]
  rw [replaceHead, Action.bind_of_ok _ hask]
  simp only [hargs]
  rfl

/-- A macro call that fails ends with the failure. -/
theorem replaceHead_of_failed (limit : Nat) (replaced : Bool) (remaining : Nat) {form : Value} {f : Lambda Value}
    {args : List Value} {e : Abort} {m m' : Machine} (hf : m.macroAtHead? env form = some f)
    (hargs : macroArguments f form = .ok args) (he : expandCall eval f args m = .error e m') :
    replaceHead eval env limit replaced (remaining + 1) form m = .error e m' := by
  have hask : Action.ask (fun m => m.macroAtHead? env form) m = .ok (some f) m := by rw [Action.ask, hf]
  rw [replaceHead, Action.bind_of_ok _ hask]
  have hok : Action.ofExcept (macroArguments f form) m = .ok args m := by rw [hargs]; rfl
  exact (Action.bind_of_ok _ hok).trans (Action.bind_of_error _ he)

/-- A form that was not replaced is the form that it was. -/
theorem eq_of_not_replaced {remaining : Nat} {form form' : Value} {m m' : Machine}
    (h : replaceHead eval env limit false remaining form m = .ok (form', false) m') : form' = form := by
  rcases replaceHead_cases h with ⟨-, heq, -⟩ | ⟨_, _, _, _, _, -, -, -, -, hrest⟩
  · exact heq
  · cases replaced_of_replaceHead hrest

/-- Visits that are the same for each form are the same for all. -/
theorem visitAll_congr {visit visit' : Value → Action Value} {forms : List Value} (h : ∀ form ∈ forms, visit form = visit' form) :
    visitAll visit forms = visitAll visit' forms := by
  induction forms with
  | nil => rfl
  | cons form rest ih =>
    obtain ⟨hform, hrest⟩ := List.forall_mem_cons.1 h
    rw [visitAll, visitAll, hform, ih hrest]

/-- Replace a form, then visit the code inside it: with `deeper` if the form was replaced, else with `beside`. -/
def expandForm (eval : Evaluator) (env : Env) (limit : Nat) (deeper beside : Value → Action Value) (form : Value) :
    Action Value := do
  let (accepted, replaced) ← replaceHead eval env limit false limit form
  if replaced then expandChildren deeper accepted else expandChildren beside accepted

/-- The expansion of a form depends on the visits of its code alone, where it is not replaced. -/
theorem expandForm_congr {deeper beside beside' : Value → Action Value} {form : Value}
    (h : ∀ g ∈ form.code, beside g = beside' g) :
    expandForm eval env limit deeper beside form = expandForm eval env limit deeper beside' form := by
  refine Action.bind_congr_of_ok fun v m m' hv => ?_
  obtain ⟨accepted, replaced⟩ := v
  cases replaced with
  | true => rfl
  | false =>
    obtain rfl := eq_of_not_replaced hv
    have hcode : visitAll beside accepted.holes.code = visitAll beside' accepted.holes.code := visitAll_congr h
    show expandChildren beside accepted = expandChildren beside' accepted
    rw [expandChildren_eq, expandChildren_eq, Holes.run, Holes.run, hcode]

/-- The rank that a form is given does not matter if it is large enough. -/
theorem expandWithin_rank {deeper : Value → Action Value} {rank rank' : Nat} {form : Value} (h : form.size ≤ rank)
    (h' : form.size ≤ rank') : expandWithin eval env limit deeper rank form = expandWithin eval env limit deeper rank' form := by
  induction rank generalizing rank' form with
  | zero => exact absurd form.size_pos (by omega)
  | succ rank ih =>
    cases rank' with
    | zero => exact absurd form.size_pos (by omega)
    | succ rank' =>
      refine expandForm_congr fun g hg => ?_
      have := Value.size_lt_of_mem_code hg
      exact ih (by omega) (by omega)

/-- What a level does, without a rank. -/
theorem expandLevel_succ (eval : Evaluator) (env : Env) (limit levels : Nat) (form : Value) :
    expandLevel eval env limit (levels + 1) form =
      expandForm eval env limit (expandLevel eval env limit levels) (expandLevel eval env limit (levels + 1)) form := by
  obtain ⟨rank, hrank⟩ : ∃ rank, form.size = rank + 1 := ⟨form.size - 1, by have := form.size_pos; omega⟩
  rw [expandLevel, hrank]
  refine expandForm_congr fun g hg => ?_
  have := Value.size_lt_of_mem_code hg
  exact expandWithin_rank (by omega) (Nat.le_refl _)

variable {call : MacroRunner}

/-- The replacing of macro calls does what the relation says, by induction on it. -/
theorem Replaces.replaceHead (hcall : ∀ f args m, expandCall eval f args m = (call f args m).result) (hk : call.KeepsLimits)
    {times total left : Nat} {form : Value} {m : Machine} {o : Outcome Value} (h : Replaces call env times form m total o)
    (hm : m.limits.maxMacroExpansions = limit) (hleft : times + left = limit) :
    MiniLisp.replaceHead eval env limit (decide (times ≠ 0)) left form m =
      (o.map fun v => (v, decide (total ≠ 0))).result := by
  induction h generalizing left with
  | accepted hnone => exact replaceHead_of_none eval limit _ left hnone
  | tooOften hf hle =>
    obtain rfl : left = 0 := by omega
    rw [replaceHead_of_tooOften eval limit _ hf, hm]
    rfl
  | improper hf hlt hargs =>
    obtain ⟨left, rfl⟩ : ∃ k, left = k + 1 := ⟨left - 1, by omega⟩
    exact replaceHead_of_improper eval limit _ left hf hargs
  | failed hf hlt hargs hfailed =>
    obtain ⟨left, rfl⟩ : ∃ k, left = k + 1 := ⟨left - 1, by omega⟩
    refine replaceHead_of_failed limit _ left hf hargs ?_
    rw [hcall, hfailed]
    rfl
  | @again times total _ _ _ _ _ _ _ hf hlt hargs hvalue _ ih =>
    obtain ⟨left, rfl⟩ : ∃ k, left = k + 1 := ⟨left - 1, by omega⟩
    have hv := (hcall _ _ _).trans (congrArg Outcome.result hvalue)
    rw [replaceHead_of_call limit _ left hf hargs hv]
    exact ih ((congrArg Limits.maxMacroExpansions (hk.of_value hvalue)).trans hm) (by omega)

/-- A form that was accepted is expanded to its shape with the code inside it expanded. -/
theorem expandLevel_of_accepted {levels replaced : Nat} {form accepted : Value} {m m₁ : Machine} {o : Outcome (List Value)}
    (hreplace : replaceHead eval env limit false limit form m = .ok (accepted, decide (replaced ≠ 0)) m₁)
    (hcode : visitAll (expandLevel eval env limit (if replaced = 0 then levels + 1 else levels)) accepted.code m₁ = o.result) :
    expandLevel eval env limit (levels + 1) form m = (o.map accepted.holes.fill).result := by
  have hchildren : ∀ visit, visitAll visit accepted.code m₁ = o.result →
      expandChildren visit accepted m₁ = (o.map accepted.holes.fill).result := by
    intro visit hvisit
    rw [expandChildren_eq]
    cases o with
    | value code m' => exact Action.bind_of_ok _ hvisit
    | error e m' => exact Action.bind_of_error _ hvisit
  rw [expandLevel_succ, expandForm, Action.bind_of_ok _ hreplace]
  by_cases hzero : replaced = 0
  · rw [if_pos hzero] at hcode
    simpa [hzero] using hchildren _ hcode
  · rw [if_neg hzero] at hcode
    simpa [hzero] using hchildren _ hcode

/-- Expanding forms one after the other, with as many levels as there are left, is the walk over them. -/
theorem Walk.visitAll (hcall : ∀ f args m, expandCall eval f args m = (call f args m).result) (hk : call.KeepsLimits)
    {enclosing levels : Nat} {forms : List Value} {m : Machine} {visits : List Visit} {o : Outcome (List Value)}
    (h : Walk call env enclosing forms m visits o) (hm : m.limits.maxMacroExpansions = limit)
    (hlevels : enclosing + levels = limit + 1) :
    MiniLisp.visitAll (expandLevel eval env limit levels) forms m = o.result := by
  induction h generalizing levels with
  | nil => rfl
  | tooDeep hlt =>
    obtain rfl : levels = 0 := by omega
    rw [hm]
    rfl
  | stuck hle hreplace =>
    obtain ⟨levels, rfl⟩ : ∃ k, levels = k + 1 := ⟨levels - 1, by omega⟩
    have hhead := hreplace.replaceHead hcall hk hm (Nat.zero_add limit)
    refine Action.bind_of_error _ ?_
    rw [expandLevel_succ]
    exact Action.bind_of_error _ hhead
  | @inside enclosing replaced _ _ _ _ _ _ _ _ hle hreplace _ ih =>
    obtain ⟨levels, rfl⟩ : ∃ k, levels = k + 1 := ⟨levels - 1, by omega⟩
    have hhead := hreplace.replaceHead hcall hk hm (Nat.zero_add limit)
    have haround := Visit.around_add_levels ⟨enclosing, replaced⟩ levels
    exact Action.bind_of_error _ (expandLevel_of_accepted hhead (ih (hreplace.keepsLimit hk hm) (haround.trans hlevels)))
  | @cons enclosing replaced _ accepted rest code m _ m₂ _ _ o hle hreplace hcode _ ihcode ihrest =>
    obtain ⟨levels, rfl⟩ : ∃ k, levels = k + 1 := ⟨levels - 1, by omega⟩
    have hhead := hreplace.replaceHead hcall hk hm (Nat.zero_add limit)
    have haround := Visit.around_add_levels ⟨enclosing, replaced⟩ levels
    have hm₁ := hreplace.keepsLimit hk hm
    have hform := expandLevel_of_accepted hhead (ihcode hm₁ (haround.trans hlevels))
    have hrest := ihrest (hcode.keepsLimit hk hm₁) hlevels
    refine (Action.bind_of_ok _ hform).trans ?_
    cases o with
    | value forms m' => exact Action.bind_of_ok _ hrest
    | error e m' => exact Action.bind_of_error _ hrest

end Agree

/-- A walk over one form ends with one form or with an error. -/
theorem Walk.outcome_of_single {call : MacroRunner} {env : Env} {enclosing : Nat} {form : Value} {m : Machine}
    {visits : List Visit} {o : Outcome (List Value)} (h : Walk call env enclosing [form] m visits o) :
    ∃ outcome : Outcome Value, o = outcome.map fun v => [v] := by
  cases h with
  | tooDeep | stuck | inside => exact ⟨.error _ _, rfl⟩
  | cons _ _ _ hrest =>
    cases hrest
    exact ⟨.value _ _, rfl⟩

/-- A list of one form is visited like the form. -/
theorem eq_result_of_visitAll_single {visit : Value → Action Value} {form : Value} {m : Machine} {outcome : Outcome Value}
    (h : visitAll visit [form] m = (outcome.map fun v => [v]).result) : visit form m = outcome.result := by
  cases hv : visit form m with
  | ok v m' =>
    have hone : visitAll visit [form] m = .ok [v] m' := Action.bind_of_ok _ hv
    rw [hone] at h
    cases outcome <;> cases h
    rfl
  | error e m' =>
    have hone : visitAll visit [form] m = .error e m' := Action.bind_of_error _ hv
    rw [hone] at h
    cases outcome <;> cases h
    rfl

/-- Expansion ends for every form, whatever the macros do: it comes to one outcome, a form or an error. No form is replaced more
often than the limit of the machine, and none is walked over inside more replaced forms than that. -/
theorem expansion_ends {call : MacroRunner} (hk : call.KeepsLimits) (form : Value) (env : Env) (m : Machine) :
    ∃ (visits : List Visit) (outcome : Outcome Value),
      (∀ visits' o, Walk call env 0 [form] m visits' o ↔ visits' = visits ∧ o = outcome.map fun v => [v]) ∧
      (∀ v ∈ visits, v.enclosing ≤ m.limits.maxMacroExpansions ∧ v.replaced ≤ m.limits.maxMacroExpansions) ∧
      ∀ eval, (∀ f args m, expandCall eval f args m = (call f args m).result) → expand eval form env m = outcome.result := by
  have hlevels : 0 + (m.limits.maxMacroExpansions + 1) = m.limits.maxMacroExpansions + 1 := Nat.zero_add _
  obtain ⟨visits, o, hwalk⟩ := exists_walk hk env hlevels [form] rfl
  obtain ⟨outcome, rfl⟩ := hwalk.outcome_of_single
  refine ⟨visits, outcome, fun visits' o => ⟨fun h => h.unique hwalk, ?_⟩, hwalk.bounded hk rfl, fun eval hcall => ?_⟩
  · rintro ⟨rfl, rfl⟩
    exact hwalk
  · rw [expand_apply]
    exact eq_result_of_visitAll_single (hwalk.visitAll hcall hk rfl hlevels)

/-! ## Macros that expand to calls of themselves -/

/-- The evaluator for which every form is its own value. -/
def literalEval : Evaluator := fun form _ => pure form

/-- Running a macro with that evaluator gives the last form of its body. -/
def literalCall : MacroRunner := fun f args m =>
  if f.params.accepts args.length then
    let heap := (m.heap.newChild f.env).2.defineAll m.heap.frames.size false (f.params.bind args)
    .value (f.body.getLastD .nil) { m with heap }
  else .error (macroArityError f args.length) m

theorem literalCall_keepsLimits : literalCall.KeepsLimits := by
  intro f args m
  unfold literalCall
  split <;> rfl

/-- Under the evaluator of literals, a body gives its last form. -/
theorem evalBody_literalEval (env : Env) (body : List Value) :
    (evalBody literalEval env body >>= force literalEval) = pure (body.getLastD .nil) := by
  induction body with
  | nil => rfl
  | cons form rest ih =>
    cases rest with
    | nil => rfl
    | cons next rest => exact ih

/-- So a macro gives the last form of its body. -/
theorem expandCall_literalEval (f : Lambda Value) (args : List Value) (m : Machine) :
    expandCall literalEval f args m = (literalCall f args m).result := by
  unfold expandCall literalCall
  split
  · rw [Action.bind_of_ok _ (parameterScope_apply f args m), evalBody_literalEval]
    rfl
  · rfl

/-- The macro `(macro (m) (list (m) (m)))`. -/
def growingMacro : Lambda Value where
  id := 0
  name := some "m"
  params := {}
  body := [.list [.sym "list", .list [.sym "m"], .list [.sym "m"]]]
  env := ⟨0, []⟩

/-- A machine whose only name is `m`, for that macro. -/
def growingMachine : Machine where
  heap := ({} : Heap).newRoot.2.define 0 "m" (.macroFn growingMacro) false
  global := ⟨0, []⟩

/-- The expansion of `(m)` ends although it holds `(m)` twice. -/
theorem expansion_ends_growing :
    literalCall.KeepsLimits ∧
    ∃ (visits : List Visit) (outcome : Outcome Value),
      Walk literalCall ⟨0, []⟩ 0 [.list [.sym "m"]] growingMachine visits (outcome.map fun v => [v]) ∧
      (∀ v ∈ visits, v.enclosing ≤ growingMachine.limits.maxMacroExpansions ∧
        v.replaced ≤ growingMachine.limits.maxMacroExpansions) ∧
      expand literalEval (.list [.sym "m"]) ⟨0, []⟩ growingMachine = outcome.result := by
  obtain ⟨visits, outcome, hwalk, hbounded, hexpand⟩ :=
    expansion_ends literalCall_keepsLimits (.list [.sym "m"]) ⟨0, []⟩ growingMachine
  have houtcome := hexpand literalEval expandCall_literalEval
  exact ⟨literalCall_keepsLimits, visits, outcome, (hwalk _ _).2 ⟨rfl, rfl⟩, hbounded, houtcome⟩

end MiniLisp
