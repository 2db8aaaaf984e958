import MiniLisp.Proofs.Expansion.Code
import MiniLisp.Proofs.Tasks

/-!
# Immutable slots never change

A slot is mutable or not for good, and one that is not keeps the value that its definition gave it, through whatever names and
frames it is reached (`slots_kept`): from every stage of a run on, each slot that is there keeps its flag, and if it is not mutable,
its value. The two halves of a named definition, the reserving of its slot and the filling, lie between two stages.

Only an assignment gives a slot that is there another value. So where a watch stops every assignment, all slots keep their values;
and `set!`, the only form that assigns, puts a value into the slot that its name stands for, if that slot is mutable, and into no
other.
-/

namespace MiniLisp

/-- Every slot is still there, as mutable as it was; and if it is not mutable, with the same value. -/
def SlotsKept (m m' : Machine) : Prop :=
  ∀ (i : SlotId) (slot : Slot), m.heap.slots[i]? = some slot → ∃ slot', m'.heap.slots[i]? = some slot' ∧
    slot'.mutable = slot.mutable ∧ (slot.mutable = false → slot'.value = slot.value)

/-- Every slot is still there and has the same value. -/
def SlotsUnchanged (m m' : Machine) : Prop :=
  ∀ (i : SlotId) (slot : Slot), m.heap.slots[i]? = some slot → m'.heap.slots[i]? = some slot

theorem SlotsKept.trans {m₁ m₂ m₃ : Machine} (h : SlotsKept m₁ m₂) (h' : SlotsKept m₂ m₃) : SlotsKept m₁ m₃ := by
  intro i slot₁ hs₁
  obtain ⟨slot₂, hs₂, hm₂, hv₂⟩ := h i slot₁ hs₁
  obtain ⟨slot₃, hs₃, hm₃, hv₃⟩ := h' i slot₂ hs₂
  refine ⟨slot₃, hs₃, hm₃.trans hm₂, fun hf => ?_⟩
  rw [hv₃ (hm₂.trans hf), hv₂ hf]

namespace SlotsUnchanged

variable {m m' : Machine}

theorem kept (h : SlotsUnchanged m m') : SlotsKept m m' := fun i slot hs => ⟨slot, h i slot hs, rfl, fun _ => rfl⟩

theorem trans {m'' : Machine} (h : SlotsUnchanged m m') (h' : SlotsUnchanged m' m'') : SlotsUnchanged m m'' :=
  fun i slot hs => h' i slot (h i slot hs)

theorem of_eq (h : m'.heap.slots = m.heap.slots) : SlotsUnchanged m m' := by
  intro i slot hs
  rw [h]
  exact hs

/-- A new slot comes behind those that are there. -/
theorem of_push {new : Slot} (h : m'.heap.slots = m.heap.slots.push new) : SlotsUnchanged m m' := by
  intro i slot hs
  obtain ⟨hlt, _⟩ := Array.getElem?_eq_some_iff.mp hs
  rw [h, Array.getElem?_push_lt hlt, ← hs, Array.getElem?_eq_getElem hlt]

/-- New slots for the names of a new frame. -/
theorem withScope (m : Machine) (env : Env) (bindings : List (Symbol × Value)) :
    SlotsUnchanged m { m with heap := m.heap.withScope env bindings } := by
  intro i slot hs
  obtain ⟨hlt, -⟩ := Array.getElem?_eq_some_iff.mp hs
  exact (Heap.slots_withScope_of_lt m.heap env bindings hlt).trans hs

end SlotsUnchanged

/-! ## Assignments -/

/-- An assignment can be made to the slot that the name stands for, if it is mutable. -/
theorem Heap.assignable_eq_ok_iff {h : Heap} {env : Env} {name : Symbol} {i : SlotId} :
    h.assignable env name = .ok i ↔ h.resolve? env name = some i ∧ ∃ slot, h.slots[i]? = some slot ∧ slot.mutable = true := by
  unfold Heap.assignable
  cases h.resolve? env name with
  | none => simp
  | some found =>
    cases hs : h.slots[found]? with
    | none =>
      simp only [hs, Option.map_none, Option.getD_none, Bool.false_eq_true, if_false, reduceCtorEq, Option.some.injEq, false_iff]
      rintro ⟨rfl, slot, hs', -⟩
      rw [hs] at hs'
      cases hs'
    | some slot =>
      cases hm : slot.mutable with
      | false =>
        simp only [hs, Option.map_some, Option.getD_some, hm, Bool.false_eq_true, if_false, reduceCtorEq, Option.some.injEq,
          false_iff]
        rintro ⟨rfl, slot', hs', hm'⟩
        rw [hs] at hs'
        cases hs'
        rw [hm] at hm'
        cases hm'
      | true =>
        simp only [hs, Option.map_some, Option.getD_some, hm, if_true, Except.ok.injEq, Option.some.injEq]
        constructor
        · rintro rfl
          exact ⟨rfl, slot, hs, hm⟩
        · exact fun h => h.1

/-- What a slot holds after one of the slots is filled. -/
theorem Heap.getElem?_slots_fill (h : Heap) (i j : SlotId) (v : Value) :
    (h.fill i v).slots[j]? = if i = j then h.slots[j]?.map fun slot => { slot with value := v } else h.slots[j]? := by
  rw [Heap.fill, Array.getElem?_modify]

/-- The filling of a mutable slot leaves its flag, and leaves the other slots alone. -/
theorem SlotsKept.fill {m : Machine} {env : Env} {name : Symbol} {i : SlotId} (ha : m.heap.assignable env name = .ok i)
    (v : Value) : SlotsKept m { m with heap := m.heap.fill i v } := by
  intro j slot hs
  rw [Heap.getElem?_slots_fill, hs]
  split
  · rename_i hij
    subst hij
    obtain ⟨-, slot', hs', hm⟩ := Heap.assignable_eq_ok_iff.1 ha
    rw [hs] at hs'
    cases hs'
    refine ⟨{ slot with value := v }, rfl, rfl, fun hf => ?_⟩
    rw [hm] at hf
    cases hf
  · exact ⟨slot, rfl, rfl, fun _ => rfl⟩

/-- The step of `set!` evaluates the form and assigns the value. -/
theorem evalStep_assign (inner : Evaluator) (name : Symbol) (form : Value) (env : Env) (m : Machine) :
    evalStep inner (.list [.sym "set!", .sym name, form]) env m =
      match inner form env m with
      | .error e m₁ => .error e m₁
      | .ok v m₁ =>
        match m₁.heap.assignable env name with
        | .ok i => .ok (.done .nil) { m₁ with heap := m₁.heap.fill i v }
        | .error e => .error (.error e) m₁ := by
  have hstep : evalStep inner (.list [.sym "set!", .sym name, form]) env m =
      (inner form env >>= fun v => Action.assign env name v >>= fun _ => pure (.done .nil)) m := rfl
  rw [hstep]
  cases hr : inner form env m with
  | error e m₁ => exact Action.bind_of_error _ hr
  | ok v m₁ =>
    have hassign : Action.assign env name v m₁ =
        (Action.ofExcept (m₁.heap.assignable env name) >>= fun slot => Action.fill slot v) m₁ := rfl
    rw [Action.bind_of_ok _ hr]
    simp only
    cases ha : m₁.heap.assignable env name with
    | ok i =>
      rw [ha] at hassign
      rw [Action.bind_of_ok _ (hassign.trans rfl)]
      rfl
    | error e =>
      rw [ha] at hassign
      exact Action.bind_of_error _ (hassign.trans rfl)

/-- What the step of `set!` leaves, given what follows its keyword: what the form to be assigned leaves, if there is one, and then
at most the filling of the mutable slot that the name stands for. -/
inductive AssignmentLeaves (inner : Evaluator) (env : Env) (args : Value) (m : Machine) : Machine → Prop where
  /-- The form is refused as it stands. -/
  | refused : AssignmentLeaves inner env args m m
  /-- There is no value, or no such variable, or it is not mutable. -/
  | failed (name : Symbol) (form : Value) (hargs : args = .list [.sym name, form]) :
      AssignmentLeaves inner env args m (Action.after (inner form env) m)
  | assigned (name : Symbol) (form v : Value) (m₁ : Machine) (i : SlotId) (slot : Slot) (hargs : args = .list [.sym name, form])
      (hv : inner form env m = .ok v m₁) (hi : m₁.heap.resolve? env name = some i) (hs : m₁.heap.slots[i]? = some slot)
      (hm : slot.mutable = true) : AssignmentLeaves inner env args m { m₁ with heap := m₁.heap.fill i v }

/-- The step of `set!` with a name and a form leaves no more than that. -/
theorem AssignmentLeaves.of_assign (inner : Evaluator) (name : Symbol) (form : Value) (env : Env) (m : Machine) :
    AssignmentLeaves inner env (.list [.sym name, form]) m
      (Action.after (evalStep inner (.list [.sym "set!", .sym name, form]) env) m) := by
  have hstep := evalStep_assign inner name form env m
  cases hv : inner form env m with
  | error e m₁ =>
    rw [hv] at hstep
    rw [Action.after_eq_of_error hstep, ← Action.after_eq_of_error hv]
    exact .failed name form rfl
  | ok v m₁ =>
    simp only [hv] at hstep
    cases ha : m₁.heap.assignable env name with
    | error e =>
      rw [ha] at hstep
      rw [Action.after_eq_of_error hstep, ← Action.after_eq_of_ok hv]
      exact .failed name form rfl
    | ok i =>
      rw [ha] at hstep
      obtain ⟨hi, slot, hs, hm⟩ := Heap.assignable_eq_ok_iff.1 ha
      rw [Action.after_eq_of_ok hstep]
      exact .assigned name form v m₁ i slot rfl hv hi hs hm

/-- Whatever follows the keyword, the step of `set!` leaves no more than that. -/
theorem assignmentLeaves (inner : Evaluator) (env : Env) (args : Value) (m : Machine) :
    AssignmentLeaves inner env args m (Action.after (evalStep inner (.pair (.sym "set!") args) env) m) := by
  have hstep : evalStep inner (.pair (.sym "set!") args) env =
      (SpecialForm.assign.arguments args >>= fun args => SpecialForm.evalAssign inner env args) := rfl
  cases hargs : args.toList? with
  | none =>
    rw [hstep, SpecialForm.arguments_of_improper _ hargs, fail_bind]
    exact .refused
  | some items =>
    obtain rfl := Value.eq_list_of_toList? hargs
    match items with
    | [target, form] =>
      cases target with
      | sym name => exact .of_assign inner name form env m
      | _ => exact .refused
    | [] | [_] | _ :: _ :: _ :: _ =>
      rw [hstep, SpecialForm.arguments_of_list _ hargs, pure_bind]
      exact .refused

/-! ## Laws -/

/-- All work keeps the slots. -/
theorem slotsKept_law : Law (fun _ => True) fun _ => SlotsKept where
  refl _ _ := SlotsUnchanged.kept (.of_eq rfl)
  trans := SlotsKept.trans
  definition _ own m name v mutable := SlotsUnchanged.kept (.of_push (Heap.slots_define m.heap own name v mutable))
  sharing _ own m _ := SlotsUnchanged.kept (.of_eq (Heap.slots_bindAll m.heap own _))
  assignment _ _ _ _ _ _ v ha := .fill ha v
  lambdaId _ _ := SlotsUnchanged.kept (.of_eq rfl)
  symbol _ _ _ := SlotsUnchanged.kept (.of_eq rfl)
  output _ _ _ := SlotsUnchanged.kept (.of_eq rfl)
  scope {_ m _} env bindings h := (SlotsUnchanged.withScope m env bindings).kept.trans h
  newModule _ _ h _ := h
  nested _ h := h

/-- Without assignments, all work leaves the slots that are there as they are. -/
theorem slots_law : Law (· ≠ .assign) fun _ => SlotsUnchanged where
  refl _ _ := .of_eq rfl
  trans := SlotsUnchanged.trans
  definition _ own m name v mutable := .of_push (Heap.slots_define m.heap own name v mutable)
  sharing _ own m _ := .of_eq (Heap.slots_bindAll m.heap own _)
  assignment hc := absurd rfl hc
  lambdaId _ _ := .of_eq rfl
  symbol _ _ _ := .of_eq rfl
  output _ _ _ := .of_eq rfl
  scope {_ m _} env bindings h := (SlotsUnchanged.withScope m env bindings).trans h
  newModule _ _ h _ := h
  nested _ h := h

/-- A watch that stops every assignment before it is made. -/
def Watch.StopsAssignments (w : Watch) : Prop := ∀ env name v m, (w (.assigning env name v) m).isSome

/-- Under a watch that stops assignments, all work leaves the slots that are there as they are. -/
theorem Watch.StopsAssignments.watchLaw {w : Watch} (h : w.StopsAssignments) : WatchLaw w fun _ => SlotsUnchanged := by
  refine .of_law slots_law nofun nofun (slots_law.watchedCall nofun w) fun own env name v m => ?_
  rw [Watch.assign, after_pass_bind_of_isSome (h env name v m)]
  exact .of_eq rfl

/-- Slots have nothing to do with levels and modules. -/
theorem slotsKept_carriesOver : CarriesOver SlotsKept where
  trans := SlotsKept.trans
  depth _ _ := SlotsUnchanged.kept (.of_eq rfl)
  register _ _ _ _ _ _ := SlotsUnchanged.kept (.of_eq rfl)

theorem slotsUnchanged_carriesOver : CarriesOver SlotsUnchanged where
  trans := SlotsUnchanged.trans
  depth _ _ := .of_eq rfl
  register _ _ _ _ _ _ := .of_eq rfl

/-- From every stage of an evaluation or a session on, whatever watches look on, every slot keeps its flag and every immutable slot
its value; and every slot keeps its value, if the watches stop all assignments. The form that assigns is `set!`: its step fills the
mutable slot that its name stands for, or none; and where no inner form changes a slot, no other step does. -/
theorem slots_kept (fuel : Nat) :
    Watch.Faithful fuel ∧
    (∀ w form env m, Action.Throughout SlotsKept (fun w => w.eval fuel form env) w m) ∧
    (∀ m work, Session.Throughout fuel SlotsKept m work) ∧
    (∀ w form env m, w.StopsAssignments → Action.Throughout SlotsUnchanged (fun w => w.eval fuel form env) w m) ∧
    (∀ m work, (∀ t ∈ work, t.1.StopsAssignments) → Session.Throughout fuel SlotsUnchanged m work) ∧
    (∀ inner env args m,
      AssignmentLeaves inner env args m (Action.after (evalStep inner (.pair (.sym "set!") args) env) m)) ∧
    ∀ inner : Evaluator, (∀ form env m, SlotsUnchanged m (Action.after (inner form env) m)) →
      ∀ form env m, form.isForm "set!" = false → SlotsUnchanged m (Action.after (evalStep inner form env) m) := by
  refine ⟨Watch.faithful fuel, fun w form env m => ?_, fun m work => ?_, fun w form env m hw => ?_, fun m work hw => ?_,
    assignmentLeaves, fun inner hi form env m hset => ?_⟩
  · exact (slotsKept_law.watched w).eval_throughout slotsKept_carriesOver.governs fuel form trivial
  · exact Session.throughout_of_law fuel slotsKept_law slotsKept_carriesOver.governs (fun t _ => slotsKept_law.watched t.1) trivial
  · exact hw.watchLaw.eval_throughout slotsUnchanged_carriesOver.governs fuel form trivial
  · exact Session.throughout_of_law fuel slots_law slotsUnchanged_carriesOver.governs (fun t ht => (hw t ht).watchLaw) trivial
  · refine evalStep_obeys slots_law nofun nofun nofun hi form env (fun hform => ?_) m
    rw [hset] at hform
    cases hform

/-- An assignment to an immutable name fails, and its slot has its value still; so has a mutable slot, where the assignment is
stopped, and where no assignment is made. -/
theorem slots_kept_failed_assignment :
    let m : Machine :=
      { heap := { frames := #[⟨[("x", 0), ("y", 1)]⟩], slots := #[⟨.bool true, false⟩, ⟨.bool true, true⟩] }, global := ⟨0, []⟩ }
    let form (name : Symbol) : Value := .list [.sym "set!", .sym name, .nil]
    let w : Watch := fun event _ => if event matches .assigning .. then some .outOfFuel else none
    let work := [(w, Session.Task.evaluate (form "y"))]
    SlotsKept m (Action.after (eval 5 (form "x") m.global) m) ∧
      (Action.after (eval 5 (form "x") m.global) m).heap.slots[0]? = some ⟨.bool true, false⟩ ∧
      SlotsUnchanged m (Action.after (w.eval 5 (form "y") m.global) m) ∧
      SlotsUnchanged m (Session.watched 5 m work) ∧
      SlotsUnchanged m (Action.after (evalStep (fun _ _ => pure .nil) (.sym "y") m.global) m) := by
  intro m form w work
  obtain ⟨-, hkept, -, hstopped, hsession, -, hstep⟩ := slots_kept 5
  have hw : w.StopsAssignments := fun _ _ _ _ => rfl
  have hwork : ∀ t ∈ work, t.1.StopsAssignments := by simpa [work] using hw
  have hstart := (hkept .never (form "x") m.global m).start
  rw [Watch.eval_never] at hstart
  refine ⟨hstart, rfl, (hstopped w (form "y") m.global m hw).start, (hsession m work hwork).start, ?_⟩
  exact hstep (fun _ _ => pure .nil) (fun _ _ _ => .of_eq rfl) (.sym "y") m.global m rfl

end MiniLisp
