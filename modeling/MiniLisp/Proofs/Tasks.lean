import MiniLisp.Proofs.Evaluation.Stages
import MiniLisp.Proofs.Session

/-!
# Sessions under watch

What a host asks of an interpreter comes down to one task after another: to evaluate a form, to expand a form, or to call a value. A
run of operations is a run of tasks, of which the first error of a source leaves out the rest (`Session.tasks`). Here each task has a
watch of its own, which may stop it as an error does. If none of them stops anything, the tasks of a session leave what its
operations leave (`Watch.faithful`); and if one of them stops a task, the state is one that the session passes through.

What a law says of the stages of an evaluation, it says of the stages of a session (`Session.passes_law`), whether they lie in one
task or in two.
-/

namespace MiniLisp

namespace Session

variable {α : Type}

/-- What is asked of an interpreter at one time. -/
inductive Task where
  | evaluate (form : Value)
  | expand (form : Value)
  | call (callee : Value) (args : List Value)

/-- A task under watch. -/
def Task.watched (w : Watch) (fuel : Nat) : Task → Action Value
  | .evaluate form => do
    resetDepth
    let global ← Action.ask fun m => m.global
    let expanded ← MiniLisp.expand (w.eval fuel) form global
    w.eval fuel expanded global
  | .expand form => do
    let global ← Action.ask fun m => m.global
    let expanded ← MiniLisp.expand (w.eval fuel) form global
    if expanded.isForm "macro" then
      let _ ← w.eval fuel expanded global
    return expanded
  | .call callee args => do
    resetDepth
    w.apply (w.eval fuel) (w.eval fuel) callee args

/-- The tasks for the forms that were read from a source, up to the first error. -/
def tasksUntilError (fuel : Nat) (task : Value → Task) (m : Machine) : List (Except Error (Value × Span)) → List Task
  | [] => []
  | .error _ :: _ => []
  | .ok (form, _) :: rest =>
    match (task form).watched .never fuel m with
    | .ok _ m => task form :: tasksUntilError fuel task m rest
    | .error _ _ => [task form]

/-- The tasks for all forms that were read from a source. -/
def tasksForAll : List (Except Error (Value × Span)) → List Task
  | [] => []
  | .error _ :: rest => tasksForAll rest
  | .ok (form, _) :: rest => .evaluate form :: tasksForAll rest

/-- The tasks of an operation that is asked for where the machine is like this. -/
def Operation.tasks (fuel : Nat) (m : Machine) : Operation → List Task
  | .runSource source => tasksUntilError fuel .evaluate m (Reader.results source)
  | .runEach source => tasksForAll (Reader.results source)
  | .evalForm form => [.evaluate form]
  | .expandSource source => tasksUntilError fuel .expand m (Reader.results source)
  | .call callee args => [.call callee args]

/-- The tasks of a run of operations. -/
def tasks (fuel : Nat) (m : Machine) : List Operation → List Task
  | [] => []
  | operation :: rest => operation.tasks fuel m ++ tasks fuel (operation.perform fuel m) rest

/-- The machine that tasks leave, each of them under its watch. -/
def watched (fuel : Nat) (m : Machine) (work : List (Watch × Task)) : Machine :=
  work.foldl (fun m t => Action.after (t.2.watched t.1 fuel) m) m

/-- Tasks that no watch stops. -/
def unwatched (tasks : List Task) : List (Watch × Task) := tasks.map fun task => (.never, task)

/-- In one of its tasks a session under watch passes through this machine at this event. -/
def Passes (fuel : Nat) (m : Machine) (work : List (Watch × Task)) (event : Event) (s : Machine) : Prop :=
  ∃ done w task rest, work = done ++ (w, task) :: rest ∧
    Action.Passes (fun w => task.watched w fuel) w (watched fuel m done) event s

/-- The relation holds from the beginning of a session under watch, and from every state that it passes through, to where it ends. As
the last task may be stopped anywhere, it holds between any two of these states. -/
structure Throughout (fuel : Nat) (K : Machine → Machine → Prop) (m : Machine) (work : List (Watch × Task)) : Prop where
  start : K m (watched fuel m work)
  passed : ∀ event s, Passes fuel m work event s → K s (watched fuel m work)

/-! ## Tasks without a watch -/

/-- A form that is evaluated as a task is run as a top-level form. -/
theorem evaluate_never (fuel : Nat) (form : Value) : (Task.evaluate form).watched .never fuel = evalForm fuel form := by
  simp only [Task.watched, Watch.eval_never]
  rfl

/-- A value that is called as a task is called by the host. -/
theorem call_never (fuel : Nat) (callee : Value) (args : List Value) :
    (Task.call callee args).watched .never fuel = Session.call fuel callee args := by
  simp only [Task.watched, Watch.eval_never, Watch.apply_never, Session.call, applyValue_force]

theorem watched_append (fuel : Nat) (m : Machine) (work more : List (Watch × Task)) :
    watched fuel m (work ++ more) = watched fuel (watched fuel m work) more :=
  List.foldl_append

theorem watched_cons (fuel : Nat) (m : Machine) (w : Watch) (task : Task) (work : List (Watch × Task)) :
    watched fuel m ((w, task) :: work) = watched fuel (Action.after (task.watched w fuel) m) work := rfl

/-- An action whose errors are located has the result that it has. -/
theorem locating_eq_ok_iff {source : Source} {span : Span} {a : Action α} {m m' : Machine} {v : α} :
    locating source span a m = .ok v m' ↔ a m = .ok v m' := by
  unfold locating
  cases ha : a m with
  | ok v' m₁ => rfl
  | error e m₁ => cases e <;> simp

/-- An action that fails does so when its errors are located. -/
theorem locating_eq_error (source : Source) (span : Span) {a : Action α} {m m' : Machine} {e : Abort}
    (h : a m = .error e m') : ∃ e', locating source span a m = .error e' m' := by
  unfold locating
  rw [h]
  cases e <;> exact ⟨_, rfl⟩

/-- Forms that are evaluated up to the first error. -/
theorem watched_runForms (fuel : Nat) (source : Source) (last : Value) (results : List (Except Error (Value × Span)))
    (m : Machine) :
    watched fuel m (unwatched (tasksUntilError fuel .evaluate m results)) =
      Action.after (runForms fuel source last results) m := by
  induction results generalizing last m with
  | nil => rfl
  | cons result rest ih =>
    cases result with
    | error e => rfl
    | ok read =>
      obtain ⟨form, span⟩ := read
      simp only [tasksUntilError, evaluate_never]
      cases hr : evalForm fuel form m with
      | ok v m' =>
        rw [unwatched, List.map_cons, watched_cons, evaluate_never, Action.after_eq_of_ok hr, runForms,
          Action.after_bind_of_ok _ (locating_eq_ok_iff.2 hr)]
        exact ih v m'
      | error e m' =>
        obtain ⟨e', he⟩ := locating_eq_error source span hr
        rw [unwatched, List.map_cons, watched_cons, evaluate_never, Action.after_eq_of_error hr, runForms,
          Action.after_bind_of_error _ he]
        rfl

/-- Forms that are evaluated each whatever the others give. -/
theorem watched_runEachForm (fuel : Nat) (source : Source) (results : List (Except Error (Value × Span))) (m : Machine) :
    watched fuel m (unwatched (tasksForAll results)) = (runEachForm fuel source m results).2 := by
  induction results generalizing m with
  | nil => rfl
  | cons result rest ih =>
    cases result with
    | error e => exact ih m
    | ok read =>
      obtain ⟨form, span⟩ := read
      rw [tasksForAll, unwatched, List.map_cons, watched_cons, evaluate_never, ← after_locating source span]
      unfold runEachForm
      split
      · rename_i v m' hr
        rw [Action.after_eq_of_ok hr]
        exact ih m'
      · rename_i e m' hr
        rw [Action.after_eq_of_error hr]
        exact ih m'

/-- Errors of either part of an action are located. -/
theorem locating_bind {β : Type} (source : Source) (span : Span) (a : Action α) (f : α → Action β) :
    locating source span (a >>= f) = locating source span a >>= fun v => locating source span (f v) := by
  funext m
  cases ha : a m with
  | ok v m' =>
    rw [Action.bind_of_ok _ (locating_eq_ok_iff.2 ha)]
    unfold locating
    rw [Action.bind_of_ok _ ha]
  | error e m' =>
    have hb := Action.bind_of_error f ha
    obtain ⟨e', he⟩ := locating_eq_error source span ha
    rw [Action.bind_of_error _ he]
    unfold locating at he ⊢
    rw [hb]
    rw [ha] at he
    cases e <;> cases he <;> rfl

/-- Of several forms the first one is a task of its own. -/
theorem expandForms_cons (fuel : Nat) (source : Source) (form : Value) (span : Span)
    (rest : List (Except Error (Value × Span))) :
    expandForms fuel source (.ok (form, span) :: rest) =
      locating source span ((Task.expand form).watched .never fuel) >>= fun expanded =>
        expandForms fuel source rest >>= fun forms => pure (expanded :: forms) := by
  have hask : locating source span (Action.ask fun m => m.global) = Action.ask fun m => m.global := rfl
  have hpure (v : Value) : locating source span (pure v) = pure v := rfl
  simp only [expandForms, Task.watched, Watch.eval_never, locating_bind, hask, bind_assoc]
  congr 1
  funext global
  congr 1
  funext expanded
  by_cases hdefines : expanded.isForm "macro" = true
  · simp only [hdefines, if_true, locating_bind, hpure, bind_assoc, pure_bind]
  · simp [hdefines, hpure]

/-- Forms that are expanded up to the first error. -/
theorem watched_expandForms (fuel : Nat) (source : Source) (results : List (Except Error (Value × Span))) (m : Machine) :
    watched fuel m (unwatched (tasksUntilError fuel .expand m results)) = Action.after (expandForms fuel source results) m := by
  induction results generalizing m with
  | nil => rfl
  | cons result rest ih =>
    cases result with
    | error e => rfl
    | ok read =>
      obtain ⟨form, span⟩ := read
      rw [expandForms_cons]
      cases hr : (Task.expand form).watched .never fuel m with
      | ok expanded m' =>
        have hrest : Action.after (expandForms fuel source rest >>= fun forms => pure (expanded :: forms)) m' =
            Action.after (expandForms fuel source rest) m' := by
          cases hforms : expandForms fuel source rest m' with
          | ok forms m'' => rw [Action.after_bind_of_ok _ hforms, Action.after_eq_of_ok hforms]; rfl
          | error e m'' => rw [Action.after_bind_of_error _ hforms, Action.after_eq_of_error hforms]
        rw [Action.after_bind_of_ok _ (locating_eq_ok_iff.2 hr), hrest, ← ih m']
        simp only [tasksUntilError, hr, unwatched, List.map_cons, watched_cons, Action.after_eq_of_ok hr]
      | error e m' =>
        obtain ⟨e', he⟩ := locating_eq_error source span hr
        rw [Action.after_bind_of_error _ he]
        simp only [tasksUntilError, hr, unwatched, List.map_cons, List.map_nil, watched_cons, Action.after_eq_of_error hr]
        rfl

/-- The tasks of an operation leave what the operation leaves. -/
theorem watched_operation (fuel : Nat) (m : Machine) (operation : Operation) :
    watched fuel m (unwatched (operation.tasks fuel m)) = operation.perform fuel m := by
  cases operation with
  | runSource source => exact watched_runForms fuel source .nil (Reader.results source) m
  | runEach source => exact watched_runEachForm fuel source (Reader.results source) m
  | evalForm form =>
    rw [Operation.perform, ← evaluate_never]
    rfl
  | expandSource source => exact watched_expandForms fuel source (Reader.results source) m
  | call callee args =>
    rw [Operation.perform, ← call_never]
    rfl

/-- The tasks of a session leave what its operations leave. -/
theorem watched_tasks (fuel : Nat) (m : Machine) (operations : List Operation) :
    watched fuel m (unwatched (tasks fuel m operations)) = performAll fuel m operations := by
  induction operations generalizing m with
  | nil => rfl
  | cons operation rest ih =>
    have happend : unwatched (tasks fuel m (operation :: rest)) =
        unwatched (operation.tasks fuel m) ++ unwatched (tasks fuel (operation.perform fuel m) rest) := List.map_append
    rw [happend, watched_append, watched_operation]
    exact ih _

end Session

/-- If no watch stops anything, what is watched is what is done without a watch: evaluation under watch is evaluation, and the tasks
of a session leave what its operations leave. -/
structure Watch.Faithful (fuel : Nat) : Prop where
  eval : Watch.never.eval fuel = MiniLisp.eval fuel
  session : ∀ m operations,
    Session.watched fuel m (Session.unwatched (Session.tasks fuel m operations)) = Session.performAll fuel m operations

/-- Watches that stop nothing are faithful. -/
theorem Watch.faithful (fuel : Nat) : Watch.Faithful fuel := ⟨Watch.eval_never fuel, Session.watched_tasks fuel⟩

/-! ## Laws of a session under watch -/

namespace Session

variable (fuel : Nat) {w : Watch} {R T : FrameId → Machine → Machine → Prop} {event : Event} {s : Machine}

/-- What a task does under watch, once the depth is set back: it works in the global environment as it is at the beginning. -/
def Task.work (w : Watch) (fuel : Nat) (global : Env) : Task → Action Value
  | .evaluate form => do
    let expanded ← MiniLisp.expand (w.eval fuel) form global
    w.eval fuel expanded global
  | .expand form => do
    let expanded ← MiniLisp.expand (w.eval fuel) form global
    if expanded.isForm "macro" then
      let _ ← w.eval fuel expanded global
    return expanded
  | .call callee args => w.apply (w.eval fuel) (w.eval fuel) callee args

/-- The machine in which a task begins its work. -/
def Task.prepared (m : Machine) : Task → Machine
  | .evaluate _ => { m with depth := 0 }
  | .expand _ => m
  | .call _ _ => { m with depth := 0 }

/-- A task is its work in the machine in which that is begun. -/
theorem Task.watched_eq (w : Watch) (fuel : Nat) (m : Machine) (task : Task) :
    task.watched w fuel m = task.work w fuel m.global (task.prepared m) := by
  cases task <;> rfl

/-- To prepare a task keeps to the law, if to begin again at the outermost level does. -/
theorem Task.prepared_law (hrefl : ∀ own m, R own m m) (hreset : ∀ own (m : Machine), R own m { m with depth := 0 })
    (own : FrameId) (m : Machine) (task : Task) : R own m (task.prepared m) := by
  cases task with
  | expand form => exact hrefl own m
  | evaluate form => exact hreset own m
  | call callee args => exact hreset own m

/-- The work of a task keeps to the law in the global frame. -/
theorem Task.work_law (law : WatchLaw w R) (global : Env) (task : Task) (m : Machine) :
    R global.frame m (Action.after (task.work w fuel global) m) := by
  have hexpand (form : Value) := law.expand fuel global.frame form global
  cases task with
  | evaluate form => exact law.quiet.bind (hexpand form m) fun expanded m => law.eval fuel expanded global m
  | expand form =>
    refine law.quiet.bind (hexpand form m) fun expanded m => ?_
    split
    · exact law.quiet.bind (law.eval fuel expanded global m) fun _ m => law.quiet.refl global.frame m
    · exact law.quiet.refl global.frame m
  | call callee args => exact law.apply fuel global.frame callee args m

/-- The work of a task under a watch that also stops at the stage is the same or cut short. -/
theorem Task.work_cutShort (law : WatchLaw w R) (stage : StageLaw event s R T) (hw : w event s = none) (global : Env)
    (task : Task) :
    Action.CutShort s T global.frame (fun alarm => task.work (w.orAt event s alarm) fuel global) (task.work w fuel global) := by
  have heval (form : Value) := law.eval_cutShort stage hw fuel form global
  have hexpand (form : Value) := law.expand_cutShort stage hw fuel global.frame form global
  have hR (form : Value) := law.expand fuel global.frame form global
  cases task with
  | evaluate form => exact .bind stage (hexpand form) heval (hR form) fun expanded => law.eval fuel expanded global
  | expand form =>
    have hrest (expanded : Value) (m : Machine) : R global.frame m (Action.after (do
        if expanded.isForm "macro" then
          let _ ← w.eval fuel expanded global
        return expanded) m) := by
      split
      · exact law.quiet.bind (law.eval fuel expanded global m) fun _ m => law.quiet.refl global.frame m
      · exact law.quiet.refl global.frame m
    refine .bind stage (hexpand form) (fun expanded => ?_) (hR form) hrest
    split
    · exact .bind stage (heval expanded) (fun _ => .same _) (law.eval fuel expanded global) fun _ m =>
        law.quiet.refl global.frame m
    · exact .same _
  | call callee args => exact law.apply_cutShort stage hw fuel global.frame callee args

/-- No task changes which environment is the global one. -/
theorem Task.watched_global (w : Watch) (task : Task) (m : Machine) :
    (Action.after (task.watched w fuel) m).global = m.global := by
  have hwork := task.work_law fuel (global_law.watched w) m.global (task.prepared m)
  rw [Action.after, ← Task.watched_eq] at hwork
  exact hwork.trans (task.prepared_law (R := fun _ m m' => m'.global = m.global) (fun _ _ => rfl) (fun _ _ => rfl) 0 m)

section

variable (hreset : ∀ own (m : Machine), R own m { m with depth := 0 })

include hreset

/-- A task under watch keeps to a law of work in the global frame. -/
theorem Task.watched_law (law : WatchLaw w R) (task : Task) (m : Machine) :
    R m.global.frame m (Action.after (task.watched w fuel) m) := by
  have hwork := task.work_law fuel law m.global (task.prepared m)
  rw [Action.after, ← Task.watched_eq] at hwork
  exact law.quiet.trans (task.prepared_law law.quiet.refl hreset _ m) hwork

/-- What holds between a stage of a task under watch and its end. -/
theorem Task.passes_law (law : WatchLaw w R) (stage : StageLaw event s R T) {task : Task} {m : Machine}
    (h : Action.Passes (fun w => task.watched w fuel) w m event s) :
    T m.global.frame m (Action.after (task.watched w fuel) m) := by
  have hpasses : Action.Passes (fun w => task.work w fuel m.global) w (task.prepared m) event s := by
    obtain ⟨hw, halarm⟩ := h
    refine ⟨hw, fun alarm => ?_⟩
    obtain ⟨m', hm'⟩ := halarm alarm
    exact ⟨m', (Task.watched_eq _ fuel m task).symm.trans hm'⟩
  have hstage := hpasses.cut (task.work_cutShort fuel law stage h.1 m.global)
  rw [Action.after, ← Task.watched_eq] at hstage
  exact stage.earlier (task.prepared_law law.quiet.refl hreset _ m) hstage

/-- Tasks under watch keep to a law of work in the global frame, which stays what it is. -/
theorem watched_law {work : List (Watch × Task)} (law : ∀ t ∈ work, WatchLaw t.1 R) (hrefl : ∀ own m, R own m m)
    (htrans : ∀ {own m₁ m₂ m₃}, R own m₁ m₂ → R own m₂ m₃ → R own m₁ m₃) (m : Machine) :
    (watched fuel m work).global = m.global ∧ R m.global.frame m (watched fuel m work) := by
  induction work generalizing m with
  | nil => exact ⟨rfl, hrefl _ m⟩
  | cons t rest ih =>
    obtain ⟨w, task⟩ := t
    obtain ⟨hhead, hrest⟩ := List.forall_mem_cons.1 law
    have hglobal := task.watched_global fuel w m
    obtain ⟨hg, hr⟩ := ih hrest (Action.after (task.watched w fuel) m)
    rw [hglobal] at hg hr
    exact ⟨hg, htrans (task.watched_law fuel hreset hhead m) hr⟩

/-- What holds between a stage of a session under watch and its end. -/
theorem passes_law {work : List (Watch × Task)} {m : Machine} (h : Passes fuel m work event s)
    (law : ∀ t ∈ work, WatchLaw t.1 R) (stage : StageLaw event s R T) :
    T m.global.frame m (watched fuel m work) := by
  obtain ⟨done, w, task, rest, rfl, hpasses⟩ := h
  obtain ⟨hdone, hrest⟩ := List.forall_mem_append.1 law
  obtain ⟨htask, hrest⟩ := List.forall_mem_cons.1 hrest
  have hrefl := htask.quiet.refl
  have htrans {own : FrameId} {m₁ m₂ m₃ : Machine} (h : R own m₁ m₂) (h' : R own m₂ m₃) : R own m₁ m₃ :=
    htask.quiet.trans h h'
  obtain ⟨hglobal, hbefore⟩ := watched_law fuel hreset hdone hrefl htrans m
  have hstage := Task.passes_law fuel hreset htask stage hpasses
  have hwork := task.watched_law fuel hreset htask (watched fuel m done)
  have hkept := task.watched_global fuel w (watched fuel m done)
  obtain ⟨-, hbehind⟩ := watched_law fuel hreset hrest hrefl htrans
    (Action.after (task.watched w fuel) (watched fuel m done))
  rw [hkept, hglobal] at hbehind
  rw [hglobal] at hstage hwork
  rw [watched_append, watched_cons]
  exact stage.earlier hbefore (stage.later hwork hstage hbehind)

end

/-! ## The order of stages -/

/-- A task can be stopped at each of its stages. -/
theorem Task.watchable (task : Task) (m : Machine) : Action.Watchable (fun w => task.watched w fuel) m := by
  intro w event s hw
  have law : WatchLaw w fun _ _ _ => True := (Law.trivial fun _ => True).watched w
  have hcut := task.work_cutShort fuel law (StageLaw.trivial event s) hw m.global (task.prepared m)
  simp only [Task.watched_eq]
  exact hcut.imp_right And.left

/-- A session that has passed through one stage and is stopped at another, where it leaves the machine as it is there but for the
depth. -/
def Reaches (m : Machine) (event : Event) (s s' : Machine) : Prop :=
  ∃ work, Passes fuel m work event s ∧ ∃ d, watched fuel m work = { s' with depth := d }

section Order

variable {fuel : Nat} {m : Machine} {done rest : List (Watch × Task)} {w' : Watch} {task task' : Task} {event' : Event}
  {s' : Machine}

/-- From a stage in one task to a stage in a later one. -/
theorem Reaches.of_later_task (h : Action.Passes (fun w => task.watched w fuel) w (watched fuel m done) event s)
    (h' : Action.Passes (fun w => task'.watched w fuel) w' (watched fuel m (done ++ (w, task) :: rest)) event' s') :
    Reaches fuel m event s s' := by
  obtain ⟨d, hd⟩ := h'.stopped (Task.watchable fuel task' _) .outOfFuel
  refine ⟨(done ++ (w, task) :: rest) ++ [(w'.orAt event' s' .outOfFuel, task')], ?_, d, ?_⟩
  · exact ⟨done, w, task, rest ++ [(w'.orAt event' s' .outOfFuel, task')], by simp, h⟩
  · rw [watched_append]
    exact hd

/-- From a stage of a task to another one of it, if the first one is passed also where the task is stopped at the other one. -/
theorem Reaches.of_same_task {alarm : Abort}
    (h : Action.Passes (fun w => task.watched w fuel) (w.orAt event' s' alarm) (watched fuel m done) event s)
    (h' : Action.Passes (fun w => task.watched w fuel) w (watched fuel m done) event' s') : Reaches fuel m event s s' := by
  obtain ⟨d, hd⟩ := h'.stopped (Task.watchable fuel task _) alarm
  refine ⟨done ++ [(w.orAt event' s' alarm, task)], ⟨done, w.orAt event' s' alarm, task, [], rfl, h⟩, d, ?_⟩
  rw [watched_append]
  exact hd

/-- Of two different stages of a task, one lies before the other. -/
theorem Reaches.of_task (h : Action.Passes (fun w => task.watched w fuel) w (watched fuel m done) event s)
    (h' : Action.Passes (fun w => task.watched w fuel) w (watched fuel m done) event' s') (hne : ¬(event = event' ∧ s = s')) :
    Reaches fuel m event s s' ∨ Reaches fuel m event' s' s := by
  have halarm : Abort.outOfFuel ≠ .error (.unboundVariable "") := nofun
  rcases h.order (Task.watchable fuel task _) h' hne halarm with hpass | hpass
  · exact .inl (.of_same_task hpass h')
  · exact .inr (.of_same_task hpass h)

/-- Of two different stages of a session, one lies before the other. -/
theorem Passes.order {work : List (Watch × Task)} (h : Passes fuel m work event s) (h' : Passes fuel m work event' s')
    (hne : ¬(event = event' ∧ s = s')) : Reaches fuel m event s s' ∨ Reaches fuel m event' s' s := by
  obtain ⟨done, w, task, rest, rfl, h⟩ := h
  obtain ⟨done', w', task', rest', hwork, h'⟩ := h'
  rcases List.append_eq_append_iff.1 hwork with ⟨more, rfl, hrest⟩ | ⟨more, rfl, hrest⟩
  · cases more with
    | nil =>
      obtain ⟨⟨rfl, rfl⟩, rfl⟩ : (w = w' ∧ task = task') ∧ rest = rest' := by simpa using hrest
      rw [List.append_nil] at h'
      exact Reaches.of_task h h' hne
    | cons t more =>
      obtain ⟨rfl, rfl⟩ : (w, task) = t ∧ rest = more ++ (w', task') :: rest' := by simpa using hrest
      exact .inl (.of_later_task h h')
  · cases more with
    | nil =>
      obtain ⟨⟨rfl, rfl⟩, rfl⟩ : (w' = w ∧ task' = task) ∧ rest' = rest := by simpa using hrest
      rw [List.append_nil] at h
      exact Reaches.of_task h h' hne
    | cons t more =>
      obtain ⟨rfl, rfl⟩ : (w', task') = t ∧ rest' = more ++ (w, task) :: rest := by simpa using hrest
      exact .inr (.of_later_task h' h)

end Order

/-- A session under watch keeps throughout to what the law of its work governs, if it is begun where the condition is met. -/
theorem throughout_of_law {can : Ability → Prop} {P : FrameId → Machine → Prop} {K : Machine → Machine → Prop}
    (base : Law can R) (governs : Governs P R K) {work : List (Watch × Task)} (law : ∀ t ∈ work, WatchLaw t.1 R) {m : Machine}
    (h : P m.global.frame m) : Throughout fuel K m work where
  start := governs.keeps h (watched_law fuel governs.reset law base.refl base.trans m).2
  passed event s hpass := passes_law fuel governs.reset hpass law (governs.stageLaw event s) h

/-- A relation that is kept is one that is kept wherever it says more. -/
theorem Throughout.imp {fuel : Nat} {K L : Machine → Machine → Prop} {m : Machine} {work : List (Watch × Task)}
    (h : Throughout fuel K m work) (hKL : ∀ s, K s (watched fuel m work) → L s (watched fuel m work)) :
    Throughout fuel L m work where
  start := hKL m h.start
  passed event s hpass := hKL s (h.passed event s hpass)

end Session

end MiniLisp
