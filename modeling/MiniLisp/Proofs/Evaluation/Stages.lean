import MiniLisp.Proofs.Evaluation.Law

/-!
# The stages of a run

An evaluation under watch obeys the laws of evaluation, and a law that bindings or assignments would break if the watch stops them
(`WatchLaw.eval`). So a law says something of the beginning of a run and of every state that it passes through: that is where a
watch can stop it.

Here is what a law says of two states that a run passes through, an earlier and a later one. The run is compared with the same run
under a watch that also stops at the earlier one. They are the same up to there; so if the second one is cut short by the alarm, the
first one goes on from that very state, and keeps to the law from there to its end (`Action.CutShort`, `WatchLaw.eval_passes`).
-/

namespace MiniLisp

variable {α β : Type} {w : Watch} {R : FrameId → Machine → Machine → Prop}

namespace Watch

/-- To look on changes nothing. -/
@[simp]
theorem after_pass (w : Watch) (event : Event) (m : Machine) : Action.after (w.pass event) m = m := by
  unfold Action.after pass
  cases w event m <;> rfl

/-- Where a watch lets work go on, it goes on. -/
theorem pass_eq_ok {event : Event} {m : Machine} (h : w event m = none) : w.pass event m = .ok () m := by
  rw [pass, h]

/-- Where a watch stops, the alarm is what comes of it. -/
theorem pass_eq_error {event : Event} {m : Machine} {alarm : Abort} (h : w event m = some alarm) :
    w.pass event m = .error alarm m := by
  rw [pass, h]

/-- What the watch lets pass is done. -/
theorem after_pass_bind {event : Event} {m : Machine} (h : w event m = none) (a : Action α) :
    Action.after (w.pass event >>= fun _ => a) m = Action.after a m :=
  Action.after_bind_of_ok _ (pass_eq_ok h)

/-- What the watch stops is not begun. -/
theorem after_pass_bind_of_isSome {event : Event} {m : Machine} (h : (w event m).isSome) (a : Action α) :
    Action.after (w.pass event >>= fun _ => a) m = m := by
  obtain ⟨alarm, halarm⟩ := Option.isSome_iff_exists.1 h
  exact Action.after_bind_of_error _ (pass_eq_error halarm)

end Watch

/-! ## Laws under watch -/

/-- A law of all work under a watch: what the watch is not told of keeps to it, and so does each call of a primitive, each binding
and each assignment, where the watch looks on. -/
structure WatchLaw (w : Watch) (R : FrameId → Machine → Machine → Prop) : Prop where
  quiet : Law Ability.Quiet R
  call : ∀ own p args m, R own m (Action.after (w.pass (.call p args) >>= fun _ => p.call args) m)
  definition : ∀ env name {value : Action Value} mutable, Routine Ability.Quiet env.frame (fun _ _ => value) →
    ∀ m, R env.frame m (Action.after (w.define env name value mutable) m)
  sharing : ∀ module env m, R env.frame m (Action.after (w.share module env) m)
  assignment : ∀ own env name v m, R own m (Action.after (w.assign env name v) m)

/-- A routine that asks no evaluator obeys every law. -/
theorem Routine.obeys_alone {can : Ability → Prop} {own : FrameId} {a : Action α} (h : Routine can own fun _ _ => a)
    (law : Law can R) (m : Machine) : R own m (Action.after a m) := by
  have hnone : ∀ form env m, R env.frame m (Action.after ((fun _ _ => throw .outOfFuel : Evaluator) form env) m) :=
    fun _ env m => law.refl env.frame m
  exact h.obeys_expanding law hnone hnone m

/-- The call of a primitive obeys every law, as work in any frame whatever. -/
theorem Law.call {can : Ability → Prop} (law : Law can R) (hg : can .generate) (own : FrameId) (p : Primitive)
    (args : List Value) (m : Machine) : R own m (Action.after (p.call args) m) :=
  (call_routine p args fun _ => hg : Routine can own fun _ _ => p.call args).obeys_alone law m

/-- Work that is begun when a watch has looked on keeps to the law that the work keeps to. -/
theorem Law.pass {can : Ability → Prop} (law : Law can R) (w : Watch) (own : FrameId) (event : Event) {a : Action α}
    (ha : ∀ m, R own m (Action.after a m)) (m : Machine) : R own m (Action.after (w.pass event >>= fun _ => a) m) := by
  refine law.bind ?_ fun _ m => ha m
  rw [Watch.after_pass]
  exact law.refl own m

/-- The call of a primitive keeps to a law of generation under every watch. -/
theorem Law.watchedCall {can : Ability → Prop} (law : Law can R) (hg : can .generate) (w : Watch) (own : FrameId) (p : Primitive)
    (args : List Value) (m : Machine) : R own m (Action.after (w.pass (.call p args) >>= fun _ => p.call args) m) :=
  law.pass w own _ (law.call hg own p args) m

/-- A definition keeps to a law if the binding in the end does. -/
theorem Law.define (law : Law Ability.Quiet R) (w : Watch) {env : Env} {name : Symbol} {value : Action Value} {mutable : Bool}
    (hdefine : ∀ m v, R env.frame m { m with heap := m.heap.define env.frame name v mutable })
    (hv : Routine Ability.Quiet env.frame fun _ _ => value) (m : Machine) :
    R env.frame m (Action.after (w.define env name value mutable) m) := by
  refine law.pass w env.frame _ (fun m => ?_) m
  exact law.bind (hv.obeys_alone law m) fun v m => hdefine m v

/-- The use of a module keeps to a law of bindings under every watch. -/
theorem Law.share {can : Ability → Prop} (law : Law can R) (hc : can .bind) (w : Watch) (module : Symbol) (env : Env)
    (m : Machine) : R env.frame m (Action.after (w.share module env) m) :=
  law.pass w env.frame _ (law.useModule hc module env) m

/-- An assignment keeps to a law of assignments under every watch. -/
theorem Law.watchedAssign {can : Ability → Prop} (law : Law can R) (hc : can .assign) (w : Watch) (own : FrameId) (env : Env)
    (name : Symbol) (v : Value) (m : Machine) : R own m (Action.after (w.assign env name v) m) :=
  law.pass w own _ (law.assign hc own env name v) m

/-- A law by which names may be bound is one under a watch, if calls and assignments keep to it where the watch looks on. -/
theorem WatchLaw.of_law {can : Ability → Prop} (law : Law can R) (hx : can .expand) (hb : can .bind)
    (hcall : ∀ own p args m, R own m (Action.after (w.pass (.call p args) >>= fun _ => p.call args) m))
    (hassign : ∀ own env name v m, R own m (Action.after (w.assign env name v) m)) : WatchLaw w R := by
  have hquiet : Law Ability.Quiet R := law.weaken fun _ h => h ▸ hx
  refine ⟨hquiet, hcall, fun env name value mutable hv m => ?_, law.share hb w, hassign⟩
  exact hquiet.define w (fun m v => law.definition hb env.frame m name v mutable) hv m

/-- A law of all work is one under every watch. -/
theorem Law.watched (law : Law (fun _ => True) R) (w : Watch) : WatchLaw w R :=
  .of_law law trivial trivial (law.watchedCall trivial w) (law.watchedAssign trivial w)

/-- An action under watch obeys the law that its evaluators obey. -/
theorem Watched.obeys {can : Ability → Prop} {own : FrameId} {p : Watch → Evaluator → Evaluator → Action α}
    {eval tail : Evaluator} (hp : Watched can own p) (law : WatchLaw w R)
    (he : ∀ form env m, R env.frame m (Action.after (eval form env) m))
    (ht : ∀ form env m, R env.frame m (Action.after (tail form env) m)) (m : Machine) :
    R own m (Action.after (p w eval tail) m) := by
  induction hp generalizing m with
  | routine hp => exact hp.obeys_expanding law.quiet he ht m
  | andThen _ _ ihp ihq => exact law.quiet.bind (ihp m) ihq
  | call p args _ => exact law.call _ p args m
  | definition env name mutable h hv _ => exact h ▸ law.definition env name mutable (h ▸ hv) m
  | sharing module env h _ => exact h ▸ law.sharing module env m
  | assignment env name v _ => exact law.assignment _ env name v m
  | scope env _ ihq => exact law.quiet.openScope env [] (ihq (m.heap.newChild env).1)

namespace WatchLaw

/-- A level of evaluation obeys the law that the work in it obeys. -/
theorem level (law : WatchLaw w R) {own : FrameId} {a : Action Value} (ha : ∀ m, R own m (Action.after a m)) (m : Machine) :
    R own m (Action.after (w.level a) m) := by
  refine nested_obeys law.quiet (fun m => law.quiet.bind (ha m) fun v m => ?_) m
  exact law.quiet.pass w own (.ended v) (a := pure v) (law.quiet.refl own) m

/-- By induction on the fuel: a run under watch keeps to the law in the innermost frame of its environment. -/
theorem run (law : WatchLaw w R) (fuel : Nat) (form : Value) (env : Env) (m : Machine) :
    R env.frame m (Action.after (w.run fuel form env) m) := by
  induction fuel generalizing form env m with
  | zero => exact law.quiet.refl env.frame m
  | succ fuel ih =>
    rw [Watch.run_succ]
    have hstep : Watched (fun _ => True) env.frame fun w eval tail => w.step eval tail form env :=
      Watch.step_watched trivial trivial form env fun _ => trivial
    exact law.quiet.pass w env.frame _ (hstep.obeys law (fun form env => law.level (ih form env)) ih) m

/-- An evaluation under watch obeys every law of work under that watch, however it ends. -/
theorem eval (law : WatchLaw w R) (fuel : Nat) (form : Value) (env : Env) (m : Machine) :
    R env.frame m (Action.after (w.eval fuel form env) m) :=
  law.level (law.run fuel form env) m

/-- So does an expansion, as work in any frame whatever. -/
theorem expand (law : WatchLaw w R) (fuel : Nat) (own : FrameId) (form : Value) (env : Env) (m : Machine) :
    R own m (Action.after (MiniLisp.expand (w.eval fuel) form env) m) :=
  expand_obeys law.quiet (law.eval fuel) own form env m

/-- So does a call. -/
theorem apply (law : WatchLaw w R) (fuel : Nat) (own : FrameId) (callee : Value) (args : List Value) (m : Machine) :
    R own m (Action.after (w.apply (w.eval fuel) (w.eval fuel) callee args) m) := by
  have happly : Watched (fun _ => True) own fun w eval tail => w.apply eval tail callee args :=
    Watch.apply_watched trivial callee args
  exact happly.obeys law (law.eval fuel) (law.eval fuel) m

end WatchLaw

/-! ## From a stage to the end -/

/-- An event with which work in this frame goes on. The call of a primitive is none: it is made in whatever frame. -/
def Event.In (own : FrameId) : Event → Prop
  | .turn _ env => env.frame = own
  | .call _ _ => False
  | .binding frame _ => frame = own
  | .sharing frame _ => frame = own
  | .ended _ | .assigning _ _ _ => True

/-- What a run from `m` to `m'` in a frame has, if it passes through `s` at this event: a relation between its ends that holds if the
work behind `s` begins it, and that is kept when more work that keeps to the law lies before or behind. -/
structure StageLaw (event : Event) (s : Machine) (R T : FrameId → Machine → Machine → Prop) : Prop where
  begins : ∀ own, event.In own → ∀ m', R own s m' → T own s m'
  called : ∀ p args, event = .call p args → ∀ own, R own s (Action.after (p.call args) s) →
    T own s (Action.after (p.call args) s)
  earlier : ∀ {own m₁ m₂ m₃}, R own m₁ m₂ → T own m₂ m₃ → T own m₁ m₃
  later : ∀ {own m₁ m₂ m₃}, R own m₁ m₂ → T own m₁ m₂ → R own m₂ m₃ → T own m₁ m₃
  scope : ∀ {own m m'} env bindings, T m.heap.frames.size { m with heap := m.heap.withScope env bindings } m' → T own m m'
  newModule : ∀ {own m m'} env name, R m.heap.frames.size { m with heap := (m.heap.newChild env).2 } m' →
    T m.heap.frames.size { m with heap := (m.heap.newChild env).2 } m' → m'.modules.lookup name = none →
    T own m { m' with modules := (name, (m.heap.newChild env).1) :: m'.modules }
  nested : ∀ {own m m'}, T own { m with depth := m.depth + 1 } m' → T own m { m' with depth := m'.depth - 1 }

/-- A relation between an earlier and a later machine that has nothing to do with the frame in which work is done. It carries over
what lies behind the work in a frame: the end of a level, and the registration of the frame as a module. -/
structure CarriesOver (K : Machine → Machine → Prop) : Prop where
  trans : ∀ {m₁ m₂ m₃ : Machine}, K m₁ m₂ → K m₂ m₃ → K m₁ m₃
  depth : ∀ (m : Machine) d, K m { m with depth := d }
  register : ∀ (m m' : Machine) env name, K { m with heap := (m.heap.newChild env).2 } m' → m'.modules.lookup name = none →
    K m' { m' with modules := (name, (m.heap.newChild env).1) :: m'.modules }

/-- Work that keeps to the law `R`, and is begun in a frame where the condition `P` is met, keeps to the relation `K` between earlier
and later machines. The condition stays met, and it is met in new frames. -/
structure Governs (P : FrameId → Machine → Prop) (R : FrameId → Machine → Machine → Prop) (K : Machine → Machine → Prop) :
    Prop where
  keeps : ∀ {own m m'}, P own m → R own m m' → K m m'
  ready : ∀ {own m m'}, P own m → R own m m' → P own m'
  scope : ∀ {own m} env bindings, P own m → P m.heap.frames.size { m with heap := m.heap.withScope env bindings }
  depth : ∀ {own m} d, P own m → P own { m with depth := d }
  reset : ∀ own (m : Machine), R own m { m with depth := 0 }
  carries : CarriesOver K

/-- What carries over and is itself a law of all work is kept on no condition. -/
theorem CarriesOver.governs {K : Machine → Machine → Prop} (h : CarriesOver K) :
    Governs (fun _ _ => True) (fun _ => K) K where
  keeps _ hK := hK
  ready _ _ := trivial
  scope _ _ _ := trivial
  depth _ _ := trivial
  reset _ m := h.depth m 0
  carries := h

/-- The relation is kept from each stage on. -/
theorem Governs.stageLaw {P : FrameId → Machine → Prop} {K : Machine → Machine → Prop} (h : Governs P R K) (event : Event)
    (s : Machine) : StageLaw event s R fun own m m' => P own m → K s m' where
  begins _ _ _ hR hP := h.keeps hP hR
  called _ _ _ _ hR hP := h.keeps hP hR
  earlier hR hT hP := hT (h.ready hP hR)
  later hR hT hR' hP := h.carries.trans (hT hP) (h.keeps (h.ready hP hR) hR')
  scope env bindings hT hP := hT (h.scope env bindings hP)
  newModule {_ m m'} env name hR hT hn hP := by
    have hP' := h.scope env [] hP
    exact h.carries.trans (hT hP') (h.carries.register m m' env name (h.keeps hP' hR) hn)
  nested {_ m m'} hT hP := h.carries.trans (hT (h.depth (m.depth + 1) hP)) (h.carries.depth m' (m'.depth - 1))

/-- Whatever form is evaluated on the way, the condition is met in the innermost frame of its environment. -/
theorem Governs.turn {P : FrameId → Machine → Prop} {K : Machine → Machine → Prop} (h : Governs P R K) (form : Value) (env : Env)
    (s : Machine) : StageLaw (.turn form env) s R fun own m _ => P own m → P env.frame s where
  begins own hin _ _ hP := by
    have hframe : env.frame = own := hin
    rwa [hframe]
  called _ _ heq := nomatch heq
  earlier hR hT hP := hT (h.ready hP hR)
  later _ hT _ := hT
  scope env bindings hT hP := hT (h.scope env bindings hP)
  newModule env _ _ hT _ hP := hT (h.scope env [] hP)
  nested {_ m _} hT hP := hT (h.depth (m.depth + 1) hP)

/-- Whatever the alarm is, the first action does what the second does; or whatever it is, the alarm cuts the first one short at this
machine, when only its depth is still set back, and the second one has gone on from there to its end. -/
def Action.CutShort (s : Machine) (T : FrameId → Machine → Machine → Prop) (own : FrameId) (a' : Abort → Action α)
    (a : Action α) : Prop :=
  ∀ m, (∀ alarm, a' alarm m = a m) ∨
    (∃ d, ∀ alarm, a' alarm m = .error alarm { s with depth := d }) ∧ T own m (after a m)

section CutShort

variable {event : Event} {s : Machine} {T : FrameId → Machine → Machine → Prop}

namespace Action.CutShort

variable {own : FrameId}

/-- What has no watch does the same. -/
theorem same (a : Action α) : CutShort s T own (fun _ => a) a := fun _ => .inl fun _ => rfl

/-- One part of an action after another: the alarm cuts short the first part, and all the second part comes behind the stage, or it
cuts short the second part. -/
theorem bind (stage : StageLaw event s R T) {a' : Abort → Action α} {a : Action α} {f' : Abort → α → Action β}
    {f : α → Action β} (ha : CutShort s T own a' a) (hf : ∀ v, CutShort s T own (fun alarm => f' alarm v) (f v))
    (hR : ∀ m, R own m (after a m)) (hRf : ∀ v m, R own m (after (f v) m)) :
    CutShort s T own (fun alarm => a' alarm >>= f' alarm) (a >>= f) := by
  intro m
  have hRa := hR m
  rcases ha m with hsame | ⟨⟨d, hcut⟩, hstage⟩
  · cases hr : a m with
    | error e m₁ =>
      exact .inl fun alarm => (Action.bind_of_error _ ((hsame alarm).trans hr)).trans (Action.bind_of_error _ hr).symm
    | ok v m₁ =>
      rw [after_eq_of_ok hr] at hRa
      rw [Action.bind_of_ok _ hr, after_bind_of_ok _ hr]
      have hfirst (alarm : Abort) : (a' alarm >>= f' alarm) m = f' alarm v m₁ := Action.bind_of_ok _ ((hsame alarm).trans hr)
      simp only [hfirst]
      exact (hf v m₁).imp_right (And.imp_right (stage.earlier hRa))
  · right
    refine ⟨⟨d, fun alarm => Action.bind_of_error _ (hcut alarm)⟩, ?_⟩
    cases hr : a m with
    | error e m₁ =>
      rw [after_bind_of_error _ hr, ← after_eq_of_error hr]
      exact hstage
    | ok v m₁ =>
      rw [after_eq_of_ok hr] at hRa hstage
      rw [after_bind_of_ok _ hr]
      exact stage.later hRa hstage (hRf v m₁)

/-- At the stage itself the alarm goes off before anything else is done. -/
theorem pass (hw : w event s = none) {event' : Event} {rest' : Abort → Action α} {rest : Action α}
    (hrest : CutShort s T own rest' rest) (hstart : event' = event → T own s (after rest s)) :
    CutShort s T own (fun alarm => (w.orAt event s alarm).pass event' >>= fun _ => rest' alarm)
      (w.pass event' >>= fun _ => rest) := by
  intro m
  by_cases hat : event' = event ∧ m = s
  · obtain ⟨rfl, rfl⟩ := hat
    right
    refine ⟨⟨m.depth, fun alarm => ?_⟩, ?_⟩
    · have hstop : w.orAt event' m alarm event' m = some alarm := by simp [Watch.orAt]
      exact Action.bind_of_error _ (Watch.pass_eq_error hstop)
    · rw [Watch.after_pass_bind hw]
      exact hstart rfl
  · have hsame (alarm : Abort) : w.orAt event s alarm event' m = w event' m := by simp [Watch.orAt, hat]
    cases hpass : w event' m with
    | none =>
      have hfirst (alarm : Abort) : ((w.orAt event s alarm).pass event' >>= fun _ => rest' alarm) m = rest' alarm m :=
        Action.bind_of_ok _ (Watch.pass_eq_ok ((hsame alarm).trans hpass))
      simp only [hfirst]
      rw [Action.bind_of_ok _ (Watch.pass_eq_ok hpass), Watch.after_pass_bind hpass]
      exact hrest m
    | some alarm' =>
      have hstop (alarm : Abort) := Action.bind_of_error (fun _ => rest' alarm) (Watch.pass_eq_error ((hsame alarm).trans hpass))
      exact .inl fun alarm => (hstop alarm).trans (Action.bind_of_error _ (Watch.pass_eq_error hpass)).symm

/-- The same where work in a frame goes on: there the law is all that is asked of what follows. -/
theorem pass_of_law (stage : StageLaw event s R T) (hw : w event s = none) {event' : Event} {rest' : Abort → Action α}
    {rest : Action α} (hin : event'.In own) (hrest : CutShort s T own rest' rest)
    (hR : R own s (after (w.pass event' >>= fun _ => rest) s)) :
    CutShort s T own (fun alarm => (w.orAt event s alarm).pass event' >>= fun _ => rest' alarm)
      (w.pass event' >>= fun _ => rest) := by
  refine pass hw hrest ?_
  rintro rfl
  rw [Watch.after_pass_bind hw] at hR
  exact stage.begins own hin _ hR

/-- Work in a new frame is the same or cut short if the work there is. -/
theorem openScope (stage : StageLaw event s R T) (env : Env) (bindings : List (Symbol × Value)) {q' : Abort → Env → Action α}
    {q : Env → Action α} (hq : ∀ scope : Env, CutShort s T scope.frame (fun alarm => q' alarm scope) (q scope)) :
    CutShort s T own (fun alarm => Action.openScope env bindings >>= q' alarm) (Action.openScope env bindings >>= q) := by
  intro m
  have hopen : Action.openScope env bindings m =
      .ok (m.heap.newChild env).1 { m with heap := m.heap.withScope env bindings } := rfl
  have hfirst (alarm : Abort) := Action.bind_of_ok (q' alarm) hopen
  simp only [hfirst]
  rw [Action.bind_of_ok _ hopen, after_bind_of_ok _ hopen]
  exact (hq _ _).imp_right (And.imp_right (stage.scope env bindings))

/-- Work in a new frame that is registered in the end: the alarm can only cut short the work. -/
theorem registering (stage : StageLaw event s R T) (env : Env) (name : Symbol) {q' : Abort → Env → Action Unit}
    {q : Env → Action Unit} (hq : ∀ home : Env, CutShort s T home.frame (fun alarm => q' alarm home) (q home))
    (hR : ∀ (home : Env) m, R home.frame m (after (q home) m)) :
    CutShort s T own
      (fun alarm => Action.newScope env >>= fun home => q' alarm home >>= fun _ => registerModule name home)
      (Action.newScope env >>= fun home => q home >>= fun _ => registerModule name home) := by
  intro m
  have hnew : Action.newScope env m = .ok (m.heap.newChild env).1 { m with heap := (m.heap.newChild env).2 } := rfl
  have hfirst (alarm : Abort) :=
    Action.bind_of_ok (fun home => q' alarm home >>= fun _ => registerModule name home) hnew
  simp only [hfirst]
  rw [Action.bind_of_ok _ hnew, after_bind_of_ok _ hnew]
  have hRq := hR (m.heap.newChild env).1 { m with heap := (m.heap.newChild env).2 }
  rcases hq (m.heap.newChild env).1 { m with heap := (m.heap.newChild env).2 } with hsame | ⟨⟨d, hcut⟩, hstage⟩
  · left
    intro alarm
    cases hr : q (m.heap.newChild env).1 { m with heap := (m.heap.newChild env).2 } with
    | error e m₁ => rw [Action.bind_of_error _ ((hsame alarm).trans hr), Action.bind_of_error _ hr]
    | ok u m₁ => rw [Action.bind_of_ok _ ((hsame alarm).trans hr), Action.bind_of_ok _ hr]
  · right
    refine ⟨⟨d, fun alarm => Action.bind_of_error _ (hcut alarm)⟩, ?_⟩
    cases hr : q (m.heap.newChild env).1 { m with heap := (m.heap.newChild env).2 } with
    | error e m₁ =>
      rw [after_eq_of_error hr] at hstage
      rw [after_bind_of_error _ hr]
      exact stage.scope env [] hstage
    | ok u m₁ =>
      rw [after_eq_of_ok hr] at hstage hRq
      rw [after_bind_of_ok _ hr]
      cases hn : m₁.modules.lookup name with
      | none =>
        rw [after_eq_of_ok (registerModule_of_free _ hn)]
        exact stage.newModule env name hRq hstage hn
      | some other =>
        rw [after_eq_of_error (registerModule_of_taken _ hn)]
        exact stage.scope env [] hstage

/-- What is done one level deeper is the same or cut short if it is so there. -/
theorem nested (stage : StageLaw event s R T) {a' : Abort → Action α} {a : Action α} (ha : CutShort s T own a' a) :
    CutShort s T own (fun alarm => Action.nested (a' alarm)) (Action.nested a) := by
  intro m
  by_cases hd : m.depth < m.limits.maxDepth
  · rw [after_nested a hd]
    rcases ha { m with depth := m.depth + 1 } with hsame | ⟨⟨d, hcut⟩, hstage⟩
    · exact .inl fun alarm => nested_congr (hsame alarm)
    · exact .inr ⟨⟨d - 1, fun alarm => nested_of_error hd (hcut alarm)⟩, stage.nested hstage⟩
  · have hn : m.limits.maxDepth ≤ m.depth := by omega
    exact .inl fun alarm => (if_pos hn).trans (if_pos hn).symm

end Action.CutShort

/-- A routine over evaluators of which the one is the other or cut short is itself the same or cut short. -/
theorem Routine.cutShort {can : Ability → Prop} {own : FrameId} {p : Evaluator → Evaluator → Action α}
    {eval' tail' : Abort → Evaluator} {eval tail : Evaluator} (hp : Routine can own p) (stage : StageLaw event s R T)
    (law : Law can R) (he : ∀ form env m, R env.frame m (Action.after (eval form env) m))
    (ht : ∀ form env m, R env.frame m (Action.after (tail form env) m))
    (hx : can .expand → ∀ own form env m, R own m (Action.after (MiniLisp.expand eval form env) m))
    (hce : ∀ form env, Action.CutShort s T env.frame (fun alarm => eval' alarm form env) (eval form env))
    (hct : ∀ form env, Action.CutShort s T env.frame (fun alarm => tail' alarm form env) (tail form env))
    (hcx : can .expand → ∀ own form env,
      Action.CutShort s T own (fun alarm => MiniLisp.expand (eval' alarm) form env) (MiniLisp.expand eval form env)) :
    Action.CutShort s T own (fun alarm => p (eval' alarm) (tail' alarm)) (p eval tail) := by
  induction hp with
  | andThen hp hq ihp ihq =>
    exact .bind stage ihp ihq (hp.obeys law he ht hx) fun v => (hq v).obeys law he ht hx
  | inner form env h => exact h ▸ hce form env
  | tail form env h => exact h ▸ hct form env
  | expansion form env hc => exact hcx hc _ form env
  | scope env bindings _ ihq => exact .openScope stage env bindings ihq
  | newModule env name hq ihq => exact .registering stage env name ihq fun home => (hq home).obeys law he ht hx
  | _ => exact .same _

section

variable {eval' tail' : Abort → Evaluator} {eval tail : Evaluator} (stage : StageLaw event s R T)
  (he : ∀ form env m, R env.frame m (Action.after (eval form env) m))
  (ht : ∀ form env m, R env.frame m (Action.after (tail form env) m))
  (hce : ∀ form env, Action.CutShort s T env.frame (fun alarm => eval' alarm form env) (eval form env))
  (hct : ∀ form env, Action.CutShort s T env.frame (fun alarm => tail' alarm form env) (tail form env))

include stage he hce

/-- An expansion is the same or cut short if its evaluator is. -/
theorem expand_cutShort (law : Law Ability.Quiet R) (own : FrameId) (form : Value) (env : Env) :
    Action.CutShort s T own (fun alarm => expand (eval' alarm) form env) (expand eval form env) := by
  intro m
  have hl : Law (fun _ => False) R := law.weaken fun _ h => h.elim
  have hr : Routine (fun _ => False) own fun eval _ => expandLevel eval env m.limits.maxMacroExpansions
      (m.limits.maxMacroExpansions + 1) form := expandLevel_routine env _ _ form
  have h := hr.cutShort stage hl he he (fun h => h.elim) hce hce (fun h => h.elim) m
  unfold Action.after at h ⊢
  simp only [expand_apply]
  exact h

include ht hct

/-- An action under a watch that also stops at the stage is the same or cut short. -/
theorem Watched.cutShort {can : Ability → Prop} {own : FrameId} {p : Watch → Evaluator → Evaluator → Action α}
    (hp : Watched can own p) (hw : w event s = none) (law : WatchLaw w R) :
    Action.CutShort s T own (fun alarm => p (w.orAt event s alarm) (eval' alarm) (tail' alarm)) (p w eval tail) := by
  induction hp with
  | routine hp =>
    exact hp.cutShort stage law.quiet he ht (fun _ => expand_obeys law.quiet he) hce hct
      fun _ => expand_cutShort stage he hce law.quiet
  | andThen hp hq ihp ihq => exact .bind stage ihp ihq (hp.obeys law he ht) fun v => (hq v).obeys law he ht
  | call p args _ =>
    refine .pass hw (.same _) ?_
    rintro rfl
    refine stage.called p args rfl _ ?_
    rw [← Watch.after_pass_bind hw]
    exact law.call _ p args s
  | definition env name mutable h hv _ =>
    subst h
    exact .pass_of_law stage hw rfl (.same _) (law.definition env name mutable hv s)
  | sharing module env h _ =>
    subst h
    exact .pass_of_law stage hw rfl (.same _) (law.sharing module env s)
  | assignment env name v _ => exact .pass_of_law stage hw trivial (.same _) (law.assignment _ env name v s)
  | scope env _ ihq => exact .openScope stage env [] ihq

end

namespace WatchLaw

variable (law : WatchLaw w R) (stage : StageLaw event s R T) (hw : w event s = none)

include law stage hw

/-- A level is the same or cut short if the work in it is; the alarm may also go off at its end. -/
theorem level_cutShort {own : FrameId} {a' : Abort → Action Value} {a : Action Value} (ha : Action.CutShort s T own a' a)
    (hR : ∀ m, R own m (Action.after a m)) :
    Action.CutShort s T own (fun alarm => (w.orAt event s alarm).level (a' alarm)) (w.level a) := by
  have hended (v : Value) (m : Machine) : R own m (Action.after (w.pass (.ended v) >>= fun _ => pure v) m) :=
    law.quiet.pass w own _ (a := pure v) (law.quiet.refl own) m
  refine .nested stage (.bind stage ha (fun v => ?_) hR hended)
  exact .pass_of_law stage hw .intro (.same _) (hended v s)

/-- By induction on the fuel: at each turn the alarm goes off, or the step is the same or cut short. -/
theorem run_cutShort (fuel : Nat) (form : Value) (env : Env) :
    Action.CutShort s T env.frame (fun alarm => (w.orAt event s alarm).run fuel form env) (w.run fuel form env) := by
  induction fuel generalizing form env with
  | zero => exact .same _
  | succ fuel ih =>
    have hstep : Watched (fun _ => True) env.frame fun w eval tail => w.step eval tail form env :=
      Watch.step_watched trivial trivial form env fun _ => trivial
    have hturn := law.run (fuel + 1) form env s
    simp only [Watch.run_succ] at hturn ⊢
    refine .pass_of_law stage hw rfl ?_ hturn
    refine hstep.cutShort stage (law.eval fuel) (law.run fuel) (fun form env => ?_) ih hw law
    exact law.level_cutShort stage hw (ih form env) (law.run fuel form env)

/-- An evaluation under a watch that also stops at the stage is the same or cut short. -/
theorem eval_cutShort (fuel : Nat) (form : Value) (env : Env) :
    Action.CutShort s T env.frame (fun alarm => (w.orAt event s alarm).eval fuel form env) (w.eval fuel form env) :=
  law.level_cutShort stage hw (law.run_cutShort stage hw fuel form env) (law.run fuel form env)

/-- So is an expansion. -/
theorem expand_cutShort (fuel : Nat) (own : FrameId) (form : Value) (env : Env) :
    Action.CutShort s T own (fun alarm => MiniLisp.expand ((w.orAt event s alarm).eval fuel) form env)
      (MiniLisp.expand (w.eval fuel) form env) :=
  MiniLisp.expand_cutShort stage (law.eval fuel) (law.eval_cutShort stage hw fuel) law.quiet own form env

/-- And so is a call. -/
theorem apply_cutShort (fuel : Nat) (own : FrameId) (callee : Value) (args : List Value) :
    Action.CutShort s T own
      (fun alarm => (w.orAt event s alarm).apply ((w.orAt event s alarm).eval fuel) ((w.orAt event s alarm).eval fuel) callee args)
      (w.apply (w.eval fuel) (w.eval fuel) callee args) := by
  have happly : Watched (fun _ => True) own fun w eval tail => w.apply eval tail callee args :=
    Watch.apply_watched trivial callee args
  have he := law.eval fuel
  have hc := law.eval_cutShort stage hw fuel
  exact happly.cutShort stage he he hc hc hw law

end WatchLaw

section

variable {own : FrameId} {a : Watch → Action α} {m : Machine}

/-- Not every alarm can be what an action ends with anyway. -/
theorem Action.Passes.not_same (h : Passes a w m event s) : ¬∀ alarm, a (w.orAt event s alarm) m = a w m := by
  intro hsame
  obtain ⟨m₁, h₁⟩ := h.2 .outOfFuel
  obtain ⟨m₂, h₂⟩ := h.2 (.error (.unboundVariable ""))
  have hone := h₁.symm.trans ((hsame _).trans ((hsame _).symm.trans h₂))
  cases hone

/-- An action that passes through a stage goes from there to its end. -/
theorem Action.Passes.cut (h : Passes a w m event s) (hcut : CutShort s T own (fun alarm => a (w.orAt event s alarm)) (a w)) :
    T own m (after (a w) m) :=
  ((hcut m).resolve_left h.not_same).2

end

end CutShort

/-! ## The order of stages -/

section Order

variable {a : Watch → Action α} {m : Machine} {event event' : Event} {s s' : Machine}

/-- Nothing is asked of any work. -/
theorem Law.trivial (can : Ability → Prop) : Law can fun _ _ _ => True where
  refl _ _ := .intro
  trans _ _ := .intro
  definition _ _ _ _ _ _ := .intro
  sharing _ _ _ _ := .intro
  assignment _ _ _ _ _ _ _ _ := .intro
  lambdaId _ _ := .intro
  symbol _ _ _ := .intro
  output _ _ _ := .intro
  scope _ _ _ := .intro
  newModule _ _ _ _ := .intro
  nested _ _ := .intro

theorem StageLaw.trivial (event : Event) (s : Machine) : StageLaw event s (fun _ _ _ => True) fun _ _ _ => True where
  begins _ _ _ _ := .intro
  called _ _ _ _ _ := .intro
  earlier _ _ := .intro
  later _ _ _ := .intro
  scope _ _ _ := .intro
  newModule _ _ _ _ _ := .intro
  nested _ := .intro

/-- Whatever the alarm at an event is, it does not go off, or it cuts the action short there. -/
def Action.Watchable (a : Watch → Action α) (m : Machine) : Prop :=
  ∀ w event s, w event s = none → (∀ alarm, a (w.orAt event s alarm) m = a w m) ∨
    ∃ d, ∀ alarm, a (w.orAt event s alarm) m = .error alarm { s with depth := d }

/-- An action can be stopped at each of its stages. -/
theorem Action.Passes.stopped (ha : Watchable a m) (h : Passes a w m event s) (alarm : Abort) :
    ∃ d, after (a (w.orAt event s alarm)) m = { s with depth := d } := by
  obtain ⟨d, hcut⟩ := (ha w event s h.1).resolve_left h.not_same
  exact ⟨d, after_eq_of_error (hcut alarm)⟩

/-- Alarms at two different stages can be set in either order. -/
theorem Watch.orAt_comm (w : Watch) (hne : ¬(event = event' ∧ s = s')) (alarm alarm' : Abort) :
    (w.orAt event s alarm).orAt event' s' alarm' = (w.orAt event' s' alarm').orAt event s alarm := by
  funext event₁ m
  simp only [Watch.orAt]
  split_ifs with h' h
  · exact absurd ⟨h.1.symm.trans h'.1, h.2.symm.trans h'.2⟩ hne
  all_goals rfl

/-- Of two different stages one lies before the other: of two different alarms there, one does not go off any more if the action is
stopped by the other one. -/
theorem Action.Passes.order (ha : Watchable a m) (h : Passes a w m event s) (h' : Passes a w m event' s')
    (hne : ¬(event = event' ∧ s = s')) {alarm alarm' : Abort} (halarm : alarm ≠ alarm') :
    Passes a (w.orAt event' s' alarm') m event s ∨ Passes a (w.orAt event s alarm) m event' s' := by
  have hw : w.orAt event' s' alarm' event s = none := by
    rw [Watch.orAt, if_neg hne]
    exact h.1
  have hw' : w.orAt event s alarm event' s' = none := by
    rw [Watch.orAt, if_neg fun heq => hne ⟨heq.1.symm, heq.2.symm⟩]
    exact h'.1
  rcases ha _ event s hw with hsame | ⟨d, hcut⟩
  · rcases ha _ event' s' hw' with hsame' | ⟨d, hcut⟩
    · -- Otherwise the action would end with both alarms.
      obtain ⟨m₁, h₁⟩ := h.2 alarm
      obtain ⟨m₂, h₂⟩ := h'.2 alarm'
      have hboth := hsame alarm
      rw [← Watch.orAt_comm w hne, hsame' alarm', h₁, h₂] at hboth
      cases hboth
      exact absurd rfl halarm
    · exact .inr ⟨hw', fun alarm' => ⟨_, hcut alarm'⟩⟩
  · exact .inl ⟨hw, fun alarm => ⟨_, hcut alarm⟩⟩

end Order

/-! ## Two stages -/

section Stages

variable {event : Event} {s : Machine} {T : FrameId → Machine → Machine → Prop}

/-- What holds between a stage of an evaluation under watch and its end. -/
theorem WatchLaw.eval_passes (law : WatchLaw w R) (stage : StageLaw event s R T) {fuel : Nat} {form : Value} {env : Env}
    {m : Machine} (h : Action.Passes (fun w => w.eval fuel form env) w m event s) :
    T env.frame m (Action.after (w.eval fuel form env) m) :=
  h.cut (law.eval_cutShort stage h.1 fuel form env)

/-- What holds between a stage of an expansion under watch and its end. -/
theorem WatchLaw.expand_passes (law : WatchLaw w R) (stage : StageLaw event s R T) {fuel : Nat} {form : Value} {env : Env}
    {m : Machine} (own : FrameId) (h : Action.Passes (fun w => MiniLisp.expand (w.eval fuel) form env) w m event s) :
    T own m (Action.after (MiniLisp.expand (w.eval fuel) form env) m) :=
  h.cut (law.expand_cutShort stage h.1 fuel own form env)

/-- The relation holds from the beginning of an action under watch, and from every state that it passes through, to where it ends
or is stopped. As the watch may stop it anywhere, it holds between any two of these states. -/
structure Action.Throughout (K : Machine → Machine → Prop) (a : Watch → Action α) (w : Watch) (m : Machine) : Prop where
  start : K m (after (a w) m)
  passed : ∀ event s, Passes a w m event s → K s (after (a w) m)

variable {P : FrameId → Machine → Prop} {K : Machine → Machine → Prop}

/-- What a law governs holds from all stages of an evaluation on, if it is begun where the condition is met. -/
theorem WatchLaw.eval_throughout (law : WatchLaw w R) (governs : Governs P R K) (fuel : Nat) (form : Value) {env : Env}
    {m : Machine} (h : P env.frame m) : Action.Throughout K (fun w => w.eval fuel form env) w m where
  start := governs.keeps h (law.eval fuel form env m)
  passed event s hpass := law.eval_passes (governs.stageLaw event s) hpass h

/-- The same of an expansion. -/
theorem WatchLaw.expand_throughout (law : WatchLaw w R) (governs : Governs P R K) (fuel : Nat) (form : Value) (env : Env)
    (own : FrameId) {m : Machine} (h : P own m) : Action.Throughout K (fun w => MiniLisp.expand (w.eval fuel) form env) w m where
  start := governs.keeps h (law.expand fuel own form env m)
  passed event s hpass := law.expand_passes (governs.stageLaw event s) own hpass h

/-- A relation that is kept is one that is kept wherever it says more. -/
theorem Action.Throughout.imp {L : Machine → Machine → Prop} {a : Watch → Action α} {m : Machine} (h : Throughout K a w m)
    (hKL : ∀ s, K s (after (a w) m) → L s (after (a w) m)) : Throughout L a w m where
  start := hKL m h.start
  passed event s hpass := hKL s (h.passed event s hpass)

end Stages

end MiniLisp
