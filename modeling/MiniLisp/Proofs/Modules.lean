import MiniLisp.Proofs.Frames

/-!
# The table of modules only grows

No work takes a module out of the table or puts another one in its place, however it ends; over the same work the text printed
is only extended, the number of generated symbols does not decrease, and the limits stay what they are (`Machine.Grown`). So a run
has at its end, or wherever a watch stops it, all that it had at any stage that it passed through.

A module enters the table with the last step of its definition, when all its declarations have been evaluated and its name is
still free. However far the work on its declarations gets, no name stands for its frame before that, and none does after a
definition that failed (`modules_only_grow`).
-/

namespace MiniLisp

namespace Machine

/-- The frame of every module is there. -/
def Housed (m : Machine) : Prop := ∀ name home, m.modules.lookup name = some home → home.frame < m.heap.frames.size

/-- This frame is not the frame of a module. -/
def Unregistered (frame : FrameId) (m : Machine) : Prop := ∀ name home, m.modules.lookup name = some home → home.frame ≠ frame

/-- The machine has only grown: nothing is lost of the modules, the frames and the output. -/
structure Grown (m m' : Machine) : Prop where
  modules : m.modules <:+ m'.modules
  registered : ∀ name home, m.modules.lookup name = some home → m'.modules.lookup name = some home
  frames : m.heap.frames.size ≤ m'.heap.frames.size
  housed : m.Housed → m'.Housed
  output : ∃ text, m'.output = m.output ++ text
  generated : m.generated ≤ m'.generated
  limits : m'.limits = m.limits

namespace Grown

variable {m m' : Machine}

/-- A change that leaves the modules, the output, the counter and the limits alone. -/
theorem of_eq (hs : m.heap.frames.size ≤ m'.heap.frames.size) (hm : m'.modules = m.modules) (ho : m'.output = m.output)
    (hg : m'.generated = m.generated) (hl : m'.limits = m.limits) : Grown m m' := by
  refine ⟨?_, fun name home h => ?_, hs, fun hh name home h => ?_, ⟨"", ?_⟩, hg.ge, hl⟩
  · simp [hm]
  · rwa [hm]
  · rw [hm] at h
    exact (hh name home h).trans_le hs
  · simp [ho]

theorem refl (m : Machine) : Grown m m := .of_eq le_rfl rfl rfl rfl rfl

theorem trans {m'' : Machine} (h : Grown m m') (h' : Grown m' m'') : Grown m m'' := by
  obtain ⟨text, ht⟩ := h.output
  obtain ⟨text', ht'⟩ := h'.output
  refine ⟨h.modules.trans h'.modules, fun name home hm => ?_, h.frames.trans h'.frames, h'.housed ∘ h.housed,
    ⟨text ++ text', ?_⟩, h.generated.trans h'.generated, h'.limits.trans h.limits⟩
  · exact h'.registered name home (h.registered name home hm)
  · rw [ht', ht, String.append_assoc]

/-- A frame that is there is registered under a free name. -/
theorem register {name : Symbol} {home : Env} (hn : m.modules.lookup name = none) (hlt : home.frame < m.heap.frames.size) :
    Grown m { m with modules := (name, home) :: m.modules } := by
  refine ⟨List.suffix_cons _ _, fun other found h => ?_, le_rfl, fun hh other found h => ?_, ⟨"", by simp⟩, le_rfl, rfl⟩
  · exact lookup_registered hn h
  · rcases lookup_registered_cases h with rfl | hold
    · exact hlt
    · exact hh other found hold

/-- The registration of a frame that was made before the work in it. -/
theorem register_newChild {env : Env} {name : Symbol} (h : Grown { m with heap := (m.heap.newChild env).2 } m')
    (hn : m'.modules.lookup name = none) :
    Grown m' { m' with modules := (name, (m.heap.newChild env).1) :: m'.modules } := by
  have hs := h.frames
  rw [Heap.frames_newChild, Array.size_push] at hs
  exact register hn hs

/-- The names of a new frame. -/
theorem withScope (m : Machine) (env : Env) (bindings : List (Symbol × Value)) :
    Grown m { m with heap := m.heap.withScope env bindings } :=
  .of_eq (by simp) rfl rfl rfl rfl

end Grown

end Machine

/-- By all work the machine only grows. -/
theorem grown_law : Law (fun _ => True) fun _ => Machine.Grown where
  refl _ m := .refl m
  trans h h' := h.trans h'
  definition _ own m name v mutable := .of_eq (Heap.size_frames_define m.heap own name v mutable).ge rfl rfl rfl rfl
  sharing _ own m _ := .of_eq (Heap.size_frames_bindAll m.heap own _).ge rfl rfl rfl rfl
  assignment _ _ _ _ _ _ _ _ := .of_eq le_rfl rfl rfl rfl rfl
  lambdaId _ _ := .of_eq le_rfl rfl rfl rfl rfl
  symbol _ _ m := { Machine.Grown.refl m with generated := Nat.le_succ m.generated }
  output _ m text := { Machine.Grown.refl m with output := ⟨text, rfl⟩ }
  scope {_ m _} env bindings h := (Machine.Grown.withScope m env bindings).trans h
  newModule {_ m _} env name h hn := ((Machine.Grown.withScope m env []).trans h).trans (h.register_newChild hn)
  nested {_ m m'} _ h := by
    have hin : Machine.Grown m { m with depth := m.depth + 1 } := .of_eq le_rfl rfl rfl rfl rfl
    have hout : Machine.Grown m' { m' with depth := m'.depth - 1 } := .of_eq le_rfl rfl rfl rfl rfl
    exact (hin.trans h).trans hout

/-- It grows at the end of a level, and by the registration of a module. -/
theorem grown_carriesOver : CarriesOver Machine.Grown where
  trans := Machine.Grown.trans
  depth _ _ := .of_eq le_rfl rfl rfl rfl rfl
  register _ _ _ _ h hn := h.register_newChild hn

/-! ## The definition of one module -/

/-- All declarations of a module were expanded and evaluated in its frame, one after another and without an error. -/
inductive Declared (eval : Evaluator) (home : Env) : List Value → Machine → Machine → Prop where
  | nil (m : Machine) : Declared eval home [] m m
  | cons {declaration form v : Value} {declarations : List Value} {m m₁ m₂ m' : Machine}
      (hexpanded : expand eval declaration home m = .ok form m₁) (hevaluated : eval form home m₁ = .ok v m₂)
      (hrest : Declared eval home declarations m₂ m') : Declared eval home (declaration :: declarations) m m'

/-- The declarations succeed exactly if each of them is expanded and evaluated without an error. -/
theorem evalDeclarations_eq_ok_iff {eval : Evaluator} {home : Env} {declarations : List Value} {m m' : Machine} :
    evalDeclarations eval home declarations m = .ok () m' ↔ Declared eval home declarations m m' := by
  constructor
  · intro h
    induction declarations generalizing m with
    | nil =>
      cases h
      exact .nil _
    | cons declaration declarations ih =>
      obtain ⟨form, m₁, hexpanded, h⟩ := Action.bind_eq_ok h
      obtain ⟨v, m₂, hevaluated, h⟩ := Action.bind_eq_ok h
      exact .cons hexpanded hevaluated (ih h)
  · intro h
    induction h with
    | nil m => rfl
    | cons hexpanded hevaluated _ ih =>
      rw [evalDeclarations, Action.bind_of_ok _ hexpanded, Action.bind_of_ok _ hevaluated]
      exact ih

/-- A frame is registered if its name is free. -/
theorem registerModule_eq (name : Symbol) (home : Env) (m : Machine) :
    registerModule name home m =
      if (m.modules.lookup name).isSome then .error (.error (duplicateModule name)) m
      else .ok () { m with modules := (name, home) :: m.modules } := by
  cases hn : m.modules.lookup name with
  | none => simp [registerModule_of_free home hn]
  | some other => simp [registerModule_of_taken home hn]

/-- The machine with the frame of a new module, before its declarations. -/
def Machine.withModuleFrame (m : Machine) : Machine := { m with heap := (m.heap.newChild m.global).2 }

/-- The environment of a new module. -/
def Machine.moduleHome (m : Machine) : Env := (m.heap.newChild m.global).1

/-- A module is defined in three parts, if its name is free: its frame is made, its declarations are evaluated there, and the
frame is registered. -/
theorem defineModule_eq (eval : Evaluator) (name : Symbol) (declarations : List Value) (m : Machine) :
    defineModule eval name declarations m =
      if (m.modules.lookup name).isSome then .error (.error (duplicateModule name)) m
      else (evalDeclarations eval m.moduleHome declarations >>= fun _ => registerModule name m.moduleHome) m.withModuleFrame := by
  have hf : Action.findModule? name m = .ok (m.modules.lookup name) m := rfl
  rw [defineModule, Action.bind_of_ok _ hf]
  cases m.modules.lookup name <;> rfl

/-- A definition succeeds exactly if the name is free before and after the declarations, and all of these succeed. -/
theorem defineModule_eq_ok_iff {eval : Evaluator} {name : Symbol} {declarations : List Value} {m m' : Machine} :
    defineModule eval name declarations m = .ok () m' ↔
      m.modules.lookup name = none ∧ ∃ m'', Declared eval m.moduleHome declarations m.withModuleFrame m'' ∧
        m''.modules.lookup name = none ∧ m' = { m'' with modules := (name, m.moduleHome) :: m''.modules } := by
  rw [defineModule_eq]
  constructor
  · intro h
    split at h
    · cases h
    · rename_i hfree
      obtain ⟨_, m'', hdeclared, h⟩ := Action.bind_eq_ok h
      rw [registerModule_eq] at h
      split at h
      · cases h
      · rename_i hfree'
        cases h
        exact ⟨Option.not_isSome_iff_eq_none.1 hfree, m'', evalDeclarations_eq_ok_iff.1 hdeclared,
          Option.not_isSome_iff_eq_none.1 hfree', rfl⟩
  · rintro ⟨hfree, m'', hdeclared, hfree', rfl⟩
    rw [hfree, Action.bind_of_ok _ (evalDeclarations_eq_ok_iff.2 hdeclared), registerModule_eq, hfree']
    rfl

/-- A definition that fails leaves the machine as its declarations left it, if it came to them. -/
theorem after_of_defineModule_error {eval : Evaluator} {name : Symbol} {declarations : List Value} {m m' : Machine} {e : Abort}
    (h : defineModule eval name declarations m = .error e m') :
    m' = m ∨ m' = Action.after (evalDeclarations eval m.moduleHome declarations) m.withModuleFrame := by
  rw [defineModule_eq] at h
  split at h
  · cases h
    exact .inl rfl
  · right
    rcases Action.bind_eq_error h with hr | ⟨_, m'', hr, h⟩
    · exact (Action.after_eq_of_error hr).symm
    · rw [registerModule_eq] at h
      split at h
      · cases h
        exact (Action.after_eq_of_ok hr).symm
      · cases h

section

variable (fuel : Nat) (declarations : List Value) {m : Machine}

/-- The declarations of a module keep to the laws of work in its frame. -/
theorem WatchLaw.evalDeclarations {w : Watch} {R : FrameId → Machine → Machine → Prop} (law : WatchLaw w R) (home : Env)
    (m : Machine) : R home.frame m (Action.after (MiniLisp.evalDeclarations (w.eval fuel) home declarations) m) := by
  have hr : Routine Ability.Quiet home.frame fun eval _ => MiniLisp.evalDeclarations eval home declarations :=
    evalDeclarations_routine Ability.quiet_expand home declarations
  exact hr.obeys_expanding law.quiet (law.eval fuel) (law.eval fuel) m

/-- However far they get, the declarations of a module do not register its frame: it is open for work. -/
theorem Machine.Housed.unregistered_declarations (h : m.Housed) (w : Watch) :
    (Action.after (evalDeclarations (w.eval fuel) m.moduleHome declarations) m.withModuleFrame).Unregistered m.heap.frames.size := by
  have hopen : m.withModuleFrame.Open m.heap.frames.size := Machine.open_withScope h m.global []
  exact ((modules_law.watched w).evalDeclarations fuel declarations m.moduleHome m.withModuleFrame hopen).isOpen.home_ne

end

/-- What the definition of a module does to the table: its frame is registered in the end, if all went well, and not before. -/
structure RegisteredWhole (fuel : Nat) (name : Symbol) (declarations : List Value) (m : Machine) : Prop where
  /-- Wherever a watch stops the work on its declarations, the frame is not in the table. -/
  pending : ∀ w : Watch,
    (Action.after (evalDeclarations (w.eval fuel) m.moduleHome declarations) m.withModuleFrame).Unregistered m.heap.frames.size
  failed : ∀ e m', defineModule (eval fuel) name declarations m = .error e m' → m'.Unregistered m.heap.frames.size
  succeeded : ∀ m', defineModule (eval fuel) name declarations m = .ok () m' ↔
    m.modules.lookup name = none ∧ ∃ m'', Declared (eval fuel) m.moduleHome declarations m.withModuleFrame m'' ∧
      m''.modules.lookup name = none ∧ m' = { m'' with modules := (name, m.moduleHome) :: m''.modules }

/-- Where the frames of the modules are in place, a module is registered in the end or not at all. -/
theorem registeredWhole (fuel : Nat) (name : Symbol) (declarations : List Value) {m : Machine} (h : m.Housed) :
    RegisteredWhole fuel name declarations m where
  pending := h.unregistered_declarations fuel declarations
  failed e m' hr := by
    rcases after_of_defineModule_error hr with rfl | rfl
    · exact fun other home hl => (h other home hl).ne
    · rw [← Watch.eval_never]
      exact h.unregistered_declarations fuel declarations .never
  succeeded _ := defineModule_eq_ok_iff

/-- From every stage of an evaluation, an expansion or a session on, whatever watches look on, the machine only grows, and a module
enters the table whole: from every state with the frames of its modules in place, as all states of a session are, a definition
registers its frame in the end or not at all. -/
theorem modules_only_grow (fuel : Nat) :
    Watch.Faithful fuel ∧
    (∀ w form env m, Action.Throughout Machine.Grown (fun w => w.eval fuel form env) w m) ∧
    (∀ w form env m, Action.Throughout Machine.Grown (fun w => expand (w.eval fuel) form env) w m) ∧
    (∀ m work, Session.Throughout fuel Machine.Grown m work) ∧
    (∀ limits, (Machine.fresh limits).Housed) ∧
    ∀ name declarations m, m.Housed → RegisteredWhole fuel name declarations m := by
  refine ⟨Watch.faithful fuel, fun w form env m => ?_, fun w form env m => ?_, fun m work => ?_, fun limits name home hl => ?_,
    fun _ _ _ h => registeredWhole fuel _ _ h⟩
  · exact (grown_law.watched w).eval_throughout grown_carriesOver.governs fuel form trivial
  · exact (grown_law.watched w).expand_throughout grown_carriesOver.governs fuel form env 0 trivial
  · exact Session.throughout_of_law fuel grown_law grown_carriesOver.governs (fun t _ => grown_law.watched t.1) trivial
  · cases hl

/-- A module whose own declarations register another one under its name: the definition fails, and no name stands for its frame. -/
theorem modules_only_grow_name_taken :
    let m : Machine := { heap := { frames := #[{}] }, global := ⟨0, []⟩, limits := ⟨2, 1⟩ }
    m.Housed ∧ ∃ e m', defineModule (eval 3) "A" [.list [.sym "module", .sym "A"]] m = .error e m' ∧
      m'.modules = [("A", ⟨2, [0]⟩)] ∧ m'.Unregistered 1 := by
  intro m
  have hm : m.Housed := by
    intro name home hl
    cases hl
  have hmodules : (Action.after (defineModule (eval 3) "A" [.list [.sym "module", .sym "A"]]) m).modules = [("A", ⟨2, [0]⟩)] := by
    decide +kernel
  have hw := (modules_only_grow 3).2.2.2.2.2 "A" [.list [.sym "module", .sym "A"]] m hm
  cases hr : defineModule (eval 3) "A" [.list [.sym "module", .sym "A"]] m with
  | error e m' =>
    rw [Action.after_eq_of_error hr] at hmodules
    exact ⟨hm, e, m', rfl, hmodules, hw.failed e m' hr⟩
  | ok u m' =>
    -- If the definition had succeeded, its own frame would be the latest entry.
    obtain ⟨_, m'', _, _, rfl⟩ := (hw.succeeded m').1 hr
    rw [Action.after_eq_of_ok hr] at hmodules
    have hframe : m.moduleHome.frame = 2 := congrArg (fun b => b.2.frame) (List.cons.inj hmodules).1
    exact absurd hframe (by decide)

end MiniLisp
