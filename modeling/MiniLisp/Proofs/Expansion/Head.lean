import MiniLisp.Proofs.Shadowing
import MiniLisp.Proofs.Sharing

/-!
# The heads of macro calls

Which macro a list calls is found in two ways. Expansion looks at the head as it is written: a symbol, or the access to a member
of a module. Evaluation runs the head like any other form: the access is then a special form that finds what stands left of the
dot, evaluates the name on its right and looks the member up.

`Machine.NamesMacro` says what it is for a head to name a macro. Expansion finds exactly the macros that heads name
(`Machine.macroAtHead?_pair_eq_some_iff`), and evaluating a head gives the macro that it names (`Machine.NamesMacro.eval_head`);
so the two agree (`macro_heads_agree`).
-/

namespace MiniLisp

/-- The access to a member of a module, `Module.member`. -/
def Value.qualified (module member : Symbol) : Value := .list [.sym ".", .sym module, .wrap "quote" (.sym member)]

/-- A head names a macro: it is a symbol that makes no special form and is bound to the macro, or the member of a module that is
the macro, if the name of the module is not bound to anything. -/
inductive Machine.NamesMacro (m : Machine) (env : Env) (f : Lambda Value) : Value → Prop where
  | symbol {s : Symbol} (hs : isSpecial s = false) (hf : m.heap.lookup? env s = some (.macroFn f)) : NamesMacro m env f (.sym s)
  | member {module member : Symbol} {home : Env} (hfree : m.heap.isBound env module = false)
      (hmodule : m.modules.lookup module = some home) (hf : m.heap.lookupLocal? home.frame member = some (.macroFn f)) :
      NamesMacro m env f (.qualified module member)

variable {m m' : Machine} {env : Env} {f : Lambda Value}

/-! ## Expansion -/

/-- A value is taken for a macro only if it is one. -/
theorem Value.asMacro?_eq_some_iff {v : Value} : v.asMacro? = some f ↔ v = .macroFn f := by
  cases v with
  | macroFn g => simp [Value.asMacro?]
  | _ => simp [Value.asMacro?]

/-- A qualified name has just one form. -/
theorem qualifiedName?_eq_some_iff {v : Value} {module member : Symbol} :
    qualifiedName? v = some (module, member) ↔ v = .qualified module member := by
  constructor
  · intro h
    unfold qualifiedName? at h
    split at h
    · cases h
      rfl
    · cases h
  · rintro rfl
    rfl

/-- A qualified head calls the macro that the module has under the name, unless the name of the module is bound to something else.
-/
theorem Machine.macroAtHead?_qualified (module member : Symbol) (args : Value) :
    m.macroAtHead? env (.pair (.qualified module member) args) =
      if m.heap.isBound env module then none
      else (m.modules.lookup module).bind fun home => (m.heap.lookupLocal? home.frame member).bind Value.asMacro? := rfl

/-- Expansion finds exactly the macro that the head names. -/
theorem Machine.macroAtHead?_pair_eq_some_iff {head args : Value} :
    m.macroAtHead? env (.pair head args) = some f ↔ m.NamesMacro env f head := by
  constructor
  · intro h
    -- The first look finds the shape of the head; for a member, the equation of `h` is taken up again with the names in it.
    have hform := h
    unfold Machine.macroAtHead? at hform
    split at hform
    · rename_i s _ hpair
      cases hpair
      split at hform
      · cases hform
      · rename_i hs
        obtain ⟨v, hv, hf⟩ := Option.bind_eq_some_iff.1 hform
        cases Value.asMacro?_eq_some_iff.1 hf
        exact .symbol (by simpa using hs) hv
    · rename_i hpair
      cases hpair
      obtain ⟨⟨module, member⟩, hname, -⟩ := Option.bind_eq_some_iff.1 hform
      cases qualifiedName?_eq_some_iff.1 hname
      rw [Machine.macroAtHead?_qualified] at h
      split at h
      · cases h
      · rename_i hfree
        obtain ⟨home, hmodule, h⟩ := Option.bind_eq_some_iff.1 h
        obtain ⟨v, hv, hf⟩ := Option.bind_eq_some_iff.1 h
        cases Value.asMacro?_eq_some_iff.1 hf
        exact .member (by simpa using hfree) hmodule hv
    · cases hform
  · intro h
    cases h with
    | symbol hs hf => exact macroAtHead?_of_lookup hs hf args
    | member hfree hmodule hf =>
      rw [Machine.macroAtHead?_qualified, hfree, hmodule, Option.bind_some, hf]
      rfl

/-- A form that calls a macro is a list whose head names it. -/
theorem Machine.macroAtHead?_eq_some {form : Value} (h : m.macroAtHead? env form = some f) :
    ∃ head args, form = .pair head args ∧ m.NamesMacro env f head := by
  cases form with
  | pair head args => exact ⟨head, args, rfl, Machine.macroAtHead?_pair_eq_some_iff.1 h⟩
  | _ => cases h

/-! ## Evaluation -/

/-- A name that is not bound has no value. -/
theorem Heap.lookup?_eq_none_of_not_isBound {h : Heap} {name : Symbol} (hfree : h.isBound env name = false) :
    h.lookup? env name = none := by
  have hnone : h.resolve? env name = none := by simpa [Heap.isBound] using hfree
  rw [Heap.lookup?, hnone]
  rfl

/-- A name has the value of the variable; else it stands for the module of that name, or for nothing. -/
theorem resolve_apply (name : Symbol) (env : Env) (e : Error) (m : Machine) :
    (do
      match ← Action.lookup? env name with
      | some v => return v
      | none =>
        match ← Action.findModule? name with
        | some home => return Value.module name home
        | none => Action.fail e : Action Value) m =
      match m.heap.lookup? env name, m.modules.lookup name with
      | some v, _ => .ok v m
      | none, some home => .ok (.module name home) m
      | none, none => .error (.error e) m := by
  have hlookup : Action.lookup? env name m = .ok (m.heap.lookup? env name) m := rfl
  have hfind : Action.findModule? name m = .ok (m.modules.lookup name) m := rfl
  rw [Action.bind_of_ok _ hlookup]
  cases m.heap.lookup? env name with
  | some v => rfl
  | none =>
    show (Action.findModule? name >>= _) m = _
    rw [Action.bind_of_ok _ hfind]
    cases m.modules.lookup name with
    | some home => rfl
    | none => rfl

/-- Left of a dot, a name that is bound to nothing stands for the module of that name. -/
theorem resolveQualifier_of_not_isBound {module : Symbol} (hfree : m.heap.isBound env module = false) :
    resolveQualifier module env m =
      match m.modules.lookup module with
      | some home => .ok (.module module home) m
      | none => .error (.error (moduleNotFound module)) m := by
  have hresolve := resolve_apply module env (moduleNotFound module) m
  rw [Heap.lookup?_eq_none_of_not_isBound hfree] at hresolve
  refine hresolve.trans ?_
  cases m.modules.lookup module with
  | some home => rfl
  | none => rfl

/-- Running the access to a member finds what stands left of the dot, evaluates the name and looks it up. -/
theorem run_qualified (fuel : Nat) (module member : Symbol) (env : Env) :
    run (fuel + 1) (.qualified module member) env = (do
      let owner ← resolveQualifier module env
      let key ← eval fuel (.wrap "quote" (.sym member)) env
      Action.ofExcept (← Action.ask fun m => SpecialForm.accessField m.heap owner key)) := by
  rw [run_succ]
  have harguments : SpecialForm.arguments .dot (.list [.sym module, .wrap "quote" (.sym member)]) =
      pure [.sym module, .wrap "quote" (.sym member)] := rfl
  show SpecialForm.plain (eval fuel) (run fuel) env .dot (.list [.sym module, .wrap "quote" (.sym member)]) = _
  simp only [SpecialForm.plain, SpecialForm.step, harguments, pure_bind, SpecialForm.evalDot, bind_assoc, force, bind_pure]

/-- One level deeper, the access to a member of a module whose name is not bound is a look into the frame of the module. -/
theorem run_qualified_of_module (fuel : Nat) {module : Symbol} {home : Env} (hfree : m.heap.isBound env module = false)
    (hmodule : m.modules.lookup module = some home) (hd : m.depth < m.limits.maxDepth) (member : Symbol) :
    run (fuel + 2) (.qualified module member) env m =
      Action.ofExcept (SpecialForm.accessField m.heap (.module module home) (.sym member)) m := by
  have howner : resolveQualifier module env m = .ok (.module module home) m := by
    rw [resolveQualifier_of_not_isBound hfree, hmodule]
  rw [run_qualified, Action.bind_of_ok _ howner, Action.bind_of_ok _ (eval_quote fuel (.sym member) env hd)]
  rfl

/-- Evaluating a head that names a macro gives the macro and changes nothing, if there are two levels left. -/
theorem Machine.NamesMacro.eval_head {head : Value} (h : m.NamesMacro env f head) (hd : m.depth + 2 ≤ m.limits.maxDepth)
    (fuel : Nat) : eval (fuel + 2) head env m = .ok (.macroFn f) m := by
  cases h with
  | symbol hs hf => exact eval_symbol (fuel + 1) hf (by omega)
  | @member module member home hfree hmodule hf =>
    rw [eval_eq]
    refine Action.nested_of_ok (by omega) ?_
    rw [run_qualified_of_module (m := { m with depth := m.depth + 1 }) fuel hfree hmodule hd, Heap.accessField_module, hf]
    rfl

/-- A symbol that evaluates to a macro is bound to it, and its evaluation changes nothing. -/
theorem lookup?_of_eval_symbol {fuel : Nat} {s : Symbol} (h : eval fuel (.sym s) env m = .ok (.macroFn f) m') :
    m.heap.lookup? env s = some (.macroFn f) ∧ m' = m := by
  rw [eval_eq] at h
  obtain ⟨m₁, hrun, rfl⟩ := Action.of_nested_eq_ok h
  cases fuel with
  | zero => cases hrun
  | succ fuel =>
    rw [run_succ] at hrun
    have hresolve := (resolve_apply s env (.unboundVariable s) _).symm.trans hrun
    split at hresolve
    · rename_i v _ hv
      cases hresolve
      exact ⟨hv, rfl⟩
    · cases hresolve
    · cases hresolve

/-- Where the name of a module is not bound, a member that evaluates to a macro is that macro. -/
theorem namesMacro_of_eval_qualified {fuel : Nat} {module member : Symbol} (hfree : m.heap.isBound env module = false)
    (hd : m.depth + 2 ≤ m.limits.maxDepth) (h : eval (fuel + 2) (.qualified module member) env m = .ok (.macroFn f) m') :
    m.NamesMacro env f (.qualified module member) := by
  rw [eval_eq] at h
  obtain ⟨m₁, hrun, rfl⟩ := Action.of_nested_eq_ok h
  cases hmodule : m.modules.lookup module with
  | none =>
    rw [run_qualified] at hrun
    obtain ⟨owner, m₂, howner, -⟩ := Action.bind_eq_ok hrun
    rw [resolveQualifier_of_not_isBound (m := { m with depth := m.depth + 1 }) hfree, hmodule] at howner
    cases howner
  | some home =>
    rw [run_qualified_of_module (m := { m with depth := m.depth + 1 }) fuel hfree hmodule hd, Heap.accessField_module] at hrun
    cases hlocal : m.heap.lookupLocal? home.frame member with
    | none =>
      rw [hlocal] at hrun
      cases hrun
    | some v =>
      rw [hlocal] at hrun
      cases hrun
      exact .member hfree hmodule hlocal

/-! ## Both together -/

/-- Expansion and evaluation agree on which macro a list calls. If a form calls a macro for expansion, it is a list whose head
evaluates to that very macro, and the evaluation changes nothing; two levels of nesting are enough for it. A symbol that makes no
special form and evaluates to a macro calls that macro for expansion. The access to a member of a module calls a macro for
expansion exactly if the name of the module is bound to nothing and the access evaluates to the macro; so a variable hides the
module of its name from both. -/
theorem macro_heads_agree (m : Machine) (env : Env) :
    (∀ form f, m.macroAtHead? env form = some f → m.depth + 2 ≤ m.limits.maxDepth →
      ∃ head args, form = .pair head args ∧ ∀ fuel, eval (fuel + 2) head env m = .ok (.macroFn f) m) ∧
    (∀ fuel s args f m', isSpecial s = false → eval fuel (.sym s) env m = .ok (.macroFn f) m' →
      m.macroAtHead? env (.pair (.sym s) args) = some f ∧ m' = m) ∧
    ∀ module member args f, m.depth + 2 ≤ m.limits.maxDepth →
      (m.macroAtHead? env (.pair (.qualified module member) args) = some f ↔
        m.heap.isBound env module = false ∧
          ∀ fuel, eval (fuel + 2) (.qualified module member) env m = .ok (.macroFn f) m) := by
  refine ⟨?_, ?_, ?_⟩
  · intro form f h hd
    obtain ⟨head, args, rfl, hnames⟩ := Machine.macroAtHead?_eq_some h
    exact ⟨head, args, rfl, hnames.eval_head hd⟩
  · intro fuel s args f m' hs h
    obtain ⟨hlookup, rfl⟩ := lookup?_of_eval_symbol h
    exact ⟨macroAtHead?_of_lookup hs hlookup args, rfl⟩
  · intro module member args f hd
    rw [Machine.macroAtHead?_pair_eq_some_iff]
    constructor
    · intro hnames
      cases hnames with
      | member hfree hmodule hf => exact ⟨hfree, (Machine.NamesMacro.member hfree hmodule hf).eval_head hd⟩
    · rintro ⟨hfree, heval⟩
      exact namesMacro_of_eval_qualified hfree hd (heval 0)

/-- A machine with a module `M` whose only member is the macro `m`. Its last frame binds the name `M`. -/
def memberMachine : Machine where
  heap := { frames := #[{}, ⟨[("m", 0)]⟩, ⟨[("M", 1)]⟩], slots := #[⟨.macroFn trueMacro, false⟩, ⟨.nil, false⟩] }
  global := ⟨0, []⟩
  modules := [("M", ⟨1, [0]⟩)]

/-- The member `M.m` evaluates to the macro that expansion finds; inside the module the symbol `m` does; and where `M` is bound,
`M.m` calls no macro. -/
theorem macro_heads_agree_member :
    (∀ fuel, eval (fuel + 2) (.qualified "M" "m") ⟨0, []⟩ memberMachine = .ok (.macroFn trueMacro) memberMachine) ∧
    memberMachine.macroAtHead? ⟨1, [0]⟩ (.list [.sym "m", .nil]) = some trueMacro ∧
    ∀ f, memberMachine.macroAtHead? ⟨2, [0]⟩ (.list [.qualified "M" "m", .nil]) ≠ some f := by
  refine ⟨?_, ?_, ?_⟩
  · obtain ⟨head, args, hform, heval⟩ :=
      (macro_heads_agree memberMachine ⟨0, []⟩).1 (.list [.qualified "M" "m", .nil]) trueMacro rfl (by decide)
    cases hform
    exact heval
  · exact ((macro_heads_agree memberMachine ⟨1, [0]⟩).2.1 1 "m" _ trueMacro memberMachine rfl rfl).1
  · intro f h
    obtain ⟨hfree, -⟩ := ((macro_heads_agree memberMachine ⟨2, [0]⟩).2.2 "M" "m" _ f (by decide)).1 h
    cases hfree

end MiniLisp
