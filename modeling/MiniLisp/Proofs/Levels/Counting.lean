import MiniLisp.Proofs.Levels.Basic
import MiniLisp.Proofs.Number.Arithmetic
import MiniLisp.Proofs.Expansion.Quotation
import MiniLisp.Proofs.Reader.Reprint

/-!
# Counting by tail calls and by nested calls

Two functions count to a number. The first calls itself in tail position and so needs the same few levels of nesting however far it
counts. The second waits for the result of the call and so needs one level more for each number. The main statement
(`counting_levels`) runs both in a new interpreter, from their texts: with the levels that they need they give the number, with
fewer they fail at the limit.
-/

namespace MiniLisp

open MiniLisp.Action (Needs)

/-! ## Arithmetic on integers -/

namespace Primitive

/-- The primitive `=` compares two integers. -/
theorem call_numEq (a b : Int) (m : Machine) : numEq.call [.ofInt a, .ofInt b] m = .ok (.bool (decide (a = b))) m := by
  have h := (comparedByValue (Number.toRat?_ofInt a) (Number.toRat?_ofInt b)).numEq m
  rwa [decide_eq_decide.2 Rat.intCast_inj] at h

/-- The primitive `+` adds two integers. -/
theorem call_add (a b : Int) (m : Machine) : add.call [.ofInt a, .ofInt b] m = .ok (.ofInt (a + b)) m := by
  have hab : StandFor [.ofInt a, .ofInt b] [(a : Rat), b] := .cons (Number.toRat?_ofInt a) (.cons (Number.toRat?_ofInt b) .nil)
  have hsum : Number.ofInt (a + b) = .ofRat [(a : Rat), b].sum := by
    refine Number.eq_ofRat ?_
    simp [Number.toRat?_ofInt]
  have h := (computedExactly hab).sum _ (.refl _) m
  rw [← hsum] at h
  exact h

/-- The primitive `-` subtracts one integer from another. -/
theorem call_sub (a b : Int) (m : Machine) : sub.call [.ofInt a, .ofInt b] m = .ok (.ofInt (a - b)) m := by
  have hab : StandFor [.ofInt a, .ofInt b] [(a : Rat), b] := .cons (Number.toRat?_ofInt a) (.cons (Number.toRat?_ofInt b) .nil)
  have hdifference : Number.ofInt (a - b) = .ofRat (differenceOf [(a : Rat), b]) := by
    refine Number.eq_ofRat ?_
    simp [Number.toRat?_ofInt, differenceOf]
  have h := (computedExactly hab).difference (by simp) m
  rw [← hdifference] at h
  exact h

end Primitive

/-! ## A new interpreter -/

/-- No slot holds a macro. -/
def Heap.MacroFree (h : Heap) : Prop := ∀ slot ∈ h.slots, slot.value.asMacro? = none

/-- A definition of anything but a macro leaves the heap without macros. -/
theorem Heap.MacroFree.define {h : Heap} (hm : h.MacroFree) (frame : FrameId) (name : Symbol) {value : Value}
    (hv : value.asMacro? = none) (mutable : Bool) : (h.define frame name value mutable).MacroFree := by
  intro slot hslot
  rw [Heap.slots_define] at hslot
  rcases Array.mem_push.1 hslot with hslot | rfl
  · exact hm slot hslot
  · exact hv

/-- So do several such definitions. -/
theorem Heap.MacroFree.defineAll {h : Heap} (hm : h.MacroFree) (frame : FrameId) (mutable : Bool)
    {bindings : List (Symbol × Value)} (hv : ∀ b ∈ bindings, b.2.asMacro? = none) :
    (h.defineAll frame mutable bindings).MacroFree := by
  induction bindings generalizing h with
  | nil => exact hm
  | cons b bs ih =>
    obtain ⟨hb, hbs⟩ := List.forall_mem_cons.1 hv
    exact ih (hm.define frame b.1 hb mutable) hbs

/-- The names of the operations that counting takes. -/
def operations : List (Symbol × Value) := [("=", .native .numEq), ("+", .native .add), ("-", .native .sub)]

/-- A machine between two top-level forms, without macros and modules, in which the operations have their names. -/
structure Machine.Ready (m : Machine) : Prop where
  atTop : m.depth = 0
  noModules : m.modules = []
  macroFree : m.heap.MacroFree
  knows : m.heap.Knows m.global operations

/-- In such a machine no list calls a macro. -/
theorem Machine.Ready.noMacros {m : Machine} (hm : m.Ready) (env : Env) : NoMacros m env where
  names name f hf := by
    obtain ⟨slot, -, hvalue⟩ := Option.bind_eq_some_iff.1 hf
    obtain ⟨contents, hcontents, hvalue⟩ := Option.map_eq_some_iff.1 hvalue
    have hnone := hm.macroFree contents (Array.mem_of_getElem? hcontents)
    rw [hvalue] at hnone
    cases hnone
  members module home hhome := by
    rw [hm.noModules] at hhome
    cases hhome

/-- The names of a new interpreter. -/
def freshBindings : List (Symbol × Value) := Primitive.all.map (fun p => (p.name, .native p)) ++ [("t", .bool true)]

/-- In a new interpreter the names are bound one after another. -/
theorem heap_fresh (limits : Limits) :
    (Machine.fresh limits).heap = ({} : Heap).newRoot.2.defineAll 0 false freshBindings := by
  rw [freshBindings, Heap.defineAll, List.foldl_append, List.foldl_map]
  rfl

/-- None of them is bound to a macro. -/
theorem macroFree_fresh (limits : Limits) : (Machine.fresh limits).heap.MacroFree := by
  rw [heap_fresh]
  refine Heap.MacroFree.defineAll ?_ 0 false ?_
  · rintro slot ⟨hslot⟩
    cases hslot
  · intro b hb
    rcases List.mem_append.1 hb with hb | hb
    · obtain ⟨p, -, rfl⟩ := List.mem_map.1 hb
      rfl
    · obtain rfl := List.mem_singleton.1 hb
      rfl

/-- The arithmetic is known under its names. -/
theorem knows_fresh (limits : Limits) : (Machine.fresh limits).heap.Knows (Machine.fresh limits).global operations where
  frames frame hframe := by
    obtain rfl : frame = 0 := List.mem_singleton.1 hframe
    rw [heap_fresh, Heap.size_frames_defineAll]
    exact Nat.one_pos
  values b hb := by
    have hroot : (⟨0, []⟩ : Env).frame < ({} : Heap).newRoot.2.frames.size := Nat.one_pos
    rw [heap_fresh]
    refine Heap.lookup?_defineAll _ hroot false ?_
    simp only [operations, List.mem_cons, List.not_mem_nil, or_false] at hb
    rcases hb with rfl | rfl | rfl <;> rfl

theorem ready_fresh (limits : Limits) : (Machine.fresh limits).Ready := ⟨rfl, rfl, macroFree_fresh limits, knows_fresh limits⟩

/-! ## Running the text of a form -/

/-- A form that is read back from its text, and that is its own expansion where there are no macros. -/
structure SelfStanding (form : Value) : Prop where
  readable : Reader.Readable form
  proper : form.hasProperLists = true
  unquoted : form.mapQuotes Value.toDatum = form

/-- Where there are no macros, the text of such a form is run by evaluating the form. -/
theorem SelfStanding.runSource {form : Value} (h : SelfStanding form) (fuel : Nat) (name : String) {m : Machine}
    (hm : m.Ready) :
    ∃ source span, Session.runSource fuel ⟨name, form.print⟩ m = Session.locating source span (eval fuel form m.global) m := by
  obtain ⟨span, hresults⟩ := Reader.results_print name h.readable
  have hreset : ({ m with depth := 0 } : Machine) = m := by rw [← hm.atTop]
  have hexpand : expand (eval fuel) form m.global m = .ok form m := by
    rw [expand_eq_within, (hm.noMacros m.global).expandWithin (eval fuel) _ _ h.proper (Nat.le_refl _), h.unquoted]
  have heval : Session.evalForm fuel form m = eval fuel form m.global m := by
    rw [evalForm_apply, hreset, Action.bind_of_ok _ hexpand]
  refine ⟨⟨name, form.print⟩, span, ?_⟩
  rw [Session.runSource, hresults]
  simp only [Session.runForms, bind_pure, Session.locating, heval]

/-- An outcome for which this many levels are needed: if the limit allows them it is the value, else the error of the limit. -/
def WithLevels (levels maxDepth : Nat) (v : Value) (outcome : EStateM.Result Abort Machine Value) : Prop :=
  (levels ≤ maxDepth → ∃ m, outcome = .ok v m) ∧
    (maxDepth < levels → ∃ e m, outcome = .error (.error e) m ∧ e.kind = .recursionLimit maxDepth)

/-- To locate errors does not change which levels are needed. -/
theorem withLevels_locating {a : Action Value} {levels : Nat} {m : Machine} {v : Value} {heap : Heap}
    (h : Needs levels a m v heap) (hdepth : m.depth = 0) (source : Source) (span : Span) :
    WithLevels levels m.limits.maxDepth v (Session.locating source span a m) := by
  have hfree : m.freeLevels = m.limits.maxDepth := by rw [Machine.freeLevels, hdepth, Nat.sub_zero]
  rw [← hfree]
  constructor
  · intro hlevels
    refine ⟨{ m with heap }, ?_⟩
    rw [Session.locating, h.enough hlevels]
  · intro hlevels
    obtain ⟨heap', hfails⟩ := h.tooFew hlevels
    refine ⟨(Error.ofKind (.recursionLimit m.limits.maxDepth)).orLocatedAt source span, { m with heap := heap' }, ?_, ?_⟩
    · rw [Session.locating, hfails]
      rfl
    · rw [hfree]
      rfl

/-! ## Defining a function -/

/-- The form that defines a function of one parameter. -/
def definition (name param : Symbol) (body : Value) : Value := .list [.sym "let", .list [.sym name, .sym param], body]

/-- The function that it defines. -/
def defined (id : Nat) (name param : Symbol) (body : Value) (env : Env) : Lambda Value where
  id := id
  name := some name
  params := { required := [param] }
  body := [body]
  env := env

/-- A machine after the definition of a function. -/
def Machine.defining (m : Machine) (name param : Symbol) (body : Value) : Machine :=
  { m with
    heap := m.heap.define m.global.frame name (.closure (defined m.lambdas name param body m.global)) false
    lambdas := m.lambdas + 1 }

/-- A definition of a function with another name keeps the machine ready. -/
theorem Machine.Ready.defining {m : Machine} (hm : m.Ready) {name : Symbol} (hname : name ∉ operations.map Prod.fst)
    (param : Symbol) (body : Value) : (m.defining name param body).Ready where
  atTop := hm.atTop
  noModules := hm.noModules
  macroFree := hm.macroFree.define _ _ rfl _
  knows := hm.knows.of_define _ hname _ _

/-- The evaluation of a definition binds the name to the function. -/
theorem eval_definition (fuel : Nat) (name param : Symbol) (body : Value) {m : Machine} (hd : m.depth < m.limits.maxDepth) :
    eval (fuel + 1) (definition name param body) m.global m = .ok .nil (m.defining name param body) := by
  have hdepth : ¬m.limits.maxDepth ≤ m.depth := Nat.not_le.2 hd
  have hstep : plainStep (eval fuel) (run fuel) (definition name param body) m.global { m with depth := m.depth + 1 } =
      .ok .nil { m.defining name param body with depth := m.depth + 1 } := by
    rw [Machine.defining, ← Heap.fill_reserve]
    rfl
  rw [eval_eq, run_succ, Action.nested, if_neg hdepth, hstep]
  rfl

/-! ## The two functions -/

/-- The body `(if (= i n) i (loop (+ i 1)))` of a function that counts up to a number by tail calls. -/
def loopBody (n : Nat) : Value :=
  .list [.sym "if", .list [.sym "=", .sym "i", .ofInt n], .sym "i", .list [.sym "loop", .list [.sym "+", .sym "i", .ofInt 1]]]

/-- The call `(count (- n 1))` for the number before. -/
def countBefore : Value := .list [.sym "count", .list [.sym "-", .sym "n", .ofInt 1]]

/-- The body `(if (= n 0) 0 (+ 1 (count (- n 1))))` of a function that counts by adding one to what that call gives. -/
def countBody : Value :=
  .list [.sym "if", .list [.sym "=", .sym "n", .ofInt 0], .ofInt 0, .list [.sym "+", .ofInt 1, countBefore]]

section

variable {f : Lambda Value} {name param : Symbol} {scope : Env} {m : Machine}

/-- The names that the functions know: their own, and those of the operations. -/
def known (name : Symbol) (f : Lambda Value) : List (Symbol × Value) := (name, .closure f) :: operations

/-- An operation on the parameter and a number. -/
theorem needs_onParameter (s : Symbol) {x k : Int} {p : Primitive} {v : Value}
    (hin : InCall f (known name f) param (.ofInt x) scope m.heap) (hs : isSpecial s = false) (hp : (s, .native p) ∈ operations)
    (hcall : ∀ m, p.call [.ofInt x, .ofInt k] m = .ok v m) (fuel : Nat) :
    Needs 2 (eval (fuel + 2) (.list [.sym s, .sym param, .ofInt k]) scope) m v m.heap := by
  have hoperation := hin.scope.values (s, .native p) (List.mem_cons_of_mem _ (List.mem_cons_of_mem _ hp))
  have hparam := hin.scope.values (param, .ofInt x) List.mem_cons_self
  exact needs_operation hs hoperation (fun _ => needs_symbol fuel hparam) (fun _ => needs_integer fuel k scope _) hcall

/-- A call of the function itself, in its own scope, with an operation on the parameter as the argument. -/
theorem needs_recursion {x y : Int} {body arg v : Value} {levels : Nat} (fuel : Nat)
    (hin : InCall f (known name f) param (.ofInt x) scope m.heap) (hs : isSpecial name = false)
    (hn : param ∉ (known name f).map Prod.fst) (hparams : f.params = { required := [param] }) (hf : f.body = [body])
    (harg : Needs 2 (eval (fuel + 1) arg scope) m (.ofInt y) m.heap)
    (hbody : ∀ {scope m}, InCall f (known name f) param (.ofInt y) scope m.heap →
      ∃ heap, Needs (levels + 2) (run (fuel + 1) body scope) m v heap) :
    ∃ heap, Needs (levels + 2) (run (fuel + 2) (.list [.sym name, arg]) scope) m v heap := by
  have hself := hin.scope.values (name, .closure f) (List.mem_cons_of_mem _ List.mem_cons_self)
  obtain ⟨heap, h⟩ := hbody (m := { m with heap := _ }) (InCall.of_home hin.home hn (.ofInt y))
  exact ⟨heap, (needs_unaryCall hs hself hparams hf harg h).congr (by omega)⟩

/-- However far it has to count, the first body needs two levels. -/
theorem needs_loopBody {n : Nat} (hparams : f.params = { required := ["i"] }) (hbody : f.body = [loopBody n]) (fuel j : Nat)
    {i : Nat} (hij : i + j = n) (hin : InCall f (known "loop" f) "i" (.ofInt i) scope m.heap) :
    ∃ heap, Needs 2 (run (fuel + 2 * j + 4) (loopBody n) scope) m (.ofInt n) heap := by
  -- The heap grows by a scope with each call; the levels in use do not.
  induction j generalizing i scope m with
  | zero =>
    have hcondition := needs_onParameter "=" hin rfl (by simp [operations]) (Primitive.call_numEq i n) (fuel + 1)
    have hi := needs_symbol (fuel + 2) (hin.scope.values ("i", .ofInt i) List.mem_cons_self)
    rw [Nat.add_zero] at hij
    subst hij
    refine ⟨m.heap, needs_if hcondition (k := 0) ?_⟩
    rw [decide_eq_true rfl]
    exact hi
  | succ j ih =>
    have hcondition := needs_onParameter "=" hin rfl (by simp [operations]) (Primitive.call_numEq i n) (fuel + 2 * j + 3)
    have hnext := needs_onParameter "+" hin rfl (by simp [operations]) (Primitive.call_add i 1) (fuel + 2 * j + 2)
    have hcall : ∃ heap, Needs 2 (run (fuel + 2 * j + 5) (.list [.sym "loop", .list [.sym "+", .sym "i", .ofInt 1]]) scope) m
        (.ofInt n) heap := by
      refine needs_recursion (fuel + 2 * j + 3) hin rfl (by simp [known, operations]) hparams hbody hnext ?_
      intro scope m hin'
      exact ih (i := i + 1) (by omega) hin'
    obtain ⟨heap, hcall⟩ := hcall
    have hne : (i : Int) ≠ n := by omega
    refine ⟨heap, needs_if hcondition (k := 2) ?_⟩
    rw [decide_eq_false hne]
    exact hcall

/-- The second body needs a level for each number that it counts. -/
theorem needs_countBody (hparams : f.params = { required := ["n"] }) (hbody : f.body = [countBody]) (fuel n : Nat)
    (hin : InCall f (known "count" f) "n" (.ofInt n) scope m.heap) :
    ∃ heap, Needs (n + 2) (run (fuel + 3 * n + 4) countBody scope) m (.ofInt n) heap := by
  -- The call for the number before is an argument of `+`, so it is one level deeper.
  induction n generalizing scope m with
  | zero =>
    have hcondition := needs_onParameter "=" hin rfl (by simp [operations]) (Primitive.call_numEq _ 0) (fuel + 1)
    refine ⟨m.heap, needs_if hcondition (k := 0) ?_⟩
    exact needs_integer (fuel + 2) 0 scope m
  | succ n ih =>
    have hcondition := needs_onParameter "=" hin rfl (by simp [operations]) (Primitive.call_numEq _ 0) (fuel + 3 * n + 4)
    have hsub : ∀ m, Primitive.sub.call [.ofInt (n + 1 : Nat), .ofInt 1] m = .ok (.ofInt n) m := by
      intro m
      have hn : ((n + 1 : Nat) : Int) - 1 = n := by omega
      rw [Primitive.call_sub, hn]
    have hadd : ∀ m, Primitive.add.call [.ofInt 1, .ofInt n] m = .ok (.ofInt (n + 1 : Nat)) m := by
      intro m
      have hn : (1 : Int) + n = (n + 1 : Nat) := by omega
      rw [Primitive.call_add, hn]
    have hbefore : ∃ heap, Needs (n + 3) (eval (fuel + 3 * n + 5) countBefore scope) m (.ofInt n) heap := by
      have hdeeper : InCall f (known "count" f) "n" (.ofInt (n + 1 : Nat)) scope
          ({ m with depth := m.depth + 1 } : Machine).heap := hin
      have harg := needs_onParameter "-" hdeeper rfl (by simp [operations]) hsub (fuel + 3 * n + 2)
      obtain ⟨heap, hcall⟩ :=
        needs_recursion (fuel + 3 * n + 3) hdeeper rfl (by simp [known, operations]) hparams hbody harg ih
      exact ⟨heap, needs_eval hcall⟩
    obtain ⟨heap, hbefore⟩ := hbefore
    have hone : Needs 1 (eval (fuel + 3 * n + 5) (.ofInt 1) scope) m (.ofInt 1) m.heap := needs_eval (needs_integer _ _ _ _)
    have hargs : Needs (n + 3) (evalAll (eval (fuel + 3 * n + 5)) scope [.ofInt 1, countBefore]) m [.ofInt 1, .ofInt n] heap :=
      (needs_evalAll_cons hone (needs_evalAll_cons hbefore (needs_evalAll_nil _ _ _))).congr (by omega)
    have hplus : m.heap.lookup? scope "+" = some (.native .add) :=
      hin.scope.values ("+", .native .add) (by simp [known, operations])
    have hsum : Needs (n + 3) (run (fuel + 3 * n + 6) (.list [.sym "+", .ofInt 1, countBefore]) scope) m
        (.ofInt (n + 1 : Nat)) heap := (needs_call rfl hplus rfl hargs (needs_native (hadd _) _ _)).congr (by omega)
    have hne : ((n + 1 : Nat) : Int) ≠ 0 := by omega
    refine ⟨heap, (needs_if hcondition (k := n + 3) ?_).congr (by omega)⟩
    rw [decide_eq_false hne]
    exact hsum

end

/-! ## Running them -/

/-- The call of a known function as a top-level form needs a level for the form, besides what the body of the function needs. -/
theorem run_call {m : Machine} (hm : m.Ready) {f : Lambda Value} {name param : Symbol} {body v : Value} {arg : Int}
    {fuel levels : Nat} (hs : isSpecial name = false) (hparam : param ∉ (known name f).map Prod.fst)
    (hparams : f.params = { required := [param] }) (hf : f.body = [body]) (henv : f.env = m.global)
    (hknown : m.heap.Knows m.global (known name f)) (hcall : SelfStanding (.list [.sym name, .ofInt arg]))
    (hbody : ∀ {scope m}, InCall f (known name f) param (.ofInt arg) scope m.heap →
      ∃ heap, Needs (levels + 2) (run (fuel + 1) body scope) m v heap) (file : String) :
    WithLevels (levels + 3) m.limits.maxDepth v
      (Session.runSource (fuel + 2) ⟨file, (Value.list [.sym name, .ofInt arg]).print⟩ m) := by
  obtain ⟨source, span, hrun⟩ := hcall.runSource (fuel + 2) file hm
  have hself : m.heap.lookup? m.global name = some (.closure f) := hknown.values (name, .closure f) List.mem_cons_self
  have harg : Needs 1 (eval (fuel + 1) (.ofInt arg) m.global) { m with depth := m.depth + 1 } (.ofInt arg) m.heap :=
    needs_eval (needs_integer _ _ _ _)
  rw [← henv] at hknown
  obtain ⟨heap, hrest⟩ := hbody (m := { m with depth := m.depth + 1, heap := _ }) (InCall.of_home hknown hparam (.ofInt arg))
  have hform : Needs (levels + 3) (eval (fuel + 2) (.list [.sym name, .ofInt arg]) m.global) m v heap := by
    refine needs_eval ((needs_unaryCall hs ?_ hparams hf harg hrest).congr (by omega))
    exact hself
  rw [hrun]
  exact withLevels_locating hform hm.atTop source span

/-- A definition and a call, from their texts. -/
theorem run_definition (levels : Nat) {m : Machine} (hm : m.Ready) (hd : 1 ≤ m.limits.maxDepth) {name param : Symbol}
    {body v : Value} {arg : Int} {fuel : Nat} (hs : isSpecial name = false) (hname : name ∉ operations.map Prod.fst)
    (hparam : param ∉ name :: operations.map Prod.fst) (hdefinition : SelfStanding (definition name param body))
    (hcall : SelfStanding (.list [.sym name, .ofInt arg]))
    (hbody : ∀ {f scope m}, f.params = { required := [param] } → f.body = [body] →
      InCall f (known name f) param (.ofInt arg) scope m.heap →
      ∃ heap, Needs (levels + 2) (run (fuel + 1) body scope) m v heap) (first second : String) :
    ∃ m', Session.runSource (fuel + 2) ⟨first, (definition name param body).print⟩ m = .ok .nil m' ∧
      WithLevels (levels + 3) m.limits.maxDepth v
        (Session.runSource (fuel + 2) ⟨second, (Value.list [.sym name, .ofInt arg]).print⟩ m') := by
  have hdepth : m.depth < m.limits.maxDepth := by
    rw [hm.atTop]
    exact hd
  obtain ⟨source, span, hrun⟩ := hdefinition.runSource (fuel + 2) first hm
  refine ⟨m.defining name param body, ?_, ?_⟩
  · rw [hrun, Session.locating, eval_definition (fuel + 1) name param body hdepth]
  · exact run_call (hm.defining hname param body) hs hparam rfl rfl rfl (hm.knows.define hname _ false) hcall (hbody rfl rfl) second

/-! ## Their texts -/

/-- The text of an integer is its decimal representation. -/
theorem text_ofInt (n : Int) : (Number.ofInt n).text = toString n := by
  cases hfits : fitsWord n with
  | true =>
    have hword : (Int64.ofInt n).toInt = n := by
      obtain ⟨hlow, hhigh⟩ := fitsWord_iff.1 hfits
      exact Int64.toInt_ofInt_of_le hlow hhigh
    rw [Number.ofInt_of_fits hfits, Number.text, hword]
  | false => rw [Number.ofInt_of_outside hfits, Number.text]

/-- A plain name can be read. -/
theorem readable_sym {name : Symbol} (hne : name.toList ≠ []) (hs : name.toList.all isSymbolChar = true)
    (hdot : name.toList.contains '.' = false) (h : Reader.standsForItself name = true) : Reader.Readable (.sym name) := by
  refine Reader.Reprintable.word hne hs hdot fun other hother => ?_
  obtain rfl := List.mem_singleton.1 hother
  exact h

/-- The printed definition of the loop. -/
theorem print_loop (n : Nat) :
    (definition "loop" "i" (loopBody n)).print = "(let (loop i) (if (= i " ++ toString n ++ ") i (loop (+ i 1))))" := by
  have hprint : (definition "loop" "i" (loopBody n)).print =
      "(let (loop i) (if (= i " ++ (Number.ofInt n).text ++ ")" ++ " " ++ "i" ++ " " ++ "(" ++ "loop" ++ " " ++ "(" ++ "+" ++ " " ++
        "i" ++ " " ++ "1" ++ ")" ++ ")" ++ ")" ++ ")" := rfl
  rw [hprint, text_ofInt]
  simp only [String.append_assoc]
  rfl

/-- The printed definition of the recursive function. -/
theorem print_count : (definition "count" "n" countBody).print = "(let (count n) (if (= n 0) 0 (+ 1 (count (- n 1)))))" := rfl

/-- The printed call of it. -/
theorem print_countCall (n : Nat) : (Value.list [.sym "count", .ofInt n]).print = "(count " ++ toString n ++ ")" := by
  have hprint : (Value.list [.sym "count", .ofInt n]).print = "(count " ++ (Number.ofInt n).text ++ ")" := rfl
  rw [hprint, text_ofInt]
  rfl

/-- An integer can be read. -/
theorem readable_ofInt (n : Int) : Reader.Readable (.ofInt n) := by
  refine .num ?_
  rw [Number.toRat?_ofInt]
  rfl

/-- So can the names that the programs use. -/
theorem readable_words : ∀ name ∈ ["let", "if", "loop", "count", "i", "n", "=", "+", "-"], Reader.Readable (.sym name) := by
  have hword : ∀ name ∈ ["let", "if", "loop", "count", "i", "n", "=", "+", "-"],
      name.toList ≠ [] ∧ name.toList.all isSymbolChar = true ∧ name.toList.contains '.' = false ∧
        Reader.standsForItself name = true := by decide +kernel
  intro name hname
  obtain ⟨hne, hs, hdot, h⟩ := hword name hname
  exact readable_sym hne hs hdot h

/-- Every symbol of the loop stands for itself. -/
theorem selfStanding_loop (n : Nat) : SelfStanding (definition "loop" "i" (loopBody n)) where
  readable := by
    have hcondition : Reader.Readable (.list [.sym "=", .sym "i", .ofInt n]) := .list (by simp [readable_words, readable_ofInt])
    have hnext : Reader.Readable (.list [.sym "+", .sym "i", .ofInt 1]) := .list (by simp [readable_words, readable_ofInt])
    have hcall : Reader.Readable (.list [.sym "loop", .list [.sym "+", .sym "i", .ofInt 1]]) :=
      .list (by simp [readable_words, hnext])
    have hbody : Reader.Readable (loopBody n) := .list (by simp [readable_words, hcondition, hcall])
    have hsignature : Reader.Readable (.list [.sym "loop", .sym "i"]) := .list (by simp [readable_words])
    exact .list (by simp [readable_words, hsignature, hbody])
  proper := rfl
  unquoted := rfl

/-- Every symbol of the recursive function stands for itself. -/
theorem selfStanding_count : SelfStanding (definition "count" "n" countBody) where
  readable := by
    have hcondition : Reader.Readable (.list [.sym "=", .sym "n", .ofInt 0]) := .list (by simp [readable_words, readable_ofInt])
    have hprevious : Reader.Readable (.list [.sym "-", .sym "n", .ofInt 1]) := .list (by simp [readable_words, readable_ofInt])
    have hbefore : Reader.Readable countBefore := .list (by simp [readable_words, hprevious])
    have hsum : Reader.Readable (.list [.sym "+", .ofInt 1, countBefore]) :=
      .list (by simp [readable_words, readable_ofInt, hbefore])
    have hbody : Reader.Readable countBody := .list (by simp [readable_words, readable_ofInt, hcondition, hsum])
    have hsignature : Reader.Readable (.list [.sym "count", .sym "n"]) := .list (by simp [readable_words])
    exact .list (by simp [readable_words, hsignature, hbody])
  proper := rfl
  unquoted := rfl

/-- Tail calls cost no level of nesting, and each call that is waited for costs one. In a new interpreter that allows at least one
level, so that functions can be defined at all, counting up to any number by tail calls takes three levels, and counting by nested
calls three levels more than the number: with these the number is the result, and with fewer evaluation fails at the limit. The
steps that the runs are given only have to be enough. -/
theorem counting_levels (limits : Limits) (hd : 1 ≤ limits.maxDepth) (n fuel : Nat) (hfuel : 3 * n + 5 ≤ fuel)
    (first second : String) :
    (∃ m, Session.runSource fuel ⟨first, "(let (loop i) (if (= i " ++ toString n ++ ") i (loop (+ i 1))))"⟩
          (Machine.fresh limits) = .ok .nil m ∧
        WithLevels 3 limits.maxDepth (.ofInt n) (Session.runSource fuel ⟨second, "(loop 0)"⟩ m)) ∧
      ∃ m, Session.runSource fuel ⟨first, "(let (count n) (if (= n 0) 0 (+ 1 (count (- n 1)))))"⟩ (Machine.fresh limits) =
          .ok .nil m ∧
        WithLevels (n + 3) limits.maxDepth (.ofInt n) (Session.runSource fuel ⟨second, "(count " ++ toString n ++ ")"⟩ m) := by
  obtain ⟨extra, rfl⟩ := Nat.exists_eq_add_of_le hfuel
  constructor
  · have hsteps : 3 * n + 5 + extra = n + extra + 2 * n + 3 + 2 := by omega
    have hcall : SelfStanding (.list [.sym "loop", .ofInt 0]) := ⟨.list (by simp [readable_words, readable_ofInt]), rfl, rfl⟩
    rw [hsteps, ← print_loop]
    refine run_definition 0 (ready_fresh limits) hd rfl (by simp [operations]) (by simp [operations])
      (selfStanding_loop n) hcall ?_ first second
    intro f scope m hparams hbody hin
    exact needs_loopBody hparams hbody (n + extra) n (Nat.zero_add n) hin
  · have hsteps : 3 * n + 5 + extra = extra + 3 * n + 3 + 2 := by omega
    have hcall : SelfStanding (.list [.sym "count", .ofInt n]) := ⟨.list (by simp [readable_words, readable_ofInt]), rfl, rfl⟩
    rw [hsteps, ← print_count, ← print_countCall]
    refine run_definition n (ready_fresh limits) hd rfl (by simp [operations]) (by simp [operations]) selfStanding_count
      hcall ?_ first second
    intro f scope m hparams hbody hin
    exact needs_countBody hparams hbody extra n hin

/-- With five levels, counting to three by tail calls gives three, and by nested calls it fails. -/
theorem counting_levels_three :
    (∃ m m', Session.runSource Session.defaultFuel ⟨"a", "(let (loop i) (if (= i 3) i (loop (+ i 1))))"⟩
        (Machine.fresh { maxDepth := 5 }) = .ok .nil m ∧
      Session.runSource Session.defaultFuel ⟨"b", "(loop 0)"⟩ m = .ok (.ofInt 3) m') ∧
    ∃ m e m', Session.runSource Session.defaultFuel ⟨"a", "(let (count n) (if (= n 0) 0 (+ 1 (count (- n 1)))))"⟩
        (Machine.fresh { maxDepth := 5 }) = .ok .nil m ∧
      Session.runSource Session.defaultFuel ⟨"b", "(count 3)"⟩ m = .error (.error e) m' ∧ e.kind = .recursionLimit 5 := by
  obtain ⟨⟨m, hloop, hgives, -⟩, m₁, hcount, -, hfails⟩ :=
    counting_levels { maxDepth := 5 } (by decide) 3 Session.defaultFuel (by decide) "a" "b"
  obtain ⟨m', hgives⟩ := hgives (by decide)
  obtain ⟨e, m₁', hfails, hkind⟩ := hfails (by decide)
  exact ⟨⟨m, m', hloop, hgives⟩, m₁, e, m₁', hcount, hfails, hkind⟩

end MiniLisp
