import MiniLisp.Proofs.Expansion.Filled
import MiniLisp.Proofs.Expansion.Routine
import MiniLisp.Proofs.Heap
import MiniLisp.Proofs.Evaluation.Plain

/-!
# When an expanded form calls no macro

Expansion replaces a form until its head calls no macro, then expands the code inside it, the head included, and does not look at
the head again. So the head of a call may become the name of a macro that is left uncalled (`expand_leaves_macro_call`), and a
macro that changes what names stand for may make macro calls of lists that were passed already.

Where neither happens, the expanded form calls no macro in any code position, and is its own expansion
(`expand_reaches_fixedPoint`). The second half holds of every form that calls no macro, however it came about
(`expand_of_expanded`).
-/

namespace MiniLisp

/-- A form lies in a code position of another, or is that form itself. -/
inductive Value.InCode : Value → Value → Prop where
  | self (form : Value) : InCode form form
  | inside {form part g : Value} (hpart : part ∈ form.code) (hg : InCode part g) : InCode form g

/-- A form with nothing left to expand, where these are the macros that lists call: neither the form nor any code inside it calls
one, and walking over it changes nothing. -/
inductive Expanded (macros : Value → Option (Lambda Value)) : Value → Prop where
  | intro {form : Value} (hhead : macros form = none) (hfill : form.holes.fill form.code = form)
      (hcode : ∀ g ∈ form.code, Expanded macros g) : Expanded macros form

/-- Where a form has nothing left to expand, no code in it has. -/
theorem Expanded.of_inCode {macros : Value → Option (Lambda Value)} {form g : Value} (h : Expanded macros form)
    (hg : form.InCode g) : Expanded macros g := by
  induction hg with
  | self form => exact h
  | inside hpart _ ih =>
    obtain ⟨-, -, hcode⟩ := h
    exact ih (hcode _ hpart)

/-- The machine is in one of these states whenever a macro is run. In all of them the same lists call the same macros, and a
macro that is run leaves one of them and does not expand to one of these names. -/
structure QuietMacros (names : Value → Prop) (eval : Evaluator) (env : Env) (macros : Value → Option (Lambda Value))
    (states : Machine → Prop) : Prop where
  sees : ∀ {m}, states m → m.macroAtHead? env = macros
  call : ∀ {m form f args v m'}, states m → macros form = some f → macroArguments f form = .ok args →
    expandCall eval f args m = .ok v m' → states m' ∧ ¬names v

/-- The macro that a list calls by a bare name at its head. -/
def calledBySymbol (macros : Value → Option (Lambda Value)) (form : Value) : Option (Lambda Value) :=
  if form.headSymbol?.isSome then macros form else none

/-! ## The heads of filled forms -/

section Heads

variable {m : Machine} {env : Env}

/-- Whether a list calls a macro depends on its head alone. -/
theorem macroAtHead?_congr (head args args' : Value) :
    m.macroAtHead? env (.pair head args) = m.macroAtHead? env (.pair head args') := by
  cases head <;> rfl

theorem isName_of_qualifiedName? {v : Value} {name : Symbol × Symbol} (h : qualifiedName? v = some name) : v.IsName := by
  unfold qualifiedName? at h
  split at h
  · exact .member _ _
  · cases h

/-- A list whose head is no name calls no macro. -/
theorem macroAtHead?_of_not_isName {head : Value} (h : ¬head.IsName) (args : Value) :
    m.macroAtHead? env (.pair head args) = none := by
  have hq : qualifiedName? head = none := by
    cases hq : qualifiedName? head with
    | none => rfl
    | some name => exact absurd (isName_of_qualifiedName? hq) h
  cases head with
  | sym s => exact absurd (.symbol s) h
  | _ => simp [Machine.macroAtHead?, hq]

/-- A special form calls no macro. -/
theorem macroAtHead?_special {s : Symbol} {special : SpecialForm} (h : SpecialForm.ofSymbol? s = some special)
    (args : Value) : m.macroAtHead? env (.pair (.sym s) args) = none := by
  simp [Machine.macroAtHead?, isSpecial, h]

/-- A list whose code is replaced is a list again: a special form keeps its keyword, and a call keeps its head if that is or
becomes a name. -/
theorem fill_pair {names : Value → Prop} {head tail : Value} {code : List Value}
    (hk : List.Forall₂ (Value.Keeps names) (Value.pair head tail).code code) :
    (∃ s special tail', head = .sym s ∧ SpecialForm.ofSymbol? s = some special ∧
      (Value.pair head tail).holes.fill code = .pair (.sym s) tail') ∨
    (head.IsCallee ∧ ∃ head' tail', head.Keeps names head' ∧ (Value.pair head tail).holes.fill code = .pair head' tail') := by
  rcases Value.special_or_call head with ⟨s, special, rfl, hs⟩ | hcall
  · rw [Value.holes_special hs]
    obtain ⟨tail', hfill⟩ := specialHoles_fill_head special s tail code
    exact .inl ⟨s, special, tail', rfl, hs, hfill⟩
  · rw [Value.code, Value.holes_call hcall] at hk
    obtain ⟨head', code', hhead, -, rfl⟩ := List.forall₂_cons_left_iff.1 hk
    rw [Value.holes_call hcall]
    exact .inr ⟨hcall, head', _, hhead, rfl⟩

/-- A form that calls no macro still calls none when its code has been replaced and its head kept. -/
theorem macroAtHead?_fill {form : Value} {code : List Value} (hk : List.Forall₂ (Value.Keeps Value.IsName) form.code code)
    (h : m.macroAtHead? env form = none) : m.macroAtHead? env (form.holes.fill code) = none := by
  cases form with
  | pair head tail =>
    rcases fill_pair hk with ⟨s, special, tail', rfl, hs, hfill⟩ | ⟨-, head', tail', hhead, hfill⟩
    · rw [hfill]
      exact macroAtHead?_special hs tail'
    · rw [hfill]
      -- A head that is a name was the head before; with any other head a list calls no macro.
      by_cases hname : head'.IsName
      · rw [hhead hname, macroAtHead?_congr head _ tail]
        exact h
      · exact macroAtHead?_of_not_isName hname _
  | _ => rfl

/-- The same of the calls by a bare name, for which only the bare names have to be kept. -/
theorem calledBySymbol_fill {form : Value} {code : List Value} (hk : List.Forall₂ (Value.Keeps Value.IsSymbol) form.code code)
    (h : calledBySymbol (m.macroAtHead? env) form = none) :
    calledBySymbol (m.macroAtHead? env) (form.holes.fill code) = none := by
  cases form with
  | pair head tail =>
    rcases fill_pair hk with ⟨s, special, tail', rfl, hs, hfill⟩ | ⟨-, head', tail', hhead, hfill⟩
    · rw [hfill]
      exact macroAtHead?_special hs tail'
    · rw [hfill]
      cases head' with
      | sym s =>
        obtain rfl : Value.sym s = head := hhead (.symbol s)
        exact (macroAtHead?_congr (.sym s) tail' tail).trans h
      | _ => rfl
  | _ => rfl

/-- Only a symbol is quoted as a symbol. -/
theorem eq_of_toDatum_eq_sym {v : Value} {s : Symbol} (h : v.toDatum = .sym s) : v = .sym s := by
  cases v <;> simp_all [Value.toDatum]

theorem eq_of_toDatum_eq_nil {v : Value} (h : v.toDatum = .nil) : v = .nil := by
  cases v <;> simp_all [Value.toDatum]

/-- A list that becomes a list of names was that list before. -/
theorem eq_of_listHoles_fill_names {list : Value} {code names : List Value} (hn : ∀ name ∈ names, name.IsName)
    (hk : List.Forall₂ (Value.Keeps Value.IsName) (listHoles 0 list).code code) (h : (listHoles 0 list).fill code = .list names) :
    list = .list names := by
  induction names generalizing list code with
  | nil =>
    cases list with
    | pair head tail => cases h
    | _ => exact h
  | cons name names ih =>
    cases list with
    | pair head tail =>
      obtain ⟨head', code', hhead, htail, rfl⟩ := List.forall₂_cons_left_iff.1 hk
      obtain ⟨rfl, hrest⟩ := Value.pair.inj h
      rw [ih (fun name hname => hn name (List.mem_cons_of_mem _ hname)) htail hrest, ← hhead (hn _ List.mem_cons_self)]
      rfl
    | _ => cases h

/-- A special form that becomes a name was that name before: a quoted symbol has no code, and the code of the access to a member
is names. -/
theorem keepsName_special {special : SpecialForm} {s : Symbol} {tail : Value} {code : List Value}
    (hs : SpecialForm.ofSymbol? s = some special)
    (hk : List.Forall₂ (Value.Keeps Value.IsName) (specialHoles special (.pair (.sym s) tail)).code code) :
    Value.Keeps Value.IsName (.pair (.sym s) tail) ((specialHoles special (.pair (.sym s) tail)).fill code) := by
  intro hname
  obtain ⟨tail', hfill⟩ := specialHoles_fill_head special s tail code
  generalize hv : (specialHoles special (.pair (.sym s) tail)).fill code = v at hname hfill ⊢
  cases hname with
  | symbol _ => cases hfill
  | quoted name =>
    cases hfill
    cases hs
    have htail : tail.toDatum = .pair (.sym name) .nil := (Value.pair.inj hv).2
    cases tail with
    | pair datum rest =>
      obtain ⟨hdatum, hrest⟩ := Value.pair.inj htail
      rw [eq_of_toDatum_eq_sym hdatum, eq_of_toDatum_eq_nil hrest]
      rfl
    | _ => simp [Value.toDatum] at htail
  | member module name =>
    cases hfill
    cases hs
    have htail : (listHoles 0 tail).fill code = .list [.sym module, .wrap "quote" (.sym name)] := (Value.pair.inj hv).2
    have hnames : ∀ v ∈ [Value.sym module, .wrap "quote" (.sym name)], v.IsName := by
      intro v hv
      rcases List.mem_pair.1 hv with rfl | rfl
      · exact .symbol module
      · exact .quoted name
    rw [eq_of_listHoles_fill_names hnames hk htail]
    rfl

/-- A form that becomes a name when its code is replaced was that name before. -/
theorem keepsName_fill {form : Value} {code : List Value} (hk : List.Forall₂ (Value.Keeps Value.IsName) form.code code) :
    form.Keeps Value.IsName (form.holes.fill code) := by
  cases form with
  | pair head tail =>
    rcases Value.special_or_call head with ⟨s, special, rfl, hs⟩ | hcall
    · rw [Value.code, Value.holes_special hs] at hk
      rw [Value.holes_special hs]
      exact keepsName_special hs hk
    · rw [Value.code, Value.holes_call hcall] at hk
      obtain ⟨head', code', hhead, -, rfl⟩ := List.forall₂_cons_left_iff.1 hk
      rw [Value.holes_call hcall]
      intro hname
      have hcall' := hcall.of_keeps (hhead.mono fun _ hs => hs.isName)
      generalize hv : (Holes.beside Value.pair (Holes.hole head) (listHoles 0 tail)).fill (head' :: code') = v at hname ⊢
      cases hname with
      | symbol _ => cases hv
      | quoted name =>
        obtain ⟨rfl, -⟩ := Value.pair.inj hv
        cases hcall' "quote" rfl
      | member module name =>
        obtain ⟨rfl, -⟩ := Value.pair.inj hv
        cases hcall' "." rfl
  | vector | setForm | mapForm =>
    intro hname
    cases hname
  | _ =>
    intro hname
    rfl

/-- A form that becomes a bare name when its code is replaced was that name before: a list stays a list. -/
theorem keepsSymbol_fill {form : Value} {code : List Value} (hk : List.Forall₂ (Value.Keeps Value.IsSymbol) form.code code) :
    form.Keeps Value.IsSymbol (form.holes.fill code) := by
  cases form with
  | pair head tail =>
    intro hname
    rcases fill_pair hk with ⟨s, special, tail', -, -, hfill⟩ | ⟨-, head', tail', -, hfill⟩
    · rw [hfill] at hname
      cases hname
    · rw [hfill] at hname
      cases hname
  | vector | setForm | mapForm =>
    intro hname
    cases hname
  | _ =>
    intro hname
    rfl

end Heads

/-- Among the calls of these macros, the calls that these names decide: where the code of a form is replaced and such names are
kept, no name and no such call comes up that was not there before. -/
structure DecidedBy (names : Value → Prop) (macros called : Value → Option (Lambda Value)) : Prop where
  symbol : ∀ v, v.IsSymbol → names v
  among : ∀ {form : Value}, macros form = none → called form = none
  name : ∀ {form : Value} {code}, List.Forall₂ (Value.Keeps names) form.code code → form.Keeps names (form.holes.fill code)
  call : ∀ {form : Value} {code}, List.Forall₂ (Value.Keeps names) form.code code → called form = none →
    called (form.holes.fill code) = none

/-- All calls are decided by the names, the qualified ones included. -/
theorem decidedBy_isName (m : Machine) (env : Env) :
    DecidedBy Value.IsName (m.macroAtHead? env) (m.macroAtHead? env) where
  symbol _ hs := hs.isName
  among h := h
  name := keepsName_fill
  call := macroAtHead?_fill

/-- The calls by a bare name are decided by the bare names. -/
theorem decidedBy_isSymbol (m : Machine) (env : Env) :
    DecidedBy Value.IsSymbol (m.macroAtHead? env) (calledBySymbol (m.macroAtHead? env)) where
  symbol _ hs := hs
  among h := by rw [calledBySymbol, h, ite_self]
  name := keepsSymbol_fill
  call := calledBySymbol_fill

/-! ## What an expansion leaves -/

section Run

variable {names : Value → Prop} {eval : Evaluator} {env : Env} {macros called : Value → Option (Lambda Value)}
  {states : Machine → Prop}

/-- A form that calls no macro is left as it is. -/
theorem replaceHead_of_none (eval : Evaluator) {env : Env} (limit : Nat) (replaced : Bool) (remaining : Nat) {form : Value}
    {m : Machine} (h : m.macroAtHead? env form = none) :
    replaceHead eval env limit replaced remaining form m = .ok (form, replaced) m := by
  have hask : Action.ask (fun m => m.macroAtHead? env form) m = .ok none m := by rw [Action.ask, h]
  rw [replaceHead, Action.bind_of_ok _ hask]
  rfl

/-- A check that succeeds leaves the machine alone. -/
theorem Action.of_ofExcept_eq_ok {α : Type} {r : Except Error α} {v : α} {m m' : Machine}
    (h : Action.ofExcept r m = .ok v m') : r = .ok v ∧ m = m' := by
  cases r with
  | ok w =>
    cases h
    exact ⟨rfl, rfl⟩
  | error e => cases h

/-- A call of a macro is replaced by what the macro gives. -/
theorem replaceHead_of_call {eval : Evaluator} {env : Env} (limit : Nat) (replaced : Bool) (remaining : Nat) {form v : Value}
    {f : Lambda Value} {args : List Value} {m m' : Machine} (hf : m.macroAtHead? env form = some f)
    (hargs : macroArguments f form = .ok args) (hv : expandCall eval f args m = .ok v m') :
    replaceHead eval env limit replaced (remaining + 1) form m = replaceHead eval env limit true remaining v m' := by
  have hask : Action.ask (fun m => m.macroAtHead? env form) m = .ok (some f) m := by rw [Action.ask, hf]
  rw [replaceHead, Action.bind_of_ok _ hask]
  simp only [hargs]
  exact Action.bind_of_ok _ hv

/-- What replacing a form can do: leave it, if it calls no macro, or run the macro that it calls and go on with the expansion. -/
theorem replaceHead_cases {limit remaining : Nat} {replaced replaced' : Bool} {form form' : Value} {m m' : Machine}
    (h : replaceHead eval env limit replaced remaining form m = .ok (form', replaced') m') :
    (m.macroAtHead? env form = none ∧ form' = form ∧ m' = m) ∨
      ∃ f args v m₁ left, remaining = left + 1 ∧ m.macroAtHead? env form = some f ∧ macroArguments f form = .ok args ∧
        expandCall eval f args m = .ok v m₁ ∧ replaceHead eval env limit true left v m₁ = .ok (form', replaced') m' := by
  rw [replaceHead] at h
  obtain ⟨called, m₁, hask, h⟩ := Action.bind_eq_ok h
  obtain ⟨hcalled, rfl⟩ : m.macroAtHead? env form = called ∧ m = m₁ := by simpa [Action.ask] using hask
  cases called with
  | none =>
    cases h
    exact .inl ⟨hcalled, rfl, rfl⟩
  | some f =>
    cases remaining with
    | zero => cases h
    | succ left =>
      obtain ⟨args, m₂, hok, h⟩ := Action.bind_eq_ok h
      obtain ⟨v, m₃, hv, hrest⟩ := Action.bind_eq_ok h
      obtain ⟨hargs, rfl⟩ := Action.of_ofExcept_eq_ok hok
      exact .inr ⟨f, args, v, m₃, left, rfl, hcalled, hargs, hv, hrest⟩

/-- A form that was replaced once stays a replaced one. -/
theorem replaced_of_replaceHead {limit remaining : Nat} {replaced : Bool} {form form' : Value} {m m' : Machine}
    (h : replaceHead eval env limit true remaining form m = .ok (form', replaced) m') : replaced = true := by
  induction remaining generalizing form m with
  | zero =>
    rcases replaceHead_cases h with ⟨hnone, -, -⟩ | ⟨_, _, _, _, _, hzero, -⟩
    · rw [replaceHead_of_none eval limit true 0 hnone] at h
      cases h
      rfl
    · cases hzero
  | succ remaining ih =>
    rcases replaceHead_cases h with ⟨hnone, -, -⟩ | ⟨_, _, _, _, _, hleft, -, -, -, hrest⟩
    · rw [replaceHead_of_none eval limit true _ hnone] at h
      cases h
      rfl
    · cases hleft
      exact ih hrest

/-- A replaced form calls no macro at its head, and is a name only if nothing was replaced. -/
theorem QuietMacros.replaceHead (q : QuietMacros names eval env macros states) {limit remaining : Nat} {replaced replaced' : Bool}
    {form form' : Value} {m m' : Machine} (hm : states m)
    (h : replaceHead eval env limit replaced remaining form m = .ok (form', replaced') m') :
    states m' ∧ macros form' = none ∧ form.Keeps names form' := by
  induction remaining generalizing replaced form m with
  | zero =>
    rcases replaceHead_cases h with ⟨hnone, rfl, rfl⟩ | ⟨_, _, _, _, _, hzero, -⟩
    · rw [q.sees hm] at hnone
      exact ⟨hm, hnone, fun _ => rfl⟩
    · cases hzero
  | succ remaining ih =>
    rcases replaceHead_cases h with ⟨hnone, rfl, rfl⟩ | ⟨f, args, v, m₁, left, hleft, hf, hargs, hv, hrest⟩
    · rw [q.sees hm] at hnone
      exact ⟨hm, hnone, fun _ => rfl⟩
    · cases hleft
      rw [q.sees hm] at hf
      obtain ⟨hm₁, hname⟩ := q.call hm hf hargs hv
      obtain ⟨hm', hnone, hk⟩ := ih hm₁ hrest
      refine ⟨hm', hnone, fun hname' => ?_⟩
      -- A name in the end would have been the expansion already.
      rw [hk hname'] at hname'
      exact absurd hname' hname

/-- From one of the states, a visit ends in one of them and leaves nothing to expand, and it gives a name only for itself. -/
def LeavesExpanded (names : Value → Prop) (called : Value → Option (Lambda Value)) (states : Machine → Prop)
    (visit : Value → Action Value) : Prop :=
  ∀ form m form' m', states m → visit form m = .ok form' m' → states m' ∧ Expanded called form' ∧ form.Keeps names form'

/-- Walking over a form that calls no macro leaves nothing to expand if the visits of its code leave nothing. -/
theorem DecidedBy.expandChildren (decided : DecidedBy names macros called) {visit : Value → Action Value}
    (hv : LeavesExpanded names called states visit) {form form' : Value} {m m' : Machine} (hm : states m)
    (hhead : called form = none) (h : MiniLisp.expandChildren visit form m = .ok form' m') :
    states m' ∧ Expanded called form' ∧ form.Keeps names form' := by
  rw [expandChildren_eq] at h
  obtain ⟨code, m₁, hcode, h⟩ := Action.bind_eq_ok h
  cases h
  obtain ⟨hm', hall⟩ := forall₂_of_visitAll hv hm hcode
  have hk : List.Forall₂ (Value.Keeps names) form.code code := hall.imp fun _ _ hg => hg.2
  -- The code of the filled form is what the visits gave, so what is known of the visits is known of it.
  have hholes := Value.holes_fill (hk.imp fun _ _ hg => hg.mono decided.symbol)
  refine ⟨hm', .intro (decided.call hk hhead) ?_ ?_, decided.name hk⟩
  · rw [Value.code, hholes]
    rfl
  · rw [Value.code, hholes]
    have hflip : List.Forall₂ (fun g' g => Expanded called g' ∧ g.Keeps names g') code form.code := hall.flip
    exact ((List.forall₂_and_left _ _).1 hflip).1

/-- By induction on the rank: expansion at one level leaves none of the calls that the names decide. -/
theorem QuietMacros.expandWithin (q : QuietMacros names eval env macros states) (decided : DecidedBy names macros called)
    (limit : Nat) {deeper : Value → Action Value} (hd : LeavesExpanded names called states deeper) (rank : Nat) :
    LeavesExpanded names called states (expandWithin eval env limit deeper rank) := by
  induction rank with
  | zero =>
    intro form m form' m' _ h
    cases h
  | succ rank ih =>
    intro form m form' m' hm h
    obtain ⟨⟨accepted, replaced⟩, m₁, hreplace, h⟩ := Action.bind_eq_ok h
    obtain ⟨hm₁, hnone, hk⟩ := q.replaceHead hm hreplace
    have hchildren : states m' ∧ Expanded called form' ∧ accepted.Keeps names form' := by
      cases replaced with
      | true => exact decided.expandChildren hd hm₁ (decided.among hnone) h
      | false => exact decided.expandChildren ih hm₁ (decided.among hnone) h
    obtain ⟨hm', hexpanded, hk'⟩ := hchildren
    exact ⟨hm', hexpanded, hk.trans hk'⟩

/-- Expansion leaves none of the calls that the names decide, as long as no macro gives such a name. -/
theorem QuietMacros.expandLevel (q : QuietMacros names eval env macros states) (decided : DecidedBy names macros called)
    (limit levels : Nat) : LeavesExpanded names called states (expandLevel eval env limit levels) := by
  induction levels with
  | zero =>
    intro form m form' m' _ h
    cases h
  | succ levels ih => exact fun form => q.expandWithin decided limit ih form.size form

/-! ## Forms with nothing left to expand -/

theorem Value.size_pos (v : Value) : 0 < v.size := by
  cases v <;> simp [Value.size]

/-- If each visit gives what a function makes of its form and changes nothing, so do all visits together. -/
theorem visitAll_of_map {visit : Value → Action Value} {g : Value → Value} {forms : List Value} {m : Machine}
    (h : ∀ form ∈ forms, visit form m = .ok (g form) m) : visitAll visit forms m = .ok (forms.map g) m := by
  induction forms with
  | nil => rfl
  | cons form forms ih =>
    have hrest := ih fun form hf => h form (List.mem_cons_of_mem _ hf)
    rw [visitAll, Action.bind_of_ok _ (h form List.mem_cons_self), Action.bind_of_ok _ hrest]
    rfl

/-- If each visit leaves its form as it is, so do all visits together. -/
theorem visitAll_of_self {visit : Value → Action Value} {forms : List Value} {m : Machine}
    (h : ∀ form ∈ forms, visit form m = .ok form m) : visitAll visit forms m = .ok forms m := by
  have hmap := visitAll_of_map (g := id) h
  rwa [List.map_id] at hmap

/-- A form that calls no macro is kept, and the code inside it is expanded at the same level. -/
theorem expandWithin_of_none (eval : Evaluator) {env : Env} (limit : Nat) (deeper : Value → Action Value) (rank : Nat)
    {form : Value} {m : Machine} (h : m.macroAtHead? env form = none) :
    expandWithin eval env limit deeper (rank + 1) form m =
      expandChildren (expandWithin eval env limit deeper rank) form m := by
  rw [expandWithin, Action.bind_of_ok _ (replaceHead_of_none eval limit false limit h)]
  rfl

/-- A form that calls no macro is filled with what the visits of its code give. -/
theorem expandWithin_of_visits {eval : Evaluator} {env : Env} {limit rank : Nat} {deeper : Value → Action Value} {form : Value}
    {code : List Value} {m m' : Machine} (hhead : m.macroAtHead? env form = none)
    (hcode : visitAll (expandWithin eval env limit deeper rank) form.code m = .ok code m') :
    expandWithin eval env limit deeper (rank + 1) form m = .ok (form.holes.fill code) m' := by
  rw [expandWithin_of_none eval limit deeper rank hhead, expandChildren_eq]
  exact Action.bind_of_ok _ hcode

/-- A form with nothing left to expand is left as it is. -/
theorem expandWithin_of_expanded {limit rank : Nat} {deeper : Value → Action Value} {form : Value} {m : Machine}
    (h : Expanded (m.macroAtHead? env) form) (hr : form.size ≤ rank) :
    expandWithin eval env limit deeper rank form m = .ok form m := by
  -- The code of a form is smaller than the form, so the rank lasts for the walk down to its last form.
  induction rank generalizing form with
  | zero => exact absurd form.size_pos (by omega)
  | succ rank ih =>
    obtain ⟨hhead, hfill, hcode⟩ := h
    have hvisit : visitAll (expandWithin eval env limit deeper rank) form.code m = .ok form.code m := by
      refine visitAll_of_self fun g hg => ih (hcode g hg) ?_
      have := Value.size_lt_of_mem_code hg
      omega
    rw [expandWithin_of_visits hhead hvisit, hfill]

/-- A call whose expansion calls no macro is replaced by it, and the code inside it is expanded one level further in. -/
theorem expandWithin_of_call {eval : Evaluator} {env : Env} (limit : Nat) (deeper : Value → Action Value) (rank : Nat)
    {form v : Value} {f : Lambda Value} {args : List Value} {m m' : Machine} (hf : m.macroAtHead? env form = some f)
    (hargs : macroArguments f form = .ok args) (hv : expandCall eval f args m = .ok v m')
    (hnone : m'.macroAtHead? env v = none) :
    expandWithin eval env (limit + 1) deeper (rank + 1) form m = expandChildren deeper v m' := by
  have hreplace : replaceHead eval env (limit + 1) false (limit + 1) form m = .ok (v, true) m' := by
    rw [replaceHead_of_call (limit + 1) false limit hf hargs hv]
    exact replaceHead_of_none eval (limit + 1) true limit hnone
  rw [expandWithin, Action.bind_of_ok _ hreplace]
  rfl

/-- Expansion starts at the outermost level, with the limit of the machine. -/
theorem expand_eq_within (eval : Evaluator) (form : Value) (env : Env) (m : Machine) :
    expand eval form env m =
      expandWithin eval env m.limits.maxMacroExpansions
        (expandLevel eval env m.limits.maxMacroExpansions m.limits.maxMacroExpansions) form.size form m := rfl

/-- A form that has nothing left to expand is its own expansion, whatever evaluator runs the macros. -/
theorem expand_of_expanded (eval : Evaluator) {form : Value} {env : Env} {m : Machine}
    (h : Expanded (m.macroAtHead? env) form) : expand eval form env m = .ok form m := by
  rw [expand_eq_within]
  exact expandWithin_of_expanded h (Nat.le_refl _)

end Run

/-- Expansion reaches a fixed point where running macros changes no macro and gives no name: no list in a code position of the
expanded form has a macro at its head, and expanding it once more changes neither the form nor the machine. -/
theorem expand_reaches_fixedPoint {eval : Evaluator} {env : Env} {macros : Value → Option (Lambda Value)}
    {states : Machine → Prop} (quiet : QuietMacros Value.IsName eval env macros states) {form form' : Value} {m m' : Machine}
    (hm : states m) (h : expand eval form env m = .ok form' m') :
    (∀ g, form'.InCode g → m'.macroAtHead? env g = none) ∧ expand eval form' env m' = .ok form' m' := by
  rw [expand_apply] at h
  have decided : DecidedBy Value.IsName macros macros := quiet.sees hm ▸ decidedBy_isName m env
  obtain ⟨hm', hexpanded, -⟩ := quiet.expandLevel decided _ _ form m form' m' hm h
  rw [← quiet.sees hm'] at hexpanded
  refine ⟨fun g hg => ?_, expand_of_expanded eval hexpanded⟩
  obtain ⟨hhead, -, -⟩ := hexpanded.of_inCode hg
  exact hhead

/-- The parameters of a macro are bound in a new frame inside the one of its definition. -/
theorem parameterScope_apply (f : Lambda Value) (args : List Value) (m : Machine) :
    parameterScope f args m =
      .ok (m.heap.newChild f.env).1
        { m with heap := (m.heap.newChild f.env).2.defineAll m.heap.frames.size false (f.params.bind args) } := rfl

/-- A value that is given one level deeper is the value, and the machine is as before. -/
theorem Action.of_nested_pure_eq_ok {α : Type} {v w : α} {m m' : Machine} (h : Action.nested (pure v) m = .ok w m') :
    v = w ∧ m = m' := by
  obtain ⟨m₁, hpure, rfl⟩ := Action.of_nested_eq_ok h
  cases hpure
  exact ⟨rfl, rfl⟩

/-! ## A constant macro -/

/-- The macro `(macro (m x) true)`. -/
def trueMacro : Lambda Value where
  id := 0
  name := some "m"
  params := { required := ["x"] }
  body := [.bool true]
  env := ⟨0, []⟩

/-- A machine whose only name is `m`, for that macro. -/
def trueMachine : Machine where
  heap := ({} : Heap).newRoot.2.define 0 "m" (.macroFn trueMacro) false
  global := ⟨0, []⟩

/-- The machines in which `m` is that macro and nothing else has a name. -/
structure OnlyTrueMacro (m : Machine) : Prop where
  modules : m.modules = []
  frame : m.heap.frames[0]? = some ⟨[("m", 0)]⟩
  slot : m.heap.slots[0]? = some ⟨.macroFn trueMacro, false⟩

theorem onlyTrueMacro_trueMachine : OnlyTrueMacro trueMachine := ⟨rfl, rfl, rfl⟩

/-- A list calls that macro exactly if `m` is its head. -/
theorem OnlyTrueMacro.macroAtHead? {m : Machine} (h : OnlyTrueMacro m) :
    m.macroAtHead? ⟨0, []⟩ = fun form => if form.headSymbol? = some "m" then some trueMacro else none := by
  have hlookup : ∀ s, m.heap.lookup? ⟨0, []⟩ s = if s = "m" then some (.macroFn trueMacro) else none := by
    intro s
    by_cases hs : s = "m"
    · simp [Heap.lookup?, Heap.resolve?, Env.path, Heap.resolvePath?, Heap.localSlot?, h.frame, h.slot, Frame.slot?, hs]
    · have hb : (s == "m") = false := by simpa using hs
      simp [Heap.lookup?, Heap.resolve?, Env.path, Heap.resolvePath?, Heap.localSlot?, h.frame, Frame.slot?, List.lookup_cons, hs,
        hb]
  funext form
  cases form with
  | pair head args =>
    cases head with
    | sym s =>
      by_cases hs : s = "m"
      · subst hs
        simp [Machine.macroAtHead?, hlookup, Value.headSymbol?, Value.asMacro?, isSpecial, SpecialForm.ofSymbol?]
      · simp [Machine.macroAtHead?, hlookup, Value.headSymbol?, hs]
    | _ => simp [Machine.macroAtHead?, h.modules, Value.headSymbol?]
  | _ => rfl

/-- A scope inside takes nothing away. -/
theorem OnlyTrueMacro.of_scope {m : Machine} (h : OnlyTrueMacro m) (env : Env) (bindings : List (Symbol × Value)) :
    OnlyTrueMacro { m with heap := (m.heap.newChild env).2.defineAll m.heap.frames.size false bindings } := by
  have hframes : 0 < m.heap.frames.size := (Array.getElem?_eq_some_iff.1 h.frame).1
  have hslots : 0 < m.heap.slots.size := (Array.getElem?_eq_some_iff.1 h.slot).1
  refine ⟨h.modules, ?_, ?_⟩
  · exact ((Heap.frames_defineAll_of_ne _ false bindings (Nat.ne_of_lt hframes)).trans
      (Heap.frames_newChild_of_lt m.heap env hframes)).trans h.frame
  · exact (Heap.slots_defineAll_of_lt (m.heap.newChild env).2 _ false bindings hslots).trans h.slot

/-- Running the macro makes a scope for its parameter and gives its constant. -/
theorem OnlyTrueMacro.expandCall {fuel : Nat} {m m' : Machine} {args : List Value} {v : Value} (h : OnlyTrueMacro m)
    (hrun : expandCall (eval (fuel + 1)) trueMacro args m = .ok v m') : OnlyTrueMacro m' ∧ v = .bool true := by
  unfold MiniLisp.expandCall at hrun
  split at hrun
  · rw [Action.bind_of_ok _ (parameterScope_apply trueMacro args m)] at hrun
    have hbody : eval (fuel + 1) (.bool true) (m.heap.newChild trueMacro.env).1 = Action.nested (pure (.bool true)) := by
      rw [eval_eq, run_succ]
      rfl
    replace hrun : eval (fuel + 1) (.bool true) (m.heap.newChild trueMacro.env).1 _ = .ok v m' := hrun
    rw [hbody] at hrun
    obtain ⟨rfl, rfl⟩ := Action.of_nested_pure_eq_ok hrun
    exact ⟨h.of_scope trueMacro.env _, rfl⟩
  · cases hrun

/-- The constant is no name of any kind. -/
theorem quiet_trueMacro {names : Value → Prop} (hn : ¬names (.bool true)) (fuel : Nat) :
    QuietMacros names (eval (fuel + 1)) ⟨0, []⟩ (trueMachine.macroAtHead? ⟨0, []⟩) OnlyTrueMacro where
  sees h := by rw [h.macroAtHead?, onlyTrueMacro_trueMachine.macroAtHead?]
  call {m form f args v m'} h hf _ hrun := by
    rw [onlyTrueMacro_trueMachine.macroAtHead?] at hf
    obtain ⟨-, hf⟩ := Option.ite_none_right_eq_some.1 hf
    cases hf
    obtain ⟨h', rfl⟩ := h.expandCall hrun
    exact ⟨h', hn⟩

/-- The form `(lambda (y) (m y))` expands to `(lambda (y) true)` with nothing left to expand. -/
theorem expand_reaches_fixedPoint_in_body :
    let form : Value := .list [.sym "lambda", .list [.sym "y"], .list [.sym "m", .sym "y"]]
    let form' : Value := .list [.sym "lambda", .list [.sym "y"], .bool true]
    ∃ m', expand (eval 1) form ⟨0, []⟩ trueMachine = .ok form' m' ∧
      (∀ g, form'.InCode g → m'.macroAtHead? ⟨0, []⟩ g = none) ∧ expand (eval 1) form' ⟨0, []⟩ m' = .ok form' m' := by
  intro form form'
  obtain ⟨m', hrun⟩ : ∃ m', expandCall (eval 1) trueMacro [.sym "y"] trueMachine = .ok (.bool true) m' := ⟨_, rfl⟩
  have hform : expand (eval 1) form ⟨0, []⟩ trueMachine = .ok form' m' := by
    have hsize : form.size = 11 + 1 + 1 := rfl
    have hlimit : trueMachine.limits.maxMacroExpansions = 999 + 1 := rfl
    have hcall : ∀ deeper, visitAll (expandWithin (eval 1) ⟨0, []⟩ (999 + 1) deeper (11 + 1)) form.code trueMachine =
        .ok [.bool true] m' := fun deeper => Action.bind_of_ok _ (expandWithin_of_call 999 deeper 11 rfl rfl hrun rfl)
    rw [expand_eq_within, hsize, hlimit]
    exact expandWithin_of_visits rfl (hcall _)
  exact ⟨m', hform, expand_reaches_fixedPoint (quiet_trueMacro (by rintro ⟨⟩) 0) onlyTrueMacro_trueMachine hform⟩

/-- The macro `(macro (n) 'm)`. -/
def namingMacro : Lambda Value where
  id := 1
  name := some "n"
  params := {}
  body := [.wrap "quote" (.sym "m")]
  env := ⟨0, []⟩

/-- The machine with that macro besides. -/
def namingMachine : Machine where
  heap := trueMachine.heap.define 0 "n" (.macroFn namingMacro) false
  global := ⟨0, []⟩

/-- The head of `((n) 5)` expands to the name of a macro, which is left at the head of the expanded form. -/
theorem expand_leaves_macro_call :
    let form : Value := .list [.list [.sym "n"], .ofInt 5]
    let form' : Value := .list [.sym "m", .ofInt 5]
    ∃ m', expand (eval 1) form ⟨0, []⟩ namingMachine = .ok form' m' ∧
      m'.macroAtHead? ⟨0, []⟩ form' = some trueMacro := by
  intro form form'
  obtain ⟨m', hrun, hm'⟩ : ∃ m', expandCall (eval 1) namingMacro [] namingMachine = .ok (.sym "m") m' ∧
      m'.macroAtHead? ⟨0, []⟩ form' = some trueMacro := by
    refine ⟨_, rfl, ?_⟩
    rfl
  have hsize : form.size = 5 + 1 + 1 := rfl
  have hlimit : namingMachine.limits.maxMacroExpansions = 999 + 1 := rfl
  have hvisits : ∀ deeper, visitAll (expandWithin (eval 1) ⟨0, []⟩ (999 + 1) deeper (5 + 1)) form.code namingMachine =
      .ok [.sym "m", .ofInt 5] m' := by
    intro deeper
    have hnum : expandWithin (eval 1) ⟨0, []⟩ (999 + 1) deeper (5 + 1) (.ofInt 5) m' = .ok (.ofInt 5) m' :=
      expandWithin_of_visits rfl rfl
    have hrest : visitAll (expandWithin (eval 1) ⟨0, []⟩ (999 + 1) deeper (5 + 1)) [.ofInt 5] m' = .ok [.ofInt 5] m' :=
      Action.bind_of_ok _ hnum
    exact (Action.bind_of_ok _ (expandWithin_of_call 999 deeper 5 rfl rfl hrun rfl)).trans (Action.bind_of_ok _ hrest)
  refine ⟨m', ?_, hm'⟩
  rw [expand_eq_within, hsize, hlimit]
  exact expandWithin_of_visits rfl (hvisits _)

end MiniLisp
