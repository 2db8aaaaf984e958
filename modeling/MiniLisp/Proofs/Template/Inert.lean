import MiniLisp.Proofs.Shadowing
import MiniLisp.Proofs.Template.Unquoted

/-!
# Templates that unquote nothing

A quoted form becomes data when it is expanded; a template is only walked over then, and is copied when it is evaluated. Where a
template has nothing to unquote and no template inside it, the two come to the same: a quasiquoted form gives the data that the
quoted form gives (`inert_template_quoted`).
-/

namespace MiniLisp

/-- A template of proper lists, vectors and set and map forms in which nothing changes the level: neither the template itself nor
an element at any depth is a quasiquote, an unquote or a splicing mark with its one argument. -/
inductive InertTemplate : Value → Prop where
  | atom {v : Value} (h : v.isAtom = true) : InertTemplate v
  | list {items : List Value} (hitems : ∀ x ∈ items, InertTemplate x) (hn : ¬IsEscape (.list items)) :
      InertTemplate (.list items)
  | vector {items : List Value} (hitems : ∀ x ∈ items, InertTemplate x) : InertTemplate (.vector items)
  | setForm {items : List Value} (hitems : ∀ x ∈ items, InertTemplate x) : InertTemplate (.setForm items)
  | mapForm {entries : List (Value × Value)} (hkeys : ∀ e ∈ entries, InertTemplate e.1)
      (hvalues : ∀ e ∈ entries, InertTemplate e.2) : InertTemplate (.mapForm entries)

/-- An inert template is no unquoted form. -/
theorem InertTemplate.not_isEscape {template : Value} (h : InertTemplate template) : ¬IsEscape template := by
  cases h with
  | atom h =>
    rintro ⟨s, arg, rfl, -⟩
    cases h
  | list _ hn => exact hn
  | vector | setForm | mapForm =>
    rintro ⟨s, arg, hw, -⟩
    cases hw

/-- An atom is quoted as it is. -/
theorem Value.toDatum_atom {v : Value} (h : v.isAtom = true) : v.toDatum = v := by
  cases v with
  | pair | vector | set | map | setForm | mapForm => cases h
  | _ => simp [Value.toDatum]

/-- A list is quoted item by item. -/
theorem Value.toDatum_list (items : List Value) : (Value.list items).toDatum = .list (items.map Value.toDatum) := by
  induction items with
  | nil => rfl
  | cons x xs ih => rw [Value.list_cons, Value.toDatum, ih, List.map_cons, Value.list_cons]

/-! ## Expansion finds no code in it -/

section Code

variable {level : Nat}

/-- Templates without code have none together. -/
theorem code_templates {items : List Value} (h : ∀ x ∈ items, (templateHoles false level x).code = []) :
    (templatesHoles level items).code = [] := by
  induction items with
  | nil => rfl
  | cons x xs ih =>
    obtain ⟨hx, hxs⟩ := List.forall_mem_cons.1 h
    simp [templatesHoles, Holes.beside, hx, ih hxs]

/-- So have entries without code. -/
theorem code_templateEntries {entries : List (Value × Value)}
    (hkeys : ∀ e ∈ entries, (templateHoles false level e.1).code = [])
    (hvalues : ∀ e ∈ entries, (templateHoles false level e.2).code = []) : (templateEntriesHoles level entries).code = [] := by
  induction entries with
  | nil => rfl
  | cons e es ih =>
    obtain ⟨k, v⟩ := e
    obtain ⟨hk, hks⟩ := List.forall_mem_cons.1 hkeys
    obtain ⟨hv, hvs⟩ := List.forall_mem_cons.1 hvalues
    simp [templateEntriesHoles, Holes.beside, hk, hv, ih hks hvs]

/-- The elements of a list are templates, and so is the list unless it changes the level. -/
theorem code_templateList {inTail : Bool} {items : List Value} (hn : inTail = true ∨ ¬IsEscape (.list items))
    (h : ∀ x ∈ items, (templateHoles false level x).code = []) : (templateHoles inTail level (.list items)).code = [] := by
  induction items generalizing inTail with
  | nil => simp [Value.list, Value.listWithTail, templateHoles, Holes.solid]
  | cons x xs ih =>
    obtain ⟨hx, hxs⟩ := List.forall_mem_cons.1 h
    have htail : (templateHoles true level (.list xs)).code = [] := ih (.inl rfl) hxs
    rw [Value.list_cons] at hn ⊢
    simp [templateHoles_pair hn, Holes.beside, hx, htail]

/-- An inert template has no code. -/
theorem InertTemplate.code_eq_nil {template : Value} (h : InertTemplate template) :
    (templateHoles false level template).code = [] := by
  induction h with
  | atom h =>
    rw [templateHoles_atom h]
    rfl
  | list _ hn ih => exact code_templateList (.inr hn) ih
  | vector _ ih | setForm _ ih =>
    rw [templateHoles]
    exact code_templates ih
  | mapForm _ _ ihk ihv =>
    rw [templateHoles]
    exact code_templateEntries ihk ihv

end Code

/-! ## Evaluation copies it -/

section Copy

variable {eval : Evaluator} {env : Env}

/-- An element that is no splicing mark gives its own instance. -/
theorem spliceOr_of_not_isEscape {level : Nat} {item : Value} (h : ¬IsEscape item) (copy : Action Value) :
    spliceOr eval env level item copy = copy >>= fun v => pure [v] := by
  unfold spliceOr
  split
  · rename_i code hcode
    exact absurd ⟨_, code, Value.eq_wrap_of_argumentOf? hcode, .inl (.inr rfl)⟩ h
  · rfl

/-- Inert templates are filled to the quoted items. -/
theorem instantiateItems_of_inert {items : List Value} (hn : ∀ x ∈ items, ¬IsEscape x)
    (h : ∀ x ∈ items, instantiate eval env false 1 x = pure x.toDatum) :
    instantiateItems eval env 1 items = pure (Value.toData items) := by
  induction items with
  | nil => rfl
  | cons x xs ih =>
    obtain ⟨hnx, hnxs⟩ := List.forall_mem_cons.1 hn
    obtain ⟨hx, hxs⟩ := List.forall_mem_cons.1 h
    rw [instantiateItems, spliceOr_of_not_isEscape hnx, hx, ih hnxs hxs]
    simp [Value.toData]

/-- Inert entries are filled to the quoted entries. -/
theorem instantiateEntries_of_inert {entries : List (Value × Value)}
    (hkeys : ∀ e ∈ entries, instantiate eval env false 1 e.1 = pure e.1.toDatum)
    (hvalues : ∀ e ∈ entries, instantiate eval env false 1 e.2 = pure e.2.toDatum) :
    instantiateEntries eval env 1 entries = pure (Value.toDataEntries entries) := by
  induction entries with
  | nil => rfl
  | cons e es ih =>
    obtain ⟨k, v⟩ := e
    obtain ⟨hk, hks⟩ := List.forall_mem_cons.1 hkeys
    obtain ⟨hv, hvs⟩ := List.forall_mem_cons.1 hvalues
    rw [instantiateEntries, hk, hv, ih hks hvs]
    simp [Value.toDataEntries]

/-- The tail of a list is copied too, even where it would be an escape if it were an element. -/
theorem instantiateList_of_inert {inTail : Bool} {items : List Value} (hlist : inTail = true ∨ ¬IsEscape (.list items))
    (hn : ∀ x ∈ items, ¬IsEscape x) (h : ∀ x ∈ items, instantiate eval env false 1 x = pure x.toDatum) :
    instantiate eval env inTail 1 (.list items) = pure (Value.list items).toDatum := by
  rw [Value.toDatum_list]
  induction items generalizing inTail with
  | nil => simp [Value.list, Value.listWithTail, instantiate]
  | cons x xs ih =>
    obtain ⟨hnx, hnxs⟩ := List.forall_mem_cons.1 hn
    obtain ⟨hx, hxs⟩ := List.forall_mem_cons.1 h
    have htail : instantiate eval env true 1 (.list xs) = pure (.list (xs.map Value.toDatum)) := ih (.inl rfl) hnxs hxs
    rw [Value.list_cons] at hlist ⊢
    rw [instantiate_pair env eval hlist, spliceOr_of_not_isEscape hnx, hx, htail]
    rfl

/-- The instance of the template is the data that it is when it is quoted. -/
theorem InertTemplate.instantiate_eq {template : Value} (h : InertTemplate template) :
    instantiate eval env false 1 template = pure template.toDatum := by
  induction h with
  | atom h => rw [instantiate_atom env eval h, Value.toDatum_atom h]
  | list hitems hn ih => exact instantiateList_of_inert (.inr hn) (fun x hx => (hitems x hx).not_isEscape) ih
  | vector hitems ih | setForm hitems ih =>
    rw [instantiate, instantiateItems_of_inert (fun x hx => (hitems x hx).not_isEscape) ih]
    simp [Value.toDatum]
  | mapForm _ _ ihk ihv =>
    rw [instantiate, instantiateEntries_of_inert ihk ihv]
    simp [Value.toDatum]

end Copy

/-! ## Running the quoted and the quasiquoted form -/

/-- A form that has no code and calls no macro is expanded by filling its shape with nothing. -/
theorem expand_of_code_eq_nil (eval : Evaluator) {form : Value} {env : Env} {m : Machine}
    (hhead : m.macroAtHead? env form = none) (hcode : form.code = []) :
    expand eval form env m = .ok (form.holes.fill []) m := by
  obtain ⟨rank, hrank⟩ := Nat.exists_eq_succ_of_ne_zero (Nat.ne_of_gt form.size_pos)
  rw [expand_eq_within, hrank]
  refine expandWithin_of_visits hhead ?_
  rw [hcode]
  rfl

/-- Evaluate what a form expands to, in any environment. -/
def expandAndEval (fuel : Nat) (form : Value) (env : Env) : Action Value :=
  expand (eval fuel) form env >>= fun expanded => eval fuel expanded env

/-- A quotation is expanded and evaluated to its datum. -/
theorem expandAndEval_quote (fuel : Nat) (form : Value) (env : Env) {m : Machine} (hd : m.depth < m.limits.maxDepth) :
    expandAndEval (fuel + 1) (.wrap "quote" form) env m = .ok form.toDatum m := by
  have hexpand : expand (eval (fuel + 1)) (.wrap "quote" form) env m = .ok (.wrap "quote" form.toDatum) m :=
    expand_of_code_eq_nil _ (macroAtHead?_special rfl _) rfl
  rw [expandAndEval, Action.bind_of_ok _ hexpand]
  exact eval_quote fuel form.toDatum env hd

/-- A template that has nothing to unquote is left as it is by its expansion; its instance is what the form gives. -/
theorem expandAndEval_template (fuel : Nat) {template copy : Value} (hcode : (templateHoles false 1 template).code = [])
    {env : Env} (hcopy : instantiate (eval fuel) env false 1 template = pure copy) {m : Machine} (hd : m.depth < m.limits.maxDepth) :
    expandAndEval (fuel + 1) (.wrap "quasiquote" template) env m = .ok copy m := by
  have hholes : (Value.wrap "quasiquote" template).holes = (templateHoles false 1 template).inside (.wrap "quasiquote") := rfl
  have hexpand : expand (eval (fuel + 1)) (.wrap "quasiquote" template) env m = .ok (.wrap "quasiquote" template) m := by
    have hhead : m.macroAtHead? env (.wrap "quasiquote" template) = none := macroAtHead?_special rfl _
    have hfill := templateHoles_fill_code false 1 template
    rw [hcode] at hfill
    rw [expand_of_code_eq_nil _ hhead hcode, hholes]
    simp [Holes.inside, hfill]
  rw [expandAndEval, Action.bind_of_ok _ hexpand, eval_eq, run_succ]
  refine Action.nested_of_ok hd ?_
  have hstep : plainStep (eval fuel) (run fuel) (.wrap "quasiquote" template) env =
      instantiate (eval fuel) env false 1 template := by
    show (SpecialForm.evalQuasiquote (eval fuel) env [template] >>= force (run fuel)) = _
    simp [SpecialForm.evalQuasiquote]
  rw [hstep, hcopy]
  rfl

/-- An inert template is expanded and evaluated to its datum. -/
theorem expandAndEval_quasiquote (fuel : Nat) {template : Value} (h : InertTemplate template) (env : Env) {m : Machine}
    (hd : m.depth < m.limits.maxDepth) :
    expandAndEval (fuel + 1) (.wrap "quasiquote" template) env m = .ok template.toDatum m :=
  expandAndEval_template fuel h.code_eq_nil h.instantiate_eq hd

/-- A template without anything to unquote is quoted data. Whatever names stand for macros, and in every environment, running the
quasiquoted form gives what running the quoted form gives: the data that the template is, and the machine as it was. A top-level
form starts at depth zero, and one free level is enough for either. -/
theorem inert_template_quoted {template : Value} (h : InertTemplate template) (fuel : Nat) (m : Machine) :
    (0 < m.limits.maxDepth →
      Session.evalForm (fuel + 1) (.wrap "quasiquote" template) m = .ok template.toDatum { m with depth := 0 } ∧
      Session.evalForm (fuel + 1) (.wrap "quote" template) m = .ok template.toDatum { m with depth := 0 }) ∧
    ∀ env, m.depth < m.limits.maxDepth →
      expandAndEval (fuel + 1) (.wrap "quasiquote" template) env m = .ok template.toDatum m ∧
      expandAndEval (fuel + 1) (.wrap "quote" template) env m = .ok template.toDatum m := by
  constructor
  · intro hd
    have hd' : ({ m with depth := 0 } : Machine).depth < m.limits.maxDepth := hd
    rw [evalForm_apply, evalForm_apply]
    exact ⟨expandAndEval_quasiquote fuel h m.global hd', expandAndEval_quote fuel template m.global hd'⟩
  · intro env hd
    exact ⟨expandAndEval_quasiquote fuel h env hd, expandAndEval_quote fuel template env hd⟩

/-- The template `((m a) #{1 (x unquote y) 1} {k [unquote] k [unquote y z]})`, where `m` is a macro: its repeated element and key
are one each in the data, `m` is not called, and no list in it is an escape. -/
theorem inert_template_quoted_repeated :
    let call : Value := .list [.sym "m", .sym "a"]
    let list : Value := .list [.sym "x", .sym "unquote", .sym "y"]
    let template : Value := .list [call, .setForm [.ofInt 1, list, .ofInt 1],
      .mapForm [(.sym "k", .vector [.sym "unquote"]), (.sym "k", .vector [.sym "unquote", .sym "y", .sym "z"])]]
    let datum : Value := .list [call, .set ⟨[.ofInt 1, list]⟩, .map ⟨[(.sym "k", .vector [.sym "unquote", .sym "y", .sym "z"])]⟩]
    InertTemplate template ∧ 0 < trueMachine.limits.maxDepth ∧
      Session.evalForm 1 (.wrap "quasiquote" template) trueMachine = .ok datum trueMachine ∧
      Session.evalForm 1 (.wrap "quote" template) trueMachine = .ok datum trueMachine := by
  intro call list template datum
  have hsym : ∀ s, InertTemplate (.sym s) := fun s => .atom rfl
  have hone : InertTemplate (.ofInt 1) := .atom rfl
  have hcall : InertTemplate call := by
    refine .list (by simp [hsym]) ?_
    rintro ⟨s, arg, hw, hs⟩
    cases hw
    simp at hs
  have hlist : InertTemplate list := by
    refine .list (by simp [hsym]) ?_
    rintro ⟨s, arg, hw, -⟩
    cases hw
  have htemplate : InertTemplate template := by
    have hset : InertTemplate (.setForm [.ofInt 1, list, .ofInt 1]) := .setForm (by simp [hone, hlist])
    have hshort : InertTemplate (.vector [.sym "unquote"]) := .vector (by simp [hsym])
    have hlong : InertTemplate (.vector [.sym "unquote", .sym "y", .sym "z"]) := .vector (by simp [hsym])
    have hmap : InertTemplate (.mapForm [(.sym "k", .vector [.sym "unquote"]),
        (.sym "k", .vector [.sym "unquote", .sym "y", .sym "z"])]) := .mapForm (by simp [hsym]) (by simp [hshort, hlong])
    refine .list (by simp [hcall, hset, hmap]) ?_
    rintro ⟨s, arg, hw, -⟩
    obtain ⟨hhead, -⟩ := Value.pair.inj hw
    nomatch hhead
  have hdatum : template.toDatum = datum := rfl
  have hrun := (inert_template_quoted htemplate 0 trueMachine).1 (by decide)
  rw [hdatum] at hrun
  exact ⟨htemplate, by decide, hrun⟩

end MiniLisp
