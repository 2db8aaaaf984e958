import MiniLisp.Expand.Basic
import MiniLisp.Proofs.Expansion.Shape

/-!
# The code of a form

`expandChildren` takes the code out of a form, visits it and puts what the visits give in its place. Here the two halves are
apart: `Value.holes` is the shape of a form, and the forms in its code positions, in the order in which they are visited, are its
code (`Value.code`). Walking over a form is visiting its code and filling its shape (`expandChildren_eq`). The code of a form is
smaller than the form (`Value.size_lt_of_mem_code`).
-/

namespace MiniLisp

variable {α β γ : Type}

namespace Value

/-- The items of a proper list are its heads. -/
theorem heads_eq_of_toList? {v : Value} {items : List Value} (h : v.toList? = some items) : v.heads = items := by
  unfold toList? at h
  split at h
  · simpa using h
  · cases h

theorem list_cons (x : Value) (xs : List Value) : list (x :: xs) = .pair x (.list xs) := rfl

/-- A proper list is the list of its items. -/
theorem eq_list_of_toList? {v : Value} {items : List Value} (h : v.toList? = some items) : v = list items := by
  have hheads := heads_eq_of_toList? h
  unfold toList? at h
  split at h
  · rename_i hr
    rw [← listWithTail_heads_remainder v, hr, hheads]
    rfl
  · cases h

@[simp]
theorem heads_list (items : List Value) : (list items).heads = items := heads_eq_of_toList? (toList?_list items)

@[simp]
theorem isList_list (items : List Value) : (list items).isList = true := by cases items <;> rfl

/-- A form has an argument only if it is its keyword with the argument and nothing else. -/
theorem eq_wrap_of_argumentOf? {head : Symbol} {v arg : Value} (h : v.argumentOf? head = some arg) : v = wrap head arg := by
  unfold argumentOf? at h
  split at h
  · obtain ⟨hs, harg⟩ := Option.ite_none_right_eq_some.1 h
    cases harg
    rw [beq_iff_eq.1 hs]
    rfl
  · cases h

/-- An argument is smaller than the form that it stands in. -/
theorem size_lt_size_wrap (s : Symbol) (arg : Value) : arg.size < (wrap s arg).size := by
  simp only [wrap, list, listWithTail, List.foldr_cons, List.foldr_nil, size]
  omega

end Value

/-! ## The shape of a form -/

section Shapes

open Holes

mutual

/-- The shape of a template: its code is what it unquotes at level one. -/
def templateHoles (inTail : Bool) (level : Nat) : Value → Holes Value
  | .pair (.sym s) (.pair arg .nil) =>
    if inTail then beside .pair (solid (.sym s)) (templateHoles true level (.pair arg .nil))
    else if s = "unquote" ∨ s = "unquote-splicing" then
      if level = 1 then (hole arg).inside (.wrap s)
      else (templateHoles false (level - 1) arg).inside (.wrap s)
    else if s = "quasiquote" then (templateHoles false (level + 1) arg).inside (.wrap s)
    else beside .pair (solid (.sym s)) (templateHoles true level (.pair arg .nil))
  | .pair h t => beside .pair (templateHoles false level h) (templateHoles true level t)
  | .vector xs => (templatesHoles level xs).inside .vector
  | .setForm xs => (templatesHoles level xs).inside .setForm
  | .mapForm es => (templateEntriesHoles level es).inside .mapForm
  | v => solid v

/-- The shape of several templates. -/
def templatesHoles (level : Nat) : List Value → Holes (List Value)
  | [] => solid []
  | x :: xs => beside .cons (templateHoles false level x) (templatesHoles level xs)

/-- The shape of the entries of a map form in a template. -/
def templateEntriesHoles (level : Nat) : List (Value × Value) → Holes (List (Value × Value))
  | [] => solid []
  | (k, v) :: es =>
    beside .cons (beside .mk (templateHoles false level k) (templateHoles false level v)) (templateEntriesHoles level es)

end

/-- The shape of a list whose elements behind the first `keep` are code. -/
def listHoles : (keep : Nat) → Value → Holes Value
  | 0, .pair h t => beside .pair (hole h) (listHoles 0 t)
  | keep + 1, .pair h t => (listHoles keep t).inside (.pair h)
  | _, v => solid v

/-- The shape of a binding `(name expression)`. -/
def bindingHoles (binding : Value) : Holes Value :=
  match binding.toList? with
  | some [name, form] => (hole form).inside fun form => .list [name, form]
  | _ => solid binding

/-- Whether a `let` whose first argument this is names one thing and has no block of bindings. -/
def Value.isSignature : Value → Bool
  | .sym _ | .pair (.sym _) _ => true
  | _ => false

/-- The shape of a `let` form. -/
def letHoles (form : Value) : Holes Value :=
  match form.toList? with
  | some (keyword :: target :: body) =>
    if target.isSignature then listHoles 2 form
    else if target.isList then
      beside (fun bindings forms => .list (keyword :: .list bindings :: forms)) (all bindingHoles target.heads)
        (all hole body)
    else solid form
  | _ => solid form

/-- The shape of a clause `(pattern body...)`. -/
def clauseHoles (clause : Value) : Holes Value :=
  match clause.toList? with
  | some (pattern :: body) => (all hole body).inside fun forms => .list (pattern :: forms)
  | _ => solid clause

/-- The shape of a `match` form. -/
def matchHoles (form : Value) : Holes Value :=
  match form.toList? with
  | some (keyword :: scrutinee :: clauses) =>
    beside (fun first rest => .list (keyword :: first :: rest)) (hole scrutinee) (all clauseHoles clauses)
  | _ => solid form

/-- The shape of a special form. -/
def specialHoles (special : SpecialForm) (form : Value) : Holes Value :=
  match special with
  | .quote => solid form.toDatum
  | .typeForm | .moduleForm | .useForm => solid form
  | .quasiquote =>
    match form.argumentOf? "quasiquote" with
    | some template => (templateHoles false 1 template).inside (.wrap "quasiquote")
    | none => solid form
  | .lambda | .defineMacro => listHoles 2 form
  | .letForm | .letMutable => letHoles form
  | .matchForm => matchHoles form
  | _ => listHoles 1 form

/-- The shape of an entry of a map form. -/
def entryHoles (entry : Value × Value) : Holes (Value × Value) := beside .mk (hole entry.1) (hole entry.2)

/-- The shape of a form. -/
def Value.holes (form : Value) : Holes Value :=
  match form with
  | .pair (.sym s) _ =>
    match SpecialForm.ofSymbol? s with
    | some special => specialHoles special form
    | none => listHoles 0 form
  | .pair .. => listHoles 0 form
  | .vector items => (all hole items).inside .vector
  | .setForm items => (all hole items).inside .setForm
  | .mapForm entries => (all entryHoles entries).inside .mapForm
  | v => solid v

/-- The forms in the code positions of a form, not counting those inside them. -/
def Value.code (form : Value) : List Value := form.holes.code

/-! ## Walking over a form is visiting its code and filling its shape -/

variable (visit : Value → Action Value)

mutual

/-- The walk over a template visits the code in it, from left to right, and fills the template with the results. -/
theorem visitTemplate_eq (inTail : Bool) (level : Nat) (template : Value) :
    visitTemplate visit inTail level template = (templateHoles inTail level template).run visit := by
  unfold visitTemplate templateHoles
  split
  · rename_i s arg
    have htail := visitTemplate_eq true level (.pair arg .nil)
    have hout := visitTemplate_eq false (level - 1) arg
    have hin := visitTemplate_eq false (level + 1) arg
    by_cases hi : inTail = true
    · simp [hi, htail]
    · by_cases hs : s = "unquote" ∨ s = "unquote-splicing"
      · by_cases hl : level = 1
        · simp [hi, hs, hl]
        · simp [hi, hs, hl, hout]
      · by_cases hq : s = "quasiquote"
        · simp [hi, hq, hin]
        · simp [hi, hs, hq, htail]
  · rename_i h t _
    simp [visitTemplate_eq false level h, visitTemplate_eq true level t]
  · rename_i xs
    simp [visitTemplates_eq level xs]
  · rename_i xs
    simp [visitTemplates_eq level xs]
  · rename_i es
    simp [visitTemplateEntries_eq level es]
  · simp
termination_by sizeOf template

/-- The same of the items of a template. -/
theorem visitTemplates_eq (level : Nat) (templates : List Value) :
    visitTemplates visit level templates = (templatesHoles level templates).run visit := by
  cases templates with
  | nil => simp [visitTemplates, templatesHoles]
  | cons x xs =>
    simp [visitTemplates, templatesHoles, visitTemplate_eq false level x, visitTemplates_eq level xs]
termination_by sizeOf templates

/-- The same of the entries of a template. -/
theorem visitTemplateEntries_eq (level : Nat) (templates : List (Value × Value)) :
    visitTemplateEntries visit level templates = (templateEntriesHoles level templates).run visit := by
  cases templates with
  | nil => simp [visitTemplateEntries, templateEntriesHoles]
  | cons e es =>
    obtain ⟨k, v⟩ := e
    simp [visitTemplateEntries, templateEntriesHoles, visitTemplate_eq false level k, visitTemplate_eq false level v,
      visitTemplateEntries_eq level es]
termination_by sizeOf templates

end

/-- The walk over a list visits the items behind those that are kept. -/
theorem visitList_eq (keep : Nat) (list : Value) : visitList visit keep list = (listHoles keep list).run visit := by
  fun_induction listHoles keep list with
  | case1 h t ih => simp [visitList, ih]
  | case2 keep h t ih => simp [visitList, ih]
  | case3 keep v hzero hsucc => simp [visitList.eq_3 _ keep v hzero hsucc]

/-- The walk over a binding visits its form. -/
theorem visitBinding_eq (binding : Value) : visitBinding visit binding = (bindingHoles binding).run visit := by
  match h : binding.toList? with
  | some [name, form] => simp [visitBinding, bindingHoles, h]
  | none | some [] | some [_] | some (_ :: _ :: _ :: _) => simp [visitBinding, bindingHoles, h]

/-- Visiting several forms is the walk over forms that are all code. -/
theorem visitAll_eq (forms : List Value) : visitAll visit forms = (all hole forms).run visit := by
  simp [run_all]

/-- A `let` with a signature is walked over like a function. -/
theorem visitLet_of_signature {form keyword target : Value} {body : List Value}
    (h : form.toList? = some (keyword :: target :: body)) (hs : target.isSignature = true) :
    visitLet visit form = visitList visit 2 form := by
  simp only [visitLet, h]
  split
  · rfl
  · rfl
  · rename_i hsym hpair
    unfold Value.isSignature at hs
    split at hs
    · exact absurd rfl (hsym _)
    · exact absurd rfl (hpair _ _)
    · cases hs

/-- Any other `let` is a block: its bindings are walked over, then its body. -/
theorem visitLet_of_not_signature {form keyword target : Value} {body : List Value}
    (h : form.toList? = some (keyword :: target :: body)) (hs : target.isSignature = false) :
    visitLet visit form =
      if target.isList then do
        let bindings ← visitAll (visitBinding visit) target.heads
        let forms ← visitAll visit body
        return .list (keyword :: .list bindings :: forms)
      else pure form := by
  simp only [visitLet, h]
  split
  · cases hs
  · cases hs
  · rfl

/-- The walk over a `let` visits the code in it and fills it with the results. -/
theorem visitLet_eq (form : Value) : visitLet visit form = (letHoles form).run visit := by
  match h : form.toList? with
  | some (keyword :: target :: body) =>
    by_cases hs : target.isSignature = true
    · rw [visitLet_of_signature visit h hs, visitList_eq]
      simp [letHoles, h, hs]
    · rw [visitLet_of_not_signature visit h (by simpa using hs)]
      by_cases hl : target.isList = true
      · simp [letHoles, h, hs, hl, run_all, ← visitBinding_eq]
      · simp [letHoles, h, hs, hl]
  | none | some [] | some [_] => simp [visitLet, letHoles, h]

/-- The walk over a clause visits its body, not its pattern. -/
theorem visitClause_eq (clause : Value) : visitClause visit clause = (clauseHoles clause).run visit := by
  match h : clause.toList? with
  | some (pattern :: body) => simp [visitClause, clauseHoles, h, run_all]
  | none | some [] => simp [visitClause, clauseHoles, h]

/-- The walk over a match visits what is matched and the bodies of the clauses. -/
theorem visitMatch_eq (form : Value) : visitMatch visit form = (matchHoles form).run visit := by
  match h : form.toList? with
  | some (keyword :: scrutinee :: clauses) => simp [visitMatch, matchHoles, h, run_all, ← visitClause_eq]
  | none | some [] | some [_] => simp [visitMatch, matchHoles, h]

/-- So every special form has a shape, and the walk over it visits the code in that shape. -/
theorem visitSpecial_eq (special : SpecialForm) (form : Value) :
    visitSpecial visit special form = (specialHoles special form).run visit := by
  cases special with
  | quote | typeForm | moduleForm | useForm => simp [visitSpecial, specialHoles]
  | quasiquote =>
    cases h : form.argumentOf? "quasiquote" with
    | some template => simp [visitSpecial, specialHoles, h, visitTemplate_eq]
    | none => simp [visitSpecial, specialHoles, h]
  | lambda | defineMacro => exact visitList_eq visit 2 form
  | letForm | letMutable => exact visitLet_eq visit form
  | matchForm => exact visitMatch_eq visit form
  | _ => exact visitList_eq visit 1 form

/-- The walk over the entries of a map visits keys and values. -/
theorem visitEntries_eq (entries : List (Value × Value)) :
    visitEntries visit entries = (all entryHoles entries).run visit := by
  induction entries with
  | nil => simp [visitEntries, all]
  | cons entry entries ih => simp [visitEntries, all, entryHoles, ih]

/-- Walking over a form is visiting its code and filling its shape with what the visits give. -/
theorem expandChildren_eq (form : Value) : expandChildren visit form = form.holes.run visit := by
  cases form with
  | pair head tail =>
    cases head with
    | sym s =>
      simp only [expandChildren, Value.holes]
      cases SpecialForm.ofSymbol? s with
      | some special => exact visitSpecial_eq visit special _
      | none => exact visitList_eq visit 0 _
    | _ => exact visitList_eq visit 0 _
  | vector items | setForm items => simp [expandChildren, Value.holes, visitAll_eq]
  | mapForm entries => simp [expandChildren, Value.holes, visitEntries_eq]
  | _ => simp [expandChildren, Value.holes]

/-- Whether a template is a form of its own that changes the level of what it holds. -/
def IsEscape (template : Value) : Prop :=
  ∃ s arg, template = .wrap s arg ∧ ((s = "unquote" ∨ s = "unquote-splicing") ∨ s = "quasiquote")

/-- Any other list is a template beside a template. -/
theorem templateHoles_pair {inTail : Bool} {h t : Value} (hn : inTail = true ∨ ¬IsEscape (.pair h t)) (level : Nat) :
    templateHoles inTail level (.pair h t) =
      beside .pair (templateHoles false level h) (templateHoles true level t) := by
  by_cases hw : ∃ s arg, h = .sym s ∧ t = .pair arg .nil
  · obtain ⟨s, arg, rfl, rfl⟩ := hw
    have hsym : templateHoles false level (.sym s) = solid (.sym s) := by simp [templateHoles]
    rw [templateHoles, hsym]
    rcases hn with rfl | hn
    · simp
    · have hs : ¬(s = "unquote" ∨ s = "unquote-splicing") := fun hs => hn ⟨s, arg, rfl, .inl hs⟩
      have hq : s ≠ "quasiquote" := fun hq => hn ⟨s, arg, rfl, .inr hq⟩
      simp [hs, hq]
  · rw [templateHoles.eq_2]
    intro s arg hh ht
    exact hw ⟨s, arg, hh, ht⟩

/-- What a form that changes the level holds is code, or a template of another level. -/
theorem templateHoles_escape (level : Nat) {s : Symbol}
    (hs : (s = "unquote" ∨ s = "unquote-splicing") ∨ s = "quasiquote") :
    ∃ inner : Value → Holes Value, (∀ arg, templateHoles false level (.wrap s arg) = (inner arg).inside (.wrap s)) ∧
      (inner = hole ∨ ∃ level', inner = templateHoles false level') := by
  by_cases hu : s = "unquote" ∨ s = "unquote-splicing"
  · by_cases hl : level = 1
    · refine ⟨hole, fun arg => ?_, .inl rfl⟩
      simp [Value.wrap, Value.list, Value.listWithTail, templateHoles, hu, hl]
    · refine ⟨templateHoles false (level - 1), fun arg => ?_, .inr ⟨_, rfl⟩⟩
      simp [Value.wrap, Value.list, Value.listWithTail, templateHoles, hu, hl]
  · have hq : s = "quasiquote" := hs.resolve_left hu
    refine ⟨templateHoles false (level + 1), fun arg => ?_, .inr ⟨_, rfl⟩⟩
    simp [Value.wrap, Value.list, Value.listWithTail, templateHoles, hq]

namespace Value

/-- Whether a list with this head is a call, not a special form. -/
def IsCallee (head : Value) : Prop := ∀ s, head = .sym s → SpecialForm.ofSymbol? s = none

/-- A list with a keyword at its head has the shape of the special form. -/
theorem holes_special {s : Symbol} {special : SpecialForm} (h : SpecialForm.ofSymbol? s = some special) (args : Value) :
    (pair (sym s) args).holes = specialHoles special (pair (sym s) args) := by
  simp only [holes, h]

/-- Any other list is a call: its head and its arguments are code. -/
theorem holes_call {head : Value} (h : head.IsCallee) (args : Value) :
    (pair head args).holes = beside pair (hole head) (listHoles 0 args) := by
  cases head with
  | sym s =>
    simp only [holes, h s rfl]
    rfl
  | _ => rfl

/-- A list is a special form or a call. -/
theorem special_or_call (head : Value) :
    (∃ s special, head = .sym s ∧ SpecialForm.ofSymbol? s = some special) ∨ head.IsCallee := by
  by_cases h : head.IsCallee
  · exact .inr h
  · obtain ⟨s, rfl, hs⟩ : ∃ s, head = .sym s ∧ SpecialForm.ofSymbol? s ≠ none := by simpa [IsCallee] using h
    obtain ⟨special, hspecial⟩ := Option.ne_none_iff_exists'.1 hs
    exact .inl ⟨s, special, rfl, hspecial⟩

end Value

/-! ## Code is smaller than the form it stands in -/

/-- The code of two things beside each other is code of the one or of the other. -/
theorem mem_code_beside {f : α → β → γ} {a : Holes α} {b : Holes β} {g : Value} (h : g ∈ (beside f a b).code) :
    g ∈ a.code ∨ g ∈ b.code := List.mem_append.1 h

/-- The code of several things is code of one of them. -/
theorem mem_code_all {holes : α → Holes β} {items : List α} {g : Value} (h : g ∈ (all holes items).code) :
    ∃ item ∈ items, g ∈ (holes item).code := by
  induction items with
  | nil => cases h
  | cons item items ih =>
    rcases mem_code_beside h with h | h
    · exact ⟨item, List.mem_cons_self, h⟩
    · obtain ⟨other, hother, hg⟩ := ih h
      exact ⟨other, List.mem_cons_of_mem _ hother, hg⟩

theorem mem_code_hole {form g : Value} (h : g ∈ (hole form).code) : g = form := List.mem_singleton.1 h

/-- Of forms that are all code, the code is these forms. -/
theorem mem_of_mem_code_all_hole {forms : List Value} {g : Value} (h : g ∈ (all hole forms).code) : g ∈ forms := by
  obtain ⟨form, hform, hg⟩ := mem_code_all h
  rwa [mem_code_hole hg]

namespace Value

/-- An item of a list is smaller than the list. -/
theorem size_lt_of_mem_heads {v x : Value} (h : x ∈ v.heads) : x.size < v.size := by
  fun_induction remainder v with
  | case1 head tail ih =>
    rw [heads_pair] at h
    rw [size]
    rcases List.mem_cons.1 h with rfl | h
    · omega
    · have := ih h
      omega
  | case2 v hv =>
    have hheads : v.heads = [] := by
      cases v with
      | pair head tail => exact absurd rfl (hv head tail)
      | _ => rfl
    rw [hheads] at h
    cases h

/-- An item is no larger than all items together. -/
theorem size_le_of_mem {xs : List Value} {x : Value} (h : x ∈ xs) : x.size ≤ sizeItems xs := by
  induction xs with
  | nil => cases h
  | cons y ys ih =>
    rw [sizeItems]
    rcases List.mem_cons.1 h with rfl | h
    · omega
    · have := ih h
      omega

/-- An entry is no larger than all entries together. -/
theorem size_le_of_mem_entries {es : List (Value × Value)} {e : Value × Value} (h : e ∈ es) :
    e.1.size + e.2.size ≤ sizeEntries es := by
  induction es with
  | nil => cases h
  | cons e' es ih =>
    obtain ⟨k, v⟩ := e'
    rw [sizeEntries]
    rcases List.mem_cons.1 h with rfl | h
    · simp
    · have := ih h
      omega

end Value

mutual

/-- The code in a template is smaller than the template. -/
theorem size_lt_of_mem_template (inTail : Bool) (level : Nat) (template : Value) :
    ∀ g ∈ (templateHoles inTail level template).code, g.size < template.size := by
  cases template with
  | pair h t =>
    by_cases hn : inTail = true ∨ ¬IsEscape (.pair h t)
    · have hh := size_lt_of_mem_template false level h
      have ht := size_lt_of_mem_template true level t
      intro g hg
      rw [templateHoles_pair hn] at hg
      rw [Value.size]
      rcases mem_code_beside hg with hg | hg
      · have := hh g hg
        omega
      · have := ht g hg
        omega
    · obtain ⟨rfl, s, arg, hw, hs⟩ : inTail = false ∧ IsEscape (.pair h t) := by simpa using hn
      obtain ⟨rfl, rfl⟩ := Value.pair.inj hw
      have harg := fun level' => size_lt_of_mem_template false level' arg
      have hsize := Value.size_lt_size_wrap s arg
      obtain ⟨inner, hinner, hcases⟩ := templateHoles_escape level hs
      intro g hg
      replace hg : g ∈ (inner arg).code := by
        rw [hw, hinner] at hg
        exact hg
      rcases hcases with rfl | ⟨level', rfl⟩
      · rw [mem_code_hole hg]
        exact hsize
      · exact Nat.lt_trans (harg level' g hg) hsize
  | vector xs | setForm xs =>
    have hxs := size_le_of_mem_templates level xs
    intro g hg
    rw [templateHoles] at hg
    rw [Value.size]
    exact Nat.lt_succ_of_le (hxs g hg)
  | mapForm es =>
    have hes := size_le_of_mem_templateEntries level es
    intro g hg
    rw [templateHoles] at hg
    rw [Value.size]
    exact Nat.lt_succ_of_le (hes g hg)
  | _ => simp [templateHoles, solid]
termination_by sizeOf template

/-- The code in the items of a template is no larger than all items together. -/
theorem size_le_of_mem_templates (level : Nat) (templates : List Value) :
    ∀ g ∈ (templatesHoles level templates).code, g.size ≤ Value.sizeItems templates := by
  cases templates with
  | nil => simp [templatesHoles, solid]
  | cons x xs =>
    have hx := size_lt_of_mem_template false level x
    have hxs := size_le_of_mem_templates level xs
    intro g hg
    rw [templatesHoles] at hg
    rw [Value.sizeItems]
    rcases mem_code_beside hg with hg | hg
    · have := hx g hg
      omega
    · have := hxs g hg
      omega
termination_by sizeOf templates

/-- The same of the entries of a template. -/
theorem size_le_of_mem_templateEntries (level : Nat) (templates : List (Value × Value)) :
    ∀ g ∈ (templateEntriesHoles level templates).code, g.size ≤ Value.sizeEntries templates := by
  cases templates with
  | nil => simp [templateEntriesHoles, solid]
  | cons e es =>
    obtain ⟨k, v⟩ := e
    have hk := size_lt_of_mem_template false level k
    have hv := size_lt_of_mem_template false level v
    have hes := size_le_of_mem_templateEntries level es
    intro g hg
    rw [templateEntriesHoles] at hg
    rw [Value.sizeEntries]
    rcases mem_code_beside hg with hg | hg
    · rcases mem_code_beside hg with hg | hg
      · have := hk g hg
        omega
      · have := hv g hg
        omega
    · have := hes g hg
      omega
termination_by sizeOf templates

end

/-- The code of a list is some of its items. -/
theorem mem_heads_of_mem_list {keep : Nat} {list g : Value} (hg : g ∈ (listHoles keep list).code) : g ∈ list.heads := by
  fun_induction listHoles keep list with
  | case1 h t ih =>
    rw [Value.heads_pair]
    rcases mem_code_beside hg with hg | hg
    · exact List.mem_cons.2 (.inl (mem_code_hole hg))
    · exact List.mem_cons_of_mem _ (ih hg)
  | case2 keep h t ih =>
    rw [Value.heads_pair]
    exact List.mem_cons_of_mem _ (ih hg)
  | case3 keep v hzero hsucc => cases hg

/-- So it is smaller than the list. -/
theorem size_lt_of_mem_list (keep : Nat) {list g : Value} (hg : g ∈ (listHoles keep list).code) : g.size < list.size :=
  Value.size_lt_of_mem_heads (mem_heads_of_mem_list hg)

theorem size_lt_of_mem_binding {binding g : Value} (hg : g ∈ (bindingHoles binding).code) : g.size < binding.size := by
  match h : binding.toList? with
  | some [name, form] =>
    simp only [bindingHoles, h] at hg
    apply Value.size_lt_of_mem_heads
    rw [Value.heads_eq_of_toList? h, mem_code_hole hg]
    simp
  | none | some [] | some [_] | some (_ :: _ :: _ :: _) =>
    simp only [bindingHoles, h] at hg
    cases hg

/-- The code in a `let` is smaller than the form. -/
theorem size_lt_of_mem_let {form g : Value} (hg : g ∈ (letHoles form).code) : g.size < form.size := by
  match h : form.toList? with
  | some (keyword :: target :: body) =>
    have hheads := Value.heads_eq_of_toList? h
    simp only [letHoles, h] at hg
    split_ifs at hg
    · exact size_lt_of_mem_list 2 hg
    · rcases mem_code_beside hg with hg | hg
      · obtain ⟨binding, hb, hg⟩ := mem_code_all hg
        have ht : target.size < form.size := Value.size_lt_of_mem_heads (by simp [hheads])
        exact Nat.lt_trans (Nat.lt_trans (size_lt_of_mem_binding hg) (Value.size_lt_of_mem_heads hb)) ht
      · exact Value.size_lt_of_mem_heads (by simp [hheads, mem_of_mem_code_all_hole hg])
    · cases hg
  | none | some [] | some [_] =>
    simp only [letHoles, h] at hg
    cases hg

theorem size_lt_of_mem_clause {clause g : Value} (hg : g ∈ (clauseHoles clause).code) : g.size < clause.size := by
  match h : clause.toList? with
  | some (pattern :: body) =>
    simp only [clauseHoles, h] at hg
    apply Value.size_lt_of_mem_heads
    rw [Value.heads_eq_of_toList? h]
    exact List.mem_cons_of_mem _ (mem_of_mem_code_all_hole hg)
  | none | some [] =>
    simp only [clauseHoles, h] at hg
    cases hg

/-- The code in a match is smaller than the form. -/
theorem size_lt_of_mem_match {form g : Value} (hg : g ∈ (matchHoles form).code) : g.size < form.size := by
  match h : form.toList? with
  | some (keyword :: scrutinee :: clauses) =>
    have hheads := Value.heads_eq_of_toList? h
    simp only [matchHoles, h] at hg
    rcases mem_code_beside hg with hg | hg
    · exact Value.size_lt_of_mem_heads (by simp [hheads, mem_code_hole hg])
    · obtain ⟨clause, hc, hg⟩ := mem_code_all hg
      exact Nat.lt_trans (size_lt_of_mem_clause hg) (Value.size_lt_of_mem_heads (by simp [hheads, hc]))
  | none | some [] | some [_] =>
    simp only [matchHoles, h] at hg
    cases hg

/-- The code in any special form is smaller than the form. -/
theorem size_lt_of_mem_special {special : SpecialForm} {form g : Value} (hg : g ∈ (specialHoles special form).code) :
    g.size < form.size := by
  cases special with
  | quote | typeForm | moduleForm | useForm => cases hg
  | quasiquote =>
    cases h : form.argumentOf? "quasiquote" with
    | some template =>
      simp only [specialHoles, h] at hg
      rw [Value.eq_wrap_of_argumentOf? h]
      exact Nat.lt_trans (size_lt_of_mem_template false 1 template g hg) (Value.size_lt_size_wrap "quasiquote" template)
    | none =>
      simp only [specialHoles, h] at hg
      cases hg
  | letForm | letMutable => exact size_lt_of_mem_let hg
  | matchForm => exact size_lt_of_mem_match hg
  | lambda | defineMacro => exact size_lt_of_mem_list 2 hg
  | _ => exact size_lt_of_mem_list 1 hg

/-- The forms in the code positions of a form are smaller than it. -/
theorem Value.size_lt_of_mem_code {form g : Value} (hg : g ∈ form.code) : g.size < form.size := by
  cases form with
  | pair head tail =>
    rcases special_or_call head with ⟨s, special, rfl, hs⟩ | hcall
    · rw [Value.code, holes_special hs] at hg
      exact size_lt_of_mem_special hg
    · rw [Value.code, holes_call hcall] at hg
      exact size_lt_of_mem_list 0 hg
  | vector items | setForm items =>
    have := size_le_of_mem (mem_of_mem_code_all_hole hg)
    rw [size]
    omega
  | mapForm entries =>
    obtain ⟨entry, hentry, hg⟩ := mem_code_all hg
    have := size_le_of_mem_entries hentry
    rw [size]
    rcases mem_code_beside hg with hg | hg
    · rw [mem_code_hole hg]
      omega
    · rw [mem_code_hole hg]
      omega
  | _ => cases hg

end Shapes

end MiniLisp
