import MiniLisp.Proofs.Records.Action

/-!
# Expansion keeps forms saturated

The code of a saturated form is saturated, and so is the form with other saturated code in its place (`holes_sound`). So the
expansion of a saturated form is saturated, as the macros that it runs are values of the heap (`expand_yields`).
-/

namespace MiniLisp

open Value (Saturated)
open MiniLisp.Action (Yields)

variable {α β : Type} {P : α → Prop} {Q : β → Prop} {eval : Evaluator}

/-- The code of a shape is saturated, and the shape filled with saturated forms has the property. -/
structure Holes.Sound (P : α → Prop) (a : Holes α) : Prop where
  code : AllSaturated a.code
  fill : ∀ forms, AllSaturated forms → P (a.fill forms)

namespace Holes.Sound

variable {γ : Type} {R : γ → Prop}

theorem solid {a : α} (h : P a) : Sound P (.solid a) := ⟨allSaturated_nil, fun _ _ => h⟩

theorem hole {form : Value} (h : form.Saturated) : Sound Saturated (.hole form) :=
  ⟨allSaturated_cons.2 ⟨h, allSaturated_nil⟩, fun _ hforms => hforms.headD⟩

/-- A sound thing is so inside another one. -/
theorem inside {a : Holes α} {f : α → β} (ha : a.Sound P) (hf : ∀ x, P x → Q (f x)) : (a.inside f).Sound Q :=
  ⟨ha.code, fun forms hforms => hf _ (ha.fill forms hforms)⟩

/-- Sound things are so beside each other. -/
theorem beside {a : Holes α} {b : Holes β} {f : α → β → γ} (ha : a.Sound P) (hb : b.Sound Q)
    (hf : ∀ x y, P x → Q y → R (f x y)) : (Holes.beside f a b).Sound R where
  code := allSaturated_append.2 ⟨ha.code, hb.code⟩
  fill forms hforms := by
    have htake : AllSaturated (forms.take a.code.length) := fun v hv => hforms v (List.mem_of_mem_take hv)
    have hdrop : AllSaturated (forms.drop a.code.length) := fun v hv => hforms v (List.mem_of_mem_drop hv)
    exact hf _ _ (ha.fill _ htake) (hb.fill _ hdrop)

/-- Several sound things are sound. -/
theorem all {holes : β → Holes α} {items : List β} (h : ∀ x ∈ items, (holes x).Sound P) :
    (Holes.all holes items).Sound fun found => ∀ x ∈ found, P x := by
  induction items with
  | nil => exact solid nofun
  | cons x xs ih =>
    obtain ⟨hx, hxs⟩ := List.forall_mem_cons.1 h
    exact hx.beside (ih hxs) fun y ys hy hys => List.forall_mem_cons.2 ⟨hy, hys⟩

/-- Forms that are all code. -/
theorem forms {forms : List Value} (h : AllSaturated forms) : (Holes.all .hole forms).Sound AllSaturated :=
  all fun form hform => hole (h form hform)

end Holes.Sound

section Shapes

open Holes

/-- Saturated templates have sound shapes. -/
theorem templatesHoles_sound {level : Nat} {templates : List Value}
    (h : ∀ x ∈ templates, (templateHoles false level x).Sound Saturated) :
    (templatesHoles level templates).Sound AllSaturated := by
  induction templates with
  | nil => exact .solid allSaturated_nil
  | cons x xs ih =>
    obtain ⟨hx, hxs⟩ := List.forall_mem_cons.1 h
    exact hx.beside (ih hxs) fun y ys hy hys => allSaturated_cons.2 ⟨hy, hys⟩

/-- So have the entries of a saturated template. -/
theorem templateEntriesHoles_sound {level : Nat} {templates : List (Value × Value)}
    (hk : ∀ e ∈ templates, (templateHoles false level e.1).Sound Saturated)
    (hv : ∀ e ∈ templates, (templateHoles false level e.2).Sound Saturated) :
    (templateEntriesHoles level templates).Sound EntriesSaturated := by
  induction templates with
  | nil => exact .solid nofun
  | cons e es ih =>
    obtain ⟨hk, hks⟩ := List.forall_mem_cons.1 hk
    obtain ⟨hv, hvs⟩ := List.forall_mem_cons.1 hv
    have hentry : (beside Prod.mk (templateHoles false level e.1) (templateHoles false level e.2)).Sound
        fun e => e.1.Saturated ∧ e.2.Saturated := hk.beside hv fun _ _ hx hy => ⟨hx, hy⟩
    exact hentry.beside (ih hks hvs) fun _ _ he hes => List.forall_mem_cons.2 ⟨he, hes⟩

/-- The code of a saturated template is saturated. As for its instances, the induction speaks of the argument of a mark too. -/
theorem templateHoles_sound_parts {template : Value} (h : template.Saturated) :
    (∀ inTail level, (templateHoles inTail level template).Sound Saturated) ∧
      ∀ arg, template = .pair arg .nil → ∀ level, (templateHoles false level arg).Sound Saturated := by
  have hsolid {v : Value} (hv : ∀ inTail level, templateHoles inTail level v = solid v) (hs : v.Saturated)
      (hpair : ∀ arg, v ≠ .pair arg .nil) :
      (∀ inTail level, (templateHoles inTail level v).Sound Saturated) ∧
        ∀ arg, v = .pair arg .nil → ∀ level, (templateHoles false level arg).Sound Saturated := by
    refine ⟨fun inTail level => ?_, fun arg harg => absurd harg (hpair arg)⟩
    rw [hv]
    exact .solid hs
  induction h with
  | @pair head tail hh ht ihh iht =>
    refine ⟨fun inTail level => ?_, ?_⟩
    · by_cases hn : inTail = true ∨ ¬IsEscape (.pair head tail)
      · rw [templateHoles_pair hn]
        exact (ihh.1 false level).beside (iht.1 true level) fun _ _ hx hy => .pair hx hy
      · obtain ⟨rfl, s, arg, hw, hs⟩ : inTail = false ∧ IsEscape (.pair head tail) := by simpa using hn
        obtain ⟨rfl, rfl⟩ := Value.pair.inj hw
        have harg := (Value.saturated_pair.1 ht).1
        obtain ⟨inner, hinner, rfl | ⟨level', rfl⟩⟩ := templateHoles_escape level hs
        · rw [hw, hinner]
          exact (Holes.Sound.hole harg).inside fun _ hv => hv.wrap s
        · rw [hw, hinner]
          exact (iht.2 arg rfl level').inside fun _ hv => hv.wrap s
    · rintro arg ⟨⟩
      exact ihh.1 false
  | vector _ ih =>
    refine ⟨fun inTail level => ?_, nofun⟩
    rw [templateHoles]
    exact (templatesHoles_sound fun x hx => (ih x hx).1 false level).inside fun _ h => .vector h
  | setForm _ ih =>
    refine ⟨fun inTail level => ?_, nofun⟩
    rw [templateHoles]
    exact (templatesHoles_sound fun x hx => (ih x hx).1 false level).inside fun _ h => .setForm h
  | mapForm _ _ ihk ihv =>
    refine ⟨fun inTail level => ?_, nofun⟩
    rw [templateHoles]
    exact (templateEntriesHoles_sound (fun e he => (ihk e he).1 false level) fun e he => (ihv e he).1 false level).inside
      fun _ h => .formOf h
  | set hs => exact hsolid (by simp [templateHoles]) (.set hs) nofun
  | map hkeys hvalues => exact hsolid (by simp [templateHoles]) (.map hkeys hvalues) nofun
  | closure hbody => exact hsolid (templateHoles_atom rfl) (.closure hbody) nofun
  | macroFn hbody => exact hsolid (templateHoles_atom rfl) (.macroFn hbody) nofun
  | record hlength hvalues => exact hsolid (templateHoles_atom rfl) (.record hlength hvalues) nofun
  | nil | bool | num | str | sym | native | module | constructor =>
    exact hsolid (templateHoles_atom rfl) (by constructor) nofun

/-- A saturated list has a sound shape. -/
theorem listHoles_sound (keep : Nat) {list : Value} (h : list.Saturated) : (listHoles keep list).Sound Saturated := by
  fun_induction listHoles keep list with
  | case1 head tail ih =>
    obtain ⟨hh, ht⟩ := Value.saturated_pair.1 h
    exact (Holes.Sound.hole hh).beside (ih ht) fun _ _ hx hy => .pair hx hy
  | case2 keep head tail ih =>
    obtain ⟨hh, ht⟩ := Value.saturated_pair.1 h
    exact (ih ht).inside fun _ hx => .pair hh hx
  | case3 => exact .solid h

theorem bindingHoles_sound {binding : Value} (h : binding.Saturated) : (bindingHoles binding).Sound Saturated := by
  unfold bindingHoles
  split
  · rename_i name form hl
    obtain ⟨hname, hform⟩ := allSaturated_cons.1 (h.toList hl)
    refine (Holes.Sound.hole (hform form List.mem_cons_self)).inside fun _ hx => .list ?_
    exact allSaturated_cons.2 ⟨hname, allSaturated_cons.2 ⟨hx, allSaturated_nil⟩⟩
  · exact .solid h

/-- A saturated `let` has a sound shape. -/
theorem letHoles_sound {form : Value} (h : form.Saturated) : (letHoles form).Sound Saturated := by
  unfold letHoles
  split
  · rename_i keyword target body hl
    obtain ⟨hkeyword, htarget⟩ := allSaturated_cons.1 (h.toList hl)
    obtain ⟨htarget, hbody⟩ := allSaturated_cons.1 htarget
    split
    · exact listHoles_sound 2 h
    · split
      · have hbindings : (all bindingHoles target.heads).Sound AllSaturated :=
          .all fun binding hb => bindingHoles_sound (htarget.heads binding hb)
        refine hbindings.beside (.forms hbody) fun bindings forms hbs hfs => .list ?_
        exact allSaturated_cons.2 ⟨hkeyword, allSaturated_cons.2 ⟨.list hbs, hfs⟩⟩
      · exact .solid h
  · exact .solid h

theorem clauseHoles_sound {clause : Value} (h : clause.Saturated) : (clauseHoles clause).Sound Saturated := by
  unfold clauseHoles
  split
  · rename_i pattern body hl
    obtain ⟨hpattern, hbody⟩ := allSaturated_cons.1 (h.toList hl)
    exact (Holes.Sound.forms hbody).inside fun _ hfs => .list (allSaturated_cons.2 ⟨hpattern, hfs⟩)
  · exact .solid h

/-- A saturated match has a sound shape. -/
theorem matchHoles_sound {form : Value} (h : form.Saturated) : (matchHoles form).Sound Saturated := by
  unfold matchHoles
  split
  · rename_i keyword scrutinee clauses hl
    obtain ⟨hkeyword, hrest⟩ := allSaturated_cons.1 (h.toList hl)
    obtain ⟨hscrutinee, hclauses⟩ := allSaturated_cons.1 hrest
    have hall : (all clauseHoles clauses).Sound AllSaturated := .all fun clause hc => clauseHoles_sound (hclauses clause hc)
    refine (Holes.Sound.hole hscrutinee).beside hall fun first rest hfirst hrest => .list ?_
    exact allSaturated_cons.2 ⟨hkeyword, allSaturated_cons.2 ⟨hfirst, hrest⟩⟩
  · exact .solid h

/-- So every saturated special form has a sound shape. -/
theorem specialHoles_sound (special : SpecialForm) {form : Value} (h : form.Saturated) :
    (specialHoles special form).Sound Saturated := by
  cases special with
  | quote => exact .solid h.toDatum
  | typeForm | moduleForm | useForm => exact .solid h
  | quasiquote =>
    unfold specialHoles
    simp only
    split
    · rename_i template ht
      exact ((templateHoles_sound_parts (h.argumentOf ht)).1 false 1).inside fun _ hv => hv.wrap "quasiquote"
    · exact .solid h
  | lambda | defineMacro => exact listHoles_sound 2 h
  | letForm | letMutable => exact letHoles_sound h
  | matchForm => exact matchHoles_sound h
  | _ => exact listHoles_sound 1 h

/-- The code of a saturated form is saturated, and filled with saturated code the form is. -/
theorem holes_sound {form : Value} (h : form.Saturated) : form.holes.Sound Saturated := by
  unfold Value.holes
  split
  · split
    · exact specialHoles_sound _ h
    · exact listHoles_sound 0 h
  · exact listHoles_sound 0 h
  · exact (Holes.Sound.forms h.of_vector).inside fun _ hitems => .vector hitems
  · exact (Holes.Sound.forms h.of_setForm).inside fun _ hitems => .setForm hitems
  · rename_i entries
    have hentry : ∀ e ∈ entries, (entryHoles e).Sound fun e => e.1.Saturated ∧ e.2.Saturated := by
      intro e he
      obtain ⟨hk, hv⟩ := h.of_mapForm e he
      exact (Holes.Sound.hole hk).beside (.hole hv) fun _ _ hx hy => ⟨hx, hy⟩
    exact (Holes.Sound.all hentry).inside fun _ hes => .formOf hes
  · exact .solid h

end Shapes

section Visit

variable {visit : Value → Action Value} (hv : ∀ form, form.Saturated → (visit form).Yields Saturated)

include hv

/-- Visits of saturated forms give saturated forms. -/
theorem visitAll_yields {forms : List Value} (h : AllSaturated forms) : (visitAll visit forms).Yields AllSaturated := by
  induction forms with
  | nil => exact .value allSaturated_nil
  | cons form forms ih =>
    obtain ⟨hform, hforms⟩ := allSaturated_cons.1 h
    exact (hv form hform).bind fun first hfirst => (ih hforms).returning fun rest hrest => allSaturated_cons.2 ⟨hfirst, hrest⟩

/-- Visiting the code of a saturated form gives a saturated form. -/
theorem expandChildren_yields {form : Value} (h : form.Saturated) : (expandChildren visit form).Yields Saturated := by
  rw [expandChildren_eq]
  exact (visitAll_yields hv (holes_sound h).code).returning (holes_sound h).fill

end Visit

/-- A macro that a form calls is a value of the heap. -/
theorem macroAtHead?_saturated {m : Machine} (hm : m.heap.Saturated) {env : Env} {form : Value} {f : Lambda Value}
    (h : m.macroAtHead? env form = some f) : AllSaturated f.body := by
  have hmacro {v : Value} (hv : v.Saturated) (hf : v.asMacro? = some f) : AllSaturated f.body := by
    unfold Value.asMacro? at hf
    split at hf
    · cases hf
      exact hv.of_macroFn
    · cases hf
  unfold Machine.macroAtHead? at h
  split at h
  · split at h
    · cases h
    · obtain ⟨v, hv, hf⟩ := Option.bind_eq_some_iff.1 h
      exact hmacro (hm.lookup hv) hf
  · obtain ⟨⟨module, member⟩, -, h⟩ := Option.bind_eq_some_iff.1 h
    simp only at h
    split at h
    · cases h
    · obtain ⟨home, -, h⟩ := Option.bind_eq_some_iff.1 h
      obtain ⟨v, hv, hf⟩ := Option.bind_eq_some_iff.1 h
      exact hmacro (hm.lookupLocal hv) hf
  · cases h

/-- The arguments of a saturated call are saturated. -/
theorem macroArguments_gives (f : Lambda Value) {form : Value} (h : form.Saturated) :
    GivesOnly AllSaturated (macroArguments f form) := by
  unfold macroArguments
  split
  · obtain ⟨-, hargs⟩ := Value.saturated_pair.1 h
    split
    · rename_i items hl
      exact .value (hargs.toList hl)
    · exact .failure _
  · exact .failure _

/-- What replaces a saturated form is saturated. -/
theorem replaceHead_yields (he : eval.Yields) (env : Env) (limit : Nat) (replaced : Bool) (remaining : Nat) {form : Value}
    (h : form.Saturated) : (replaceHead eval env limit replaced remaining form).Yields fun r => r.1.Saturated := by
  induction remaining generalizing replaced form with
  | zero =>
    unfold replaceHead
    refine (Yields.ask (P := fun found => ∀ f, found = some f → AllSaturated f.body) fun m hm f hf =>
      macroAtHead?_saturated hm hf).bind fun found _ => ?_
    cases found with
    | none => exact .value h
    | some f => exact .fail _
  | succ remaining ih =>
    unfold replaceHead
    refine (Yields.ask (P := fun found => ∀ f, found = some f → AllSaturated f.body) fun m hm f hf =>
      macroAtHead?_saturated hm hf).bind fun found hfound => ?_
    cases found with
    | none => exact .value h
    | some f =>
      exact (Yields.ofExcept (macroArguments_gives f h)).bind fun args hargs =>
        (expandCall_yields he (hfound f rfl) hargs).bind fun form hform => ih true hform

/-- So is what it is expanded to at one level, if it is so one level further in. -/
theorem expandWithin_yields (he : eval.Yields) (env : Env) (limit : Nat) {deeper : Value → Action Value}
    (hd : ∀ form, form.Saturated → (deeper form).Yields Saturated) (rank : Nat) {form : Value} (h : form.Saturated) :
    (expandWithin eval env limit deeper rank form).Yields Saturated := by
  induction rank generalizing form with
  | zero => exact .abort .outOfFuel
  | succ rank ih =>
    refine (replaceHead_yields he env limit false limit h).bind ?_
    rintro ⟨form, replaced⟩ hform
    cases replaced with
    | true => exact expandChildren_yields hd hform
    | false => exact expandChildren_yields (fun form hform => ih hform) hform

/-- So it is at all levels. -/
theorem expandLevel_yields (he : eval.Yields) (env : Env) (limit levels : Nat) {form : Value} (h : form.Saturated) :
    (expandLevel eval env limit levels form).Yields Saturated := by
  induction levels generalizing form with
  | zero => exact .fail _
  | succ levels ih => exact expandWithin_yields he env limit (fun form hform => ih hform) form.size h

/-- Saturated forms are expanded to saturated forms. -/
theorem expand_yields (he : eval.Yields) (env : Env) {form : Value} (h : form.Saturated) :
    (expand eval form env).Yields Saturated :=
  (Yields.ask (P := fun _ => True) fun _ _ => trivial).bind fun limit _ => expandLevel_yields he env limit (limit + 1) h

end MiniLisp
