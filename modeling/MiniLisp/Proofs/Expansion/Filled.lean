import MiniLisp.Proofs.Expansion.Code

/-!
# The code of a filled form

A form whose code was replaced has the same shape as before, and what was put in is its code (`Value.holes_fill`). For that, no
head of a call may have become another symbol, which might make a special form of the list. So no bare name may come up where
another form was (`Value.Keeps`); where qualified names count as well, none of the forms that name something (`Value.IsName`) may.
-/

namespace MiniLisp

namespace Value

mutual

/-- Quoted data are data already. -/
theorem toDatum_toDatum (v : Value) : v.toDatum.toDatum = v.toDatum := by
  cases v with
  | pair h t => simp [toDatum, toDatum_toDatum h, toDatum_toDatum t]
  | vector xs => simp [toDatum, toData_toData xs]
  | _ => simp [toDatum]

theorem toData_toData (xs : List Value) : toData (toData xs) = toData xs := by
  cases xs with
  | nil => rfl
  | cons x xs => simp [toData, toDatum_toDatum x, toData_toData xs]

end

end Value

section Filled

open Holes

/-- The values that a template keeps as they are. -/
theorem eq_of_templateHoles_fill {inTail : Bool} {level : Nat} {template v : Value} {code : List Value}
    (hv : v = .nil ∨ ∃ s, v = .sym s) (h : (templateHoles inTail level template).fill code = v) : template = v := by
  cases template with
  | pair head tail =>
    have hpair : ∃ a b, (templateHoles inTail level (.pair head tail)).fill code = .pair a b := by
      unfold templateHoles
      split
      · split_ifs <;> exact ⟨_, _, rfl⟩
      all_goals simp_all [beside]
    obtain ⟨a, b, hpair⟩ := hpair
    rw [hpair] at h
    rcases hv with rfl | ⟨s, rfl⟩ <;> cases h
  | vector | setForm | mapForm =>
    rw [templateHoles] at h
    rcases hv with rfl | ⟨s, rfl⟩ <;> cases h
  | _ => simpa [templateHoles, solid] using h

/-- No list becomes a form that changes the level. -/
theorem isEscape_of_fill {level : Nat} {h t : Value} {as bs : List Value}
    (he : IsEscape (.pair ((templateHoles false level h).fill as) ((templateHoles true level t).fill bs))) :
    IsEscape (.pair h t) := by
  obtain ⟨s, arg, hw, hs⟩ := he
  obtain ⟨hhead, htail⟩ : (templateHoles false level h).fill as = .sym s ∧
      (templateHoles true level t).fill bs = .pair arg .nil := by
    simpa [Value.wrap, Value.list, Value.listWithTail] using hw
  have hh := eq_of_templateHoles_fill (.inr ⟨s, rfl⟩) hhead
  cases t with
  | pair arg' rest =>
    rw [templateHoles_pair (.inl rfl)] at htail
    obtain ⟨-, hrest⟩ := Value.pair.inj htail
    have hr := eq_of_templateHoles_fill (.inl rfl) hrest
    exact ⟨s, arg', by rw [hh, hr]; rfl, hs⟩
  | _ => simp [templateHoles, solid, inside] at htail

/-- A template beside a template is found again if it is so for both. -/
theorem stable_templatePair {inTail : Bool} {level : Nat} {h t : Value} (hn : inTail = true ∨ ¬IsEscape (.pair h t))
    (hh : Stable (templateHoles false level) h) (ht : Stable (templateHoles true level) t) :
    Stable (templateHoles inTail level) (.pair h t) :=
  .of_beside (templateHoles_pair hn level)
    (fun _ _ => templateHoles_pair (hn.imp_right fun hn he => hn (isEscape_of_fill he)) level) hh ht

mutual

/-- A template that is filled has its code in the same places. -/
theorem stable_template (inTail : Bool) (level : Nat) (template : Value) : Stable (templateHoles inTail level) template := by
  cases template with
  | pair h t =>
    by_cases hn : inTail = true ∨ ¬IsEscape (.pair h t)
    · exact stable_templatePair hn (stable_template false level h) (stable_template true level t)
    · obtain ⟨rfl, s, arg, hw, hs⟩ : inTail = false ∧ IsEscape (.pair h t) := by simpa using hn
      obtain ⟨rfl, rfl⟩ := Value.pair.inj hw
      have harg := fun level' => stable_template false level' arg
      obtain ⟨inner, hw, rfl | ⟨level', rfl⟩⟩ := templateHoles_escape level hs
      · exact .of_inside (hw arg) (fun _ => hw _) (stable_hole arg)
      · exact .of_inside (hw arg) (fun _ => hw _) (harg level')
  | vector xs | setForm xs =>
    exact .of_inside (by rw [templateHoles]) (fun _ => by rw [templateHoles]) (stable_templates level xs)
  | mapForm es =>
    exact .of_inside (by rw [templateHoles]) (fun _ => by rw [templateHoles]) (stable_templateEntries level es)
  | _ => exact .of_no_code (by simp [templateHoles])
termination_by sizeOf template

/-- So have the items of a template. -/
theorem stable_templates (level : Nat) (templates : List Value) : Stable (templatesHoles level) templates := by
  cases templates with
  | nil => exact .of_no_code (by rw [templatesHoles])
  | cons x xs =>
    exact .of_beside (by rw [templatesHoles]) (fun _ _ => by rw [templatesHoles]) (stable_template false level x)
      (stable_templates level xs)
termination_by sizeOf templates

/-- So have the entries of a template. -/
theorem stable_templateEntries (level : Nat) (templates : List (Value × Value)) :
    Stable (templateEntriesHoles level) templates := by
  cases templates with
  | nil => exact .of_no_code (by rw [templateEntriesHoles])
  | cons e es =>
    obtain ⟨k, v⟩ := e
    have hentry : Stable (fun e : Value × Value => beside .mk (templateHoles false level e.1) (templateHoles false level e.2))
        (k, v) :=
      .of_beside rfl (fun _ _ => rfl) (stable_template false level k) (stable_template false level v)
    exact .of_beside (by rw [templateEntriesHoles]) (fun _ _ => by rw [templateEntriesHoles]) hentry
      (stable_templateEntries level es)
termination_by sizeOf templates

end

/-- A list that is filled is a list with as many items. -/
theorem stable_list (keep : Nat) (list : Value) : Stable (listHoles keep) list := by
  fun_induction listHoles keep list with
  | case1 h t ih => exact .of_beside rfl (fun _ _ => rfl) (stable_hole h) ih
  | case2 keep h t ih => exact .of_inside rfl (fun _ => rfl) ih
  | case3 keep v hzero hsucc => exact .of_no_code (listHoles.eq_3 keep v hzero hsucc)

/-- What a list ends in is kept. -/
theorem remainder_listHoles_fill (keep : Nat) (list : Value) (code : List Value) :
    ((listHoles keep list).fill code).remainder = list.remainder := by
  fun_induction listHoles keep list generalizing code with
  | case1 h t ih => exact ih _
  | case2 keep h t ih => exact ih _
  | case3 keep v hzero hsucc => rfl

/-- A binding that is filled is a binding of the same name. -/
theorem stable_binding (binding : Value) : Stable bindingHoles binding := by
  match h : binding.toList? with
  | some [name, form] =>
    have hb : bindingHoles binding = (hole form).inside fun form => .list [name, form] := by simp only [bindingHoles, h]
    exact .of_inside hb (fun _ => by simp [bindingHoles]) (stable_hole form)
  | none | some [] | some [_] | some (_ :: _ :: _ :: _) => exact .of_no_code (by simp only [bindingHoles, h])

/-- A binding stays what it is, unless it is a list. -/
theorem eq_of_bindingHoles_fill {binding : Value} {code : List Value} {s : Symbol}
    (h : (bindingHoles binding).fill code = .sym s) : binding = .sym s := by
  match hl : binding.toList? with
  | some [name, form] =>
    simp only [bindingHoles, hl] at h
    cases h
  | none | some [] | some [_] | some (_ :: _ :: _ :: _) => simpa [bindingHoles, hl, solid] using h

/-- A block of bindings does not become the signature of a function. -/
theorem isSignature_bindings_fill {target : Value} (h : target.isSignature = false) (code : List Value) :
    (Value.list ((all bindingHoles target.heads).fill code)).isSignature = false := by
  cases target with
  | pair head tail =>
    rw [Value.heads_pair]
    show Value.isSignature (.pair ((bindingHoles head).fill _) _) = false
    cases hb : (bindingHoles head).fill (code.take (bindingHoles head).code.length) with
    | sym s =>
      rw [eq_of_bindingHoles_fill hb] at h
      cases h
    | _ => rfl
  | _ => rfl

/-- A proper `let` with a signature has the shape of a function. -/
theorem letHoles_signature {keyword target rest : Value} (hs : target.isSignature = true) (hr : rest.remainder = .nil) :
    letHoles (.pair keyword (.pair target rest)) = listHoles 2 (.pair keyword (.pair target rest)) := by
  simp [letHoles, Value.toList?, Value.remainder, hr, hs]

/-- A `let` that is filled is a `let` of the same kind. -/
theorem stable_let (form : Value) : Stable letHoles form := by
  match h : form.toList? with
  | some (keyword :: target :: body) =>
    have hf : form = .pair keyword (.pair target (.list body)) := Value.eq_list_of_toList? h
    by_cases hs : target.isSignature = true
    · have hr : (Value.list body).remainder = .nil := Value.remainder_listWithTail body .nil
      intro code hlen
      rw [hf, letHoles_signature hs hr] at hlen ⊢
      have hfill : (listHoles 2 (.pair keyword (.pair target (.list body)))).fill code =
          .pair keyword (.pair target ((listHoles 0 (.list body)).fill code)) := rfl
      -- Neither the keyword nor the signature is code, and the list ends as before: it is the same kind of `let`.
      rw [hfill, letHoles_signature hs ((remainder_listHoles_fill 0 _ code).trans hr), ← hfill]
      exact stable_list 2 _ code hlen
    · by_cases hl : target.isList = true
      · have hb : letHoles form = beside (fun bindings forms => .list (keyword :: .list bindings :: forms))
            (all bindingHoles target.heads) (all hole body) := by
          simp [letHoles, h, hs, hl]
        refine .of_beside hb (fun as bs => ?_) (stable_all fun binding _ => stable_binding binding) (stable_all_hole body)
        simp [letHoles, isSignature_bindings_fill (by simpa using hs) as]
      · exact .of_no_code (by simp [letHoles, h, hs, hl])
  | none | some [] | some [_] => exact .of_no_code (by simp only [letHoles, h])

/-- A clause that is filled keeps its pattern. -/
theorem stable_clause (clause : Value) : Stable clauseHoles clause := by
  match h : clause.toList? with
  | some (pattern :: body) =>
    have hc : clauseHoles clause = (all hole body).inside fun forms => .list (pattern :: forms) := by
      simp only [clauseHoles, h]
    exact .of_inside hc (fun _ => by simp [clauseHoles]) (stable_all_hole body)
  | none | some [] => exact .of_no_code (by simp only [clauseHoles, h])

/-- A match that is filled has as many clauses. -/
theorem stable_match (form : Value) : Stable matchHoles form := by
  match h : form.toList? with
  | some (keyword :: scrutinee :: clauses) =>
    have hf : matchHoles form =
        beside (fun first rest => .list (keyword :: first :: rest)) (hole scrutinee) (all clauseHoles clauses) := by
      simp only [matchHoles, h]
    exact .of_beside hf (fun _ _ => by simp [matchHoles]) (stable_hole scrutinee)
      (stable_all fun clause _ => stable_clause clause)
  | none | some [] | some [_] => exact .of_no_code (by simp only [matchHoles, h])

/-- So every special form keeps its shape when it is filled. -/
theorem stable_special (special : SpecialForm) (form : Value) : Stable (specialHoles special) form := by
  cases special with
  | quote => exact .of_solid rfl (by rw [specialHoles, Value.toDatum_toDatum])
  | typeForm | moduleForm | useForm => exact .of_no_code rfl
  | quasiquote =>
    cases h : form.argumentOf? "quasiquote" with
    | some template =>
      have hf : specialHoles .quasiquote form = (templateHoles false 1 template).inside (.wrap "quasiquote") := by
        simp only [specialHoles, h]
      exact .of_inside hf (fun _ => rfl) (stable_template false 1 template)
    | none => exact .of_no_code (by simp only [specialHoles, h])
  | lambda | defineMacro => exact stable_list 2 form
  | letForm | letMutable => exact stable_let form
  | matchForm => exact stable_match form
  | _ => exact stable_list 1 form

/-- A `let` that is filled keeps its keyword. -/
theorem letHoles_fill_head (s : Symbol) (t : Value) (code : List Value) :
    ∃ t', (letHoles (.pair (.sym s) t)).fill code = .pair (.sym s) t' := by
  match h : (Value.pair (.sym s) t).toList? with
  | some (keyword :: target :: body) =>
    obtain ⟨rfl, -⟩ := Value.pair.inj (Value.eq_list_of_toList? h)
    simp only [letHoles, h]
    split_ifs
    · exact ⟨_, rfl⟩
    · exact ⟨_, rfl⟩
    · exact ⟨t, rfl⟩
  | none | some [] | some [_] => exact ⟨t, by simp only [letHoles, h]; rfl⟩

/-- A match that is filled keeps its keyword. -/
theorem matchHoles_fill_head (s : Symbol) (t : Value) (code : List Value) :
    ∃ t', (matchHoles (.pair (.sym s) t)).fill code = .pair (.sym s) t' := by
  match h : (Value.pair (.sym s) t).toList? with
  | some (keyword :: scrutinee :: clauses) =>
    obtain ⟨rfl, -⟩ := Value.pair.inj (Value.eq_list_of_toList? h)
    simp only [matchHoles, h]
    exact ⟨_, rfl⟩
  | none | some [] | some [_] => exact ⟨t, by simp only [matchHoles, h]; rfl⟩

/-- The keyword of a special form is no code. -/
theorem specialHoles_fill_head (special : SpecialForm) (s : Symbol) (t : Value) (code : List Value) :
    ∃ t', (specialHoles special (.pair (.sym s) t)).fill code = .pair (.sym s) t' := by
  cases special with
  | quote => exact ⟨t.toDatum, by simp [specialHoles, solid, Value.toDatum]⟩
  | quasiquote =>
    cases h : (Value.pair (.sym s) t).argumentOf? "quasiquote" with
    | some template =>
      obtain ⟨hs, -⟩ := Value.pair.inj (Value.eq_wrap_of_argumentOf? h)
      cases hs
      simp only [specialHoles, h]
      exact ⟨_, rfl⟩
    | none => exact ⟨t, by simp only [specialHoles, h]; rfl⟩
  | letForm | letMutable => exact letHoles_fill_head s t code
  | matchForm => exact matchHoles_fill_head s t code
  | _ => exact ⟨_, rfl⟩

theorem stable_entry (entry : Value × Value) : Stable entryHoles entry :=
  .of_beside rfl (fun _ _ => rfl) (stable_hole entry.1) (stable_hole entry.2)

namespace Value

/-- The forms that name something, and the quoted symbols that stand in them: with one of these as its head, or in its head, a
list may call a macro. -/
inductive IsName : Value → Prop where
  | symbol (s : Symbol) : IsName (.sym s)
  | quoted (s : Symbol) : IsName (.wrap "quote" (.sym s))
  | member (module s : Symbol) : IsName (.list [.sym ".", .sym module, .wrap "quote" (.sym s)])

/-- The forms that are a bare name. -/
inductive IsSymbol : Value → Prop where
  | symbol (s : Symbol) : IsSymbol (.sym s)

theorem IsSymbol.isName {v : Value} (h : v.IsSymbol) : v.IsName := by
  cases h with
  | symbol s => exact .symbol s

/-- A form that becomes one of these names was that name before. -/
def Keeps (names : Value → Prop) (form result : Value) : Prop := names result → result = form

section Keeps

variable {names names' : Value → Prop} {a b c : Value}

theorem Keeps.trans (h : a.Keeps names b) (h' : b.Keeps names c) : a.Keeps names c := by
  intro hname
  have hb := h' hname
  rw [hb] at hname ⊢
  exact h hname

theorem Keeps.mono (hsub : ∀ v, names v → names' v) (h : a.Keeps names' b) : a.Keeps names b :=
  fun hname => h (hsub b hname)

/-- A head that names no special form does not come to name one. -/
theorem IsCallee.of_keeps {head head' : Value} (h : head.IsCallee) (hk : head.Keeps IsSymbol head') : head'.IsCallee := by
  rintro s rfl
  exact h s (hk (.symbol s)).symm

end Keeps

/-- A filled form has the same shape, with what it was filled with as its code. -/
theorem holes_fill {form : Value} {code : List Value} (hk : List.Forall₂ (Keeps IsSymbol) form.code code) :
    (form.holes.fill code).holes = form.holes.withCode code := by
  have hlen : code.length = form.holes.code.length := hk.length_eq.symm
  cases form with
  | pair head tail =>
    rcases special_or_call head with ⟨s, special, rfl, hs⟩ | hcall
    · rw [holes_special hs] at hlen ⊢
      rw [← stable_special special _ code hlen]
      obtain ⟨t', ht'⟩ := specialHoles_fill_head special s tail code
      rw [ht', holes_special hs]
    · rw [Value.code, holes_call hcall] at hk
      obtain ⟨head', code', hhead, htail, rfl⟩ := List.forall₂_cons_left_iff.1 hk
      have hfill : (beside pair (hole head) (listHoles 0 tail)).fill (head' :: code') =
          pair head' ((listHoles 0 tail).fill code') := rfl
      rw [holes_call hcall, hfill, holes_call (hcall.of_keeps hhead), stable_list 0 tail code' htail.length_eq.symm]
      rfl
  | vector items =>
    have hstable : Stable holes (vector items) := .of_inside rfl (fun _ => rfl) (stable_all_hole items)
    exact hstable code hlen
  | setForm items =>
    have hstable : Stable holes (setForm items) := .of_inside rfl (fun _ => rfl) (stable_all_hole items)
    exact hstable code hlen
  | mapForm entries =>
    have hstable : Stable holes (mapForm entries) :=
      .of_inside rfl (fun _ => rfl) (stable_all fun entry _ => stable_entry entry)
    exact hstable code hlen
  | _ =>
    cases List.length_eq_zero_iff.1 hlen
    rfl

end Value

end Filled

end MiniLisp
