import MiniLisp.Proofs.Reader.Written
import MiniLisp.Proofs.Template.Inert

/-!
# Templates inside templates

A template that unquotes nothing at its own level is copied without evaluating anything, and each template inside it stands in
the copy where it stood (`inner_templates_kept`). The copy of an inner template is the inner template, unless one of its unquotes
leads back to level one and a set or map form stands there: then the copy has the set or map in its place, in which a repeated
element is kept once (`inner_form_not_kept`).
-/

namespace MiniLisp

/-! ## Forms at level one -/

/-- The level of what a form holds that changes the level. -/
def levelInside (mark : Symbol) (level : Nat) : Nat := if mark = "quasiquote" then level + 1 else level - 1

mutual

/-- Whether a set or map form stands at level one in a template of a level. -/
def formAtOne (inTail : Bool) (level : Nat) : Value → Bool
  | .pair (.sym s) (.pair arg .nil) =>
    if inTail = false ∧ ((s = "unquote" ∨ s = "unquote-splicing") ∨ s = "quasiquote") then
      formAtOne false (levelInside s level) arg
    else formAtOne true level (.pair arg .nil)
  | .pair h t => formAtOne false level h || formAtOne true level t
  | .vector xs => formAtOneIn level xs
  | .setForm xs => level == 1 || formAtOneIn level xs
  | .mapForm es => level == 1 || formAtOneInEntries level es
  | _ => false

/-- Whether one stands there in one of several templates. -/
def formAtOneIn (level : Nat) : List Value → Bool
  | [] => false
  | x :: xs => formAtOne false level x || formAtOneIn level xs

/-- Whether one stands there in a key or value of a map form. -/
def formAtOneInEntries (level : Nat) : List (Value × Value) → Bool
  | [] => false
  | (k, v) :: es => formAtOne false level k || formAtOne false level v || formAtOneInEntries level es

end

mutual

/-- A template of a level with the sets and maps in place of its set and map forms at level one. -/
def settled (inTail : Bool) (level : Nat) : Value → Value
  | .pair (.sym s) (.pair arg .nil) =>
    if inTail = false ∧ ((s = "unquote" ∨ s = "unquote-splicing") ∨ s = "quasiquote") then
      .wrap s (settled false (levelInside s level) arg)
    else .pair (.sym s) (settled true level (.pair arg .nil))
  | .pair h t => .pair (settled false level h) (settled true level t)
  | .vector xs => .vector (settledIn level xs)
  | .setForm xs => if level = 1 then .set (.ofList (settledIn level xs)) else .setForm (settledIn level xs)
  | .mapForm es => if level = 1 then .map (.ofList (settledInEntries level es)) else .mapForm (settledInEntries level es)
  | v => v

/-- Several templates with the sets and maps in place. -/
def settledIn (level : Nat) : List Value → List Value
  | [] => []
  | x :: xs => settled false level x :: settledIn level xs

/-- The entries of a map form with the sets and maps in place. -/
def settledInEntries (level : Nat) : List (Value × Value) → List (Value × Value)
  | [] => []
  | (k, v) :: es => (settled false level k, settled false level v) :: settledInEntries level es

end

theorem formAtOne_atom {v : Value} (h : v.isAtom = true) (inTail : Bool) (level : Nat) : formAtOne inTail level v = false := by
  cases v with
  | pair | vector | set | map | setForm | mapForm => cases h
  | _ => simp [formAtOne]

theorem settled_atom {v : Value} (h : v.isAtom = true) (inTail : Bool) (level : Nat) : settled inTail level v = v := by
  cases v with
  | pair | vector | set | map | setForm | mapForm => cases h
  | _ => simp [settled]

section Pair

variable {inTail : Bool} {h t : Value}

/-- A pair that does not change the level has no symbol and one argument in it, or it has and is a list like others. -/
theorem pair_cases (hn : inTail = true ∨ ¬IsEscape (.pair h t)) :
    (∃ s arg, h = .sym s ∧ t = .pair arg .nil ∧
      ¬(inTail = false ∧ ((s = "unquote" ∨ s = "unquote-splicing") ∨ s = "quasiquote"))) ∨
    ∀ s arg, h = .sym s → t ≠ .pair arg .nil := by
  by_cases hw : ∃ s arg, h = .sym s ∧ t = .pair arg .nil
  · obtain ⟨s, arg, rfl, rfl⟩ := hw
    refine .inl ⟨s, arg, rfl, rfl, ?_⟩
    rintro ⟨rfl, hs⟩
    rcases hn with hn | hn
    · cases hn
    · exact hn ⟨s, arg, rfl, hs⟩
  · exact .inr fun s arg hh ht => hw ⟨s, arg, hh, ht⟩

/-- A pair holds what its parts hold. -/
theorem formAtOne_pair (hn : inTail = true ∨ ¬IsEscape (.pair h t)) (level : Nat) :
    formAtOne inTail level (.pair h t) = (formAtOne false level h || formAtOne true level t) := by
  rcases pair_cases hn with ⟨s, arg, rfl, rfl, hs⟩ | hw
  · rw [formAtOne, if_neg hs, formAtOne_atom rfl false, Bool.false_or]
  · rw [formAtOne.eq_2 _ _ _ _ hw]

/-- A pair is settled by parts. -/
theorem settled_pair (hn : inTail = true ∨ ¬IsEscape (.pair h t)) (level : Nat) :
    settled inTail level (.pair h t) = .pair (settled false level h) (settled true level t) := by
  rcases pair_cases hn with ⟨s, arg, rfl, rfl, hs⟩ | hw
  · rw [settled, if_neg hs, settled_atom rfl false]
  · rw [settled.eq_2 _ _ _ _ hw]

end Pair

section Escape

variable {s : Symbol} (hs : (s = "unquote" ∨ s = "unquote-splicing") ∨ s = "quasiquote") (level : Nat) (arg : Value)

include hs

/-- What changes the level holds what its argument holds, at the level inside. -/
theorem formAtOne_escape : formAtOne false level (.wrap s arg) = formAtOne false (levelInside s level) arg := by
  rw [Value.wrap, Value.list_cons, Value.list_cons]
  exact (formAtOne.eq_1 ..).trans (if_pos ⟨rfl, hs⟩)

/-- What changes the level is settled in its argument, at the level inside. -/
theorem settled_escape : settled false level (.wrap s arg) = .wrap s (settled false (levelInside s level) arg) := by
  rw [Value.wrap, Value.list_cons, Value.list_cons]
  exact (settled.eq_1 ..).trans (if_pos ⟨rfl, hs⟩)

/-- Where it unquotes nothing, a form that changes the level is copied around a copy of what it holds. -/
theorem instantiate_escape (hcode : (templateHoles false level (.wrap s arg)).code = []) :
    (templateHoles false (levelInside s level) arg).code = [] ∧
      ∀ eval env, instantiate eval env false level (.wrap s arg) =
        instantiate eval env false (levelInside s level) arg >>= fun v => pure (.wrap s v) := by
  have hwrap : ∀ v, Value.wrap s v = .pair (.sym s) (.pair v .nil) := fun _ => rfl
  by_cases hu : s = "unquote" ∨ s = "unquote-splicing"
  · have hl : level ≠ 1 := by
      rintro rfl
      simp [hwrap, templateHoles, hu, Holes.inside, Holes.hole] at hcode
    have hlevel : levelInside s level = level - 1 := by
      rcases hu with rfl | rfl <;> rfl
    rw [hlevel]
    refine ⟨by simpa [hwrap, templateHoles, hu, hl, Holes.inside] using hcode, fun eval env => ?_⟩
    rcases hu with rfl | rfl <;> simp [hwrap, instantiate, hl]
  · obtain rfl := hs.resolve_left hu
    have hlevel : levelInside "quasiquote" level = level + 1 := rfl
    rw [hlevel]
    refine ⟨by simpa [hwrap, templateHoles, Holes.inside] using hcode, fun eval env => ?_⟩
    simp [hwrap, instantiate]

end Escape

namespace Value

/-- A form behind a mark holds what the form holds. -/
theorem hasCollection_wrap (s : Symbol) (arg : Value) : (wrap s arg).hasCollection = arg.hasCollection := by
  simp [wrap, list, listWithTail, hasCollection]

/-- Items hold no collection form if none of them does. -/
theorem haveCollection_eq_false {items : List Value} : haveCollection items = false ↔ ∀ x ∈ items, x.hasCollection = false := by
  induction items with
  | nil => simp [haveCollection]
  | cons x xs ih => rw [haveCollection, Bool.or_eq_false_iff, ih, List.forall_mem_cons]

/-- Entries hold none if neither their keys nor their values do. -/
theorem entriesHaveCollection_eq_false {entries : List (Value × Value)} :
    entriesHaveCollection entries = false ↔ ∀ e ∈ entries, e.1.hasCollection = false ∧ e.2.hasCollection = false := by
  induction entries with
  | nil => simp [entriesHaveCollection]
  | cons e es ih =>
    rw [entriesHaveCollection.eq_2, Bool.or_eq_false_iff, Bool.or_eq_false_iff, ih, List.forall_mem_cons]

/-- A list holds what its items hold. -/
theorem hasCollection_list (items : List Value) : (list items).hasCollection = haveCollection items := by
  induction items with
  | nil => rfl
  | cons x xs ih => rw [list_cons, hasCollection, ih, haveCollection]

/-- There are no sets and maps in what is read, only the forms of these. -/
theorem hasCollection_of_written {v : Value} (h : Reader.Written v) : v.hasCollection = false := by
  induction h with
  | list _ ih =>
    rw [hasCollection_list]
    exact haveCollection_eq_false.2 ih
  | vector _ ih | setForm _ ih =>
    rw [hasCollection]
    exact haveCollection_eq_false.2 ih
  | mapForm _ _ ihk ihv =>
    rw [hasCollection]
    exact entriesHaveCollection_eq_false.2 fun e he => ⟨ihk e he, ihv e he⟩
  | _ => simp [hasCollection]

end Value

/-- Several templates unquote nothing if none of them does. -/
theorem code_templatesHoles {level : Nat} {items : List Value} :
    (templatesHoles level items).code = [] ↔ ∀ x ∈ items, (templateHoles false level x).code = [] := by
  refine ⟨fun h => ?_, code_templates⟩
  induction items with
  | nil => exact nofun
  | cons x xs ih =>
    obtain ⟨hx, hxs⟩ := List.append_eq_nil_iff.1 h
    exact List.forall_mem_cons.2 ⟨hx, ih hxs⟩

/-- Entries have no code exactly if their keys and values have none. -/
theorem code_templateEntriesHoles {level : Nat} {entries : List (Value × Value)} :
    (templateEntriesHoles level entries).code = [] ↔
      ∀ e ∈ entries, (templateHoles false level e.1).code = [] ∧ (templateHoles false level e.2).code = [] := by
  refine ⟨fun h => ?_, fun h => code_templateEntries (fun e he => (h e he).1) fun e he => (h e he).2⟩
  induction entries with
  | nil => exact nofun
  | cons e es ih =>
    obtain ⟨he, hes⟩ := List.append_eq_nil_iff.1 h
    exact List.forall_mem_cons.2 ⟨List.append_eq_nil_iff.1 he, ih hes⟩

/-! ## The copy of a template that unquotes nothing -/

section Copy

variable {eval : Evaluator} {env : Env} {level : Nat}

/-- An element that unquotes nothing gives its own instance. -/
theorem spliceOr_of_code_eq_nil {item : Value} (hcode : (templateHoles false level item).code = []) (copy : Action Value) :
    spliceOr eval env level item copy = copy >>= fun v => pure [v] := by
  unfold spliceOr
  split
  · rename_i code hspliced
    obtain rfl := Value.eq_wrap_of_argumentOf? hspliced
    simp [Value.wrap, Value.list, Value.listWithTail, templateHoles, Holes.inside, Holes.hole] at hcode
  · rfl

/-- Items without code are filled to what they are settled to. -/
theorem instantiateItems_settled {items : List Value} (hcode : ∀ x ∈ items, (templateHoles false level x).code = [])
    (h : ∀ x ∈ items, instantiate eval env false level x = pure (settled false level x)) :
    instantiateItems eval env level items = pure (settledIn level items) := by
  induction items with
  | nil => rfl
  | cons x xs ih =>
    obtain ⟨hcodex, hcodexs⟩ := List.forall_mem_cons.1 hcode
    obtain ⟨hx, hxs⟩ := List.forall_mem_cons.1 h
    rw [instantiateItems, spliceOr_of_code_eq_nil hcodex, hx, ih hcodexs hxs]
    simp [settledIn]

theorem instantiateEntries_settled {entries : List (Value × Value)}
    (h : ∀ e ∈ entries, instantiate eval env false level e.1 = pure (settled false level e.1) ∧
      instantiate eval env false level e.2 = pure (settled false level e.2)) :
    instantiateEntries eval env level entries = pure (settledInEntries level entries) := by
  induction entries with
  | nil => rfl
  | cons e es ih =>
    obtain ⟨⟨hk, hv⟩, hes⟩ := List.forall_mem_cons.1 h
    obtain ⟨k, v⟩ := e
    rw [instantiateEntries, hk, hv, ih hes]
    simp [settledInEntries]

/-- The instance of a template that unquotes nothing has the sets and maps in place of its forms at level one. Nothing is
evaluated for it. -/
theorem instantiate_settled {inTail : Bool} {template : Value} (hc : template.hasCollection = false)
    (hcode : (templateHoles inTail level template).code = []) :
    instantiate eval env inTail level template = pure (settled inTail level template) := by
  induction template using Value.parts_induction generalizing inTail level with
  | pair h t hhead htail harg =>
    by_cases hn : inTail = true ∨ ¬IsEscape (.pair h t)
    · rw [Value.hasCollection, Bool.or_eq_false_iff] at hc
      rw [templateHoles_pair hn] at hcode
      obtain ⟨hcodeh, hcodet⟩ := List.append_eq_nil_iff.1 hcode
      rw [instantiate_pair env eval hn, spliceOr_of_code_eq_nil hcodeh, hhead hc.1 hcodeh, htail hc.2 hcodet, settled_pair hn]
      rfl
    · obtain ⟨rfl, s, arg, hw, hs⟩ : inTail = false ∧ IsEscape (.pair h t) := by simpa using hn
      obtain ⟨rfl, rfl⟩ := Value.pair.inj hw
      rw [hw] at hc hcode ⊢
      rw [Value.hasCollection_wrap] at hc
      obtain ⟨hcodearg, hinstance⟩ := instantiate_escape hs level arg hcode
      rw [hinstance, settled_escape hs, harg arg rfl hc hcodearg]
      rfl
  | vector xs hxs | setForm xs hxs =>
    rw [Value.hasCollection, Value.haveCollection_eq_false] at hc
    rw [templateHoles] at hcode
    have hcodes := code_templatesHoles.1 hcode
    rw [instantiate, settled, instantiateItems_settled hcodes fun x hx => hxs x hx (hc x hx) (hcodes x hx)]
    rfl
  | mapForm es hes =>
    rw [Value.hasCollection, Value.entriesHaveCollection_eq_false] at hc
    rw [templateHoles] at hcode
    have hcodes := code_templateEntriesHoles.1 hcode
    have hentries := @instantiateEntries_settled eval env level es fun e he =>
      ⟨(hes e he).1 (hc e he).1 (hcodes e he).1, (hes e he).2 (hc e he).2 (hcodes e he).2⟩
    rw [instantiate, settled, hentries]
    rfl
  | set | map => simp [Value.hasCollection] at hc
  | atom v hv => rw [instantiate_atom env eval hv, settled_atom hv]

end Copy

/-! ## When a template is its own copy -/

section Fixed

variable {level : Nat}

/-- Items are settled already exactly if each of them is. -/
theorem settledIn_eq_self_iff {items : List Value}
    (h : ∀ x ∈ items, (settled false level x = x ↔ formAtOne false level x = false)) :
    settledIn level items = items ↔ formAtOneIn level items = false := by
  induction items with
  | nil => simp [settledIn, formAtOneIn]
  | cons x xs ih =>
    obtain ⟨hx, hxs⟩ := List.forall_mem_cons.1 h
    rw [settledIn, formAtOneIn, List.cons.injEq, Bool.or_eq_false_iff, hx, ih hxs]

theorem settledInEntries_eq_self_iff {entries : List (Value × Value)}
    (h : ∀ e ∈ entries, (settled false level e.1 = e.1 ↔ formAtOne false level e.1 = false) ∧
      (settled false level e.2 = e.2 ↔ formAtOne false level e.2 = false)) :
    settledInEntries level entries = entries ↔ formAtOneInEntries level entries = false := by
  induction entries with
  | nil => simp [settledInEntries, formAtOneInEntries]
  | cons e es ih =>
    obtain ⟨⟨hk, hv⟩, hes⟩ := List.forall_mem_cons.1 h
    obtain ⟨k, v⟩ := e
    rw [settledInEntries, formAtOneInEntries, List.cons.injEq, Prod.mk.injEq, Bool.or_eq_false_iff, Bool.or_eq_false_iff,
      hk, hv, ih hes]

/-- Only a set or map form at level one is changed. -/
theorem settled_eq_self_iff {inTail : Bool} {template : Value} (hc : template.hasCollection = false) :
    settled inTail level template = template ↔ formAtOne inTail level template = false := by
  induction template using Value.parts_induction generalizing inTail level with
  | pair h t hhead htail harg =>
    by_cases hn : inTail = true ∨ ¬IsEscape (.pair h t)
    · rw [Value.hasCollection, Bool.or_eq_false_iff] at hc
      rw [settled_pair hn, formAtOne_pair hn, Value.pair.injEq, Bool.or_eq_false_iff, hhead hc.1, htail hc.2]
    · obtain ⟨rfl, s, arg, hw, hs⟩ : inTail = false ∧ IsEscape (.pair h t) := by simpa using hn
      obtain ⟨rfl, rfl⟩ := Value.pair.inj hw
      rw [hw] at hc ⊢
      rw [Value.hasCollection_wrap] at hc
      rw [formAtOne_escape hs, settled_escape hs, ← harg arg rfl hc]
      simp [Value.wrap, Value.list, Value.listWithTail]
  | vector xs hxs =>
    rw [Value.hasCollection, Value.haveCollection_eq_false] at hc
    rw [settled, formAtOne, Value.vector.injEq, settledIn_eq_self_iff fun x hx => hxs x hx (hc x hx)]
  | setForm xs hxs =>
    rw [Value.hasCollection, Value.haveCollection_eq_false] at hc
    have hitems : settledIn level xs = xs ↔ _ := settledIn_eq_self_iff fun x hx => hxs x hx (hc x hx)
    by_cases hl : level = 1
    · simp [settled, formAtOne, hl]
    · simp [settled, formAtOne, hl, hitems]
  | mapForm es hes =>
    rw [Value.hasCollection, Value.entriesHaveCollection_eq_false] at hc
    have hentries : settledInEntries level es = es ↔ _ :=
      settledInEntries_eq_self_iff fun e he => ⟨(hes e he).1 (hc e he).1, (hes e he).2 (hc e he).2⟩
    by_cases hl : level = 1
    · simp [settled, formAtOne, hl]
    · simp [settled, formAtOne, hl, hentries]
  | set | map => simp [Value.hasCollection] at hc
  | atom v hv => simp [settled_atom hv, formAtOne_atom hv]

end Fixed

/-! ## What stands around the inner templates -/

section Around

open Holes

mutual

/-- The data around the templates inside a template of level one, with the inner templates as its code. -/
def around (inTail : Bool) : Value → Holes Value
  | .pair (.sym s) (.pair arg .nil) =>
    if inTail = false ∧ s = "quasiquote" then hole (.wrap s arg)
    else beside .pair (solid (.sym s)) (around true (.pair arg .nil))
  | .pair h t => beside .pair (around false h) (around true t)
  | .vector xs => (aroundIn xs).inside .vector
  | .setForm xs => (aroundIn xs).inside fun items => .set (.ofList items)
  | .mapForm es => (aroundInEntries es).inside fun entries => .map (.ofList entries)
  | v => solid v

/-- The data around the templates inside several templates. -/
def aroundIn : List Value → Holes (List Value)
  | [] => solid []
  | x :: xs => beside .cons (around false x) (aroundIn xs)

/-- The data around the templates inside the entries of a map form. -/
def aroundInEntries : List (Value × Value) → Holes (List (Value × Value))
  | [] => solid []
  | (k, v) :: es => beside .cons (beside .mk (around false k) (around false v)) (aroundInEntries es)

end

theorem around_atom {v : Value} (h : v.isAtom = true) (inTail : Bool) : around inTail v = solid v := by
  cases v with
  | pair | vector | set | map | setForm | mapForm => cases h
  | _ => simp [around]

/-- The inner templates of a pair are those of its parts. -/
theorem around_pair {inTail : Bool} {h t : Value} (hn : inTail = true ∨ ¬IsEscape (.pair h t)) :
    around inTail (.pair h t) = beside .pair (around false h) (around true t) := by
  rcases pair_cases hn with ⟨s, arg, rfl, rfl, hs⟩ | hw
  · have hq : ¬(inTail = false ∧ s = "quasiquote") := fun hq => hs ⟨hq.1, .inr hq.2⟩
    rw [around, if_neg hq, around_atom rfl false]
  · rw [around.eq_2 _ _ _ hw]

/-- A template of level one that changes the level and unquotes nothing is an inner template. -/
theorem around_escape {s : Symbol} {arg : Value} (hs : (s = "unquote" ∨ s = "unquote-splicing") ∨ s = "quasiquote")
    (hcode : (templateHoles false 1 (.wrap s arg)).code = []) :
    around false (.wrap s arg) = hole (.wrap s arg) ∧ s = "quasiquote" := by
  rcases hs with hu | rfl
  · simp [Value.wrap, Value.list, Value.listWithTail, templateHoles, hu, inside, hole] at hcode
  · exact ⟨(around.eq_1 ..).trans (if_pos ⟨rfl, rfl⟩), rfl⟩

/-- Two things beside each other, with each piece of code changed by a function. -/
theorem Holes.fill_map_beside {α β γ : Type} (f : α → β → γ) (a : Holes α) (b : Holes β) (g : Value → Value) :
    (beside f a b).fill ((beside f a b).code.map g) = f (a.fill (a.code.map g)) (b.fill (b.code.map g)) := by
  simp [beside]

/-- Items are settled by settling the inner templates in them. -/
theorem settledIn_eq_fill {items : List Value}
    (h : ∀ x ∈ items, settled false 1 x = (around false x).fill ((around false x).code.map (settled false 1))) :
    settledIn 1 items = (aroundIn items).fill ((aroundIn items).code.map (settled false 1)) := by
  induction items with
  | nil => rfl
  | cons x xs ih =>
    obtain ⟨hx, hxs⟩ := List.forall_mem_cons.1 h
    rw [aroundIn, fill_map_beside, ← hx, ← ih hxs, settledIn]

theorem settledInEntries_eq_fill {entries : List (Value × Value)}
    (h : ∀ e ∈ entries, settled false 1 e.1 = (around false e.1).fill ((around false e.1).code.map (settled false 1)) ∧
      settled false 1 e.2 = (around false e.2).fill ((around false e.2).code.map (settled false 1))) :
    settledInEntries 1 entries = (aroundInEntries entries).fill ((aroundInEntries entries).code.map (settled false 1)) := by
  induction entries with
  | nil => rfl
  | cons e es ih =>
    obtain ⟨⟨hk, hv⟩, hes⟩ := List.forall_mem_cons.1 h
    obtain ⟨k, v⟩ := e
    rw [aroundInEntries, fill_map_beside, fill_map_beside, ← hk, ← hv, ← ih hes, settledInEntries]

/-- In the copy of a template, the copies of the inner templates stand in the places of these. -/
theorem settled_eq_fill {inTail : Bool} {template : Value} (hcode : (templateHoles inTail 1 template).code = []) :
    settled inTail 1 template = (around inTail template).fill ((around inTail template).code.map (settled false 1)) := by
  induction template using Value.parts_induction generalizing inTail with
  | pair h t hhead htail harg =>
    by_cases hn : inTail = true ∨ ¬IsEscape (.pair h t)
    · rw [templateHoles_pair hn] at hcode
      obtain ⟨hcodeh, hcodet⟩ := List.append_eq_nil_iff.1 hcode
      rw [settled_pair hn, around_pair hn, fill_map_beside, ← hhead hcodeh, ← htail hcodet]
    · obtain ⟨rfl, s, arg, hw, hs⟩ : inTail = false ∧ IsEscape (.pair h t) := by simpa using hn
      rw [hw] at hcode ⊢
      rw [(around_escape hs hcode).1]
      rfl
  | vector xs hxs =>
    rw [templateHoles] at hcode
    rw [settled, around, settledIn_eq_fill fun x hx => hxs x hx (code_templatesHoles.1 hcode x hx)]
    rfl
  | setForm xs hxs =>
    rw [templateHoles] at hcode
    rw [settled, around, if_pos rfl, settledIn_eq_fill fun x hx => hxs x hx (code_templatesHoles.1 hcode x hx)]
    rfl
  | mapForm es hes =>
    rw [templateHoles] at hcode
    have hcodes := code_templateEntriesHoles.1 hcode
    have hentries := @settledInEntries_eq_fill es fun e he => ⟨(hes e he).1 (hcodes e he).1, (hes e he).2 (hcodes e he).2⟩
    rw [settled, around, if_pos rfl, hentries]
    rfl
  | set | map => simp [settled, around, solid]
  | atom v hv =>
    rw [settled_atom hv, around_atom hv]
    rfl

/-- An inner template of items is one of some item. -/
theorem mem_code_aroundIn {inner : Value} {items : List Value} (h : inner ∈ (aroundIn items).code) :
    ∃ x ∈ items, inner ∈ (around false x).code := by
  induction items with
  | nil => cases h
  | cons x xs ih =>
    rcases List.mem_append.1 h with hx | hxs
    · exact ⟨x, List.mem_cons_self, hx⟩
    · obtain ⟨y, hy, hinner⟩ := ih hxs
      exact ⟨y, List.mem_cons_of_mem _ hy, hinner⟩

/-- An inner template of entries is one of some key or value. -/
theorem mem_code_aroundInEntries {inner : Value} {entries : List (Value × Value)} (h : inner ∈ (aroundInEntries entries).code) :
    ∃ e ∈ entries, inner ∈ (around false e.1).code ∨ inner ∈ (around false e.2).code := by
  induction entries with
  | nil => cases h
  | cons e es ih =>
    rcases List.mem_append.1 h with he | hes
    · exact ⟨e, List.mem_cons_self, List.mem_append.1 he⟩
    · obtain ⟨e', he', hinner⟩ := ih hes
      exact ⟨e', List.mem_cons_of_mem _ he', hinner⟩

/-- The code around which the data stand are templates, and there is no set or map in them. -/
theorem mem_code_around {inTail : Bool} {template inner : Value} (hc : template.hasCollection = false)
    (hcode : (templateHoles inTail 1 template).code = []) (h : inner ∈ (around inTail template).code) :
    (∃ u, inner = .wrap "quasiquote" u) ∧ inner.hasCollection = false := by
  induction template using Value.parts_induction generalizing inTail with
  | pair head tail hhead htail harg =>
    by_cases hn : inTail = true ∨ ¬IsEscape (.pair head tail)
    · rw [Value.hasCollection, Bool.or_eq_false_iff] at hc
      rw [templateHoles_pair hn] at hcode
      rw [around_pair hn] at h
      obtain ⟨hcodeh, hcodet⟩ := List.append_eq_nil_iff.1 hcode
      rcases List.mem_append.1 h with h | h
      · exact hhead hc.1 hcodeh h
      · exact htail hc.2 hcodet h
    · obtain ⟨rfl, s, arg, hw, hs⟩ : inTail = false ∧ IsEscape (.pair head tail) := by simpa using hn
      rw [hw] at hc hcode h
      obtain ⟨haround, rfl⟩ := around_escape hs hcode
      rw [haround] at h
      obtain rfl := List.mem_singleton.1 h
      exact ⟨⟨arg, rfl⟩, hc⟩
  | vector xs hxs | setForm xs hxs =>
    rw [Value.hasCollection, Value.haveCollection_eq_false] at hc
    rw [templateHoles] at hcode
    rw [around] at h
    obtain ⟨x, hx, hinner⟩ := mem_code_aroundIn h
    exact hxs x hx (hc x hx) (code_templatesHoles.1 hcode x hx) hinner
  | mapForm es hes =>
    rw [Value.hasCollection, Value.entriesHaveCollection_eq_false] at hc
    rw [templateHoles] at hcode
    rw [around] at h
    obtain ⟨e, he, hinner⟩ := mem_code_aroundInEntries h
    have hcodes := code_templateEntriesHoles.1 hcode e he
    rcases hinner with hk | hv
    · exact (hes e he).1 (hc e he).1 hcodes.1 hk
    · exact (hes e he).2 (hc e he).2 hcodes.2 hv
  | set | map => simp [Value.hasCollection] at hc
  | atom v hv =>
    rw [around_atom hv] at h
    cases h

end Around

/-! ## Evaluating the template -/

/-- Inner templates survive a template that unquotes nothing. Neither its expansion nor its evaluation evaluates anything. What it
gives are the data of the template with a copy of each inner template in its place, and a copy is the inner template itself, set
and map forms included, unless one of these stands at level one, behind an unquote of the inner template; if none does, all
inner templates are in the result as they were written. -/
theorem inner_templates_kept {template : Value} (hread : Reader.Written template)
    (hcode : (templateHoles false 1 template).code = []) :
    ∃ (shape : Holes Value) (copies : List Value), shape = around false template ∧ copies = shape.code.map (settled false 1) ∧
      (∀ inner ∈ shape.code, (∃ u, inner = .wrap "quasiquote" u) ∧
        (settled false 1 inner = inner ↔ formAtOne false 1 inner = false)) ∧
      (copies = shape.code ↔ ∀ inner ∈ shape.code, formAtOne false 1 inner = false) ∧
      (∀ visit, visitTemplate visit false 1 template = pure template) ∧
      (∀ eval env, instantiate eval env false 1 template = pure (shape.fill copies)) ∧
      ∀ fuel m,
        (0 < m.limits.maxDepth →
          Session.evalForm (fuel + 1) (.wrap "quasiquote" template) m = .ok (shape.fill copies) { m with depth := 0 }) ∧
        ∀ env, m.depth < m.limits.maxDepth →
          expandAndEval (fuel + 1) (.wrap "quasiquote" template) env m = .ok (shape.fill copies) m := by
  have hc := Value.hasCollection_of_written hread
  have hinner : ∀ inner ∈ (around false template).code, (∃ u, inner = .wrap "quasiquote" u) ∧
      (settled false 1 inner = inner ↔ formAtOne false 1 inner = false) := by
    intro inner hmem
    obtain ⟨hquasi, hcinner⟩ := mem_code_around hc hcode hmem
    exact ⟨hquasi, settled_eq_self_iff hcinner⟩
  have hcopy : ∀ eval env, instantiate eval env false 1 template =
      pure ((around false template).fill ((around false template).code.map (settled false 1))) := by
    intro eval env
    rw [instantiate_settled hc hcode, settled_eq_fill hcode]
  refine ⟨_, _, rfl, rfl, hinner, ?_, fun visit => ?_, hcopy, fun fuel m => ⟨fun hd => ?_, fun env hd => ?_⟩⟩
  · have hsame : (around false template).code.map (settled false 1) = (around false template).code.map id ↔ _ :=
      List.map_inj_left
    rw [List.map_id] at hsame
    exact hsame.trans (forall₂_congr fun inner hmem => (hinner inner hmem).2)
  · have hfill := templateHoles_fill_code false 1 template
    rw [visitTemplate_eq, Holes.run, hcode]
    rw [hcode] at hfill
    simp [visitAll, hfill]
  · have hd' : ({ m with depth := 0 } : Machine).depth < m.limits.maxDepth := hd
    rw [evalForm_apply]
    exact expandAndEval_template fuel hcode (hcopy _ _) hd'
  · exact expandAndEval_template fuel hcode (hcopy _ _) hd

/-- The text `` `(a #{1 `(b ,c) 1} `#{2 ,[d] 2}) ``: the set is made, and the set form of the second inner template, which is at
level two, is there with its repeated element. -/
theorem inner_templates_kept_in_set :
    let first : Value := .wrap "quasiquote" (.list [.sym "b", .wrap "unquote" (.sym "c")])
    let second : Value := .wrap "quasiquote" (.setForm [.ofInt 2, .wrap "unquote" (.vector [.sym "d"]), .ofInt 2])
    let template : Value := .list [.sym "a", .setForm [.ofInt 1, first, .ofInt 1], second]
    Reader.Written template ∧ (templateHoles false 1 template).code = [] ∧ 0 < trueMachine.limits.maxDepth ∧
      (around false template).code = [first, second] ∧
      Session.evalForm 1 (.wrap "quasiquote" template) trueMachine =
        .ok (.list [.sym "a", .set ⟨[.ofInt 1, first]⟩, second]) trueMachine := by
  intro first second template
  have hsym : ∀ s, Reader.Written (.sym s) := .sym
  have hnum : ∀ n, Reader.Written (.ofInt n) := fun n => .num _
  have hfirst : Reader.Written first := .wrap _ (.list (by simp [hsym, Reader.Written.wrap]))
  have hvector : Reader.Written (.vector [.sym "d"]) := .vector (by simp [hsym])
  have hsecond : Reader.Written second := .wrap _ (.setForm (by simp [hnum, hvector.wrap]))
  have hset : Reader.Written (.setForm [.ofInt 1, first, .ofInt 1]) := .setForm (by simp [hnum, hfirst])
  have hread : Reader.Written template := .list (by simp [hsym, hset, hsecond])
  have hcode : (templateHoles false 1 template).code = [] := by decide
  obtain ⟨_, _, rfl, rfl, -, hkept, -, -, hrun⟩ := inner_templates_kept hread hcode
  have hcopies := hkept.2 (by decide)
  have heval := (hrun 0 trueMachine).1 (by decide)
  rw [hcopies] at heval
  exact ⟨hread, hcode, by decide, rfl, heval⟩

/-- Of the template `` `,#{1 1} ``, which stands inside a template, the copy has the set of one element: the form stands at level
one of the outer template. -/
theorem inner_form_not_kept :
    let inner : Value := .wrap "quasiquote" (.wrap "unquote" (.setForm [.ofInt 1, .ofInt 1]))
    let copy : Value := .wrap "quasiquote" (.wrap "unquote" (.set ⟨[.ofInt 1]⟩))
    Reader.Written inner ∧ (templateHoles false 1 inner).code = [] ∧ (around false inner).code = [inner] ∧ copy ≠ inner ∧
      Session.evalForm 1 (.wrap "quasiquote" inner) trueMachine = .ok copy trueMachine := by
  intro inner copy
  have hnum : Reader.Written (.ofInt 1) := .num _
  have hset : Reader.Written (.setForm [.ofInt 1, .ofInt 1]) := .setForm (by simp [hnum])
  have hcode : (templateHoles false 1 inner).code = [] := rfl
  have hinstance : instantiate (eval 0) trueMachine.global false 1 inner = pure copy := instantiate_settled rfl hcode
  have hne : copy ≠ inner := by
    simp [copy, inner, Value.wrap, Value.list, Value.listWithTail]
  refine ⟨(hset.wrap _).wrap _, hcode, rfl, hne, ?_⟩
  rw [evalForm_apply]
  exact expandAndEval_template 0 hcode hinstance (by decide)

end MiniLisp
