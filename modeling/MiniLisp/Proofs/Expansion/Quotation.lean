import MiniLisp.Proofs.Evaluation.Step
import MiniLisp.Proofs.Expansion.FixedPoint

/-!
# Expansion without macros

Where no name stands for a macro, expansion has nothing to replace; all it does is to make data of quoted code. `Value.mapQuotes`
says which quotes these are: it goes through a form place by place, changes the quote forms in its code positions and keeps all
else where it is. Expansion takes special forms apart and puts them together again; the main statement
(`expand_without_macros`) is that nothing gets lost, added or moved by that in a form whose lists are proper. What an improper
list ends in can get lost: the block of bindings of a `let` is put together from its elements.
-/

namespace MiniLisp

variable {α β γ : Type}

/-- In this environment no visible name stands for a macro, and no member of a module is one. -/
structure NoMacros (m : Machine) (env : Env) : Prop where
  names : ∀ name f, m.heap.lookup? env name ≠ some (.macroFn f)
  members : ∀ module home, m.modules.lookup module = some home →
    ∀ name f, m.heap.lookupLocal? home.frame name ≠ some (.macroFn f)

namespace Value

mutual

/-- Whether the lists in a form are proper, at every depth of its lists, vectors and set and map forms. -/
def hasProperLists : Value → Bool
  | .pair h t => h.hasProperLists && t.isList && t.hasProperLists
  | .vector xs | .setForm xs => haveProperLists xs
  | .mapForm es => entriesHaveProperLists es
  | _ => true

/-- Whether the lists in several forms are proper. -/
def haveProperLists : List Value → Bool
  | [] => true
  | x :: xs => x.hasProperLists && haveProperLists xs

/-- Whether the lists in the keys and values of a map form are proper. -/
def entriesHaveProperLists : List (Value × Value) → Bool
  | [] => true
  | (k, v) :: es => k.hasProperLists && v.hasProperLists && entriesHaveProperLists es

end

mutual

/-- Whether there is a set or map form in a value, at any depth of its lists and vectors. -/
def hasCollectionForm : Value → Bool
  | .pair h t => h.hasCollectionForm || t.hasCollectionForm
  | .vector xs => haveCollectionForm xs
  | .setForm _ | .mapForm _ => true
  | _ => false

/-- Whether there is a set or map form in one of several values. -/
def haveCollectionForm : List Value → Bool
  | [] => false
  | x :: xs => x.hasCollectionForm || haveCollectionForm xs

end

/-- Items without collection forms have none in any one of them. -/
theorem hasCollectionForm_of_mem {xs : List Value} (h : haveCollectionForm xs = false) :
    ∀ x ∈ xs, x.hasCollectionForm = false := by
  induction xs with
  | nil => simp
  | cons x xs ih =>
    obtain ⟨hx, hxs⟩ := Bool.or_eq_false_iff.1 h
    exact List.forall_mem_cons.2 ⟨hx, ih hxs⟩

/-! ## The quotes of a form -/

mutual

/-- The form with each quote form in a code position changed by `f`, and all else as it is. -/
def mapQuotes (f : Value → Value) : Value → Value
  | .pair (.sym s) args =>
    match SpecialForm.ofSymbol? s with
    | some .quote => f (.pair (.sym s) args)
    | some .typeForm | some .moduleForm | some .useForm => .pair (.sym s) args
    | some .quasiquote => .pair (.sym s) (quasiquoteQuotes f args)
    -- The parameters of a function are no code.
    | some .lambda | some .defineMacro => .pair (.sym s) (listQuotes f 1 args)
    | some .letForm | some .letMutable => .pair (.sym s) (letQuotes f args)
    | some .matchForm => .pair (.sym s) (matchQuotes f args)
    | _ => .pair (.sym s) (listQuotes f 0 args)
  | .pair head args => .pair (mapQuotes f head) (listQuotes f 0 args)
  | .vector xs => .vector (itemQuotes f xs)
  | .setForm xs => .setForm (itemQuotes f xs)
  | .mapForm es => .mapForm (entryQuotes f es)
  | v => v

/-- A list whose elements behind the first `keep` are code. -/
def listQuotes (f : Value → Value) : (keep : Nat) → Value → Value
  | 0, .pair h t => .pair (mapQuotes f h) (listQuotes f 0 t)
  | keep + 1, .pair h t => .pair h (listQuotes f keep t)
  | _, v => v
termination_by structural _ v => v

/-- What follows the keyword of a `let`: a name or signature, or a block of bindings, and the code behind it. -/
def letQuotes (f : Value → Value) : Value → Value
  | .pair target body =>
    if target.isSignature then .pair target (listQuotes f 0 body)
    else if target.isList then .pair (blockQuotes f target) (listQuotes f 0 body)
    else .pair target body
  | v => v

/-- A block of bindings. -/
def blockQuotes (f : Value → Value) : Value → Value
  | .pair binding rest => .pair (bindingQuotes f binding) (blockQuotes f rest)
  | v => v

/-- A binding `(name expression)`. -/
def bindingQuotes (f : Value → Value) : Value → Value
  | .pair name (.pair form .nil) => .pair name (.pair (mapQuotes f form) .nil)
  | v => v

/-- What follows the keyword of a `match`: the expression and the clauses. -/
def matchQuotes (f : Value → Value) : Value → Value
  | .pair scrutinee clauses => .pair (mapQuotes f scrutinee) (clausesQuotes f clauses)
  | v => v

/-- The clauses of a `match`. -/
def clausesQuotes (f : Value → Value) : Value → Value
  | .pair clause rest => .pair (clauseQuotes f clause) (clausesQuotes f rest)
  | v => v

/-- A clause `(pattern body...)`. -/
def clauseQuotes (f : Value → Value) : Value → Value
  | .pair pattern body => .pair pattern (listQuotes f 0 body)
  | v => v

/-- What follows the keyword of a quasiquote: one template. -/
def quasiquoteQuotes (f : Value → Value) : Value → Value
  | .pair template .nil => .pair (templateQuotes f false 1 template) .nil
  | v => v

/-- A template, whose code is what it unquotes at level one. -/
def templateQuotes (f : Value → Value) (inTail : Bool) (level : Nat) : Value → Value
  | .pair (.sym s) (.pair arg .nil) =>
    if inTail then .pair (.sym s) (templateQuotes f true level (.pair arg .nil))
    else if s = "unquote" ∨ s = "unquote-splicing" then
      if level = 1 then .wrap s (mapQuotes f arg)
      else .wrap s (templateQuotes f false (level - 1) arg)
    else if s = "quasiquote" then .wrap s (templateQuotes f false (level + 1) arg)
    else .pair (.sym s) (templateQuotes f true level (.pair arg .nil))
  | .pair h t => .pair (templateQuotes f false level h) (templateQuotes f true level t)
  | .vector xs => .vector (templateItemQuotes f level xs)
  | .setForm xs => .setForm (templateItemQuotes f level xs)
  | .mapForm es => .mapForm (templateEntryQuotes f level es)
  | v => v

/-- Several forms. -/
def itemQuotes (f : Value → Value) : List Value → List Value
  | [] => []
  | x :: xs => mapQuotes f x :: itemQuotes f xs

/-- The keys and values of a map form. -/
def entryQuotes (f : Value → Value) : List (Value × Value) → List (Value × Value)
  | [] => []
  | (k, v) :: es => (mapQuotes f k, mapQuotes f v) :: entryQuotes f es

/-- Several templates. -/
def templateItemQuotes (f : Value → Value) (level : Nat) : List Value → List Value
  | [] => []
  | x :: xs => templateQuotes f false level x :: templateItemQuotes f level xs

/-- The keys and values of a map form in a template. -/
def templateEntryQuotes (f : Value → Value) (level : Nat) : List (Value × Value) → List (Value × Value)
  | [] => []
  | (k, v) :: es => (templateQuotes f false level k, templateQuotes f false level v) :: templateEntryQuotes f level es

end

/-- In a call, the quoted data are those in its head and its arguments. -/
theorem mapQuotes_call (f : Value → Value) {head : Value} (h : head.IsCallee) (args : Value) :
    (pair head args).mapQuotes f = .pair (head.mapQuotes f) (listQuotes f 0 args) := by
  cases head with
  | sym s => simp [mapQuotes, h s rfl]
  | _ => simp [mapQuotes]

/-- A quotation is changed as a whole. -/
theorem mapQuotes_quote (f : Value → Value) (args : Value) :
    (pair (sym "quote") args).mapQuotes f = f (pair (sym "quote") args) := by
  simp [mapQuotes, SpecialForm.ofSymbol?]

/-- A form with this keyword is a list with the keyword at its head. -/
theorem eq_pair_of_isForm {v : Value} {s : Symbol} (h : v.isForm s = true) : ∃ args, v = .pair (.sym s) args := by
  unfold isForm headSymbol? at h
  split at h
  · exact ⟨_, by rw [Option.some.inj (beq_iff_eq.1 h)]⟩
  · cases h

/-- In a template, the quoted data are found from left to right. -/
theorem templateQuotes_pair (f : Value → Value) {inTail : Bool} {h t : Value} (hn : inTail = true ∨ ¬IsEscape (.pair h t))
    (level : Nat) :
    templateQuotes f inTail level (.pair h t) = .pair (templateQuotes f false level h) (templateQuotes f true level t) := by
  by_cases hw : ∃ s arg, h = .sym s ∧ t = .pair arg .nil
  · obtain ⟨s, arg, rfl, rfl⟩ := hw
    have hsym : templateQuotes f false level (.sym s) = .sym s := by simp [templateQuotes]
    rw [templateQuotes, hsym]
    rcases hn with rfl | hn
    · simp
    · have hs : ¬(s = "unquote" ∨ s = "unquote-splicing") := fun hs => hn ⟨s, arg, rfl, .inl hs⟩
      have hq : s ≠ "quasiquote" := fun hq => hn ⟨s, arg, rfl, .inr hq⟩
      simp [hs, hq]
  · rw [templateQuotes.eq_2]
    intro s arg hh ht
    exact hw ⟨s, arg, hh, ht⟩

/-- Of several items, those in each item. -/
theorem itemQuotes_eq_map (f : Value → Value) (xs : List Value) : itemQuotes f xs = xs.map (mapQuotes f) := by
  induction xs with
  | nil => simp [itemQuotes]
  | cons x xs ih => simp [itemQuotes, ih]

/-- Of several entries, those in each key and value. -/
theorem entryQuotes_eq_map (f : Value → Value) (es : List (Value × Value)) :
    entryQuotes f es = es.map fun e => (e.1.mapQuotes f, e.2.mapQuotes f) := by
  induction es with
  | nil => simp [entryQuotes]
  | cons e es ih => simp [entryQuotes, ih]

/-- Of the items of a template, those in each item, at the same level. -/
theorem templateItemQuotes_eq_map (f : Value → Value) (level : Nat) (xs : List Value) :
    templateItemQuotes f level xs = xs.map (templateQuotes f false level) := by
  induction xs with
  | nil => simp [templateItemQuotes]
  | cons x xs ih => simp [templateItemQuotes, ih]

/-- Of the entries of a template, those in each key and value, at the same level. -/
theorem templateEntryQuotes_eq_map (f : Value → Value) (level : Nat) (es : List (Value × Value)) :
    templateEntryQuotes f level es = es.map fun e => (e.1.templateQuotes f false level, e.2.templateQuotes f false level) := by
  induction es with
  | nil => simp [templateEntryQuotes]
  | cons e es ih => simp [templateEntryQuotes, ih]

/-! ## Proper lists -/

/-- A proper list consists of a head and of a list that are proper. -/
theorem hasProperLists_pair {h t : Value} (hp : (pair h t).hasProperLists = true) :
    h.hasProperLists = true ∧ t.isList = true ∧ t.hasProperLists = true := by
  simpa [hasProperLists, and_assoc] using hp

/-- Items with proper lists have them each. -/
theorem hasProperLists_of_mem {xs : List Value} (hp : haveProperLists xs = true) : ∀ x ∈ xs, x.hasProperLists = true := by
  induction xs with
  | nil => simp
  | cons x xs ih =>
    obtain ⟨hx, hxs⟩ := Bool.and_eq_true_iff.1 hp
    exact List.forall_mem_cons.2 ⟨hx, ih hxs⟩

/-- Entries with proper lists have them in each key and value. -/
theorem hasProperLists_of_mem_entries {es : List (Value × Value)} (hp : entriesHaveProperLists es = true) :
    ∀ e ∈ es, e.1.hasProperLists = true ∧ e.2.hasProperLists = true := by
  induction es with
  | nil => simp
  | cons e es ih =>
    obtain ⟨he, hes⟩ := Bool.and_eq_true_iff.1 hp
    exact List.forall_mem_cons.2 ⟨Bool.and_eq_true_iff.1 he, ih hes⟩

/-- A proper list is the list of its elements. -/
theorem list_heads_of_proper {v : Value} (hl : v.isList = true) (hp : v.hasProperLists = true) : list v.heads = v := by
  fun_induction remainder v with
  | case1 h t ih =>
    obtain ⟨-, ht, htp⟩ := hasProperLists_pair hp
    rw [heads_pair]
    exact congrArg (pair h) (ih ht htp)
  | case2 v hv =>
    cases v with
    | pair h t => exact absurd rfl (hv h t)
    | nil => rfl
    | _ => cases hl

/-- The items of a proper list have proper lists. -/
theorem hasProperLists_of_mem_heads {v : Value} (hp : v.hasProperLists = true) : ∀ x ∈ v.heads, x.hasProperLists = true := by
  fun_induction remainder v with
  | case1 h t ih =>
    obtain ⟨hh, -, htp⟩ := hasProperLists_pair hp
    rw [heads_pair]
    exact List.forall_mem_cons.2 ⟨hh, ih htp⟩
  | case2 v hv =>
    cases v with
    | pair h t => exact absurd rfl (hv h t)
    | _ => simp [heads, headsAfter]

/-- What has proper lists and is a list is the list of its heads. -/
theorem toList?_of_proper {v : Value} (hl : v.isList = true) (hp : v.hasProperLists = true) : v.toList? = some v.heads := by
  conv_lhs => rw [← list_heads_of_proper hl hp]
  exact toList?_list _

/-- A function that changes a list element by element. -/
theorem list_map_heads {g k : Value → Value} (hnil : g .nil = .nil) (hpair : ∀ h t, g (.pair h t) = .pair (k h) (g t))
    {v : Value} (hl : v.isList = true) (hp : v.hasProperLists = true) : list (v.heads.map k) = g v := by
  conv_rhs => rw [← list_heads_of_proper hl hp]
  induction v.heads with
  | nil => exact hnil.symm
  | cons x xs ih => exact (congrArg (pair (k x)) ih).trans (hpair x (list xs)).symm

end Value

/-! ## Taking a form apart and putting it together again -/

namespace Holes

/-- A thing made of forms with proper lists is put together again from its code, and is `changed` when the quotes of its code
are changed by `f`. -/
structure Rebuilds (f : Value → Value) (a : Holes α) (whole changed : α) : Prop where
  code : ∀ g ∈ a.code, g.hasProperLists = true
  fill : a.fill a.code = whole
  change : a.fill (a.code.map (·.mapQuotes f)) = changed

namespace Rebuilds

variable {f : Value → Value}

theorem solid (a : α) : (solid a).Rebuilds f a a where
  code := by simp [Holes.solid]
  fill := rfl
  change := rfl

/-- A form that is code is changed by its visit. -/
theorem hole {form : Value} (h : form.hasProperLists = true) : (hole form).Rebuilds f form (form.mapQuotes f) where
  code := by simpa [Holes.hole] using h
  fill := rfl
  change := rfl

/-- A thing inside another is changed there. -/
theorem inside {a : Holes α} {whole changed : α} (h : a.Rebuilds f whole changed) (wrap : α → β) :
    (a.inside wrap).Rebuilds f (wrap whole) (wrap changed) where
  code := h.code
  fill := congrArg wrap h.fill
  change := congrArg wrap h.change

/-- Things beside each other are changed each. -/
theorem beside {a : Holes α} {b : Holes β} {whole changed : α} {whole' changed' : β} (ha : a.Rebuilds f whole changed)
    (hb : b.Rebuilds f whole' changed') (join : α → β → γ) :
    (beside join a b).Rebuilds f (join whole whole') (join changed changed') where
  code := by
    intro g hg
    exact (List.mem_append.1 hg).elim (ha.code g) (hb.code g)
  fill := by simp [Holes.beside, ha.fill, hb.fill]
  change := by simp [Holes.beside, ha.change, hb.change]

/-- Several things are changed each. -/
theorem all {holes : α → Holes α} {changed : α → α} {items : List α}
    (h : ∀ item ∈ items, (holes item).Rebuilds f item (changed item)) :
    (all holes items).Rebuilds f items (items.map changed) := by
  induction items with
  | nil => exact solid []
  | cons item items ih =>
    exact (h item List.mem_cons_self).beside (ih fun item hi => h item (List.mem_cons_of_mem _ hi)) List.cons

/-- A thing is what it was if its code is what it was. -/
theorem changed_eq {a : Holes α} {whole changed : α} (h : a.Rebuilds f whole changed)
    (hcode : ∀ g ∈ a.code, g.mapQuotes f = g) : changed = whole := by
  rw [← h.change, ← h.fill, List.map_congr_left hcode, List.map_id'']
  intro g
  rfl

end Rebuilds

end Holes

section Rebuild

open Holes

variable (f : Value → Value)

/-- The items of a template stand beside one another. -/
theorem templatesHoles_eq_all (level : Nat) (xs : List Value) :
    templatesHoles level xs = all (templateHoles false level) xs := by
  induction xs with
  | nil => rw [templatesHoles, all]
  | cons x xs ih => rw [templatesHoles, all, ih]

/-- So do the keys and values of its entries. -/
theorem templateEntriesHoles_eq_all (level : Nat) (es : List (Value × Value)) :
    templateEntriesHoles level es =
      all (fun e => beside .mk (templateHoles false level e.1) (templateHoles false level e.2)) es := by
  induction es with
  | nil => rw [templateEntriesHoles, all]
  | cons e es ih => rw [templateEntriesHoles, all, ih]

/-- A form that changes the level, if what it holds is put together again at every level. -/
theorem rebuilds_escape (level : Nat) {s : Symbol} {arg : Value}
    (hs : (s = "unquote" ∨ s = "unquote-splicing") ∨ s = "quasiquote") (hp : arg.hasProperLists = true)
    (harg : ∀ level, (templateHoles false level arg).Rebuilds f arg (arg.templateQuotes f false level)) :
    (templateHoles false level (.wrap s arg)).Rebuilds f (.wrap s arg) ((Value.wrap s arg).templateQuotes f false level) := by
  have hw : Value.wrap s arg = .pair (.sym s) (.pair arg .nil) := rfl
  rw [hw, templateHoles, Value.templateQuotes, ← hw]
  simp only [Bool.false_eq_true, if_false]
  by_cases hu : s = "unquote" ∨ s = "unquote-splicing"
  · rw [if_pos hu, if_pos hu]
    split
    · exact (Rebuilds.hole hp).inside (Value.wrap s)
    · exact (harg (level - 1)).inside (Value.wrap s)
  · have hq := hs.resolve_left hu
    rw [if_neg hu, if_neg hu, if_pos hq, if_pos hq]
    exact (harg (level + 1)).inside (Value.wrap s)

/-- A template: by induction on its size, since what an escape holds is looked at on another level. -/
theorem rebuilds_template (inTail : Bool) (level : Nat) {template : Value} (hp : template.hasProperLists = true) :
    (templateHoles inTail level template).Rebuilds f template (template.templateQuotes f inTail level) := by
  induction hn : template.size using Nat.strongRecOn generalizing inTail level template with
  | _ n ih =>
  subst hn
  cases template with
  | pair h t =>
    obtain ⟨hh, -, ht⟩ := Value.hasProperLists_pair hp
    by_cases hn : inTail = true ∨ ¬IsEscape (.pair h t)
    · have hhead := ih h.size (by rw [Value.size]; omega) false level hh rfl
      have htail := ih t.size (by rw [Value.size]; omega) true level ht rfl
      rw [templateHoles_pair hn, Value.templateQuotes_pair f hn]
      exact hhead.beside htail Value.pair
    · obtain ⟨rfl, s, arg, hw, hs⟩ : inTail = false ∧ IsEscape (.pair h t) := by simpa using hn
      obtain ⟨rfl, rfl⟩ := Value.pair.inj hw
      obtain ⟨harg, -, -⟩ := Value.hasProperLists_pair ht
      exact rebuilds_escape f level hs harg fun level => ih arg.size (Value.size_lt_size_wrap s arg) false level harg rfl
  | vector xs | setForm xs =>
    have hxs : (all (templateHoles false level) xs).Rebuilds f xs (xs.map (·.templateQuotes f false level)) := by
      refine Rebuilds.all fun x hx => ih x.size ?_ false level (Value.hasProperLists_of_mem hp x hx) rfl
      rw [Value.size]
      exact Nat.lt_succ_of_le (Value.size_le_of_mem hx)
    rw [templateHoles, Value.templateQuotes, templatesHoles_eq_all, Value.templateItemQuotes_eq_map]
    exact hxs.inside _
  | mapForm es =>
    have hes : (all (fun e => beside .mk (templateHoles false level e.1) (templateHoles false level e.2)) es).Rebuilds f es
        (es.map fun e => (e.1.templateQuotes f false level, e.2.templateQuotes f false level)) := by
      refine Rebuilds.all fun e he => ?_
      obtain ⟨hk, hv⟩ := Value.hasProperLists_of_mem_entries hp e he
      have hsize := Value.size_le_of_mem_entries he
      exact (ih e.1.size (by rw [Value.size]; omega) false level hk rfl).beside
        (ih e.2.size (by rw [Value.size]; omega) false level hv rfl) Prod.mk
    rw [templateHoles, Value.templateQuotes, templateEntriesHoles_eq_all, Value.templateEntryQuotes_eq_map]
    exact hes.inside _
  | _ =>
    simp only [templateHoles, Value.templateQuotes]
    exact .solid _

/-- A list is rebuilt with its items changed. -/
theorem rebuilds_list (keep : Nat) {list : Value} (hp : list.hasProperLists = true) :
    (listHoles keep list).Rebuilds f list (list.listQuotes f keep) := by
  fun_induction listHoles keep list with
  | case1 h t ih =>
    obtain ⟨hh, -, ht⟩ := Value.hasProperLists_pair hp
    rw [Value.listQuotes]
    exact (Rebuilds.hole hh).beside (ih ht) Value.pair
  | case2 keep h t ih =>
    obtain ⟨-, -, ht⟩ := Value.hasProperLists_pair hp
    rw [Value.listQuotes]
    exact (ih ht).inside (Value.pair h)
  | case3 keep v hzero hsucc =>
    rw [Value.listQuotes.eq_3 f keep v hzero hsucc]
    exact .solid v

/-- Forms one after the other. -/
theorem rebuilds_forms {forms : List Value} (hp : ∀ form ∈ forms, form.hasProperLists = true) :
    (all hole forms).Rebuilds f forms (forms.map (·.mapQuotes f)) :=
  Rebuilds.all fun form hf => Rebuilds.hole (hp form hf)

/-- A binding is rebuilt with its form changed. -/
theorem rebuilds_binding {binding : Value} (hp : binding.hasProperLists = true) :
    (bindingHoles binding).Rebuilds f binding (binding.bindingQuotes f) := by
  match h : binding.toList? with
  | some [name, form] =>
    obtain rfl := Value.eq_list_of_toList? h
    have hform : form.hasProperLists = true := Value.hasProperLists_of_mem_heads hp form (by simp)
    have hquotes : (Value.list [name, form]).bindingQuotes f = .list [name, form.mapQuotes f] := by
      simp [Value.list, Value.listWithTail, Value.bindingQuotes]
    simp only [bindingHoles, h, hquotes]
    exact (Rebuilds.hole hform).inside fun form => Value.list [name, form]
  | none | some [] | some [_] | some (_ :: _ :: _ :: _) =>
    have hkept : binding.bindingQuotes f = binding := by
      unfold Value.bindingQuotes
      split
      · simp [Value.toList?, Value.remainder, Value.heads, Value.headsAfter] at h
      · rfl
    simp only [bindingHoles, h, hkept]
    exact .solid binding

/-- What follows the keyword of a `let`. -/
theorem rebuilds_let {keyword args : Value} (hp : (Value.pair keyword args).hasProperLists = true) :
    (letHoles (.pair keyword args)).Rebuilds f (.pair keyword args) (.pair keyword (args.letQuotes f)) := by
  have hlist := Value.toList?_of_proper (v := .pair keyword args) rfl hp
  obtain ⟨-, hargs, hpargs⟩ := Value.hasProperLists_pair hp
  cases args with
  | nil =>
    simp only [Value.heads_pair] at hlist
    simp only [letHoles, hlist, Value.letQuotes]
    exact .solid _
  | pair target body =>
    obtain ⟨htarget, hbody, hpbody⟩ := Value.hasProperLists_pair hpargs
    simp only [Value.heads_pair] at hlist
    have hforms : Value.list (body.heads.map (·.mapQuotes f)) = body.listQuotes f 0 :=
      Value.list_map_heads (by simp [Value.listQuotes]) (fun _ _ => by rw [Value.listQuotes]) hbody hpbody
    simp only [letHoles, hlist, Value.letQuotes]
    split
    · have h := rebuilds_list f 2 hp
      simp only [Value.listQuotes] at h
      exact h
    · split
      · rename_i hl
        have hblock : Value.list (target.heads.map (·.bindingQuotes f)) = target.blockQuotes f :=
          Value.list_map_heads (by simp [Value.blockQuotes]) (fun _ _ => by rw [Value.blockQuotes]) hl htarget
        have hbindings := Rebuilds.all fun binding hb => rebuilds_binding f (Value.hasProperLists_of_mem_heads htarget binding hb)
        have h := hbindings.beside (rebuilds_forms f (Value.hasProperLists_of_mem_heads hpbody))
          fun bindings forms => Value.list (keyword :: .list bindings :: forms)
        have hcons : ∀ x y zs, Value.list (x :: y :: zs) = .pair x (.pair y (.list zs)) := fun _ _ _ => rfl
        rw [hcons, hcons, Value.list_heads_of_proper hl htarget, Value.list_heads_of_proper hbody hpbody, hblock,
          hforms] at h
        exact h
      · exact .solid _
  | _ => cases hargs

/-- A clause is rebuilt with its body changed. -/
theorem rebuilds_clause {clause : Value} (hp : clause.hasProperLists = true) :
    (clauseHoles clause).Rebuilds f clause (clause.clauseQuotes f) := by
  cases clause with
  | pair pattern body =>
    obtain ⟨-, hbody, hpbody⟩ := Value.hasProperLists_pair hp
    have hlist := Value.toList?_of_proper (v := .pair pattern body) rfl hp
    simp only [Value.heads_pair] at hlist
    have hforms : Value.list (body.heads.map (·.mapQuotes f)) = body.listQuotes f 0 :=
      Value.list_map_heads (by simp [Value.listQuotes]) (fun _ _ => by rw [Value.listQuotes]) hbody hpbody
    have h := (rebuilds_forms f (Value.hasProperLists_of_mem_heads hpbody)).inside fun forms => Value.list (pattern :: forms)
    have hcons : ∀ zs, Value.list (pattern :: zs) = .pair pattern (.list zs) := fun _ => rfl
    rw [hcons, hcons, Value.list_heads_of_proper hbody hpbody, hforms] at h
    simp only [clauseHoles, hlist, Value.clauseQuotes]
    exact h
  | _ =>
    simp only [clauseHoles, Value.toList?, Value.remainder, Value.heads, Value.headsAfter, List.reverse_nil, Value.clauseQuotes]
    exact .solid _

/-- What follows the keyword of a `match`. -/
theorem rebuilds_match {keyword args : Value} (hp : (Value.pair keyword args).hasProperLists = true) :
    (matchHoles (.pair keyword args)).Rebuilds f (.pair keyword args) (.pair keyword (args.matchQuotes f)) := by
  have hlist := Value.toList?_of_proper (v := .pair keyword args) rfl hp
  obtain ⟨-, hargs, hpargs⟩ := Value.hasProperLists_pair hp
  cases args with
  | nil =>
    simp only [Value.heads_pair] at hlist
    simp only [matchHoles, hlist, Value.matchQuotes]
    exact .solid _
  | pair scrutinee clauses =>
    obtain ⟨hscrutinee, hclauses, hpclauses⟩ := Value.hasProperLists_pair hpargs
    simp only [Value.heads_pair] at hlist
    have hmap : Value.list (clauses.heads.map (·.clauseQuotes f)) = clauses.clausesQuotes f :=
      Value.list_map_heads (by simp [Value.clausesQuotes]) (fun _ _ => by rw [Value.clausesQuotes]) hclauses hpclauses
    have hall := Rebuilds.all fun clause hc => rebuilds_clause f (Value.hasProperLists_of_mem_heads hpclauses clause hc)
    have h := (Rebuilds.hole hscrutinee).beside hall
      fun first rest => Value.list (keyword :: first :: rest)
    have hcons : ∀ x y zs, Value.list (x :: y :: zs) = .pair x (.pair y (.list zs)) := fun _ _ _ => rfl
    rw [hcons, hcons, Value.list_heads_of_proper hclauses hpclauses, hmap] at h
    simp only [matchHoles, hlist, Value.matchQuotes]
    exact h
  | _ => cases hargs

/-- What follows the keyword of a quasiquote. -/
theorem rebuilds_quasiquote {args : Value} (hp : args.hasProperLists = true) :
    (specialHoles .quasiquote (.pair (.sym "quasiquote") args)).Rebuilds f
      (.pair (.sym "quasiquote") args) (.pair (.sym "quasiquote") (args.quasiquoteQuotes f)) := by
  unfold Value.quasiquoteQuotes
  split
  · rename_i template
    obtain ⟨htemplate, -, -⟩ := Value.hasProperLists_pair hp
    exact (rebuilds_template f false 1 htemplate).inside (Value.wrap "quasiquote")
  · rename_i v hv
    have hnone : (Value.pair (.sym "quasiquote") args).argumentOf? "quasiquote" = none := by
      unfold Value.argumentOf?
      split
      · rename_i s arg heq
        obtain ⟨-, hargs⟩ := Value.pair.inj heq
        exact absurd hargs (hv arg)
      · rfl
    simp only [specialHoles, hnone]
    exact .solid _

/-- A form other than a quote. -/
theorem rebuilds_form {form : Value} (hp : form.hasProperLists = true) (hq : form.isForm "quote" = false) :
    form.holes.Rebuilds f form (form.mapQuotes f) := by
  cases form with
  | pair head args =>
    obtain ⟨hhead, -, hargs⟩ := Value.hasProperLists_pair hp
    rcases Value.special_or_call head with ⟨s, special, rfl, hs⟩ | hcall
    · obtain rfl := SpecialForm.eq_keyword_of_ofSymbol? hs
      have hlist := rebuilds_list f 1 hp
      have hparams := rebuilds_list f 2 hp
      rw [Value.listQuotes] at hlist hparams
      rw [Value.holes_special hs, Value.mapQuotes, hs]
      cases special with
      | quote => cases hq
      | typeForm | moduleForm | useForm => exact .solid _
      | quasiquote => exact rebuilds_quasiquote f hargs
      | lambda | defineMacro => exact hparams
      | letForm | letMutable => exact rebuilds_let f hp
      | matchForm => exact rebuilds_match f hp
      | _ => exact hlist
    · rw [Value.holes_call hcall, Value.mapQuotes_call f hcall]
      exact (Rebuilds.hole hhead).beside (rebuilds_list f 0 hargs) Value.pair
  | vector items =>
    rw [Value.mapQuotes, Value.itemQuotes_eq_map]
    exact (rebuilds_forms f (Value.hasProperLists_of_mem hp)).inside Value.vector
  | setForm items =>
    rw [Value.mapQuotes, Value.itemQuotes_eq_map]
    exact (rebuilds_forms f (Value.hasProperLists_of_mem hp)).inside Value.setForm
  | mapForm entries =>
    have hentries : (all entryHoles entries).Rebuilds f entries (entries.map fun e => (e.1.mapQuotes f, e.2.mapQuotes f)) := by
      refine Rebuilds.all fun e he => ?_
      obtain ⟨hk, hv⟩ := Value.hasProperLists_of_mem_entries hp e he
      exact (Rebuilds.hole hk).beside (Rebuilds.hole hv) Prod.mk
    rw [Value.mapQuotes, Value.entryQuotes_eq_map]
    exact hentries.inside Value.mapForm
  | _ =>
    simp only [Value.mapQuotes]
    exact .solid _

/-- A form whose quotes are all kept is kept. -/
theorem mapQuotes_of_quotes {form : Value} (hp : form.hasProperLists = true)
    (hf : ∀ args, form.InCode (.pair (.sym "quote") args) → f (.pair (.sym "quote") args) = .pair (.sym "quote") args) :
    form.mapQuotes f = form := by
  induction hn : form.size using Nat.strongRecOn generalizing form with
  | _ n ih =>
  subst hn
  cases hq : form.isForm "quote" with
  | true =>
    obtain ⟨args, rfl⟩ := Value.eq_pair_of_isForm hq
    rw [Value.mapQuotes_quote]
    exact hf args (.self _)
  | false =>
    have h := rebuilds_form f hp hq
    refine h.changed_eq fun g hg => ih g.size (Value.size_lt_of_mem_code hg) (h.code g hg) ?_ rfl
    exact fun args hargs => hf args (.inside hg hargs)

end Rebuild

/-! ## Expansion where there are no macros -/

namespace Value

/-- A datum without set and map forms is quoted as it is. -/
theorem toDatum_of_no_collectionForm {v : Value} (h : v.hasCollectionForm = false) : v.toDatum = v := by
  induction hn : v.size using Nat.strongRecOn generalizing v with
  | _ n ih =>
  subst hn
  cases v with
  | pair head tail =>
    obtain ⟨hhead, htail⟩ := Bool.or_eq_false_iff.1 h
    rw [toDatum, ih head.size (by rw [size]; omega) hhead rfl, ih tail.size (by rw [size]; omega) htail rfl]
  | vector items =>
    have hitems : ∀ x ∈ items, x.toDatum = x := by
      intro x hx
      have := size_le_of_mem hx
      exact ih x.size (by rw [size]; omega) (hasCollectionForm_of_mem h x hx) rfl
    rw [toDatum, toData_eq_map, List.map_congr_left hitems, List.map_id'']
    intro x
    rfl
  | setForm | mapForm => cases h
  | _ => rfl

end Value

section Expand

variable {m : Machine} {env : Env}

/-- What is no macro is not taken for one. -/
theorem asMacro?_of_ne {found : Option Value} (h : ∀ f, found ≠ some (.macroFn f)) : found.bind Value.asMacro? = none := by
  cases found with
  | none => rfl
  | some v =>
    cases v with
    | macroFn f => exact absurd rfl (h f)
    | _ => rfl

/-- Where no name stands for a macro, no form calls one. -/
theorem NoMacros.macroAtHead? (h : NoMacros m env) (form : Value) : m.macroAtHead? env form = none := by
  unfold Machine.macroAtHead?
  split
  · split
    · rfl
    · exact asMacro?_of_ne (h.names _)
  · rename_i head _ _
    cases qualifiedName? head with
    | none => rfl
    | some name =>
      obtain ⟨module, member⟩ := name
      show (if m.heap.isBound env module then none else _) = none
      split
      · rfl
      · cases hmodule : m.modules.lookup module with
        | none => rfl
        | some home => exact asMacro?_of_ne (h.members module home hmodule member)
  · rfl

/-- Where there are no macros, a form is walked over once, and nothing is replaced. -/
theorem NoMacros.expandWithin (h : NoMacros m env) (eval : Evaluator) (limit : Nat) (deeper : Value → Action Value)
    {rank : Nat} {form : Value} (hp : form.hasProperLists = true) (hr : form.size ≤ rank) :
    expandWithin eval env limit deeper rank form m = .ok (form.mapQuotes Value.toDatum) m := by
  -- The code of a form is smaller than the form, so the rank lasts for the walk down to its last form.
  induction rank generalizing form with
  | zero => exact absurd form.size_pos (by omega)
  | succ rank ih =>
    cases hq : form.isForm "quote" with
    | true =>
      obtain ⟨args, rfl⟩ := Value.eq_pair_of_isForm hq
      rw [Value.mapQuotes_quote]
      exact expandWithin_of_visits (h.macroAtHead? _) rfl
    | false =>
      have hform := rebuilds_form Value.toDatum hp hq
      have hvisit : visitAll (MiniLisp.expandWithin eval env limit deeper rank) form.code m =
          .ok (form.code.map (·.mapQuotes Value.toDatum)) m := by
        refine visitAll_of_map fun g hg => ih (hform.code g hg) ?_
        have := Value.size_lt_of_mem_code hg
        omega
      rw [expandWithin_of_visits (h.macroAtHead? form) hvisit]
      exact congrArg (EStateM.Result.ok · m) hform.change

end Expand

/-- Where there are no macros, expanding a form whose lists are proper makes data of the quotes in its code, and of nothing else,
and leaves the machine as it is, whatever its limits are. A form that quotes no set or map form is its own expansion. -/
theorem expand_without_macros (eval : Evaluator) {form : Value} {env : Env} {m : Machine} (hm : NoMacros m env)
    (hp : form.hasProperLists = true) :
    expand eval form env m = .ok (form.mapQuotes Value.toDatum) m ∧ form.mapQuotes id = form ∧
      ((∀ args, form.InCode (.pair (.sym "quote") args) → args.hasCollectionForm = false) →
        expand eval form env m = .ok form m) := by
  have hexpand : expand eval form env m = .ok (form.mapQuotes Value.toDatum) m := by
    rw [expand_eq_within]
    exact hm.expandWithin eval _ _ hp (Nat.le_refl _)
  refine ⟨hexpand, mapQuotes_of_quotes id hp fun _ _ => rfl, fun hquotes => ?_⟩
  have hkept : form.mapQuotes Value.toDatum = form := by
    refine mapQuotes_of_quotes Value.toDatum hp fun args hargs => Value.toDatum_of_no_collectionForm ?_
    exact hquotes args hargs
  rw [hexpand, hkept]

/-- A machine without any names, in which no form may be replaced. -/
def namelessMachine : Machine where
  heap := ({} : Heap).newRoot.2
  global := ⟨0, []⟩
  limits := { maxMacroExpansions := 0 }

theorem noMacros_namelessMachine : NoMacros namelessMachine ⟨0, []⟩ where
  names := by
    intro name f h
    cases h
  members := by
    intro module home h
    cases h

/-- The form `(lambda (#{a}) (match '#{b} ('#{c} `('#{d} ,'#{e}))))`: the first and the last of its quoted sets are code, and so
become sets; the pattern and the template keep their set forms, and so do the parameters. -/
theorem expand_without_macros_in_match :
    let quoted (v : Value) : Value := .wrap "quote" v
    let form (b e : Value) : Value := .list [.sym "lambda", .list [.setForm [.sym "a"]],
      .list [.sym "match", quoted b, .list [quoted (.setForm [.sym "c"]),
        .wrap "quasiquote" (.list [quoted (.setForm [.sym "d"]), .wrap "unquote" (quoted e)])]]]
    let written := form (.setForm [.sym "b"]) (.setForm [.sym "e"])
    let expanded := form (.set ⟨[.sym "b"]⟩) (.set ⟨[.sym "e"]⟩)
    NoMacros namelessMachine ⟨0, []⟩ ∧ written.hasProperLists = true ∧
      expand (eval 0) written ⟨0, []⟩ namelessMachine = .ok expanded namelessMachine := by
  intro quoted form written expanded
  have hp : written.hasProperLists = true := rfl
  have hquotes : written.mapQuotes Value.toDatum = expanded := rfl
  obtain ⟨hexpand, -, -⟩ := expand_without_macros (eval 0) noMacros_namelessMachine hp
  rw [hquotes] at hexpand
  exact ⟨noMacros_namelessMachine, hp, hexpand⟩

end MiniLisp
