import MiniLisp.Proofs.Evaluation.Law
import MiniLisp.Proofs.Expansion.Filled

/-!
# What a template evaluates

Two walks find the code of a template: expansion visits it (`visitTemplate`) and instantiation evaluates it (`instantiate`). Both
count the levels of quasiquotes and unquotes for themselves. `templateHoles` says what the code is, and the main statement
(`unquoted_code_evaluated`) is that both walks keep to it: expansion puts the expansion of each piece of code in its place and
changes nothing else, and instantiation evaluates the pieces that are there then, each once and from left to right, and nothing
else. Only an error ends it before the last of them: one of an evaluation, or one about a spliced value or a misplaced splice.

An action over an evaluator that it is given, which evaluates certain forms in this way, is described by `Script`.
-/

namespace MiniLisp

variable {α β : Type} {env : Env}

/-! ## Scripts -/

/-- An action that evaluates these forms one after the other, and then gives a value; it may fail at any point before that. -/
inductive Script (env : Env) {α : Type} : List Value → (Evaluator → Action α) → Prop where
  | value (a : α) : Script env [] fun _ => pure a
  | failure (forms : List Value) (e : Error) : Script env forms fun _ => Action.fail e
  | evaluation {form : Value} {forms : List Value} {next : Value → Evaluator → Action α}
      (hnext : ∀ v, Script env forms (next v)) : Script env (form :: forms) fun eval => eval form env >>= fun v => next v eval

namespace Script

/-- An action that is a script when written in another way is one. -/
theorem of_eq {forms : List Value} {p q : Evaluator → Action α} (hq : Script env forms q) (h : ∀ eval, p eval = q eval) :
    Script env forms p := by
  obtain rfl : p = q := funext h
  exact hq

/-- Of two scripts one after the other, the forms of the first come first. -/
theorem andThen {forms forms' : List Value} {p : Evaluator → Action α} {q : α → Evaluator → Action β} (hp : Script env forms p)
    (hq : ∀ a, Script env forms' (q a)) : Script env (forms ++ forms') fun eval => p eval >>= fun a => q a eval := by
  induction hp with
  | value a => exact (hq a).of_eq fun eval => pure_bind a _
  | failure forms e => exact (failure (forms ++ forms') e).of_eq fun eval => rfl
  | evaluation _ ih => exact (evaluation ih).of_eq fun eval => bind_assoc _ _ _

/-- A script whose result is changed by a function. -/
theorem returning {forms : List Value} {p : Evaluator → Action α} (hp : Script env forms p) (f : α → β) :
    Script env forms fun eval => p eval >>= fun a => pure (f a) := by
  have h := hp.andThen fun a => (value (f a) : Script env [] _)
  rwa [List.append_nil] at h

/-- One form that is evaluated is a script of it. -/
theorem single (form : Value) : Script env [form] fun eval => eval form env :=
  (evaluation value).of_eq fun _ => (bind_pure _).symm

theorem ofExcept (r : Except Error α) : Script env [] fun _ => Action.ofExcept r := by
  cases r with
  | ok a => exact value a
  | error e => exact failure [] e

end Script

/-! ## What a script says of every evaluator -/

/-- The record grows by each form that the evaluator is asked for, with its environment. -/
def Records (record : Machine → List (Value × Env)) (eval : Evaluator) : Prop :=
  ∀ form env m, record (Action.after (eval form env) m) = record m ++ [(form, env)]

/-- Whatever the evaluator is, the action evaluates these forms in this environment, each once and in this order, and changes the
machine in no other way; if it does not evaluate all of them, it ends with an error. -/
structure EvaluatesInOrder (env : Env) (forms : List Value) (p : Evaluator → Action α) : Prop where
  completed : ∀ eval m v m', p eval m = .ok v m' → ∃ vs, evalAll eval env forms m = .ok vs m'
  /-- The last evaluation that was begun failed, or the action failed by itself after some evaluations. -/
  aborted : ∀ eval m e m', p eval m = .error e m' → ∃ begun, begun <+: forms ∧
    (evalAll eval env begun m = .error e m' ∨ ∃ vs, evalAll eval env begun m = .ok vs m')
  /-- An evaluator that keeps a record is asked for these forms, in this order, and for nothing else. -/
  recorded : ∀ record eval m, Records record eval → ∃ begun, begun <+: forms ∧
    record (Action.after (p eval) m) = record m ++ begun.map (·, env) ∧ ∀ v m', p eval m = .ok v m' → begun = forms

/-- Where the first form has a value, the others follow. -/
theorem evalAll_cons_of_ok {eval : Evaluator} {form v : Value} {m m' : Machine} (h : eval form env m = .ok v m')
    (forms : List Value) : evalAll eval env (form :: forms) m = (evalAll eval env forms >>= fun vs => pure (v :: vs)) m' :=
  Action.bind_of_ok _ h

namespace EvaluatesInOrder

theorem value (env : Env) (a : α) : EvaluatesInOrder env [] fun _ => pure a where
  completed eval m v m' hr := by
    cases hr
    exact ⟨[], rfl⟩
  aborted eval m e m' hr := by cases hr
  recorded record eval m _ := ⟨[], List.nil_prefix, (List.append_nil _).symm, fun _ _ _ => rfl⟩

/-- A failure may come before all forms are evaluated. -/
theorem failure (env : Env) (forms : List Value) (e : Error) :
    EvaluatesInOrder env forms fun _ => (Action.fail e : Action α) where
  completed eval m v m' hr := by cases hr
  aborted eval m e' m' hr := by
    cases hr
    exact ⟨[], List.nil_prefix, .inr ⟨[], rfl⟩⟩
  recorded record eval m _ := ⟨[], List.nil_prefix, (List.append_nil _).symm, fun _ _ hr => by cases hr⟩

/-- One evaluation, and then whatever is done with its value. -/
theorem evaluation {form : Value} {forms : List Value} {next : Value → Evaluator → Action α}
    (h : ∀ v, EvaluatesInOrder env forms (next v)) :
    EvaluatesInOrder env (form :: forms) fun eval => eval form env >>= fun v => next v eval where
  completed eval m w m'' hr := by
    obtain ⟨v, m', hform, hr⟩ := Action.bind_eq_ok hr
    obtain ⟨vs, hvs⟩ := (h v).completed eval m' w m'' hr
    refine ⟨v :: vs, ?_⟩
    rw [evalAll_cons_of_ok hform, Action.bind_of_ok _ hvs]
    rfl
  aborted eval m e m'' hr := by
    rcases Action.bind_eq_error hr with hform | ⟨v, m', hform, hr⟩
    · exact ⟨[form], by simp, .inl (Action.bind_of_error _ hform)⟩
    · obtain ⟨begun, hbegun, hends⟩ := (h v).aborted eval m' e m'' hr
      refine ⟨form :: begun, by simpa using hbegun, ?_⟩
      rw [evalAll_cons_of_ok hform]
      rcases hends with hfails | ⟨vs, hvs⟩
      · exact .inl (Action.bind_of_error _ hfails)
      · exact .inr ⟨v :: vs, by rw [Action.bind_of_ok _ hvs]; rfl⟩
  recorded record eval m hrecord := by
    have hafter := hrecord form env m
    cases hform : eval form env m with
    | error e m' =>
      refine ⟨[form], by simp, ?_, fun v m'' hr => ?_⟩
      · rw [Action.after_bind_of_error _ hform, ← Action.after_eq_of_error hform, hafter]
        rfl
      · rw [Action.bind_of_error _ hform] at hr
        cases hr
    | ok v m' =>
      obtain ⟨begun, hbegun, hrest, hall⟩ := (h v).recorded record eval m' hrecord
      refine ⟨form :: begun, by simpa using hbegun, ?_, fun w m'' hr => ?_⟩
      · rw [Action.after_bind_of_ok _ hform, hrest, ← Action.after_eq_of_ok hform, hafter]
        simp
      · rw [Action.bind_of_ok _ hform] at hr
        rw [hall w m'' hr]

end EvaluatesInOrder

/-- A script evaluates its forms in their order, up to the first that has no value. -/
theorem Script.evaluatesInOrder {forms : List Value} {p : Evaluator → Action α} (h : Script env forms p) :
    EvaluatesInOrder env forms p := by
  induction h with
  | value a => exact .value env a
  | failure forms e => exact .failure env forms e
  | evaluation _ ih => exact .evaluation ih

/-! ## Templates without sets and maps -/

namespace Value

mutual

/-- Whether there is a set or map in a value, at any depth of its lists, vectors and set and map forms. -/
def hasCollection : Value → Bool
  | .set _ | .map _ => true
  | .pair h t => h.hasCollection || t.hasCollection
  | .vector xs | .setForm xs => haveCollection xs
  | .mapForm es => entriesHaveCollection es
  | _ => false

/-- Whether there is a set or map in one of several values. -/
def haveCollection : List Value → Bool
  | [] => false
  | x :: xs => x.hasCollection || haveCollection xs

/-- Whether there is a set or map in a key or value of a map form. -/
def entriesHaveCollection : List (Value × Value) → Bool
  | [] => false
  | (k, v) :: es => k.hasCollection || v.hasCollection || entriesHaveCollection es

end

/-- Whether a value has no parts that a template could look into. -/
def isAtom : Value → Bool
  | .pair .. | .vector _ | .set _ | .map _ | .setForm _ | .mapForm _ => false
  | _ => true

/-- Induction over the parts of a template. The tail of a pair is a part of it, and so is the argument in a list of two. -/
@[elab_as_elim]
theorem parts_induction {motive : Value → Prop}
    (pair : ∀ h t, motive h → motive t → (∀ arg, t = .pair arg .nil → motive arg) → motive (.pair h t))
    (vector : ∀ xs, (∀ x ∈ xs, motive x) → motive (.vector xs))
    (setForm : ∀ xs, (∀ x ∈ xs, motive x) → motive (.setForm xs))
    (mapForm : ∀ es, (∀ e ∈ es, motive e.1 ∧ motive e.2) → motive (.mapForm es))
    (set : ∀ s, motive (.set s)) (map : ∀ m, motive (.map m)) (atom : ∀ v, v.isAtom = true → motive v) (v : Value) :
    motive v := by
  induction hn : v.size using Nat.strongRecOn generalizing v with
  | _ n ih =>
  subst hn
  cases v with
  | pair h t =>
    refine pair h t (ih h.size (by rw [size]; omega) h rfl) (ih t.size (by rw [size]; omega) t rfl) ?_
    rintro arg rfl
    exact ih arg.size (by rw [size, size]; omega) arg rfl
  | vector xs =>
    refine vector xs fun x hx => ?_
    have := size_le_of_mem hx
    exact ih x.size (by rw [size]; omega) x rfl
  | setForm xs =>
    refine setForm xs fun x hx => ?_
    have := size_le_of_mem hx
    exact ih x.size (by rw [size]; omega) x rfl
  | mapForm es =>
    refine mapForm es fun e he => ?_
    have := size_le_of_mem_entries he
    exact ⟨ih e.1.size (by rw [size]; omega) e.1 rfl, ih e.2.size (by rw [size]; omega) e.2 rfl⟩
  | set s => exact set s
  | map m => exact map m
  | _ => exact atom _ rfl

theorem hasCollection_atom {v : Value} (h : v.isAtom = true) : v.hasCollection = false := by
  cases v with
  | pair | vector | set | map | setForm | mapForm => cases h
  | _ => simp [hasCollection]

end Value

section Instantiate

open Holes

/-- The template with nothing in the place of its code. -/
def hollow (inTail : Bool) (level : Nat) (template : Value) : Value := (templateHoles inTail level template).fill []

/-- An atom has no code in a template. -/
theorem templateHoles_atom {v : Value} (h : v.isAtom = true) (inTail : Bool) (level : Nat) :
    templateHoles inTail level v = solid v := by
  cases v with
  | pair | vector | set | map | setForm | mapForm => cases h
  | _ => simp [templateHoles]

variable (env : Env)

/-- An atom is filled to itself. -/
theorem instantiate_atom (eval : Evaluator) {v : Value} (h : v.isAtom = true) (inTail : Bool) (level : Nat) :
    instantiate eval env inTail level v = pure v := by
  cases v with
  | pair | vector | set | map | setForm | mapForm => cases h
  | _ => simp [instantiate]

/-- Any list that does not change the level is instantiated element by element. -/
theorem instantiate_pair (eval : Evaluator) {inTail : Bool} {h t : Value} (hn : inTail = true ∨ ¬IsEscape (.pair h t))
    (level : Nat) :
    instantiate eval env inTail level (.pair h t) = (do
      let items ← spliceOr eval env level h (instantiate eval env false level h)
      let tail ← instantiate eval env true level t
      return .listWithTail items tail) := by
  by_cases hw : ∃ s arg, h = .sym s ∧ t = .pair arg .nil
  · obtain ⟨s, arg, rfl, rfl⟩ := hw
    have hsym : spliceOr eval env level (.sym s) (instantiate eval env false level (.sym s)) = pure [.sym s] := by
      simp [spliceOr, instantiate, Value.argumentOf?]
    rw [instantiate, hsym]
    rcases hn with rfl | hn
    · simp [Value.listWithTail]
    · have hs : ¬(s = "unquote" ∨ s = "unquote-splicing") := fun hs => hn ⟨s, arg, rfl, .inl hs⟩
      have hq : s ≠ "quasiquote" := fun hq => hn ⟨s, arg, rfl, .inr hq⟩
      rw [not_or] at hs
      simp [hs, hq, Value.listWithTail]
  · rw [instantiate.eq_2]
    intro s arg hh ht
    exact hw ⟨s, arg, hh, ht⟩

/-- A pair is hollow by parts. -/
theorem hollow_pair {inTail : Bool} {h t : Value} (hn : inTail = true ∨ ¬IsEscape (.pair h t)) (level : Nat) :
    hollow inTail level (.pair h t) = .pair (hollow false level h) (hollow true level t) := by
  simp [hollow, templateHoles_pair hn, beside]

/-- A splicing mark at level one has the spliced code as its only code. -/
theorem spliceOr_script (level : Nat) (item : Value) {copy : Evaluator → Action Value}
    (h : Script env (templateHoles false level item).code copy) :
    Script env (templateHoles false level item).code fun eval => spliceOr eval env level item (copy eval) := by
  unfold spliceOr
  split
  · rename_i code hcode
    obtain rfl := Value.eq_wrap_of_argumentOf? hcode
    have hholes : (templateHoles false 1 (.wrap "unquote-splicing" code)).code = [code] := by
      simp [Value.wrap, Value.list, Value.listWithTail, templateHoles, inside, hole]
    rw [hholes]
    exact (Script.single code).andThen fun v => .ofExcept (splicedItems v)
  · exact h.returning _

/-- A form that changes the level, if what it holds is a script at every level. -/
theorem escape_script (level : Nat) {s : Symbol} {arg : Value} (hs : (s = "unquote" ∨ s = "unquote-splicing") ∨ s = "quasiquote")
    (hc : (hollow false level (.wrap s arg)).hasCollection = false)
    (harg : ∀ level, (hollow false level arg).hasCollection = false →
      Script env (templateHoles false level arg).code fun eval => instantiate eval env false level arg) :
    Script env (templateHoles false level (.wrap s arg)).code fun eval => instantiate eval env false level (.wrap s arg) := by
  have hwrap : ∀ v, Value.wrap s v = .pair (.sym s) (.pair v .nil) := fun _ => rfl
  -- Where the mark is kept, what it holds is a template of another level.
  have hkept : ∀ level', templateHoles false level (.wrap s arg) = (templateHoles false level' arg).inside (.wrap s) →
      (∀ eval, instantiate eval env false level (.wrap s arg) = do return .wrap s (← instantiate eval env false level' arg)) →
      Script env (templateHoles false level (.wrap s arg)).code
        fun eval => instantiate eval env false level (.wrap s arg) := by
    intro level' hholes hinstance
    have hc' : (hollow false level' arg).hasCollection = false := by
      rw [hollow, hholes] at hc
      simpa [inside, hwrap, Value.hasCollection, hollow] using hc
    rw [hholes]
    exact ((harg level' hc').returning (.wrap s)).of_eq hinstance
  by_cases hu : s = "unquote" ∨ s = "unquote-splicing"
  · by_cases hl : level = 1
    · have hholes : (templateHoles false level (.wrap s arg)).code = [arg] := by
        simp [hwrap, templateHoles, hu, hl, inside, hole]
      rw [hholes]
      rcases hu with rfl | rfl
      · exact (Script.single arg).of_eq fun eval => by simp [hwrap, instantiate, hl]
      · exact (Script.failure [arg] misplacedSplice).of_eq fun eval => by simp [hwrap, instantiate, hl]
    · refine hkept (level - 1) (by simp [hwrap, templateHoles, hu, hl]) fun eval => ?_
      rcases hu with rfl | rfl <;> simp [hwrap, instantiate, hl]
  · obtain rfl := hs.resolve_left hu
    exact hkept (level + 1) (by simp [hwrap, templateHoles]) fun eval => by simp [hwrap, instantiate]

/-- The items of a template evaluate their code from left to right. -/
theorem instantiateItems_script (level : Nat) {templates : List Value}
    (h : ∀ x ∈ templates, (hollow false level x).hasCollection = false →
      Script env (templateHoles false level x).code fun eval => instantiate eval env false level x)
    (hc : Value.haveCollection ((templatesHoles level templates).fill []) = false) :
    Script env (templatesHoles level templates).code fun eval => instantiateItems eval env level templates := by
  induction templates with
  | nil => exact .value []
  | cons x xs ih =>
    obtain ⟨hx, hxs⟩ := List.forall_mem_cons.1 h
    obtain ⟨hcx, hcxs⟩ : (hollow false level x).hasCollection = false ∧
        Value.haveCollection ((templatesHoles level xs).fill []) = false := by
      simpa [templatesHoles, beside, Value.haveCollection, hollow] using hc
    rw [templatesHoles]
    refine Script.of_eq ?_ fun eval => by rw [instantiateItems]
    exact (spliceOr_script env level x (hx hcx)).andThen fun items => (ih hxs hcxs).returning (items ++ ·)

/-- So do its entries. -/
theorem instantiateEntries_script (level : Nat) {templates : List (Value × Value)}
    (h : ∀ e ∈ templates,
      ((hollow false level e.1).hasCollection = false →
        Script env (templateHoles false level e.1).code fun eval => instantiate eval env false level e.1) ∧
      ((hollow false level e.2).hasCollection = false →
        Script env (templateHoles false level e.2).code fun eval => instantiate eval env false level e.2))
    (hc : Value.entriesHaveCollection ((templateEntriesHoles level templates).fill []) = false) :
    Script env (templateEntriesHoles level templates).code fun eval => instantiateEntries eval env level templates := by
  induction templates with
  | nil => exact .value []
  | cons e es ih =>
    obtain ⟨⟨hk, hv⟩, hes⟩ := List.forall_mem_cons.1 h
    obtain ⟨k, v⟩ := e
    obtain ⟨⟨hck, hcv⟩, hces⟩ : ((hollow false level k).hasCollection = false ∧ (hollow false level v).hasCollection = false) ∧
        Value.entriesHaveCollection ((templateEntriesHoles level es).fill []) = false := by
      simpa [templateEntriesHoles, beside, Value.entriesHaveCollection, hollow] using hc
    rw [templateEntriesHoles]
    have hentry := ((hk hck).andThen fun key => (hv hcv).returning (Prod.mk key)).andThen fun entry =>
      (ih hes hces).returning (entry :: ·)
    exact hentry.of_eq fun eval => by simp [instantiateEntries]

/-- Instantiation evaluates the code of a template. -/
theorem instantiate_script (inTail : Bool) (level : Nat) {template : Value}
    (hc : (hollow inTail level template).hasCollection = false) :
    Script env (templateHoles inTail level template).code fun eval => instantiate eval env inTail level template := by
  induction template using Value.parts_induction generalizing inTail level with
  | pair h t hhead htail harg =>
    by_cases hn : inTail = true ∨ ¬IsEscape (.pair h t)
    · rw [hollow_pair hn, Value.hasCollection, Bool.or_eq_false_iff] at hc
      rw [templateHoles_pair hn]
      refine Script.of_eq ?_ fun eval => instantiate_pair env eval hn level
      exact (spliceOr_script env level h (hhead false level hc.1)).andThen fun items =>
        (htail true level hc.2).returning (Value.listWithTail items)
    · obtain ⟨rfl, s, arg, hw, hs⟩ : inTail = false ∧ IsEscape (.pair h t) := by simpa using hn
      obtain ⟨rfl, rfl⟩ := Value.pair.inj hw
      exact escape_script env level hs hc (harg arg rfl false)
  | vector xs hxs =>
    rw [hollow, templateHoles] at hc
    rw [templateHoles]
    exact ((instantiateItems_script env level (fun x hx => hxs x hx false level) hc).returning .vector).of_eq
      fun eval => by simp [instantiate]
  | setForm xs hxs =>
    rw [hollow, templateHoles] at hc
    rw [templateHoles]
    exact ((instantiateItems_script env level (fun x hx => hxs x hx false level) hc).returning
      fun items => if level = 1 then .set (.ofList items) else .setForm items).of_eq fun eval => by simp [instantiate]
  | mapForm es hes =>
    rw [hollow, templateHoles] at hc
    rw [templateHoles]
    have hentries := instantiateEntries_script env level (fun e he => ⟨(hes e he).1 false level, (hes e he).2 false level⟩) hc
    exact (hentries.returning fun entries => if level = 1 then .map (.ofList entries) else .mapForm entries).of_eq
      fun eval => by simp [instantiate]
  | set s | map s => simp [hollow, templateHoles, solid, Value.hasCollection] at hc
  | atom v hv =>
    rw [templateHoles_atom hv]
    exact (Script.value v).of_eq fun eval => instantiate_atom env eval hv inTail level

/-! ## A template and its shape -/

/-- Two things beside each other are filled with their own code each. -/
theorem fill_code_beside {γ : Type} (f : α → β → γ) (a : Holes α) (b : Holes β) :
    (beside f a b).fill (beside f a b).code = f (a.fill a.code) (b.fill b.code) := by
  simp [beside]

/-- Templates that are filled with their own code are as before. -/
theorem templatesHoles_fill_code {level : Nat} {templates : List Value}
    (h : ∀ x ∈ templates, (templateHoles false level x).fill (templateHoles false level x).code = x) :
    (templatesHoles level templates).fill (templatesHoles level templates).code = templates := by
  induction templates with
  | nil => rfl
  | cons x xs ih =>
    obtain ⟨hx, hxs⟩ := List.forall_mem_cons.1 h
    rw [templatesHoles, fill_code_beside, hx, ih hxs]

theorem templateEntriesHoles_fill_code {level : Nat} {templates : List (Value × Value)}
    (h : ∀ e ∈ templates, (templateHoles false level e.1).fill (templateHoles false level e.1).code = e.1 ∧
      (templateHoles false level e.2).fill (templateHoles false level e.2).code = e.2) :
    (templateEntriesHoles level templates).fill (templateEntriesHoles level templates).code = templates := by
  induction templates with
  | nil => rfl
  | cons e es ih =>
    obtain ⟨⟨hk, hv⟩, hes⟩ := List.forall_mem_cons.1 h
    obtain ⟨k, v⟩ := e
    rw [templateEntriesHoles, fill_code_beside, fill_code_beside, hk, hv, ih hes]

/-- A template is its shape, filled with its own code. -/
theorem templateHoles_fill_code (inTail : Bool) (level : Nat) (template : Value) :
    (templateHoles inTail level template).fill (templateHoles inTail level template).code = template := by
  induction template using Value.parts_induction generalizing inTail level with
  | pair h t hhead htail harg =>
    by_cases hn : inTail = true ∨ ¬IsEscape (.pair h t)
    · rw [templateHoles_pair hn, fill_code_beside, hhead, htail]
    · obtain ⟨rfl, s, arg, hw, hs⟩ : inTail = false ∧ IsEscape (.pair h t) := by simpa using hn
      obtain ⟨rfl, rfl⟩ := Value.pair.inj hw
      obtain ⟨inner, hinner, rfl | ⟨level', rfl⟩⟩ := templateHoles_escape level hs
      · rw [hw, hinner]
        rfl
      · rw [hw, hinner]
        exact congrArg (Value.wrap s) (harg arg rfl false level')
  | vector xs hxs | setForm xs hxs =>
    have hfill := templatesHoles_fill_code fun x hx => hxs x hx false level
    simp [templateHoles, inside, hfill]
  | mapForm es hes =>
    have hfill := templateEntriesHoles_fill_code fun e he => ⟨(hes e he).1 false level, (hes e he).2 false level⟩
    simp [templateHoles, inside, hfill]
  | set | map => simp [templateHoles, solid]
  | atom v hv =>
    rw [templateHoles_atom hv]
    rfl

/-- Items without collections have none when hollow. -/
theorem haveCollection_hollow {level : Nat} {templates : List Value}
    (h : ∀ x ∈ templates, x.hasCollection = false → (hollow false level x).hasCollection = false)
    (hc : Value.haveCollection templates = false) : Value.haveCollection ((templatesHoles level templates).fill []) = false := by
  induction templates with
  | nil => rfl
  | cons x xs ih =>
    obtain ⟨hx, hxs⟩ := List.forall_mem_cons.1 h
    obtain ⟨hcx, hcxs⟩ := Bool.or_eq_false_iff.1 hc
    have hx' : ((templateHoles false level x).fill []).hasCollection = false := hx hcx
    simp [templatesHoles, beside, Value.haveCollection, hx', ih hxs hcxs]

/-- Nor have entries. -/
theorem entriesHaveCollection_hollow {level : Nat} {templates : List (Value × Value)}
    (h : ∀ e ∈ templates, (e.1.hasCollection = false → (hollow false level e.1).hasCollection = false) ∧
      (e.2.hasCollection = false → (hollow false level e.2).hasCollection = false))
    (hc : Value.entriesHaveCollection templates = false) :
    Value.entriesHaveCollection ((templateEntriesHoles level templates).fill []) = false := by
  induction templates with
  | nil => rfl
  | cons e es ih =>
    obtain ⟨⟨hk, hv⟩, hes⟩ := List.forall_mem_cons.1 h
    obtain ⟨k, v⟩ := e
    obtain ⟨hckv, hces⟩ := Bool.or_eq_false_iff.1 hc
    obtain ⟨hck, hcv⟩ := Bool.or_eq_false_iff.1 hckv
    have hk' : ((templateHoles false level k).fill []).hasCollection = false := hk hck
    have hv' : ((templateHoles false level v).fill []).hasCollection = false := hv hcv
    simp [templateEntriesHoles, beside, Value.entriesHaveCollection, hk', hv', ih hes hces]

/-- Leaving out the code of a template brings no set or map into it. -/
theorem hasCollection_hollow (inTail : Bool) (level : Nat) {template : Value} (hc : template.hasCollection = false) :
    (hollow inTail level template).hasCollection = false := by
  induction template using Value.parts_induction generalizing inTail level with
  | pair h t hhead htail harg =>
    by_cases hn : inTail = true ∨ ¬IsEscape (.pair h t)
    · rw [Value.hasCollection, Bool.or_eq_false_iff] at hc
      rw [hollow_pair hn, Value.hasCollection, hhead false level hc.1, htail true level hc.2]
      rfl
    · obtain ⟨rfl, s, arg, hw, hs⟩ : inTail = false ∧ IsEscape (.pair h t) := by simpa using hn
      obtain ⟨rfl, rfl⟩ := Value.pair.inj hw
      have hwrap : ∀ v, (Value.wrap s v).hasCollection = v.hasCollection := by
        intro v
        simp [Value.wrap, Value.list, Value.listWithTail, Value.hasCollection]
      rw [hw, hwrap] at hc
      rw [hw, hollow]
      obtain ⟨inner, hinner, rfl | ⟨level', rfl⟩⟩ := templateHoles_escape level hs
      · rw [hinner]
        exact (hwrap .nil).trans (by simp [Value.hasCollection])
      · rw [hinner]
        exact (hwrap _).trans (harg arg rfl false level' hc)
  | vector xs hxs | setForm xs hxs =>
    rw [Value.hasCollection] at hc
    have hhollow := haveCollection_hollow (fun x hx => hxs x hx false level) hc
    simp [hollow, templateHoles, inside, Value.hasCollection, hhollow]
  | mapForm es hes =>
    rw [Value.hasCollection] at hc
    have hhollow := entriesHaveCollection_hollow (fun e he => ⟨(hes e he).1 false level, (hes e he).2 false level⟩) hc
    simp [hollow, templateHoles, inside, Value.hasCollection, hhollow]
  | set | map => simp [Value.hasCollection] at hc
  | atom v hv =>
    rw [hollow, templateHoles_atom hv]
    exact Value.hasCollection_atom hv

end Instantiate

/-- Expansion and instantiation agree on what is code in a template without sets and maps. Expanding a template visits its code
from left to right, puts what the visits give in its place, and changes nothing else. In what comes out, the code is what was put
in, and instantiation evaluates it, each piece once and from left to right, and nothing else. -/
theorem unquoted_code_evaluated (visit : Value → Action Value) {template expanded : Value} {m m' : Machine}
    (hc : template.hasCollection = false) (h : visitTemplate visit false 1 template m = .ok expanded m') :
    ∃ shape : Holes Value, shape = templateHoles false 1 template ∧ shape.fill shape.code = template ∧
      ∃ code, visitAll visit shape.code m = .ok code m' ∧ shape.fill code = expanded ∧
        (templateHoles false 1 expanded).code = code ∧
        ∀ env, EvaluatesInOrder env code fun eval => instantiate eval env false 1 expanded := by
  refine ⟨_, rfl, templateHoles_fill_code false 1 template, ?_⟩
  rw [visitTemplate_eq] at h
  obtain ⟨code, m₁, hvisit, h⟩ := Action.bind_eq_ok h
  cases h
  -- The filled template has the same shape, so it is hollow in the same way, and its code is what was put in.
  have hshape := stable_template false 1 template code (length_of_visitAll hvisit)
  have hcode : (templateHoles false 1 ((templateHoles false 1 template).fill code)).code = code := by
    rw [hshape]
    rfl
  refine ⟨code, hvisit, rfl, hcode, fun env => ?_⟩
  have hhollow : (hollow false 1 ((templateHoles false 1 template).fill code)).hasCollection = false := by
    rw [hollow, hshape]
    exact hasCollection_hollow false 1 hc
  have hscript := instantiate_script env false 1 hhollow
  rw [hcode] at hscript
  exact hscript.evaluatesInOrder

/-- An evaluator that gives each form back and keeps it in the heap, in a function of the environment in which it was asked for. -/
def recordingEval : Evaluator := fun form env m =>
  let f : Lambda Value := { id := 0, name := none, params := {}, body := [form], env }
  .ok form { m with heap := (m.heap.newSlot (.closure f) false).2 }

/-- The forms that the recording evaluator was asked for, with their environments. -/
def recordOf (m : Machine) : List (Value × Env) :=
  m.heap.slots.toList.filterMap fun slot =>
    match slot.value with
    | .closure f => f.body.head?.map (·, f.env)
    | _ => none

/-- The recording evaluator keeps a record of what it evaluates. -/
theorem records_recordingEval : Records recordOf recordingEval := by
  intro form env m
  simp [recordOf, recordingEval, Action.after, Heap.newSlot]

/-- The template `(a ,b #{,@c} `(d ,(e ,f)) . [,@g h])`, whose code is put into quotes by its expansion: `b`, `c`, `f` and `g` are
code, and the inner template stays. All four of them are evaluated if the template is instantiated by an evaluator that gives lists
for them. -/
theorem unquoted_code_evaluated_nested :
    let quoted (name : Symbol) : Value := .wrap "quote" (.sym name)
    let template (b c f g : Value) : Value :=
      .listWithTail [.sym "a", .wrap "unquote" b, .setForm [.wrap "unquote-splicing" c],
        .wrap "quasiquote" (.list [.sym "d", .wrap "unquote" (.list [.sym "e", .wrap "unquote" f])])]
        (.vector [.wrap "unquote-splicing" g, .sym "h"])
    let written := template (.sym "b") (.sym "c") (.sym "f") (.sym "g")
    let expanded := template (quoted "b") (quoted "c") (quoted "f") (quoted "g")
    let m : Machine := { heap := {}, global := ⟨0, []⟩ }
    written.hasCollection = false ∧ visitTemplate (fun form => pure (.wrap "quote" form)) false 1 written m = .ok expanded m ∧
      EvaluatesInOrder m.global [quoted "b", quoted "c", quoted "f", quoted "g"]
        (fun eval => instantiate eval m.global false 1 expanded) ∧
      recordOf (Action.after (instantiate recordingEval m.global false 1 expanded) m) =
        [quoted "b", quoted "c", quoted "f", quoted "g"].map (·, m.global) := by
  intro quoted template written expanded m
  have hc : written.hasCollection = false := rfl
  have hexpanded : visitTemplate (fun form => pure (.wrap "quote" form)) false 1 written m = .ok expanded m := rfl
  obtain ⟨shape, rfl, -, code, hvisit, -, -, hevaluated⟩ := unquoted_code_evaluated _ hc hexpanded
  obtain rfl : [quoted "b", quoted "c", quoted "f", quoted "g"] = code := by
    cases hvisit
    rfl
  refine ⟨hc, hexpanded, hevaluated m.global, ?_⟩
  obtain ⟨begun, -, hrecord, hall⟩ := (hevaluated m.global).recorded recordOf recordingEval m records_recordingEval
  rw [hrecord, hall _ _ rfl]
  rfl

end MiniLisp
