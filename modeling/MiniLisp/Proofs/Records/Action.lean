import MiniLisp.Proofs.Evaluation.Law
import MiniLisp.Proofs.Records.Saturated
import MiniLisp.Proofs.Template.Unquoted

/-!
# Actions on saturated heaps

A heap is saturated when the values of all its slots are. An action yields a property when, begun with a saturated heap, it leaves
one however it ends, and its result has the property (`Action.Yields`). Over an evaluator that gives saturated values for saturated
forms, a call does so (`applyValue_yields`), and so does a template (`instantiate_yields`).
-/

namespace MiniLisp

open Value (Saturated)

variable {α β : Type} {P : α → Prop} {Q : β → Prop}

/-! ## Heaps -/

namespace Heap

/-- The values of all slots are saturated. -/
def Saturated (h : Heap) : Prop := ∀ slot ∈ h.slots, slot.value.Saturated

variable {h : Heap}

/-- A definition of a saturated value keeps the heap saturated. -/
theorem Saturated.define (hs : h.Saturated) (frame : FrameId) (name : Symbol) {v : Value} (hv : v.Saturated) (mutable : Bool) :
    (h.define frame name v mutable).Saturated := by
  intro slot hslot
  rw [slots_define] at hslot
  rcases Array.mem_push.1 hslot with hslot | rfl
  · exact hs slot hslot
  · exact hv

/-- So do several such definitions. -/
theorem Saturated.defineAll (hs : h.Saturated) (frame : FrameId) (mutable : Bool) {bindings : List (Symbol × Value)}
    (hb : BindingsSaturated bindings) : (h.defineAll frame mutable bindings).Saturated := by
  induction bindings generalizing h with
  | nil => exact hs
  | cons b bs ih =>
    obtain ⟨hb, hbs⟩ := List.forall_mem_cons.1 hb
    rw [Heap.defineAll, List.foldl_cons]
    exact ih (hs.define frame b.1 hb mutable) hbs

/-- So does the filling of a slot with a saturated value. -/
theorem Saturated.fill (hs : h.Saturated) (slot : SlotId) {v : Value} (hv : v.Saturated) : (h.fill slot v).Saturated := by
  intro s hmem
  obtain ⟨i, hi, rfl⟩ := Array.getElem_of_mem hmem
  simp only [Heap.fill, Array.getElem_modify]
  split
  · exact hv
  · exact hs _ (Array.getElem_mem _)

/-- To bind names to slots changes no value. -/
theorem Saturated.bindAll (hs : h.Saturated) (frame : FrameId) (bindings : List (Symbol × SlotId)) :
    (h.bindAll frame bindings).Saturated := by
  intro slot hslot
  rw [slots_bindAll] at hslot
  exact hs slot hslot

/-- The value in a slot of a saturated heap is saturated. -/
theorem Saturated.slot (hs : h.Saturated) {slot : SlotId} {v : Value} (hv : h.slots[slot]?.map (·.value) = some v) :
    v.Saturated := by
  obtain ⟨s, hslot, rfl⟩ := Option.map_eq_some_iff.1 hv
  exact hs s (Array.mem_of_getElem? hslot)

/-- So is the value of a name in an environment. -/
theorem Saturated.lookup (hs : h.Saturated) {env : Env} {name : Symbol} {v : Value} (hv : h.lookup? env name = some v) :
    v.Saturated := by
  obtain ⟨slot, -, hslot⟩ := Option.bind_eq_some_iff.1 hv
  exact hs.slot hslot

/-- So is the value of a name in a frame. -/
theorem Saturated.lookupLocal (hs : h.Saturated) {frame : FrameId} {name : Symbol} {v : Value}
    (hv : h.lookupLocal? frame name = some v) : v.Saturated := by
  obtain ⟨slot, -, hslot⟩ := Option.bind_eq_some_iff.1 hv
  exact hs.slot hslot

end Heap

/-! ## Actions -/

/-- Begun with a saturated heap, the action leaves one however it ends, and its result has the property. -/
structure Action.Yields (P : α → Prop) (a : Action α) : Prop where
  kept : ∀ m, m.heap.Saturated → (Action.after a m).heap.Saturated
  result : ∀ m v m', m.heap.Saturated → a m = .ok v m' → P v

namespace Action.Yields

theorem value {a : α} (h : P a) : Yields P (pure a) where
  kept _ hm := hm
  result := by
    rintro m _ _ _ ⟨⟩
    exact h

theorem abort (e : Abort) : Yields P (throw e : Action α) where
  kept _ hm := hm
  result _ _ _ _ hr := nomatch hr

theorem fail (e : Error) : Yields P (Action.fail e : Action α) := abort (.error e)

/-- What follows a first part may rely on what that gives. -/
theorem bind {a : Action α} {f : α → Action β} (ha : a.Yields P) (hf : ∀ v, P v → (f v).Yields Q) :
    (a >>= f).Yields Q where
  kept m hm := by
    have hkept := ha.kept m hm
    cases hr : a m with
    | ok v m' =>
      rw [Action.after_eq_of_ok hr] at hkept
      rw [Action.after_bind_of_ok f hr]
      exact (hf v (ha.result m v m' hm hr)).kept m' hkept
    | error e m' =>
      rw [Action.after_eq_of_error hr] at hkept
      rwa [Action.after_bind_of_error f hr]
  result m w m'' hm hr := by
    have hkept := ha.kept m hm
    obtain ⟨v, m', hv, hw⟩ := Action.bind_eq_ok hr
    rw [Action.after_eq_of_ok hv] at hkept
    exact (hf v (ha.result m v m' hm hv)).result m' w m'' hkept hw

/-- What is done with the result does not matter to the heap. -/
theorem returning {a : Action α} {f : α → β} (ha : a.Yields P) (hf : ∀ v, P v → Q (f v)) :
    (a >>= fun v => pure (f v)).Yields Q :=
  ha.bind fun v hv => value (hf v hv)

/-- What a check gives has the property that the check gives. -/
theorem ofExcept {r : Except Error α} (h : GivesOnly P r) : (Action.ofExcept r).Yields P := by
  cases r with
  | ok a => exact value (h a rfl)
  | error e => exact fail e

/-- What a question finds in a saturated heap is given. -/
theorem ask {f : Machine → α} (h : ∀ m, m.heap.Saturated → P (f m)) : (Action.ask f).Yields P where
  kept _ hm := hm
  result := by
    rintro m _ _ hm ⟨⟩
    exact h m hm

/-- A change of the heap that keeps it saturated; what it gives is no value. -/
theorem onHeap {f : Heap → α × Heap} (h : ∀ heap, heap.Saturated → (f heap).2.Saturated) :
    (Action.onHeap f).Yields fun _ => True where
  kept m hm := h m.heap hm
  result _ _ _ _ _ := trivial

/-- A change that keeps the heap saturated gives nothing. -/
theorem changeHeap {f : Heap → Heap} (h : ∀ heap, heap.Saturated → (f heap).Saturated) :
    (Action.changeHeap f).Yields fun _ => True where
  kept m hm := h m.heap hm
  result _ _ _ _ _ := trivial

/-- An action that leaves the heap as it is. -/
theorem aside {a : Action α} (h : ∀ m, (Action.after a m).heap = m.heap) : a.Yields fun _ => True where
  kept m hm := by rwa [h m]
  result _ _ _ _ _ := trivial

theorem newScope (env : Env) : (Action.newScope env).Yields fun _ => True := onHeap fun _ hs => hs

theorem define (env : Env) (name : Symbol) {v : Value} (hv : v.Saturated) (mutable : Bool) :
    (Action.define env name v mutable).Yields fun _ => True :=
  changeHeap fun _ hs => hs.define env.frame name hv mutable

theorem defineAll (env : Env) {bindings : List (Symbol × Value)} (hb : BindingsSaturated bindings) :
    (Action.defineAll env bindings).Yields fun _ => True :=
  changeHeap fun _ hs => hs.defineAll env.frame false hb

theorem fill (slot : SlotId) {v : Value} (hv : v.Saturated) : (Action.fill slot v).Yields fun _ => True :=
  changeHeap fun _ hs => hs.fill slot hv

/-- What is given one level deeper is given. -/
theorem nested {a : Action α} (h : a.Yields P) : (Action.nested a).Yields P where
  kept m hm := by
    by_cases hd : m.depth < m.limits.maxDepth
    · rw [Action.after_nested a hd]
      exact h.kept _ hm
    · rwa [Action.after_nested_of_le a (by omega)]
  result m v m' hm hr := by
    obtain ⟨m₁, hrun, -⟩ := Action.of_nested_eq_ok hr
    exact h.result { m with depth := m.depth + 1 } v m₁ hm hrun

end Action.Yields

/-- An evaluator that gives saturated values for saturated forms. -/
def Evaluator.Yields (eval : Evaluator) : Prop := ∀ form env, form.Saturated → (eval form env).Yields Saturated

/-- The value of a step, or the form that is left, is saturated. -/
def Step.Saturated : Step → Prop
  | .done v => v.Saturated
  | .tail form _ => form.Saturated

open MiniLisp.Action (Yields)

variable {eval : Evaluator}

/-- To go on with a saturated step gives a saturated value. -/
theorem force_yields (he : eval.Yields) {step : Step} (h : step.Saturated) : (force eval step).Yields Saturated := by
  cases step with
  | done v => exact .value h
  | tail form env => exact he form env h

/-! ## Bodies and calls -/

/-- Saturated forms have saturated values. -/
theorem evalAll_yields (he : eval.Yields) (env : Env) {forms : List Value} (h : AllSaturated forms) :
    (evalAll eval env forms).Yields AllSaturated := by
  induction forms with
  | nil => exact .value allSaturated_nil
  | cons form forms ih =>
    obtain ⟨hform, hforms⟩ := allSaturated_cons.1 h
    exact (he form env hform).bind fun v hv => (ih hforms).returning fun vs hvs => allSaturated_cons.2 ⟨hv, hvs⟩

/-- So have the keys and values of a map. -/
theorem evalEntries_yields (he : eval.Yields) (env : Env) {entries : List (Value × Value)} (h : EntriesSaturated entries) :
    (evalEntries eval env entries).Yields EntriesSaturated := by
  induction entries with
  | nil => exact .value nofun
  | cons entry entries ih =>
    obtain ⟨⟨hk, hv⟩, hentries⟩ := List.forall_mem_cons.1 h
    exact (he entry.1 env hk).bind fun k hk => (he entry.2 env hv).bind fun v hv =>
      (ih hentries).returning fun rest hrest => List.forall_mem_cons.2 ⟨⟨hk, hv⟩, hrest⟩

/-- A body of saturated forms leaves a saturated step. -/
theorem evalBody_yields (he : eval.Yields) (env : Env) {forms : List Value} (h : AllSaturated forms) :
    (evalBody eval env forms).Yields Step.Saturated := by
  induction forms with
  | nil => exact .value Value.Saturated.nil
  | cons form forms ih =>
    obtain ⟨hform, hforms⟩ := allSaturated_cons.1 h
    cases forms with
    | nil => exact .value (show (Step.tail form env).Saturated from hform)
    | cons next rest => exact (he form env hform).bind fun _ _ => ih hforms

/-- Saturated arguments may be bound. -/
theorem parameterScope_yields (f : Lambda Value) {args : List Value} (h : AllSaturated args) :
    (parameterScope f args).Yields fun _ => True :=
  (Yields.newScope f.env).bind fun scope _ => (Yields.defineAll scope (bind_saturated f.params h)).returning fun _ _ => trivial

/-- So they may in a call, unless there are too few or too many. -/
theorem bindArguments_yields (f : Lambda Value) {args : List Value} (h : AllSaturated args) :
    (bindArguments f args).Yields fun _ => True := by
  unfold bindArguments
  split
  · exact parameterScope_yields f h
  · split <;> exact .fail _

/-- Every primitive gives saturated values for saturated arguments. -/
theorem Primitive.call_yields (p : Primitive) {args : List Value} (h : AllSaturated args) : (p.call args).Yields Saturated := by
  have hatom : ∀ {β : Type} (r : Except Error β) {f : β → Value}, (∀ b, (f b).Saturated) →
      GivesOnly Saturated (r >>= fun b => pure (f b)) := fun r f hf => .bind (.any r) fun b _ => .value (hf b)
  have hflag : ∀ (r : Except Error Unit) (b : Bool), GivesOnly Saturated (r >>= fun _ => pure (.bool b)) :=
    fun r b => hatom r fun _ => .bool b
  cases p with
  | add | mul => exact .ofExcept (hatom _ fun _ => .num _)
  | sub => exact .ofExcept (subtract_gives args)
  | div => exact .ofExcept (divide_gives args)
  | mod => exact .ofExcept (remainder_gives args)
  | numEq | same => exact .ofExcept (hflag _ _)
  | less | greater | atMost | atLeast => exact .ofExcept (.bind (.any _) fun _ _ => hatom _ fun _ => .bool _)
  | not => exact .ofExcept (hatom _ fun _ => .bool _)
  | isNil | isPair =>
    refine .ofExcept (.bind (.any _) fun v _ => ?_)
    split <;> exact .value (.bool _)
  | list => exact .value (.list h)
  | cons => exact .ofExcept (.bind (twoArguments_gives _ h) fun _ hpair => .value (.pair hpair.1 hpair.2))
  | head => exact .ofExcept (headOf_gives h)
  | tail => exact .ofExcept (tailOf_gives h)
  | length => exact .ofExcept (lengthOf_gives args)
  | append => exact .ofExcept (.bind (appendFrom_gives 0 h) fun _ hitems => .value (.list hitems))
  | reverse => exact .ofExcept (reverseOf_gives h)
  | nth => exact .ofExcept (nthOf_gives h)
  | vector => exact .value (.vector h)
  | set => exact .value (.setOf h)
  | get => exact .ofExcept (getFrom_gives h)
  | assoc => exact .ofExcept (assocAll_gives h)
  | dissoc => exact .ofExcept (dissocAll_gives h)
  | contains => exact .ofExcept (containsOf_gives args)
  | count => exact .ofExcept (.bind (.any _) fun _ _ => hatom _ fun _ => .num _)
  | keys =>
    refine .ofExcept (.bind (mapArgument_gives _ h) fun m hm => .value (.list ?_))
    exact List.forall_mem_map.2 fun e he => (hm e he).1
  | values =>
    refine .ofExcept (.bind (mapArgument_gives _ h) fun m hm => .value (.list ?_))
    exact List.forall_mem_map.2 fun e he => (hm e he).2
  | conj => exact .ofExcept (conjAll_gives h)
  | str => exact .ofExcept (.value (.str _))
  | symbol =>
    refine .ofExcept (.bind (.any _) fun v _ => ?_)
    split
    · exact .value (.sym _)
    · exact .value (.sym _)
    · exact .failure _
  | gensym =>
    exact (Yields.ofExcept (.any _)).bind fun beginning _ =>
      (Yields.aside fun _ => rfl : (Action.generateSymbol beginning).Yields _).returning fun s _ => .sym s
  | println | display =>
    exact (Yields.aside fun _ => rfl : (Action.emit _).Yields _).returning fun _ _ => .nil

/-- A call of a saturated value with saturated arguments leaves a saturated step. -/
theorem applyValue_yields (he : eval.Yields) {callee : Value} (hc : callee.Saturated) {args : List Value}
    (h : AllSaturated args) : (applyValue eval callee args).Yields Step.Saturated := by
  cases callee with
  | closure f => exact (bindArguments_yields f h).bind fun scope _ => evalBody_yields he scope hc.of_closure
  | native p => exact (p.call_yields h).returning fun _ hv => hv
  | constructor variant => exact (Yields.ofExcept (construct_gives variant h)).returning fun _ hv => hv
  | _ => exact .fail _

/-- A macro is a function over forms. -/
theorem expandCall_yields (he : eval.Yields) {f : Lambda Value} (hf : AllSaturated f.body) {args : List Value}
    (h : AllSaturated args) : (expandCall eval f args).Yields Saturated := by
  unfold expandCall
  split
  · exact (parameterScope_yields f h).bind fun scope _ => (evalBody_yields he scope hf).bind fun _ hs => force_yields he hs
  · exact .fail _

/-! ## Templates -/

/-- The items of a saturated value are saturated. -/
theorem splicedItems_gives {v : Value} (h : v.Saturated) : GivesOnly AllSaturated (splicedItems v) := by
  unfold splicedItems
  split
  · exact .value h.of_vector
  · exact .value allSaturated_nil
  · split
    · rename_i items hl
      exact .value (h.toList hl)
    · exact .failure _
  · exact .failure _

/-- What is spliced in is saturated. -/
theorem spliceOr_yields (he : eval.Yields) (env : Env) (level : Nat) {item : Value} (h : item.Saturated) {copy : Action Value}
    (hc : copy.Yields Saturated) : (spliceOr eval env level item copy).Yields AllSaturated := by
  unfold spliceOr
  split
  · rename_i code hcode
    exact (he code env (h.argumentOf hcode)).bind fun v hv => .ofExcept (splicedItems_gives hv)
  · exact hc.returning fun v hv => allSaturated_cons.2 ⟨hv, allSaturated_nil⟩

/-- Saturated templates are filled to saturated items. -/
theorem instantiateItems_yields (he : eval.Yields) (env : Env) (level : Nat) {templates : List Value}
    (h : AllSaturated templates) (hx : ∀ x ∈ templates, (instantiate eval env false level x).Yields Saturated) :
    (instantiateItems eval env level templates).Yields AllSaturated := by
  induction templates with
  | nil => exact .value allSaturated_nil
  | cons x xs ih =>
    obtain ⟨hs, hss⟩ := allSaturated_cons.1 h
    obtain ⟨hx, hxs⟩ := List.forall_mem_cons.1 hx
    exact (spliceOr_yields he env level hs hx).bind fun items hitems =>
      (ih hss hxs).returning fun rest hrest => allSaturated_append.2 ⟨hitems, hrest⟩

theorem instantiateEntries_yields (env : Env) (level : Nat) {templates : List (Value × Value)}
    (hk : ∀ e ∈ templates, (instantiate eval env false level e.1).Yields Saturated)
    (hv : ∀ e ∈ templates, (instantiate eval env false level e.2).Yields Saturated) :
    (instantiateEntries eval env level templates).Yields EntriesSaturated := by
  induction templates with
  | nil => exact .value nofun
  | cons e es ih =>
    obtain ⟨hk, hks⟩ := List.forall_mem_cons.1 hk
    obtain ⟨hv, hvs⟩ := List.forall_mem_cons.1 hv
    exact hk.bind fun key hkey => hv.bind fun value hvalue =>
      (ih hks hvs).returning fun rest hrest => List.forall_mem_cons.2 ⟨⟨hkey, hvalue⟩, hrest⟩

/-- A list that changes the level, if what it holds is instantiated to saturated values at every level. -/
theorem instantiateEscape_yields (he : eval.Yields) (env : Env) (level : Nat) {s : Symbol} {arg : Value} (h : arg.Saturated)
    (hs : (s = "unquote" ∨ s = "unquote-splicing") ∨ s = "quasiquote")
    (harg : ∀ level, (instantiate eval env false level arg).Yields Saturated) :
    (instantiate eval env false level (.pair (.sym s) (.pair arg .nil))).Yields Saturated := by
  have hwrap (level' : Nat) : (instantiate eval env false level' arg >>= fun v => pure (.wrap s v)).Yields Saturated :=
    (harg level').returning fun v hv => hv.wrap s
  rw [instantiate]
  rcases hs with (rfl | rfl) | rfl
  · by_cases hl : level = 1
    · simpa [hl] using he arg env h
    · simpa [hl] using hwrap (level - 1)
  · by_cases hl : level = 1
    · simpa [hl] using Yields.fail misplacedSplice
    · simpa [hl] using hwrap (level - 1)
  · simpa using hwrap (level + 1)

/-- The instances of a saturated template are saturated. The argument in a list of two is not a part of it but a part of its tail,
so the induction speaks of both. -/
theorem instantiate_yields_parts (he : eval.Yields) (env : Env) {template : Value} (h : template.Saturated) :
    (∀ inTail level, (instantiate eval env inTail level template).Yields Saturated) ∧
      ∀ arg, template = .pair arg .nil → ∀ level, (instantiate eval env false level arg).Yields Saturated := by
  have hatom {v : Value} (hv : v.isAtom = true) (hs : v.Saturated) :
      (∀ inTail level, (instantiate eval env inTail level v).Yields Saturated) ∧
        ∀ arg, v = .pair arg .nil → ∀ level, (instantiate eval env false level arg).Yields Saturated := by
    refine ⟨fun inTail level => ?_, ?_⟩
    · rw [instantiate_atom env eval hv]
      exact .value hs
    · rintro arg rfl
      cases hv
  induction h with
  | @pair head tail hh ht ihh iht =>
    refine ⟨fun inTail level => ?_, ?_⟩
    · by_cases hn : inTail = true ∨ ¬IsEscape (.pair head tail)
      · rw [instantiate_pair env eval hn]
        exact (spliceOr_yields he env level hh (ihh.1 false level)).bind fun items hitems =>
          (iht.1 true level).returning fun rest hrest => Value.saturated_listWithTail.2 ⟨hitems, hrest⟩
      · obtain ⟨rfl, s, arg, hw, hs⟩ : inTail = false ∧ IsEscape (.pair head tail) := by simpa using hn
        obtain ⟨rfl, rfl⟩ := Value.pair.inj hw
        exact instantiateEscape_yields he env level (Value.saturated_pair.1 ht).1 hs (iht.2 arg rfl)
    · rintro arg ⟨⟩
      exact ihh.1 false
  | @vector items hitems ih =>
    refine ⟨fun inTail level => ?_, fun arg harg => by cases harg⟩
    rw [instantiate]
    exact (instantiateItems_yields he env level hitems fun x hx => (ih x hx).1 false level).returning fun _ h => .vector h
  | @set s hs ih =>
    refine ⟨fun inTail level => ?_, fun arg harg => by cases harg⟩
    rw [instantiate]
    exact (instantiateItems_yields he env level hs fun x hx => (ih x hx).1 false level).returning fun _ h => .setOf h
  | @map m hkeys hvalues ihk ihv =>
    refine ⟨fun inTail level => ?_, fun arg harg => by cases harg⟩
    rw [instantiate]
    exact (instantiateEntries_yields env level (fun e he => (ihk e he).1 false level) fun e he =>
      (ihv e he).1 false level).returning fun _ h => .mapOf h
  | @setForm items hitems ih =>
    refine ⟨fun inTail level => ?_, fun arg harg => by cases harg⟩
    rw [instantiate]
    refine (instantiateItems_yields he env level hitems fun x hx => (ih x hx).1 false level).returning fun _ h => ?_
    split
    · exact .setOf h
    · exact .setForm h
  | @mapForm entries hkeys hvalues ihk ihv =>
    refine ⟨fun inTail level => ?_, fun arg harg => by cases harg⟩
    rw [instantiate]
    refine (instantiateEntries_yields env level (fun e he => (ihk e he).1 false level) fun e he =>
      (ihv e he).1 false level).returning fun _ h => ?_
    split
    · exact .mapOf h
    · exact .formOf h
  | closure hbody => exact hatom rfl (.closure hbody)
  | macroFn hbody => exact hatom rfl (.macroFn hbody)
  | record hlength hvalues => exact hatom rfl (.record hlength hvalues)
  | nil | bool | num | str | sym | native | module | constructor => exact hatom rfl (by constructor)

/-- A saturated template is filled to a saturated value, by induction on the template. -/
theorem instantiate_yields (he : eval.Yields) (env : Env) (inTail : Bool) (level : Nat) {template : Value}
    (h : template.Saturated) : (instantiate eval env inTail level template).Yields Saturated :=
  (instantiate_yields_parts he env h).1 inTail level

end MiniLisp
