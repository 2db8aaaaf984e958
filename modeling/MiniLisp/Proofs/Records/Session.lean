import MiniLisp.Proofs.Reader.Written
import MiniLisp.Proofs.Records.Evaluation
import MiniLisp.Proofs.Session

/-!
# Sessions keep values saturated

A new interpreter has no records and what is read has none, so every operation of a session leaves a saturated heap, if the host
hands in saturated values (`Session.performAll_saturated`).
-/

namespace MiniLisp

open Value (Saturated)
open MiniLisp.Action (Yields)

variable {α : Type} {P : α → Prop}

/-- What is read holds no records, so it is saturated. -/
theorem Reader.Written.saturated {v : Value} (h : Reader.Written v) : v.Saturated := by
  induction h with
  | list _ ih => exact .list ih
  | vector _ ih => exact .vector ih
  | setForm _ ih => exact .setForm ih
  | mapForm _ _ ihk ihv => exact .mapForm ihk ihv
  | nil | bool | num | str | sym => constructor

/-- A new interpreter has no records. -/
theorem Heap.Saturated.fresh (limits : Limits) : (Machine.fresh limits).heap.Saturated := by
  have hall : ∀ (ps : List Primitive) (h : Heap), h.Saturated →
      (ps.foldl (fun h p => h.define 0 p.name (.native p) false) h).Saturated := by
    intro ps
    induction ps with
    | nil => exact fun h hs => hs
    | cons p ps ih => exact fun h hs => ih _ (hs.define 0 p.name (.native p) false)
  have hroot : ({} : Heap).newRoot.2.Saturated := by
    intro slot hslot
    simp [Heap.newRoot] at hslot
  exact (hall Primitive.all _ hroot).define _ "t" (.bool true) false

namespace Session

/-- To locate errors does not change what is given. -/
theorem locating_yields (source : Source) (span : Span) {a : Action α} (h : a.Yields P) : (locating source span a).Yields P where
  kept m hm := by
    rw [after_locating]
    exact h.kept m hm
  result m v m' hm hr := by
    unfold locating at hr
    split at hr
    · cases hr
    · exact h.result m v m' hm hr

/-- A saturated top-level form gives a saturated value. -/
theorem evalForm_yields (fuel : Nat) {form : Value} (h : form.Saturated) : (evalForm fuel form).Yields Saturated :=
  (Yields.aside fun _ => rfl : resetDepth.Yields _).bind fun _ _ =>
    (Yields.ask (P := fun _ => True) fun _ _ => trivial).bind fun global _ =>
      (expand_yields (eval_yields fuel) global h).bind fun expanded hx => eval_yields fuel expanded global hx

/-- The forms that were read are saturated. -/
def ReadSaturated (results : List (Except Error (Value × Span))) : Prop :=
  ∀ form span, .ok (form, span) ∈ results → form.Saturated

/-- The forms behind the first one are saturated. -/
theorem ReadSaturated.tail {result : Except Error (Value × Span)} {rest : List (Except Error (Value × Span))}
    (h : ReadSaturated (result :: rest)) : ReadSaturated rest := fun form span hmem => h form span (List.mem_cons_of_mem _ hmem)

/-- Whatever is read from a source is saturated. -/
theorem readSaturated_results (source : Source) : ReadSaturated (Reader.results source) :=
  fun _ _ hmem => (Reader.written_of_mem_results hmem).saturated

/-- Saturated forms that are run up to the first error give a saturated value. -/
theorem runForms_yields (fuel : Nat) (source : Source) {last : Value} (hlast : last.Saturated)
    {results : List (Except Error (Value × Span))} (h : ReadSaturated results) :
    (runForms fuel source last results).Yields Saturated := by
  induction results generalizing last with
  | nil => exact .value hlast
  | cons result rest ih =>
    cases result with
    | error e => exact .fail e
    | ok read =>
      obtain ⟨form, span⟩ := read
      have hform := evalForm_yields fuel (h form span List.mem_cons_self)
      exact (locating_yields source span hform).bind fun v hv => ih hv h.tail

/-- Saturated forms that are run each keep the heap saturated. -/
theorem runEachForm_saturated (fuel : Nat) (source : Source) {results : List (Except Error (Value × Span))}
    (h : ReadSaturated results) {m : Machine} (hm : m.heap.Saturated) :
    (runEachForm fuel source m results).2.heap.Saturated := by
  induction results generalizing m with
  | nil => exact hm
  | cons result rest ih =>
    cases result with
    | error e => exact ih h.tail hm
    | ok read =>
      obtain ⟨form, span⟩ := read
      have hkept := (locating_yields source span (evalForm_yields fuel (h form span List.mem_cons_self))).kept m hm
      unfold runEachForm
      split
      · rename_i v m' hr
        rw [Action.after_eq_of_ok hr] at hkept
        exact ih h.tail hkept
      · rename_i e m' hr
        rw [Action.after_eq_of_error hr] at hkept
        exact ih h.tail hkept

/-- Saturated forms are expanded to saturated forms. -/
theorem expandForms_yields (fuel : Nat) (source : Source) {results : List (Except Error (Value × Span))}
    (h : ReadSaturated results) : (expandForms fuel source results).Yields AllSaturated := by
  induction results with
  | nil => exact .value allSaturated_nil
  | cons result rest ih =>
    cases result with
    | error e => exact .fail e
    | ok read =>
      obtain ⟨form, span⟩ := read
      have hform := h form span List.mem_cons_self
      have hrest (expanded : Value) (hx : expanded.Saturated) : (do
          let forms ← expandForms fuel source rest
          return expanded :: forms).Yields AllSaturated :=
        (ih h.tail).returning fun forms hforms => allSaturated_cons.2 ⟨hx, hforms⟩
      unfold expandForms
      refine (Yields.ask (P := fun _ => True) fun _ _ => trivial).bind fun global _ => ?_
      refine (locating_yields source span (expand_yields (eval_yields fuel) global hform)).bind fun expanded hx => ?_
      split
      · exact (locating_yields source span (eval_yields fuel expanded global hx)).bind fun _ _ => hrest expanded hx
      · exact hrest expanded hx

/-- The host hands in saturated values. -/
def Operation.Saturated : Operation → Prop
  | .evalForm form => form.Saturated
  | .call callee args => callee.Saturated ∧ AllSaturated args
  | .runSource _ | .runEach _ | .expandSource _ => True

/-- Every operation keeps the heap saturated. -/
theorem perform_saturated (fuel : Nat) {m : Machine} (hm : m.heap.Saturated) {operation : Operation}
    (h : operation.Saturated) : (operation.perform fuel m).heap.Saturated := by
  cases operation with
  | runSource source => exact (runForms_yields fuel source .nil (readSaturated_results source)).kept m hm
  | runEach source => exact runEachForm_saturated fuel source (readSaturated_results source) hm
  | evalForm form => exact (evalForm_yields fuel h).kept m hm
  | expandSource source => exact (expandForms_yields fuel source (readSaturated_results source)).kept m hm
  | call callee args =>
    have hcall : (Session.call fuel callee args).Yields Saturated :=
      (Yields.aside fun _ => rfl : resetDepth.Yields _).bind fun _ _ =>
        (applyValue_yields (eval_yields fuel) h.1 h.2).bind fun _ hs => force_yields (eval_yields fuel) hs
    exact hcall.kept m hm

/-- Every machine that a session reaches has a saturated heap, by induction on the number of operations. -/
theorem performAll_saturated (fuel : Nat) {m : Machine} (hm : m.heap.Saturated) {operations : List Operation}
    (h : ∀ operation ∈ operations, operation.Saturated) : (performAll fuel m operations).heap.Saturated := by
  induction operations generalizing m with
  | nil => exact hm
  | cons operation rest ih =>
    obtain ⟨hfirst, hrest⟩ := List.forall_mem_cons.1 h
    exact ih (perform_saturated fuel hm hfirst) hrest

end Session

end MiniLisp
