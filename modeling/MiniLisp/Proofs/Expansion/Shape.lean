import MiniLisp.Expand.Children
import MiniLisp.Proofs.Action
import Mathlib.Data.List.Forall2

/-!
# Shapes: things with code in them

A thing with code in it is a shape together with the forms in its code positions. Shapes are put together like the things
themselves: what has no code is solid, a form may be a hole, and things stand inside or beside one another. Visiting the code of
a thing and filling its shape with what the visits give goes from left to right (`Holes.run_beside`).

A function that finds the shape of a thing is stable where it finds the same shape again in the filled thing (`Holes.Stable`).
-/

namespace MiniLisp

variable {α β γ : Type}

/-- Of two lists of forms, the first is visited first. -/
theorem visitAll_append (visit : Value → Action Value) (as bs : List Value) :
    visitAll visit (as ++ bs) = (do
      let first ← visitAll visit as
      let rest ← visitAll visit bs
      return first ++ rest) := by
  induction as with
  | nil => simp [visitAll]
  | cons a as ih => simp [visitAll, ih]

/-- Each form that was visited has its result, in the same order. -/
theorem forall₂_of_visitAll {visit : Value → Action Value} {I : Machine → Prop} {R : Value → Value → Prop}
    (hv : ∀ form m form' m', I m → visit form m = .ok form' m' → I m' ∧ R form form') {forms results : List Value}
    {m m' : Machine} (hm : I m) (h : visitAll visit forms m = .ok results m') : I m' ∧ List.Forall₂ R forms results := by
  induction forms generalizing m results with
  | nil =>
    cases h
    exact ⟨hm, .nil⟩
  | cons form forms ih =>
    obtain ⟨first, m₁, hfirst, h⟩ := Action.bind_eq_ok h
    obtain ⟨rest, m₂, hrest, h⟩ := Action.bind_eq_ok h
    cases h
    obtain ⟨hm₁, hR⟩ := hv form m first m₁ hm hfirst
    obtain ⟨hm₂, hRs⟩ := ih hm₁ hrest
    exact ⟨hm₂, .cons hR hRs⟩

/-- Each visit gives one form. -/
theorem length_of_visitAll {visit : Value → Action Value} {forms results : List Value} {m m' : Machine}
    (h : visitAll visit forms m = .ok results m') : results.length = forms.length :=
  (forall₂_of_visitAll (I := fun _ => True) (R := fun _ _ => True) (fun _ _ _ _ _ _ => ⟨trivial, trivial⟩) trivial
    h).2.length_eq.symm

/-! ## Shapes -/

/-- A thing with code in it: the forms in its code positions, and the thing with other forms there. -/
structure Holes (α : Type) where
  code : List Value
  fill : List Value → α

namespace Holes

/-- A thing without code. -/
def solid (a : α) : Holes α := ⟨[], fun _ => a⟩

/-- A form that is code itself. -/
def hole (form : Value) : Holes Value := ⟨[form], fun forms => forms.headD .nil⟩

/-- A thing inside another one. -/
def inside (f : α → β) (a : Holes α) : Holes β := ⟨a.code, fun forms => f (a.fill forms)⟩

/-- Two things beside each other. -/
def beside (f : α → β → γ) (a : Holes α) (b : Holes β) : Holes γ :=
  ⟨a.code ++ b.code, fun forms => f (a.fill (forms.take a.code.length)) (b.fill (forms.drop a.code.length))⟩

/-- Several things beside one another. -/
def all (holes : α → Holes β) : List α → Holes (List β)
  | [] => solid []
  | a :: as => beside .cons (holes a) (all holes as)

/-- The same shape with other code. -/
def withCode (a : Holes α) (code : List Value) : Holes α := { a with code }

/-- Visit the code and put what the visits give in its place. -/
def run (visit : Value → Action Value) (a : Holes α) : Action α := do
  return a.fill (← visitAll visit a.code)

section Run

variable (visit : Value → Action Value)

@[simp]
theorem run_solid (a : α) : (solid a).run visit = pure a := by
  simp [run, solid, visitAll]

/-- A form that is code is visited. -/
@[simp]
theorem run_hole (form : Value) : (hole form).run visit = visit form := by
  simp [run, hole, visitAll]

/-- A thing inside another one is visited there. -/
@[simp]
theorem run_inside (f : α → β) (a : Holes α) : (a.inside f).run visit = f <$> a.run visit := by
  simp [run, inside]

/-- Things beside each other are visited one after the other. -/
@[simp]
theorem run_beside (f : α → β → γ) (a : Holes α) (b : Holes β) :
    (beside f a b).run visit = (do
      let x ← a.run visit
      let y ← b.run visit
      return f x y) := by
  simp only [run, beside, visitAll_append, bind_assoc, pure_bind]
  refine Action.bind_congr_of_ok fun first m m' hfirst => ?_
  have hlen := length_of_visitAll hfirst
  simp [← hlen]

/-- Several things are visited one after another. -/
theorem run_all (holes : Value → Holes Value) (items : List Value) :
    (all holes items).run visit = visitAll (fun item => (holes item).run visit) items := by
  induction items with
  | nil => simp [all, visitAll]
  | cons item items ih => simp [all, visitAll, ih]

end Run

/-! ## Stable shapes -/

/-- Filled with any forms, as many as there are code positions, a thing has the same shape as before, with those forms in it. -/
def Stable (holes : α → Holes α) (a : α) : Prop :=
  ∀ code : List Value, code.length = (holes a).code.length → holes ((holes a).fill code) = (holes a).withCode code

/-- Two things beside each other share out the code that is put in. -/
theorem beside_withCode (f : α → β → γ) (a : Holes α) (b : Holes β) {code : List Value}
    (h : code.length = (beside f a b).code.length) :
    beside f (a.withCode (code.take a.code.length)) (b.withCode (code.drop a.code.length)) =
      (beside f a b).withCode code := by
  have hle : a.code.length ≤ code.length := by
    simp only [beside, List.length_append] at h
    omega
  simp [beside, withCode, Nat.min_eq_left hle]

/-- What has no code is filled to itself. -/
theorem Stable.of_solid {holes : α → Holes α} {a b : α} (h : holes a = solid b) (hb : holes b = solid b) :
    Stable holes a := by
  intro code hlen
  rw [h] at hlen ⊢
  have hnil : code = [] := List.length_eq_zero_iff.1 hlen
  rw [hnil]
  exact hb

theorem Stable.of_no_code {holes : α → Holes α} {a : α} (h : holes a = solid a) : Stable holes a := .of_solid h h

/-- A form that is code has itself as its code. -/
theorem stable_hole (form : Value) : Stable hole form := by
  intro code hlen
  obtain ⟨x, rfl⟩ := List.length_eq_one_iff.1 hlen
  rfl

/-- The shape of a thing inside another is found again if it is so for the thing. -/
theorem Stable.of_inside {holes : β → Holes β} {inner : α → Holes α} {f : α → β} {a : α} {b : β}
    (hb : holes b = (inner a).inside f)
    (hfill : ∀ code, holes (f ((inner a).fill code)) = (inner ((inner a).fill code)).inside f) (ha : Stable inner a) :
    Stable holes b := by
  intro code hlen
  rw [hb] at hlen ⊢
  show holes (f ((inner a).fill code)) = _
  rw [hfill, ha code hlen]
  rfl

/-- The shape of two things beside each other is found again if it is so for both. -/
theorem Stable.of_beside {holes : γ → Holes γ} {left : α → Holes α} {right : β → Holes β} {f : α → β → γ} {a : α} {b : β}
    {c : γ} (hc : holes c = beside f (left a) (right b))
    (hfill : ∀ as bs, holes (f ((left a).fill as) ((right b).fill bs)) =
      beside f (left ((left a).fill as)) (right ((right b).fill bs)))
    (ha : Stable left a) (hb : Stable right b) : Stable holes c := by
  intro code hlen
  rw [hc] at hlen ⊢
  have hlen' : code.length = (left a).code.length + (right b).code.length := by simpa [beside] using hlen
  show holes (f ((left a).fill _) ((right b).fill _)) = _
  rw [hfill, ha _ (by simp; omega), hb _ (by simp; omega)]
  exact beside_withCode f _ _ hlen

/-- Several things are stable if each of them is. -/
theorem stable_all {holes : α → Holes α} {items : List α} (h : ∀ item ∈ items, Stable holes item) :
    Stable (all holes) items := by
  induction items with
  | nil => exact .of_solid rfl rfl
  | cons item items ih =>
    have hitems := ih fun item hi => h item (List.mem_cons_of_mem _ hi)
    exact .of_beside rfl (fun _ _ => rfl) (h item List.mem_cons_self) hitems

theorem stable_all_hole (forms : List Value) : Stable (all hole) forms := stable_all fun form _ => stable_hole form

end Holes

end MiniLisp
