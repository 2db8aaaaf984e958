import MiniLisp.Pattern
import MiniLisp.Primitive.Basic
import MiniLisp.Proofs.Collection.FiniteSet
import MiniLisp.Proofs.Number.Raw
import MiniLisp.Proofs.Value.Map
import Mathlib.Algebra.Order.Ring.Rat
import Mathlib.Order.Compare
import Mathlib.Tactic.NormNum

/-!
# Exact numbers are what they stand for

Every exact number is held in the one form that its value has (`Number.eq_ofRat`), whichever way it was computed. So two exact
numbers are the same for the language exactly if they stand for the same rational number, and it makes no difference whether they
are compared by form, as elements, keys and patterns are, or by value (`exact_numbers_canonical`).
-/

namespace MiniLisp

namespace Number

/-- An exact number is the form of the rational that it stands for. -/
theorem eq_ofRat {n : Number} {q : Rat} (h : n.toRat? = some q) : n = ofRat q := by
  cases n with
  | int m =>
    cases h
    rw [ofRat_intCast, ofInt_toInt]
  | big m outside =>
    cases h
    rw [ofRat_intCast, ofInt_of_outside outside]
  | ratio r proper =>
    cases h
    exact (ofRat_of_proper proper).symm
  | float x => cases h

variable {a b : Number} {p q : Rat}

/-- A rational number has one canonical form. -/
theorem eq_iff_of_toRat? (ha : a.toRat? = some p) (hb : b.toRat? = some q) : a = b ↔ p = q := by
  constructor
  · rintro rfl
    exact Option.some.inj (ha.symm.trans hb)
  · rintro rfl
    rw [eq_ofRat ha, eq_ofRat hb]

/-- Exact numbers are the same in form if and only if they stand for the same rational. -/
theorem same_eq_decide (ha : a.toRat? = some p) (hb : b.toRat? = some q) : a.same b = decide (p = q) := by
  refine Bool.eq_iff_iff.2 ?_
  rw [decide_eq_true_iff, ← eq_iff_of_toRat? ha hb]
  cases a <;> cases b <;> simp_all [same, toRat?]

/-- The comparison of fractions is the order of the rational numbers. -/
theorem compareRat_eq_cmp (p q : Rat) : compareRat p q = cmp p q := by
  rcases lt_trichotomy p q with h | rfl | h
  · rw [(cmp_eq_lt_iff p q).2 h]
    simp [compareRat, h]
  · rw [cmp_self_eq_eq]
    simp [compareRat]
  · rw [(cmp_eq_gt_iff p q).2 h]
    simp [compareRat, h.not_gt, h.ne']

/-- So is the comparison of exact numbers. -/
theorem compare?_eq_cmp (ha : a.toRat? = some p) (hb : b.toRat? = some q) : a.compare? b = some (cmp p q) := by
  rw [← compareRat_eq_cmp, compare?, ha, hb]

end Number

namespace Value

variable {a b : Number} {p q : Rat}

/-- Exact numbers are equal as values exactly if they are the same rational number. -/
theorem beq_num (ha : a.toRat? = some p) (hb : b.toRat? = some q) : (Value.num a == Value.num b) = decide (p = q) := by
  show a.same b = decide (p = q)
  exact Number.same_eq_decide ha hb

end Value

/-- A primitive answers whether something holds of two numbers. -/
def Primitive.Decides (primitive : Primitive) (a b : Number) (answer : Prop) [Decidable answer] : Prop :=
  ∀ m : Machine, primitive.call [.num a, .num b] m = .ok (.bool (decide answer)) m

/-- Two exact numbers are told apart by the rationals that they stand for, whatever it is that tells them apart. -/
structure ComparedByValue (a b : Number) (p q : Rat) : Prop where
  same : Primitive.same.Decides a b (p = q)
  numEq : Primitive.numEq.Decides a b (p = q)
  less : Primitive.less.Decides a b (p < q)
  greater : Primitive.greater.Decides a b (q < p)
  atMost : Primitive.atMost.Decides a b (p ≤ q)
  atLeast : Primitive.atLeast.Decides a b (q ≤ p)
  /-- Of less, equal and greater, one holds between them, and it is the one that holds between the rationals. -/
  compare : a.compare? b = some (cmp p q)
  element : ∀ s : FiniteSet Value, (Value.set s).Sound →
    (s.insert (.num a)).contains (.num b) = (decide (p = q) || s.contains (.num b))
  key : ∀ (m : OrderedMap Value Value) (v : Value), (Value.map m).Sound →
    (m.insert (.num a) v).get? (.num b) = if p = q then some v else m.get? (.num b)
  pattern : ∀ (h : Heap) (env : Env), matchPattern h env (.num a) (.num b) = .ok (if p = q then some [] else none)
  quotedPattern : ∀ (h : Heap) (env : Env),
    matchPattern h env (.wrap "quote" (.num a)) (.num b) = .ok (if p = q then some [] else none)

section

variable {a b : Number} {p q : Rat}

/-- A question about how two rationals compare is answered in each of the three cases. -/
theorem holds_cmp (holds : Ordering → Bool) {answer : Prop} [Decidable answer] (hlt : p < q → holds .lt = decide answer)
    (heq : p = q → holds .eq = decide answer) (hgt : q < p → holds .gt = decide answer) : holds (cmp p q) = decide answer := by
  rcases lt_trichotomy p q with h | h | h
  · rw [(cmp_eq_lt_iff p q).2 h, hlt h]
  · rw [(cmp_eq_eq_iff p q).2 h, heq h]
  · rw [(cmp_eq_gt_iff p q).2 h, hgt h]

/-- A comparison by an order looks at how the rationals compare. -/
theorem decides_compareAll (ha : a.toRat? = some p) (hb : b.toRat? = some q) {primitive : Primitive} {holds : Ordering → Bool}
    {answer : Prop} [Decidable answer] (hholds : holds (cmp p q) = decide answer)
    (hcall : ∀ args, primitive.call args = .ofExcept (Primitive.compareAll primitive holds args)) :
    primitive.Decides a b answer := by
  intro m
  have hchain : Primitive.compareAll primitive holds [.num a, .num b] = .ok (.bool (decide answer)) := by
    show Except.ok (Value.bool ((a.compare? b).any holds && true)) = _
    rw [Number.compare?_eq_cmp ha hb, Option.any_some, Bool.and_true, hholds]
  rw [hcall, hchain]
  rfl

/-- Whatever compares exact numbers compares the rational numbers. -/
theorem comparedByValue (ha : a.toRat? = some p) (hb : b.toRat? = some q) : ComparedByValue a b p q where
  same m := by
    show EStateM.Result.ok (Value.bool ((Value.num a == Value.num b) && true)) m = _
    rw [Value.beq_num ha hb, Bool.and_true]
  numEq m := by
    have hcmp : (some (cmp p q) == some .eq) = decide (p = q) :=
      holds_cmp (some · == some .eq) (fun h => by simp [h.ne]) (fun h => by simp [h]) fun h => by simp [h.ne']
    show EStateM.Result.ok (Value.bool (a.numEq b && true)) m = _
    rw [Number.numEq, Number.compare?_eq_cmp ha hb, hcmp, Bool.and_true]
  less := by
    refine decides_compareAll ha hb (holds_cmp Ordering.isLT (fun h => ?_) (fun h => ?_) fun h => ?_) fun _ => rfl
    · simp [h]
    · simp [h]
    · simp [h.le]
  greater := by
    refine decides_compareAll ha hb (holds_cmp Ordering.isGT (fun h => ?_) (fun h => ?_) fun h => ?_) fun _ => rfl
    · simp [h.le]
    · simp [h]
    · simp [h]
  atMost := by
    refine decides_compareAll ha hb (holds_cmp Ordering.isLE (fun h => ?_) (fun h => ?_) fun h => ?_) fun _ => rfl
    · simp [h.le]
    · simp [h]
    · simp [h]
  atLeast := by
    refine decides_compareAll ha hb (holds_cmp Ordering.isGE (fun h => ?_) (fun h => ?_) fun h => ?_) fun _ => rfl
    · simp [h]
    · simp [h]
    · simp [h.le]
  compare := Number.compare?_eq_cmp ha hb
  element s hs := by
    have ha' : Value.Sound (.num a) := .atom rfl
    have hb' : Value.Sound (.num b) := .atom rfl
    rw [FiniteSet.contains_insert Value.equivalenceOn_sound ha' hb' hs.of_set.1, Value.beq_num hb ha]
    simp [eq_comm]
  key m v hm := by
    have ha' : Value.Sound (.num a) := .atom rfl
    have hb' : Value.Sound (.num b) := .atom rfl
    rw [OrderedMap.get?_insert Value.equivalenceOn_sound ha' hb' v fun e he => (hm.of_map.sound e he).1, Value.beq_num hb ha]
    simp [eq_comm]
  pattern h env := by
    show Except.ok (if Value.num a == Value.num b then some [] else none) = _
    simp [Value.beq_num ha hb]
  quotedPattern h env := by
    show Except.ok (if Value.num a == Value.num b then some [] else none) = _
    simp [Value.beq_num ha hb]

end

/-- Every number that a value can hold is in canonical form: literals are brought into it, and arithmetic keeps to it, shortcuts
included. So exact numbers are told apart by the rationals that they stand for, and by nothing else. -/
theorem exact_numbers_canonical :
    (∀ n : Number, n.raw.Canonical) ∧ (∀ r : RawNumber, r.normalize.Canonical) ∧
      (∀ cs : List Char, (RawNumber.literal? cs).map RawNumber.normalize = (parseExactChars cs).map Number.raw) ∧
      (∀ a b : Number, Number.Represented a b) ∧
      ∀ (a b : Number) (p q : Rat), a.toRat? = some p → b.toRat? = some q → ComparedByValue a b p q := by
  refine ⟨fun n => ?_, RawNumber.canonical_normalize, Number.literal?_raw, Number.represented, fun a b p q ha hb => ?_⟩
  · exact RawNumber.canonical_iff.2 ⟨n, rfl⟩
  · exact comparedByValue ha hb

/-- The largest word and one, and half of a larger power of two: both are the same big integer. -/
theorem exact_numbers_canonical_promoted :
    let a := Number.add (.int Int64.maxValue) (.int 1)
    let b := Number.ofRat (2 ^ 64 / 2)
    a.toRat? = some (2 ^ 63) ∧ b.toRat? = some (2 ^ 63) ∧ Primitive.same.Decides a b ((2 : Rat) ^ 63 = 2 ^ 63) := by
  intro a b
  have ha : a.toRat? = some (2 ^ 63) := by
    have hone : Int64.toInt 1 = 1 := rfl
    simp only [a, Number.add, Number.lift, Number.toInt?, Number.toRat?_ofInt, Int64.toInt_maxValue, hone]
    norm_num
  have hb : b.toRat? = some (2 ^ 63) := by
    simp only [b, Number.toRat?_ofRat]
    norm_num
  exact ⟨ha, hb, (exact_numbers_canonical.2.2.2.2 a b _ _ ha hb).same⟩

end MiniLisp
