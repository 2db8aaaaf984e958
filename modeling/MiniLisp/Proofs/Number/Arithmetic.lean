import MiniLisp.Proofs.Number.Canonical
import Mathlib.Algebra.BigOperators.Group.List.Basic

/-!
# Arithmetic on exact numbers is that of the rationals

The primitives of arithmetic go through their arguments from left to right and keep an intermediate result (`Number.sum` and the
others). On exact numbers every intermediate result is the canonical form of the rational number that the same steps give without
any bounds, so the outcome is the canonical form of the sum, product, difference or quotient, and a quotient fails exactly if a
divisor is zero. So it is for the computation that tries to stay within words at each step (`RawNumber.sum` and the others): where
a word overflows, nothing is lost (`arithmetic_exact`).
-/

namespace MiniLisp

/-- These numbers are exact and stand for these rationals, one for one. -/
def StandFor : List Number → List Rat → Prop := List.Forall₂ fun n q => n.toRat? = some q

/-- What is left of the first rational when all others are taken away; a single one is negated. -/
def differenceOf : List Rat → Rat
  | [] => 0
  | [q] => -q
  | q :: qs => q - qs.sum

/-- What the first rational is divided by; a single one divides one. -/
def divisorsOf : List Rat → List Rat
  | [] => []
  | [q] => [q]
  | _ :: qs => qs

/-- The first rational divided by all others; a single one is inverted. -/
def quotientOf : List Rat → Rat
  | [] => 1
  | [q] => q⁻¹
  | q :: qs => q / qs.prod

namespace Number

/-! ## One operation -/

section

variable {a b : Number} {p q : Rat} {x y : Int}

/-- An integer is a rational number. -/
theorem toRat?_of_toInt? (ha : a.toInt? = some x) : a.toRat? = some (x : Rat) := by
  cases a with
  | int | big =>
    cases ha
    rfl
  | _ => cases ha

/-- Where an operation on integers agrees with one on rationals, its result is that of the latter. -/
theorem toRat?_lift {onInt : Int → Int → Int} {onRat : Rat → Rat → Rat} (onFloat : Float → Float → Float)
    (hagree : ∀ m n : Int, (onInt m n : Rat) = onRat m n) (ha : a.toRat? = some p) (hb : b.toRat? = some q) :
    (lift onInt onRat onFloat a b).toRat? = some (onRat p q) := by
  unfold lift
  cases hm : a.toInt? with
  | none => simp [ha, hb]
  | some m =>
    cases hn : b.toInt? with
    | none => simp [ha, hb]
    | some n =>
      obtain rfl : (m : Rat) = p := Option.some.inj ((toRat?_of_toInt? hm).symm.trans ha)
      obtain rfl : (n : Rat) = q := Option.some.inj ((toRat?_of_toInt? hn).symm.trans hb)
      simp [hagree]

/-- The sum of exact numbers is exact. -/
theorem toRat?_add (ha : a.toRat? = some p) (hb : b.toRat? = some q) : (a.add b).toRat? = some (p + q) :=
  toRat?_lift _ Rat.intCast_add ha hb

theorem toRat?_sub (ha : a.toRat? = some p) (hb : b.toRat? = some q) : (a.sub b).toRat? = some (p - q) :=
  toRat?_lift _ Rat.intCast_sub ha hb

theorem toRat?_mul (ha : a.toRat? = some p) (hb : b.toRat? = some q) : (a.mul b).toRat? = some (p * q) :=
  toRat?_lift _ Rat.intCast_mul ha hb

/-- An exact number is zero if the rational number is. -/
theorem isZero_iff (hb : b.toRat? = some q) : b.isZero = true ↔ q = 0 := by
  cases b with
  | int n =>
    cases hb
    rw [isZero, beq_iff_eq, ← Int64.toInt_inj, Int64.toInt_zero, Rat.intCast_eq_zero_iff]
  | big n _ =>
    cases hb
    rw [isZero, beq_iff_eq, Rat.intCast_eq_zero_iff]
  | ratio r _ =>
    cases hb
    rw [isZero, beq_iff_eq, Rat.num_eq_zero]
  | float x => cases hb

/-- There is a quotient of exact numbers unless the divisor is zero, and it is exact. -/
theorem div?_eq (ha : a.toRat? = some p) (hb : b.toRat? = some q) :
    a.div? b = if q = 0 then none else some (ofRat (p / q)) := by
  simp [div?, isZero_iff hb, ha, hb]

/-- There is a remainder of integers unless the divisor is zero. -/
theorem mod?_eq (ha : a.toInt? = some x) (hb : b.toInt? = some y) :
    a.mod? b = if y = 0 then none else some (ofInt (x % y)) := by
  simp [mod?, isZero_iff (toRat?_of_toInt? hb), ha, hb]

end

/-! ## One operation after the other -/

/-- The sum of numbers, from left to right. -/
def sum (ns : List Number) : Number := ns.foldl add (.ofInt 0)

/-- The product of numbers, from left to right. -/
def product (ns : List Number) : Number := ns.foldl mul (.ofInt 1)

/-- The first number less the others, from left to right; a single one is negated. -/
def difference : List Number → Number
  | [] => .ofInt 0
  | [only] => only.neg
  | first :: rest => rest.foldl sub first

/-- The first number divided by the others, from left to right; a single one is inverted. -/
def quotient? : List Number → Option Number
  | [] => some (.ofInt 1)
  | [only] => (ofInt 1).div? only
  | first :: rest => rest.foldlM div? first

variable {ns : List Number} {qs : List Rat}

/-- What an operation does to the rationals that its operands stand for, going through a list with it does too. -/
theorem toRat?_foldl {op : Number → Number → Number} {f : Rat → Rat → Rat}
    (hop : ∀ {a b p q}, a.toRat? = some p → b.toRat? = some q → (op a b).toRat? = some (f p q)) (h : StandFor ns qs)
    {a : Number} {p : Rat} (ha : a.toRat? = some p) : (ns.foldl op a).toRat? = some (qs.foldl f p) := by
  induction h generalizing a p with
  | nil => exact ha
  | cons hn _ ih => exact ih (hop ha hn)

/-- The sum of several exact numbers is the canonical form of the rational sum. -/
theorem sum_eq (h : StandFor ns qs) : sum ns = .ofRat qs.sum := by
  have hfold := toRat?_foldl toRat?_add h (toRat?_ofInt 0)
  rw [Int.cast_zero, ← List.sum_eq_foldl] at hfold
  exact eq_ofRat hfold

/-- Their product is that of the rational product. -/
theorem product_eq (h : StandFor ns qs) : product ns = .ofRat qs.prod := by
  have hfold := toRat?_foldl toRat?_mul h (toRat?_ofInt 1)
  rw [Int.cast_one, ← List.prod_eq_foldl] at hfold
  exact eq_ofRat hfold

/-- To subtract one after another is to subtract the sum. -/
theorem foldl_sub (qs : List Rat) (p : Rat) : qs.foldl (· - ·) p = p - qs.sum := by
  induction qs generalizing p with
  | nil => simp
  | cons q qs ih => rw [List.foldl_cons, ih, List.sum_cons, sub_sub]

/-- Their difference is that of the rational difference. -/
theorem difference_eq (h : StandFor ns qs) : difference ns = .ofRat (differenceOf qs) := by
  cases h with
  | nil => rfl
  | @cons n q _ _ hn hrest =>
    cases hrest with
    | nil =>
      have hneg := toRat?_sub (toRat?_ofInt 0) hn
      rw [Int.cast_zero, zero_sub] at hneg
      exact eq_ofRat hneg
    | @cons n' q' ns qs hn' hrest =>
      have hfold := toRat?_foldl toRat?_sub (.cons hn' hrest) hn
      rw [foldl_sub] at hfold
      exact eq_ofRat hfold

/-- Going through divisors comes to an end before a zero, and only there. -/
theorem foldlM_div?_eq (h : StandFor ns qs) {a : Number} {p : Rat} (ha : a.toRat? = some p) :
    ns.foldlM div? a = if 0 ∈ qs then none else some (.ofRat (p / qs.prod)) := by
  induction h generalizing a p with
  | nil => simp [eq_ofRat ha]
  | @cons n q ns qs hn _ ih =>
    rw [List.foldlM_cons, div?_eq ha hn]
    by_cases hq : q = 0
    · simp [hq]
    · have hrest := ih (toRat?_ofRat (p / q))
      simp [hq, eq_comm, hrest, div_div]

/-- Their quotient is that of the rational quotient, if no divisor is zero, and is refused otherwise. -/
theorem quotient?_eq (h : StandFor ns qs) :
    quotient? ns = if 0 ∈ divisorsOf qs then none else some (.ofRat (quotientOf qs)) := by
  cases h with
  | nil => rfl
  | @cons n q _ _ hn hrest =>
    cases hrest with
    | nil =>
      show (ofInt 1).div? n = if 0 ∈ [q] then none else some (.ofRat q⁻¹)
      rw [div?_eq (toRat?_ofInt 1) hn]
      simp [eq_comm]
    | cons hn' hrest => exact foldlM_div?_eq (.cons hn' hrest) hn

end Number

/-! ## Staying within words as long as that goes -/

namespace RawNumber

/-- The sum of numbers, brought into its canonical form. -/
def sum (ns : List RawNumber) : RawNumber := (ns.foldl add (.int 0)).normalize

/-- The product of numbers, brought into its canonical form. -/
def product (ns : List RawNumber) : RawNumber := (ns.foldl mul (.int 1)).normalize

/-- The first number less the others, brought into its canonical form; a single one is taken from zero. -/
def difference : List RawNumber → RawNumber
  | [] => .int 0
  | [only] => (sub (.int 0) only).normalize
  | first :: rest => (rest.foldl sub first).normalize

/-- The first number divided by the others, brought into its canonical form; a single one divides one. -/
def quotient? : List RawNumber → Option RawNumber
  | [] => some (.int 1)
  | [only] => (div? (.int 1) only).map normalize
  | first :: rest => (rest.foldlM div? first).map normalize

/-- Going through a list on raw numbers gives the form of what going through it on numbers gives. -/
theorem foldl_raw {op : Number → Number → Number} {rawOp : RawNumber → RawNumber → RawNumber}
    (hop : ∀ a b : Number, rawOp a.raw b.raw = (op a b).raw) (ns : List Number) (a : Number) :
    ((ns.map Number.raw).foldl rawOp a.raw).normalize = (ns.foldl op a).raw := by
  induction ns generalizing a with
  | nil => exact normalize_raw a
  | cons n ns ih => rw [List.map_cons, List.foldl_cons, List.foldl_cons, hop, ih]

/-- Several divisions in the form of the machine give the canonical quotient when normalised. -/
theorem foldlM_raw (ns : List Number) (a : Number) :
    ((ns.map Number.raw).foldlM div? a.raw).map normalize = (ns.foldlM Number.div? a).map Number.raw := by
  induction ns generalizing a with
  | nil => exact congrArg some (normalize_raw a)
  | cons n ns ih =>
    rw [List.map_cons, List.foldlM_cons, List.foldlM_cons, Number.div?_raw]
    cases a.div? n with
    | none => rfl
    | some c => exact ih c

/-- The sum in the form of the machine is the canonical sum. -/
theorem sum_raw (ns : List Number) : sum (ns.map Number.raw) = (Number.sum ns).raw := foldl_raw Number.add_raw ns (.ofInt 0)

/-- So is the product. -/
theorem product_raw (ns : List Number) : product (ns.map Number.raw) = (Number.product ns).raw :=
  foldl_raw Number.mul_raw ns (.ofInt 1)

/-- So is the difference. -/
theorem difference_raw (ns : List Number) : difference (ns.map Number.raw) = (Number.difference ns).raw := by
  match ns with
  | [] => rfl
  | [only] => exact foldl_raw Number.sub_raw [only] (.int 0)
  | first :: second :: rest => exact foldl_raw Number.sub_raw (second :: rest) first

/-- So is the quotient, and it is refused for the same divisors. -/
theorem quotient?_raw (ns : List Number) : quotient? (ns.map Number.raw) = (Number.quotient? ns).map Number.raw := by
  match ns with
  | [] => rfl
  | [only] =>
    have h := foldlM_raw [only] (.ofInt 1)
    simp only [List.map_cons, List.map_nil, List.foldlM_cons, List.foldlM_nil, bind_pure] at h
    exact h
  | first :: second :: rest => exact foldlM_raw (second :: rest) first

end RawNumber

/-! ## The primitives -/

namespace Primitive

/-- Called with these numbers, the primitive gives the canonical form of a rational and leaves the machine as it is. -/
def Gives (primitive : Primitive) (ns : List Number) (q : Rat) : Prop :=
  ∀ m : Machine, primitive.call (ns.map .num) m = .ok (.num (.ofRat q)) m

/-- Called with these numbers, the primitive fails with this error and leaves the machine as it is. -/
def Fails (primitive : Primitive) (ns : List Number) (e : Error) : Prop :=
  ∀ m : Machine, primitive.call (ns.map .num) m = .error (.error e) m

/-- The complaint of `/`. -/
def divisionByZero : Error := (Error.invalidOperation "/" "a zero divisor").withHelp "division by zero"

/-- The complaint of `mod`. -/
def moduloByZero : Error := (Error.invalidOperation "mod" "a zero divisor").withHelp "modulo by zero"

/-- Arguments that are numbers are accepted from whatever index on. -/
theorem numbersFrom_map_num (primitive : Primitive) (index : Nat) (ns : List Number) :
    primitive.numbersFrom index (ns.map .num) = .ok ns := by
  induction ns generalizing index with
  | nil => rfl
  | cons n ns ih =>
    show (primitive.numbersFrom (index + 1) (ns.map .num) >>= fun ns => pure (n :: ns)) = .ok (n :: ns)
    rw [ih]
    rfl

/-- Arguments that are numbers are accepted as such. -/
theorem numbers_map_num (primitive : Primitive) (ns : List Number) : primitive.numbers (ns.map .num) = .ok ns :=
  numbersFrom_map_num primitive 0 ns

/-- Arguments that are there are enough where one is needed. -/
theorem needAtLeast_one (primitive : Primitive) {ns : List Number} (hne : ns ≠ []) :
    primitive.needAtLeast 1 (ns.map .num) = .ok () := by
  have hlength : 1 ≤ (ns.map Value.num).length := by
    rw [List.length_map]
    exact List.length_pos_iff.2 hne
  rw [needAtLeast, if_pos hlength]

/-- The primitive `+` gives the sum of its arguments. -/
theorem addAll_eq (ns : List Number) : addAll (ns.map .num) = .ok (.num (.sum ns)) := by
  rw [addAll, numbers_map_num]
  rfl

/-- The primitive `*` gives their product. -/
theorem multiplyAll_eq (ns : List Number) : multiplyAll (ns.map .num) = .ok (.num (.product ns)) := by
  rw [multiplyAll, numbers_map_num]
  rfl

/-- The primitive `-` gives their difference, if there are any. -/
theorem subtract_eq {ns : List Number} (hne : ns ≠ []) : subtract (ns.map .num) = .ok (.num (.difference ns)) := by
  rw [subtract, needAtLeast_one sub hne, numbers_map_num]
  match ns with
  | [] => rfl
  | [only] => rfl
  | first :: second :: rest => rfl

/-- Divisions one after another complain about a zero divisor where there is one. -/
theorem foldlM_quotient (ns : List Number) (a : Number) :
    ns.foldlM quotient a = (ns.foldlM Number.div? a).elim (.error divisionByZero) .ok := by
  induction ns generalizing a with
  | nil => rfl
  | cons n ns ih =>
    rw [List.foldlM_cons, List.foldlM_cons, quotient]
    cases a.div? n with
    | none => rfl
    | some c => exact ih c

/-- The primitive `/` gives the quotient of its arguments, or complains about a zero divisor. -/
theorem divide_eq {ns : List Number} (hne : ns ≠ []) :
    divide (ns.map .num) = (Number.quotient? ns).elim (.error divisionByZero) fun q => .ok (.num q) := by
  rw [divide, needAtLeast_one div hne, numbers_map_num]
  match ns with
  | [] => rfl
  | [only] =>
    show (quotient (.ofInt 1) only >>= fun q => pure (Value.num q)) = _
    rw [quotient, Number.quotient?]
    cases (Number.ofInt 1).div? only <;> rfl
  | first :: second :: rest =>
    show ((second :: rest).foldlM quotient first >>= fun q => pure (Value.num q)) = _
    rw [foldlM_quotient, Number.quotient?]
    · cases (second :: rest).foldlM Number.div? first <;> rfl
    · rintro ⟨⟩

/-- The primitive `mod` gives the remainder of two integers, or complains about a zero divisor. -/
theorem remainder_eq {a b : Number} {x y : Int} (ha : a.toInt? = some x) (hb : b.toInt? = some y) :
    remainder [.num a, .num b] = (a.mod? b).elim (.error moduloByZero) fun r => .ok (.num r) := by
  have hinteger : ∀ {index : Nat} {v : Value} {n : Number} {z : Int}, n.toInt? = some z →
      integerAt mod index v n = .ok () := by
    intro index v n z hn
    simp [integerAt, Number.isInteger, hn]
  have hbind : ∀ {α β : Type} (c : α) (f : α → Except Error β), (Except.ok c >>= f) = f c := fun _ _ => rfl
  have hnumber : ∀ index (n : Number), mod.numberAt index (.num n) = .ok n := fun _ _ => rfl
  rw [remainder, twoArguments]
  simp only [hbind, hnumber, hinteger ha, hinteger hb]
  cases a.mod? b <;> rfl

end Primitive

/-! ## The laws of arithmetic -/

/-- Arithmetic on several numbers is arithmetic on the rationals that they stand for. -/
structure ComputedExactly (ns : List Number) (qs : List Rat) : Prop where
  /-- Sums and products are exact, whatever the order of the arguments. -/
  sum : ∀ ns', ns'.Perm ns → Primitive.add.Gives ns' qs.sum
  product : ∀ ns', ns'.Perm ns → Primitive.mul.Gives ns' qs.prod
  difference : ns ≠ [] → Primitive.sub.Gives ns (differenceOf qs)
  quotient : ns ≠ [] → 0 ∉ divisorsOf qs → Primitive.div.Gives ns (quotientOf qs)
  zeroDivisor : ns ≠ [] → 0 ∈ divisorsOf qs → Primitive.div.Fails ns Primitive.divisionByZero
  /-- So it is with the shortcuts for words. -/
  wordSum : RawNumber.sum (ns.map Number.raw) = (Number.ofRat qs.sum).raw
  wordProduct : RawNumber.product (ns.map Number.raw) = (Number.ofRat qs.prod).raw
  wordDifference : RawNumber.difference (ns.map Number.raw) = (Number.ofRat (differenceOf qs)).raw
  wordQuotient : RawNumber.quotient? (ns.map Number.raw) =
    if 0 ∈ divisorsOf qs then none else some (Number.ofRat (quotientOf qs)).raw

/-- There is a remainder of two integers if the second is not zero, and it is the one from zero up to the size of the second. -/
structure ReducedExactly (a b : Number) (x y : Int) : Prop where
  zeroDivisor : y = 0 → Primitive.mod.Fails [a, b] Primitive.moduloByZero ∧ a.raw.mod? b.raw = none
  remainder : y ≠ 0 → ∃ r : Int, 0 ≤ r ∧ r < |y| ∧ y ∣ x - r ∧ Primitive.mod.Gives [a, b] r ∧
    a.raw.mod? b.raw = some (Number.ofRat r).raw

/-- Exact numbers in another order stand for the same rationals in another order. -/
theorem StandFor.perm {ns ns' : List Number} {qs : List Rat} (h : StandFor ns qs) (hp : ns'.Perm ns) :
    ∃ qs', qs'.Perm qs ∧ StandFor ns' qs' := by
  obtain ⟨qs', h', hperm⟩ := List.perm_comp_forall₂ hp h
  exact ⟨qs', hperm, h'⟩

/-- The four operations on exact numbers are those of the rational numbers. -/
theorem computedExactly {ns : List Number} {qs : List Rat} (h : StandFor ns qs) : ComputedExactly ns qs where
  sum ns' hp m := by
    obtain ⟨qs', hq, h'⟩ := h.perm hp
    rw [Primitive.call, Primitive.addAll_eq, Number.sum_eq h', hq.sum_eq]
    rfl
  product ns' hp m := by
    obtain ⟨qs', hq, h'⟩ := h.perm hp
    rw [Primitive.call, Primitive.multiplyAll_eq, Number.product_eq h', hq.prod_eq]
    rfl
  difference hne m := by
    rw [Primitive.call, Primitive.subtract_eq hne, Number.difference_eq h]
    rfl
  quotient hne hzero m := by
    rw [Primitive.call, Primitive.divide_eq hne, Number.quotient?_eq h, if_neg hzero]
    rfl
  zeroDivisor hne hzero m := by
    rw [Primitive.call, Primitive.divide_eq hne, Number.quotient?_eq h, if_pos hzero]
    rfl
  wordSum := by rw [RawNumber.sum_raw, Number.sum_eq h]
  wordProduct := by rw [RawNumber.product_raw, Number.product_eq h]
  wordDifference := by rw [RawNumber.difference_raw, Number.difference_eq h]
  wordQuotient := by
    rw [RawNumber.quotient?_raw, Number.quotient?_eq h]
    by_cases hzero : 0 ∈ divisorsOf qs
    · rw [if_pos hzero, if_pos hzero, Option.map_none]
    · rw [if_neg hzero, if_neg hzero, Option.map_some]

/-- The remainder of integers is that of the integers. -/
theorem reducedExactly {a b : Number} {x y : Int} (ha : a.toInt? = some x) (hb : b.toInt? = some y) :
    ReducedExactly a b x y where
  zeroDivisor hy := by
    have hmod : a.mod? b = none := by rw [Number.mod?_eq ha hb, if_pos hy]
    refine ⟨fun m => ?_, ?_⟩
    · show Action.ofExcept (Primitive.remainder [.num a, .num b]) m = _
      rw [Primitive.remainder_eq ha hb, hmod]
      rfl
    · rw [Number.mod?_raw, hmod, Option.map_none]
  remainder hy := by
    have hmod : a.mod? b = some (.ofRat (x % y : Int)) := by
      rw [Number.mod?_eq ha hb, if_neg hy, ← Number.eq_ofRat (Number.toRat?_ofInt _)]
    refine ⟨x % y, Int.emod_nonneg x hy, Int.emod_lt_abs x hy, Int.dvd_self_sub_emod, fun m => ?_, ?_⟩
    · show Action.ofExcept (Primitive.remainder [.num a, .num b]) m = _
      rw [Primitive.remainder_eq ha hb, hmod]
      rfl
    · rw [Number.mod?_raw, hmod, Option.map_some]

/-- Arithmetic on exact numbers of any size is exact: sums, products, differences and quotients of any number of arguments, and
remainders. Each result is the one number that stands for the rational, in its canonical form. -/
theorem arithmetic_exact :
    (∀ ns qs, StandFor ns qs → ComputedExactly ns qs) ∧
    (∀ a b x y, a.toInt? = some x → b.toInt? = some y → ReducedExactly a b x y) ∧
    ∀ q : Rat, (Number.ofRat q).raw.Canonical ∧ ∀ n : Number, n.toRat? = some q ↔ n = .ofRat q := by
  refine ⟨fun ns qs => computedExactly, fun a b x y => reducedExactly, fun q => ⟨?_, fun n => ⟨Number.eq_ofRat, ?_⟩⟩⟩
  · exact RawNumber.canonical_iff.2 ⟨_, rfl⟩
  · rintro rfl
    exact Number.toRat?_ofRat q

/-- The least word and minus one: their product, quotient and difference from zero do not fit into a word, their remainder does.
Divided by zero, the least word gives no result. -/
theorem arithmetic_exact_least_word :
    let least : Number := .int Int64.minValue
    StandFor [least, .int (-1)] [-2 ^ 63, -1] ∧ Primitive.mul.Gives [least, .int (-1)] (2 ^ 63) ∧
      Primitive.div.Gives [least, .int (-1)] (2 ^ 63) ∧ Primitive.sub.Gives [least] (2 ^ 63) ∧
      Primitive.div.Fails [least, .int (-1), .int 0] Primitive.divisionByZero ∧
      ∃ r : Int, 0 ≤ r ∧ r < |-1| ∧ Primitive.mod.Gives [least, .int (-1)] r := by
  intro least
  have hleast : least.toRat? = some (-2 ^ 63) := by
    simp only [least, Number.toRat?, Int64.toInt_minValue]
    norm_num
  have hminus : (Number.int (-1)).toRat? = some (-1) := by
    simp only [Number.toRat?, Int64.reduceToInt]
    norm_num
  have hzero : (Number.int 0).toRat? = some 0 := by
    simp only [Number.toRat?, Int64.reduceToInt]
    norm_num
  obtain ⟨hexact, hreduced, -⟩ := arithmetic_exact
  have htwo : StandFor [least, .int (-1)] [-2 ^ 63, -1] := .cons hleast (.cons hminus .nil)
  have hone : StandFor [least] [-2 ^ 63] := .cons hleast .nil
  have hthree : StandFor [least, .int (-1), .int 0] [-2 ^ 63, -1, 0] := .cons hleast (.cons hminus (.cons hzero .nil))
  refine ⟨htwo, ?_, ?_, ?_, ?_, ?_⟩
  · have hproduct := (hexact _ _ htwo).product _ (.refl _)
    norm_num at hproduct
    exact hproduct
  · have hquotient := (hexact _ _ htwo).quotient (by simp) (by simp [divisorsOf])
    norm_num [quotientOf] at hquotient
    exact hquotient
  · have hdifference := (hexact _ _ hone).difference (by simp)
    norm_num [differenceOf] at hdifference
    exact hdifference
  · exact (hexact _ _ hthree).zeroDivisor (by simp) (by simp [divisorsOf])
  · obtain ⟨r, hr, hlt, -, hgives, -⟩ := (hreduced least (.int (-1)) _ (-1) rfl rfl).remainder (by decide)
    exact ⟨r, hr, hlt, hgives⟩

end MiniLisp
