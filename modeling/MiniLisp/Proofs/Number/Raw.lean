import MiniLisp.Proofs.Number.Literal
import Mathlib.Data.Rat.Lemmas

/-!
# Numbers in the hands of arithmetic

A number that is being computed need not be in its canonical form: a sum of words may need more than a word, and a quotient may
be an integer. `RawNumber` is a number in any form. Arithmetic on it first tries to stay within words, and otherwise computes
without bounds and brings the result into its canonical form (`RawNumber.normalize`).

A `Number` is a raw number in canonical form (`RawNumber.canonical_iff`), and on these, arithmetic with its shortcuts does what
the operations on numbers say (`Number.represented`). So no shortcut gives a result in another form, or another result.
-/

namespace MiniLisp

/-- A number in any form. -/
inductive RawNumber where
  | int (n : Int64)
  | big (n : Int)
  | ratio (q : Rat)
  | float (x : Float)

namespace RawNumber

/-- An integer outside words only if it does not fit into one, and a ratio in lowest terms only if it is no integer. -/
def Canonical : RawNumber → Prop
  | .int _ | .float _ => True
  | .big n => n < -2 ^ 63 ∨ 2 ^ 63 ≤ n
  | .ratio q => 1 < q.den ∧ q.num.natAbs.Coprime q.den

/-- An integer in its canonical form. -/
def ofInt (n : Int) : RawNumber := if fitsWord n then .int (Int64.ofInt n) else .big n

/-- A number in its canonical form. -/
def normalize : RawNumber → RawNumber
  | .big n => ofInt n
  | .ratio q => if q.den = 1 then ofInt q.num else .ratio q
  | a => a

def toInt? : RawNumber → Option Int
  | .int n => some n.toInt
  | .big n => some n
  | _ => none

def toRat? : RawNumber → Option Rat
  | .int n => some n.toInt
  | .big n => some n
  | .ratio q => some q
  | .float _ => none

def toFloat : RawNumber → Float
  | .int n => Binary64.ofInt n.toInt
  | .big n => Binary64.ofInt n
  | .ratio q => Binary64.ofInt q.num / Binary64.ofInt q.den
  | .float x => x

def isZero : RawNumber → Bool
  | .int n => n == 0
  | .big n => n == 0
  | .ratio q => q.num == 0
  | .float x => x == 0.0

/-- What an operation on words gives for two words; it may give nothing. -/
def onWords? {α : Type} (op : Int64 → Int64 → Option α) : RawNumber → RawNumber → Option α
  | .int m, .int n => op m n
  | _, _ => none

/-- Sums, differences and products: within words if both operands are words and the result fits, else without bounds. -/
def arithmetic (checked : Int64 → Int64 → Option Int64) (onInt : Int → Int → Int) (onRat : Rat → Rat → Rat)
    (onFloat : Float → Float → Float) (a b : RawNumber) : RawNumber :=
  match onWords? checked a b with
  | some n => .int n
  | none =>
    match a.toInt?, b.toInt? with
    | some m, some n => normalize (.big (onInt m n))
    | _, _ =>
      match a.toRat?, b.toRat? with
      | some p, some q => normalize (.ratio (onRat p q))
      | _, _ => .float (onFloat a.toFloat b.toFloat)

def checkedAdd (m n : Int64) : Option Int64 := if m.toBitVec.saddOverflow n.toBitVec then none else some (m + n)

def checkedSub (m n : Int64) : Option Int64 := if m.toBitVec.ssubOverflow n.toBitVec then none else some (m - n)

def checkedMul (m n : Int64) : Option Int64 := if m.toBitVec.smulOverflow n.toBitVec then none else some (m * n)

def add : RawNumber → RawNumber → RawNumber := arithmetic checkedAdd (· + ·) (· + ·) (· + ·)

def sub : RawNumber → RawNumber → RawNumber := arithmetic checkedSub (· - ·) (· - ·) (· - ·)

def mul : RawNumber → RawNumber → RawNumber := arithmetic checkedMul (· * ·) (· * ·) (· * ·)

/-- There is no quotient by zero, and one does not fit into a word. -/
def divisible (m n : Int64) : Bool := !(n == 0) && !(m == Int64.minValue && n == -1)

/-- The quotient of two words that leaves no remainder. -/
def wordQuotient? (m n : Int64) : Option Int64 := if divisible m n && m % n == 0 then some (m / n) else none

def div? (a b : RawNumber) : Option RawNumber :=
  if b.isZero then none
  else
    match onWords? wordQuotient? a b with
    | some n => some (.int n)
    | none =>
      match a.toRat?, b.toRat? with
      | some p, some q => some (normalize (.ratio (p / q)))
      | _, _ => some (.float (a.toFloat / b.toFloat))

/-- The remainder of two words with the sign of the dividend, moved up by the divisor if it is negative. -/
def wordRemainder? (m n : Int64) : Option Int64 :=
  if divisible m n then
    let r := m % n
    some (if r < 0 then (if n < 0 then r - n else r + n) else r)
  else none

/-- The remainder of two integers, found in the same way. -/
def remainder (m n : Int) : Int :=
  let r := m.tmod n
  if r < 0 then r + n.natAbs else r

def mod? (a b : RawNumber) : Option RawNumber :=
  if b.isZero then none
  else
    match onWords? wordRemainder? a b with
    | some n => some (.int n)
    | none =>
      match a.toInt?, b.toInt? with
      | some m, some n => some (normalize (.big (remainder m n)))
      | _, _ => none

/-- The number that a literal reads as: a word, a quotient in its canonical form, or an integer that was too large for a word. -/
def literal? (cs : List Char) : Option RawNumber :=
  match parseWord cs with
  | some n => some (.int (Int64.ofInt n))
  | none =>
    match cs.span (· != '/') with
    | (_, []) => (parseInteger cs).map .big
    | (numer, _ :: denom) => do
      let a ← parseInteger numer
      let b ← parseInteger denom
      if b == 0 then none else some (normalize (.ratio ((a : Rat) / (b : Rat))))

/-- The order of two words. -/
def compareWords (m n : Int64) : Ordering := if m < n then .lt else if m = n then .eq else .gt

def compare? (a b : RawNumber) : Option Ordering :=
  match onWords? (fun m n => some (compareWords m n)) a b with
  | some o => some o
  | none =>
    match a.toRat?, b.toRat? with
    | some p, some q => some (Number.compareRat p q)
    | _, _ => Number.compareFloat? a.toFloat b.toFloat

end RawNumber

/-! ## Canonical forms -/

/-- A number as arithmetic holds it. -/
def Number.raw : Number → RawNumber
  | .int n => .int n
  | .big n _ => .big n
  | .ratio q _ => .ratio q
  | .float x => .float x

/-- What fits into a word lies between the least and the greatest word. -/
theorem fitsWord_iff {n : Int} : fitsWord n = true ↔ -2 ^ 63 ≤ n ∧ n < 2 ^ 63 := by
  simp only [fitsWord, Bool.and_eq_true, decide_eq_true_eq, Int64.toInt_minValue, Int64.toInt_maxValue]
  omega

namespace RawNumber

/-- A raw number is canonical if it is the form in which some number is held. -/
theorem canonical_iff {a : RawNumber} : a.Canonical ↔ ∃ n : Number, n.raw = a := by
  constructor
  · intro h
    cases a with
    | int n => exact ⟨.int n, rfl⟩
    | float x => exact ⟨.float x, rfl⟩
    | big n =>
      have houtside : fitsWord n = false := by
        rw [← Bool.not_eq_true, fitsWord_iff]
        simp only [Canonical] at h
        omega
      exact ⟨.big n houtside, rfl⟩
    | ratio q => exact ⟨.ratio q h.1.ne', rfl⟩
  · rintro ⟨n, rfl⟩
    cases n with
    | int | float => trivial
    | big n outside =>
      rw [← Bool.not_eq_true, fitsWord_iff] at outside
      simp only [Number.raw, Canonical]
      omega
    | ratio q proper => exact ⟨lt_of_le_of_ne q.den_pos (Ne.symm proper), q.reduced⟩

/-- An integer is normalised to its canonical form. -/
@[simp]
theorem ofInt_eq_raw (n : Int) : ofInt n = (Number.ofInt n).raw := by
  cases h : fitsWord n with
  | true => simp [ofInt, h, Number.ofInt_of_fits h, Number.raw]
  | false => simp [ofInt, h, Number.ofInt_of_outside h, Number.raw]

/-- A big integer is normalised to the integer. -/
@[simp]
theorem normalize_big (n : Int) : normalize (.big n) = (Number.ofInt n).raw := ofInt_eq_raw n

/-- A ratio is normalised to the rational number. -/
@[simp]
theorem normalize_ratio (q : Rat) : normalize (.ratio q) = (Number.ofRat q).raw := by
  by_cases h : q.den = 1
  · simp [normalize, Number.ofRat, h]
  · simp [normalize, Number.ofRat, h, Number.raw]

/-- What is canonical is normal already. -/
@[simp]
theorem normalize_raw (n : Number) : n.raw.normalize = n.raw := by
  cases n with
  | int | float => rfl
  | big n outside => rw [Number.raw, normalize_big, Number.ofInt_of_outside outside, Number.raw]
  | ratio q proper => rw [Number.raw, normalize_ratio, Number.ofRat_of_proper proper, Number.raw]

/-- What is normalised is canonical. -/
theorem canonical_normalize (a : RawNumber) : a.normalize.Canonical := by
  cases a with
  | int | float => trivial
  | big n => exact canonical_iff.2 ⟨_, (normalize_big n).symm⟩
  | ratio q => exact canonical_iff.2 ⟨_, (normalize_ratio q).symm⟩

end RawNumber

namespace Number

@[simp]
theorem toInt?_raw (n : Number) : n.raw.toInt? = n.toInt? := by cases n <;> rfl

@[simp]
theorem toRat?_raw (n : Number) : n.raw.toRat? = n.toRat? := by cases n <;> rfl

@[simp]
theorem toFloat_raw (n : Number) : n.raw.toFloat = n.toFloat := by cases n <;> rfl

@[simp]
theorem isZero_raw (n : Number) : n.raw.isZero = n.isZero := by cases n <;> rfl

/-! ## Shortcuts -/

/-- A shortcut is taken for words only. -/
theorem words_of_onWords? {α : Type} {op : Int64 → Int64 → Option α} {a b : Number} {r : α}
    (h : RawNumber.onWords? op a.raw b.raw = some r) : ∃ m n, a = .int m ∧ b = .int n ∧ op m n = some r := by
  cases a with
  | int m =>
    cases b with
    | int n => exact ⟨m, n, rfl, rfl, h⟩
    | _ => cases h
  | _ => cases h

/-- A shortcut that gives exact results only changes nothing. -/
theorem arithmetic_raw {checked : Int64 → Int64 → Option Int64} {onInt : Int → Int → Int} {onRat : Rat → Rat → Rat}
    {onFloat : Float → Float → Float} (hchecked : ∀ m n r, checked m n = some r → r.toInt = onInt m.toInt n.toInt)
    (a b : Number) : RawNumber.arithmetic checked onInt onRat onFloat a.raw b.raw = (lift onInt onRat onFloat a b).raw := by
  unfold RawNumber.arithmetic
  cases hw : RawNumber.onWords? checked a.raw b.raw with
  | some r =>
    obtain ⟨m, n, rfl, rfl, hr⟩ := words_of_onWords? hw
    simp only [lift, toInt?, ← hchecked m n r hr, ofInt_toInt, raw]
  | none =>
    simp only [toInt?_raw, toRat?_raw, toFloat_raw, lift]
    cases a.toInt? <;> cases b.toInt? <;> cases a.toRat? <;> cases b.toRat? <;> simp [raw]

/-- Addition in the form of the machine, normalised as it goes, is that of the numbers. -/
theorem add_raw (a b : Number) : a.raw.add b.raw = (a.add b).raw := by
  refine arithmetic_raw (fun m n r h => ?_) a b
  simp only [RawNumber.checkedAdd, Option.ite_none_left_eq_some, Option.some.injEq] at h
  obtain ⟨hfits, rfl⟩ := h
  exact BitVec.toInt_add_of_not_saddOverflow hfits

theorem sub_raw (a b : Number) : a.raw.sub b.raw = (a.sub b).raw := by
  refine arithmetic_raw (fun m n r h => ?_) a b
  simp only [RawNumber.checkedSub, Option.ite_none_left_eq_some, Option.some.injEq] at h
  obtain ⟨hfits, rfl⟩ := h
  exact BitVec.toInt_sub_of_not_ssubOverflow hfits

theorem mul_raw (a b : Number) : a.raw.mul b.raw = (a.mul b).raw := by
  refine arithmetic_raw (fun m n r h => ?_) a b
  simp only [RawNumber.checkedMul, Option.ite_none_left_eq_some, Option.some.injEq] at h
  obtain ⟨hfits, rfl⟩ := h
  exact BitVec.toInt_mul_of_not_smulOverflow hfits

/-- Where one word divides another without a remainder, the division of words is that of the integers. -/
theorem toInt_div_of_divisible {m n : Int64} (h : RawNumber.divisible m n = true) :
    n.toInt ≠ 0 ∧ (m / n).toInt = m.toInt.tdiv n.toInt := by
  simp only [RawNumber.divisible, Bool.and_eq_true, Bool.not_eq_true', beq_eq_false_iff_ne, Bool.and_eq_false_iff] at h
  obtain ⟨hzero, hfits⟩ := h
  refine ⟨fun h => hzero (Int64.toInt_inj.1 h), ?_⟩
  rcases hfits with hm | hn
  · exact Int64.toInt_div_of_ne_left m n hm
  · exact Int64.toInt_div_of_ne_right m n hn

/-- A quotient of words that leaves no remainder is the exact quotient. -/
theorem ofRat_of_wordQuotient? {m n r : Int64} (h : RawNumber.wordQuotient? m n = some r) :
    ofRat ((m.toInt : Rat) / (n.toInt : Rat)) = .int r := by
  simp only [RawNumber.wordQuotient?, Option.ite_none_right_eq_some, Option.some.injEq, Bool.and_eq_true, beq_iff_eq] at h
  obtain ⟨⟨hdivisible, hrest⟩, rfl⟩ := h
  obtain ⟨hzero, hquotient⟩ := toInt_div_of_divisible hdivisible
  have hmod : m.toInt.tmod n.toInt = 0 := by rw [← Int64.toInt_mod, hrest]; rfl
  have hexact : n.toInt * (m / n).toInt = m.toInt := by
    rw [hquotient]
    exact Int.mul_tdiv_cancel_of_tmod_eq_zero hmod
  have hdiv : (m.toInt : Rat) / (n.toInt : Rat) = ((m / n).toInt : Rat) := by
    rw [div_eq_iff (by exact_mod_cast hzero), mul_comm]
    exact_mod_cast hexact.symm
  rw [hdiv, ofRat, dif_pos (Rat.den_intCast _), Rat.num_intCast, ofInt_toInt]

/-- Division in the form of the machine is that of the numbers, and is refused for the same divisors. -/
theorem div?_raw (a b : Number) : a.raw.div? b.raw = (a.div? b).map raw := by
  unfold RawNumber.div? div?
  rw [isZero_raw]
  split
  · rfl
  · cases hw : RawNumber.onWords? RawNumber.wordQuotient? a.raw b.raw with
    | some r =>
      obtain ⟨m, n, rfl, rfl, hr⟩ := words_of_onWords? hw
      simp only [toRat?, ofRat_of_wordQuotient? hr, raw, Option.map_some]
    | none =>
      simp only [toRat?_raw, toFloat_raw]
      cases a.toRat? <;> cases b.toRat? <;> simp [raw]

/-- An integer that does not count as zero is not zero. -/
theorem toInt_ne_zero {b : Number} {n : Int} (hn : b.toInt? = some n) (hzero : ¬b.isZero = true) : n ≠ 0 := by
  rintro rfl
  apply hzero
  cases b with
  | int m =>
    have hm : m.toInt = 0 := Option.some.inj hn
    simp [isZero, Int64.toInt_inj.1 (hm.trans Int64.toInt_zero.symm)]
  | big m _ =>
    cases hn
    rfl
  | _ => cases hn

/-- A negative remainder, moved up by the divisor, is the one between zero and the size of the divisor. -/
theorem remainder_eq_emod {m n : Int} (hn : n ≠ 0) : RawNumber.remainder m n = m % n := by
  have hnonneg := Int.emod_nonneg m hn
  have hlt := Int.emod_lt m hn
  have htmod := Int.tmod_eq_emod (a := m) (b := n)
  simp only [RawNumber.remainder]
  split at htmod <;> split <;> omega

/-- A remainder of words is the exact remainder: moving it up leaves it below the size of the divisor. -/
theorem toInt_of_wordRemainder? {m n r : Int64} (h : RawNumber.wordRemainder? m n = some r) : r.toInt = m.toInt % n.toInt := by
  simp only [RawNumber.wordRemainder?, Option.ite_none_right_eq_some, Option.some.injEq] at h
  obtain ⟨hdivisible, rfl⟩ := h
  obtain ⟨hzero, -⟩ := toInt_div_of_divisible hdivisible
  have hnonneg := Int.emod_nonneg m.toInt hzero
  have hlt := Int.emod_lt m.toInt hzero
  have hmin := n.minValue_le_toInt
  have hmax := n.toInt_le
  rw [Int64.toInt_minValue] at hmin
  rw [Int64.toInt_maxValue] at hmax
  rw [← remainder_eq_emod hzero] at hnonneg hlt ⊢
  simp only [RawNumber.remainder, ← Int64.toInt_mod, Int64.lt_iff_toInt_lt, Int64.toInt_zero] at hnonneg hlt ⊢
  split
  · rename_i hneg
    rw [if_pos hneg] at hnonneg hlt
    split
    · rw [Int64.toInt_sub, Int.bmod_eq_of_le] <;> omega
    · rw [Int64.toInt_add, Int.bmod_eq_of_le] <;> omega
  · rfl

/-- So is the remainder, and it is refused for the same divisors. -/
theorem mod?_raw (a b : Number) : a.raw.mod? b.raw = (a.mod? b).map raw := by
  unfold RawNumber.mod? mod?
  rw [isZero_raw]
  split
  · rfl
  · rename_i hzero
    cases hw : RawNumber.onWords? RawNumber.wordRemainder? a.raw b.raw with
    | some r =>
      obtain ⟨m, n, rfl, rfl, hr⟩ := words_of_onWords? hw
      simp only [toInt?, ← toInt_of_wordRemainder? hr, ofInt_toInt, raw, Option.map_some]
    | none =>
      simp only [toInt?_raw]
      cases a.toInt? with
      | none => cases b.toInt? <;> rfl
      | some m =>
        cases hb : b.toInt? with
        | none => rfl
        | some n => simp [remainder_eq_emod (toInt_ne_zero hb hzero)]

theorem compare?_raw (a b : Number) : a.raw.compare? b.raw = a.compare? b := by
  unfold RawNumber.compare? compare?
  split
  · rename_i o hw
    obtain ⟨m, n, rfl, rfl, ho⟩ := words_of_onWords? hw
    simp only [Option.some.injEq, RawNumber.compareWords, Int64.lt_iff_toInt_lt] at ho
    simp only [toRat?, compareRat, Rat.intCast_lt_intCast, Rat.intCast_inj, ← ho, Int64.toInt_inj]
  · cases ha : a.toRat? <;> cases hb : b.toRat? <;> simp only [toRat?_raw, toFloat_raw, ha, hb]

/-- What is read as a word fits into one. -/
theorem fitsWord_of_parseWord {cs : List Char} {n : Int} (h : parseWord cs = some n) : fitsWord n = true :=
  (Option.filter_eq_some_iff.1 h).2

/-- A literal reads as the number that the text stands for, and in canonical form: an integer is read as a big one only when it
did not fit into a word. -/
theorem literal?_eq (cs : List Char) : RawNumber.literal? cs = (parseExactChars cs).map raw := by
  unfold RawNumber.literal? parseExactChars
  cases hw : parseWord cs with
  | some n => simp [ofInt_of_fits (fitsWord_of_parseWord hw), raw]
  | none =>
    rcases cs.span (· != '/') with ⟨numer, _ | ⟨_, denom⟩⟩
    · cases hk : parseInteger cs with
      | none => simp
      | some k =>
        have houtside : fitsWord k = false := by simpa [parseWord_of_parseInteger hk] using hw
        simp [ofInt_of_outside houtside, raw]
    · cases ha : parseInteger numer with
      | none => simp [ha]
      | some a =>
        cases hb : parseInteger denom with
        | none => simp [ha, hb]
        | some b => by_cases hzero : b = 0 <;> simp [ha, hb, hzero]

/-- A literal in its canonical form is the number that the text stands for. -/
theorem literal?_raw (cs : List Char) : (RawNumber.literal? cs).map RawNumber.normalize = (parseExactChars cs).map raw := by
  rw [literal?_eq, Option.map_map]
  exact congrArg (Option.map · (parseExactChars cs)) (funext RawNumber.normalize_raw)

/-- What arithmetic on two raw numbers gives is what the operations on the numbers say, in canonical form. -/
structure Represented (a b : Number) : Prop where
  add : a.raw.add b.raw = (a.add b).raw
  sub : a.raw.sub b.raw = (a.sub b).raw
  mul : a.raw.mul b.raw = (a.mul b).raw
  div : a.raw.div? b.raw = (a.div? b).map raw
  mod : a.raw.mod? b.raw = (a.mod? b).map raw
  neg : (RawNumber.int 0).sub a.raw = a.neg.raw
  compare : a.raw.compare? b.raw = a.compare? b

/-- Every operation on numbers is the operation of the machine on their canonical forms. -/
theorem represented (a b : Number) : Represented a b :=
  ⟨add_raw a b, sub_raw a b, mul_raw a b, div?_raw a b, mod?_raw a b, sub_raw (.int 0) a, compare?_raw a b⟩

end Number

end MiniLisp
