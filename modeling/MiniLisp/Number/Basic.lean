import MiniLisp.Number.Binary64

/-!
# Numbers: small integers, big integers, ratios and floats

An integer is held in a machine word while it fits there and as a big integer when it does not; a quotient that is no integer
is a ratio; floats stand apart. The bounds are part of the type, so every exact number has one form: `Number.ofRat` finds it and
`Number.toRat?` reads it back. An operation on exact numbers computes the exact result and gives it that form; one float
operand makes the result a float.
-/

namespace MiniLisp

/-- Whether an integer fits into a signed word of 64 bits. -/
def fitsWord (n : Int) : Bool := decide (Int64.minValue.toInt ≤ n) && decide (n ≤ Int64.maxValue.toInt)

/-- A number: an integer in a word, an integer outside the range of words, a rational that is no integer, or a float. -/
inductive Number where
  | int (n : Int64)
  | big (n : Int) (outside : fitsWord n = false)
  | ratio (q : Rat) (proper : q.den ≠ 1)
  | float (x : Float)

namespace Number

instance : Inhabited Number := ⟨.int 0⟩

/-- The form of an integer. -/
def ofInt (n : Int) : Number :=
  match h : fitsWord n with
  | true => .int (Int64.ofInt n)
  | false => .big n h

/-- The form of a rational number. -/
def ofRat (q : Rat) : Number := if h : q.den = 1 then ofInt q.num else .ratio q h

/-- The integer that a number is, if it is one of the integer forms. -/
def toInt? : Number → Option Int
  | .int n => some n.toInt
  | .big n _ => some n
  | _ => none

/-- The rational number that an exact number is. -/
def toRat? : Number → Option Rat
  | .int n => some n.toInt
  | .big n _ => some n
  | .ratio q _ => some q
  | .float _ => none

def isInteger (a : Number) : Bool := a.toInt?.isSome

/-- The nearest float; for a ratio, the quotient of the floats nearest to its parts. -/
def toFloat : Number → Float
  | .int n => Binary64.ofInt n.toInt
  | .big n _ => Binary64.ofInt n
  | .ratio q _ => Binary64.ofInt q.num / Binary64.ofInt q.den
  | .float x => x

def isZero : Number → Bool
  | .int n => n == 0
  | .big n _ => n == 0
  | .ratio q _ => q.num == 0
  | .float x => x == 0.0

/-- The same number in the same form: floats are told apart by their bits, so a zero differs from its negation. -/
def same : Number → Number → Bool
  | .int a, .int b => a == b
  | .big a _, .big b _ => a == b
  | .ratio p _, .ratio q _ => p == q
  | .float x, .float y => x.toBits == y.toBits
  | _, _ => false

/-- An operation on two numbers, done on integers if both are, else on rationals if both are exact, else on floats. -/
def lift (onInt : Int → Int → Int) (onRat : Rat → Rat → Rat) (onFloat : Float → Float → Float) (a b : Number) : Number :=
  match a.toInt?, b.toInt? with
  | some m, some n => ofInt (onInt m n)
  | _, _ =>
    match a.toRat?, b.toRat? with
    | some p, some q => ofRat (onRat p q)
    | _, _ => .float (onFloat a.toFloat b.toFloat)

def add : Number → Number → Number := lift (· + ·) (· + ·) (· + ·)

def sub : Number → Number → Number := lift (· - ·) (· - ·) (· - ·)

def mul : Number → Number → Number := lift (· * ·) (· * ·) (· * ·)

def neg (a : Number) : Number := sub (.int 0) a

/-- The quotient, exact for exact numbers; there is none by a zero, be it exact or a float. -/
def div? (a b : Number) : Option Number :=
  if b.isZero then none
  else
    match a.toRat?, b.toRat? with
    | some p, some q => some (ofRat (p / q))
    | _, _ => some (.float (a.toFloat / b.toFloat))

/-- The remainder between zero and the size of the divisor, for two integers and a divisor other than zero. -/
def mod? (a b : Number) : Option Number :=
  if b.isZero then none
  else
    match a.toInt?, b.toInt? with
    | some m, some n => some (ofInt (m % n))
    | _, _ => none

/-- The order of two floats; a NaN has none with any float. -/
def compareFloat? (x y : Float) : Option Ordering :=
  if x < y then some .lt else if x == y then some .eq else if y < x then some .gt else none

/-- The order of two rationals. -/
def compareRat (p q : Rat) : Ordering := if p < q then .lt else if p = q then .eq else .gt

/-- The numeric order across all forms: exact between exact numbers, else that of the nearest floats. -/
def compare? (a b : Number) : Option Ordering :=
  match a.toRat?, b.toRat? with
  | some p, some q => some (compareRat p q)
  | _, _ => compareFloat? a.toFloat b.toFloat

/-- Numeric equality across all forms. -/
def numEq (a b : Number) : Bool := a.compare? b == some .eq

/-- The number of an integer is that integer. -/
@[simp]
theorem toRat?_ofInt (n : Int) : (ofInt n).toRat? = some (n : Rat) := by
  unfold ofInt
  split
  · next h =>
    simp only [fitsWord, Bool.and_eq_true, decide_eq_true_eq, Int64.toInt_minValue, Int64.toInt_maxValue] at h
    simp only [toRat?]
    rw [Int64.toInt_ofInt_of_le h.1 (by omega)]
  · rfl

/-- The form of a rational number reads back as that rational number. -/
@[simp]
theorem toRat?_ofRat (q : Rat) : (ofRat q).toRat? = some q := by
  unfold ofRat
  split
  · next h => rw [toRat?_ofInt]; congr 1; exact Rat.ext rfl (by simp [h])
  · rfl

end Number

end MiniLisp
