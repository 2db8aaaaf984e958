import MiniLisp.Number.Binary64

/-!
# Shortest: the fewest decimal digits that read back as the same float

The reals that round to a float form an interval around it (`roundingInterval`). For one digit, two digits, and so on up to
seventeen, the two neighbours of the float on that decimal grid are tried; the first grid with a neighbour inside the interval
gives the digits, and of two neighbours inside it the nearer one is taken, the upper one if both are as near.
-/

namespace MiniLisp.Shortest

open Binary64

/-- A decimal: `digits * 10 ^ exponent`. -/
structure Decimal where
  digits : Nat
  exponent : Int
  deriving DecidableEq, Repr, Inhabited

/-- The interval of reals that round to a float, over a common unit: the float is `value / unit`, the ends are `low / unit` and
`high / unit`, and the ends themselves belong to it when `closed`. -/
structure Interval where
  low : Nat
  value : Nat
  high : Nat
  unit : Nat
  closed : Bool

/-- The interval around `significand * 2 ^ exponent`. Below a power of two the floats lie twice as dense, so the lower end is
only half as far away there. -/
def roundingInterval (significand : Nat) (exponent : Int) : Interval :=
  let below := if significand == hiddenBit && leastExponent < exponent then 1 else 2
  let scale (n : Nat) : Nat := if 2 ≤ exponent then n * Nat.pow 2 (exponent - 2).toNat else n
  { low := scale (4 * significand - below)
    value := scale (4 * significand)
    high := scale (4 * significand + 2)
    unit := if 2 ≤ exponent then 1 else Nat.pow 2 (2 - exponent).toNat
    closed := significand % 2 == 0 }

/-- Whether the decimal `n * 10 ^ e` lies in the interval. -/
def Interval.holds (i : Interval) (n : Nat) (e : Int) : Bool :=
  let (point, scale) : Nat × Nat :=
    if 0 ≤ e then (n * Nat.pow 10 e.toNat * i.unit, 1) else (n * i.unit, Nat.pow 10 (-e).toNat)
  if i.closed then decide (i.low * scale ≤ point) && decide (point ≤ i.high * scale)
  else decide (i.low * scale < point) && decide (point < i.high * scale)

/-- The two neighbours of the float on the grid of multiples of `10 ^ e`, and whether the upper one is at least as near. -/
def Interval.neighbours (i : Interval) (e : Int) : Nat × Nat × Bool :=
  let (a, b) : Nat × Nat :=
    if 0 ≤ e then (i.value, i.unit * Nat.pow 10 e.toNat) else (i.value * Nat.pow 10 (-e).toNat, i.unit)
  (a / b, a / b + 1, decide (b ≤ 2 * (a % b)))

/-- How often a value below one unit is multiplied by ten before it reaches a tenth of the unit, counted downwards. -/
def leadingZeros (unit : Nat) : (tries value : Nat) → (zeros : Int) → Int
  | 0, _, zeros => zeros
  | tries + 1, value, zeros =>
    if unit ≤ 10 * value then zeros else leadingZeros unit tries (10 * value) (zeros - 1)

/-- The number of decimal digits before the point; zero or less for a float below one, whose first digit stands within the
first 324 places. -/
def Interval.magnitude (i : Interval) : Int :=
  if i.unit ≤ i.value then ((Nat.toDigits 10 (i.value / i.unit)).length : Int)
  else leadingZeros i.unit 324 i.value 0

/-- The first decimal in the interval on grids of `count`, `count + 1`, ... digits. -/
def search (i : Interval) (magnitude : Int) : (tries count : Nat) → Decimal
  | 0, count => ⟨(i.neighbours (magnitude - count)).1, magnitude - count⟩
  | tries + 1, count =>
    let e := magnitude - count
    let (below, above, nearAbove) := i.neighbours e
    match i.holds below e, i.holds above e with
    | true, true => ⟨if nearAbove then above else below, e⟩
    | true, false => ⟨below, e⟩
    | false, true => ⟨above, e⟩
    | false, false => search i magnitude tries (count + 1)

/-- The shortest decimal that reads back as `significand * 2 ^ exponent`, for a significand other than zero. -/
def shortest (significand : Nat) (exponent : Int) : Decimal :=
  let i := roundingInterval significand exponent
  search i i.magnitude 17 1

/-- The digits of a natural number without the zeros at their end. -/
def trimZeros (digits : List Char) : List Char := (digits.reverse.dropWhile (· == '0')).reverse

/-- A decimal written with a point and without an exponent, for a decimal that is no whole number. -/
def Decimal.text (d : Decimal) : String :=
  let digits := Nat.toDigits 10 d.digits
  let shift := (digits.length : Int) + d.exponent
  if shift ≤ 0 then
    String.ofList ('0' :: '.' :: List.replicate (-shift).toNat '0' ++ trimZeros digits)
  else
    let whole := digits.take shift.toNat
    String.ofList (whole ++ '.' :: trimZeros (digits.drop shift.toNat))

end MiniLisp.Shortest
