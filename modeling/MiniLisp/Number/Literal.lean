import MiniLisp.Number.Basic
import MiniLisp.Number.Shortest

/-!
# Literals: numbers as text

An exact literal is an integer or two integers joined by a slash (`parseExact`); a decimal literal has digits, perhaps a point
and perhaps an exponent, and stands for the nearest float (`parseDecimal`). `Number.text` writes a number: exact numbers in
their lowest terms, a float without a fraction with one zero after its point, any other float with the fewest digits that read
back.
-/

namespace MiniLisp

/-- The value of a run of decimal digits. -/
def digitsValue (cs : List Char) : Nat := cs.foldl (fun n c => 10 * n + (c.toNat - '0'.toNat)) 0

/-- The natural number that one or more digits stand for. -/
def parseNatural (cs : List Char) : Option Nat :=
  if !cs.isEmpty && cs.all Char.isDigit then some (digitsValue cs) else none

/-- The integer that digits stand for, after a minus sign or none. -/
def parseInteger : List Char → Option Int
  | '-' :: cs => (parseNatural cs).map fun n => -(n : Int)
  | cs => (parseNatural cs).map fun n => (n : Int)

/-- The integer that digits stand for, after any sign or none, if it fits into a word. -/
def parseWord (cs : List Char) : Option Int :=
  let read := match cs with
    | '+' :: cs => (parseNatural cs).map fun n => (n : Int)
    | cs => parseInteger cs
  read.filter fitsWord

/-- The exact number that a text is: an integer in a word with any sign, or an integer of any size, or a quotient of two of
these by a divisor other than zero, with minus signs only. -/
def parseExactChars (cs : List Char) : Option Number :=
  match parseWord cs with
  | some n => some (.ofInt n)
  | none =>
    match cs.span (· != '/') with
    | (_, []) => (parseInteger cs).map .ofInt
    | (numer, _ :: denom) => do
      let a ← parseInteger numer
      let b ← parseInteger denom
      if b == 0 then none else some (.ofRat ((a : Rat) / (b : Rat)))

/-- The exact number that a text is, if any. -/
def parseExact (text : String) : Option Number := parseExactChars text.toList

/-- The float nearest to `digits * 10 ^ exponent`. Beyond the decimal range of floats nothing is computed: the result is
infinite or zero whatever the digits are. -/
def floatOfDecimal (negative : Bool) (digits : Nat) (exponent : Int) : Float :=
  let size := ((Nat.toDigits 10 digits).length : Int) + exponent
  if digits == 0 || size < -330 then Binary64.ofQuotient negative 0 1
  else if 310 < size then Binary64.infinity negative
  else if 0 ≤ exponent then Binary64.ofQuotient negative (digits * Nat.pow 10 exponent.toNat) 1
  else Binary64.ofQuotient negative digits (Nat.pow 10 (-exponent).toNat)

/-- A sign taken off the front of a text: whether it was a minus, and the rest. -/
def takeSign : List Char → Bool × List Char
  | '-' :: cs => (true, cs)
  | '+' :: cs => (false, cs)
  | cs => (false, cs)

/-- The exponent part of a decimal literal: nothing at all, or an `e` with a sign or none and one or more digits. -/
def parseExponent : List Char → Option Int
  | [] => some 0
  | c :: cs =>
    if c == 'e' || c == 'E' then
      let (negative, digits) := takeSign cs
      (parseNatural digits).map fun n => if negative then -(n : Int) else n
    else none

/-- The digits after a point, and what follows them; without a point there are none. -/
def takeFraction : List Char → List Char × List Char
  | '.' :: cs => cs.span Char.isDigit
  | cs => ([], cs)

/-- The float that a decimal literal stands for: a sign or none, digits with a point or without, at least one of them, and an
exponent or none. -/
def parseDecimal (cs : List Char) : Option Float := do
  let (negative, unsigned) := takeSign cs
  let (whole, afterWhole) := unsigned.span Char.isDigit
  let (fraction, afterFraction) := takeFraction afterWhole
  if whole.isEmpty && fraction.isEmpty then none
  else
    let exponent ← parseExponent afterFraction
    some (floatOfDecimal negative (digitsValue (whole ++ fraction)) (exponent - fraction.length))

/-- The integer that a finite float is, if it has no fraction. -/
def wholePart? (significand : Nat) (exponent : Int) : Option Nat :=
  if 0 ≤ exponent then some (significand * Nat.pow 2 exponent.toNat)
  else
    let unit := Nat.pow 2 (-exponent).toNat
    if significand % unit == 0 then some (significand / unit) else none

/-- The text of a float. -/
def floatText (x : Float) : String :=
  match Binary64.parts x with
  | .nan => "NaN"
  | .infinite negative => if negative then "-inf" else "inf"
  | .finite negative significand exponent =>
    let unsigned := match wholePart? significand exponent with
      | some n => toString n ++ ".0"
      | none => (Shortest.shortest significand exponent).text
    if negative then "-" ++ unsigned else unsigned

/-- The text of a number. -/
def Number.text : Number → String
  | .int n => toString n.toInt
  | .big n _ => toString n
  | .ratio q _ => toString q.num ++ "/" ++ toString q.den
  | .float x => floatText x

end MiniLisp
