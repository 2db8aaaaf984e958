/-!
# Binary64: the parts of a float, and the float nearest to a quotient

A finite float is `significand * 2 ^ exponent` with a sign. `ofQuotient` rounds a quotient of natural numbers to the nearest
float, a half to the even neighbour, in exact arithmetic: reading a decimal literal and converting an integer of any size are
both instances of it.
-/

namespace MiniLisp.Binary64

/-- The largest power of two that divides every finite float is at least `2 ^ leastExponent`. -/
def leastExponent : Int := -1074

/-- The lowest bit of the exponent field; a significand of 53 bits is no less. -/
def hiddenBit : Nat := 0x10000000000000

/-- The bit that is set in the negative floats. -/
def signBit : Nat := 0x8000000000000000

/-- The bits of positive infinity. -/
def infinityBits : Nat := 2047 * hiddenBit

/-- What a float stands for. -/
inductive Parts where
  | nan
  | infinite (negative : Bool)
  | finite (negative : Bool) (significand : Nat) (exponent : Int)
  deriving DecidableEq, Repr

/-- The sign, significand and exponent held in the bits of a float. -/
def parts (x : Float) : Parts :=
  let bits : Nat := x.toBits.toNat
  let negative := bits / signBit == 1
  let field : Nat := bits / hiddenBit % 2048
  let fraction : Nat := bits % hiddenBit
  if field == 2047 then
    if fraction == 0 then .infinite negative else .nan
  else if field == 0 then .finite negative fraction leastExponent
  else .finite negative (fraction + hiddenBit) ((field : Int) + leastExponent - 1)

/-- The natural number nearest to `a / b`, a half going to the even one. -/
def roundQuotient (a b : Nat) : Nat :=
  let q := a / b
  let r := a % b
  if 2 * r < b then q else if b < 2 * r then q + 1 else q + q % 2

/-- A fraction `a / b` divided by `2 ^ e`, as a fraction. -/
def scaleDown (a b : Nat) (e : Int) : Nat × Nat :=
  if 0 ≤ e then (a, b * Nat.pow 2 e.toNat) else (a * Nat.pow 2 (-e).toNat, b)

/-- The exponent with which `num / den` has a significand of 53 bits, or the least exponent if that is larger. -/
def exponentFor (num den : Nat) : Int :=
  let guess : Int := (Nat.log2 num : Int) - Nat.log2 den - 52
  let (a, b) := scaleDown num den guess
  let e := if a < b * hiddenBit then guess - 1 else guess
  if e < leastExponent then leastExponent else e

/-- The bits, without the sign, of the float nearest to `num / den`. A significand that rounds up to the next power of two
carries into the exponent field, and whatever lies beyond the largest float is infinity. -/
def magnitudeBits (num den : Nat) : Nat :=
  if num == 0 then 0
  else
    let e := exponentFor num den
    let (a, b) := scaleDown num den e
    min ((e - leastExponent).toNat * hiddenBit + roundQuotient a b) infinityBits

/-- The float nearest to `num / den`, negated if `negative`. -/
def ofQuotient (negative : Bool) (num den : Nat) : Float :=
  Float.ofBits (UInt64.ofNat ((if negative then signBit else 0) + magnitudeBits num den))

/-- The float nearest to an integer. -/
def ofInt (n : Int) : Float := ofQuotient (n < 0) n.natAbs 1

/-- Positive infinity, or negative. -/
def infinity (negative : Bool) : Float :=
  Float.ofBits (UInt64.ofNat ((if negative then signBit else 0) + infinityBits))

end MiniLisp.Binary64
