/-!
# Double precision

Numbers with a fraction or an exponent are kept in double precision: 53 binary digits and a bounded
exponent. Every operation gives the exact result, rounded once to the nearest such number; halfway
between two it gives the one with the even mantissa, and beyond the largest it gives none.

## Contents

* `Double`: numbers of double precision that are not negative;
* `roundDiv`: a quotient, rounded to a whole number;
* `Double.ofRatio`: the number nearest to a ratio;
* `Double.mul`, `Double.div`: products and quotients;
* `Double.scaleTen`: a number times a power of ten.
-/

namespace YamlLinter

/-- The quotient, rounded to the nearest whole number. A half goes to the even one. -/
def roundDiv (num den : Nat) : Nat :=
  let quotient := num / den
  let rest := num % den
  if 2 * rest < den then quotient
  else if den < 2 * rest then quotient + 1
  else quotient + quotient % 2

/-- The number `mantissa * 2 ^ exponent`. -/
structure Double where
  mantissa : Nat
  exponent : Int
  deriving Repr, DecidableEq, Inhabited

namespace Double

/-- A mantissa is below this power of two. -/
def mantissaBound : Nat := Nat.pow 2 53

/-- A mantissa below this one has the least exponent. -/
def leastFull : Nat := Nat.pow 2 52

/-- The least exponent. -/
def minExponent : Int := -1074

/-- The greatest exponent. -/
def maxExponent : Int := 971

/-- Zero. -/
def zero : Double := ⟨0, minExponent⟩

/-- Whether a number is zero. -/
def isZero (x : Double) : Bool := x.mantissa == 0

/-! ## Rounding -/

/-- The exponent with which `num / den` has a mantissa of full length, but at least the least one.
The difference of the binary logarithms is that of the quotient or one above it. -/
def exponentOf (num den : Nat) : Int :=
  let log : Int := (num.log2 : Int) - den.log2
  let reached := den * Nat.pow 2 log.toNat ≤ num * Nat.pow 2 (-log).toNat
  max minExponent (if reached then log - 52 else log - 53)

/-- The number nearest to `num / den`, if it is not too large. -/
def ofRatio (num den : Nat) : Option Double :=
  if num == 0 then some zero
  else
    let exponent := exponentOf num den
    let mantissa := roundDiv (num * Nat.pow 2 (-exponent).toNat) (den * Nat.pow 2 exponent.toNat)
    let rounded : Double :=
      if mantissa == mantissaBound then ⟨leastFull, exponent + 1⟩ else ⟨mantissa, exponent⟩
    if maxExponent < rounded.exponent then none else some rounded

/-- The number nearest to a natural number. -/
def ofNat (n : Nat) : Option Double := ofRatio n 1

/-! ## Products and quotients -/

/-- The product of two numbers. -/
def mul (x y : Double) : Option Double :=
  let exponent := x.exponent + y.exponent
  ofRatio (x.mantissa * y.mantissa * Nat.pow 2 exponent.toNat) (Nat.pow 2 (-exponent).toNat)

/-- The quotient of two numbers, the second of which is not zero. -/
def div (x y : Double) : Option Double :=
  let exponent := x.exponent - y.exponent
  ofRatio (x.mantissa * Nat.pow 2 exponent.toNat) (y.mantissa * Nat.pow 2 (-exponent).toNat)

/-! ## Powers of ten -/

/-- The greatest power of ten in double precision has this exponent. -/
def largestPower : Nat := 308

/-- A number times a rounded power of ten. -/
def mulTen (x : Double) (n : Nat) : Option Double := (ofNat (Nat.pow 10 n)).bind x.mul

/-- A number divided by a rounded power of ten. -/
def divTen (x : Double) (n : Nat) : Option Double := (ofNat (Nat.pow 10 n)).bind x.div

/-- A number divided by the greatest power of ten `steps` times, or until nothing is left. -/
def divLargest (x : Double) : (steps : Nat) → Option Double
  | 0 => some x
  | steps + 1 => if x.isZero then some x else (x.divTen largestPower).bind (·.divLargest steps)

/-- A number divided by `10 ^ n`. Each power of ten that is divided by is the greatest one, but for
the last, and each quotient is rounded. -/
def shrink (x : Double) (n : Nat) : Option Double :=
  let steps := (n - 1) / largestPower
  (x.divLargest steps).bind (·.divTen (n - steps * largestPower))

/-- A number times a power of ten. Beyond the greatest power of ten only zero has a product. -/
def scaleTen (x : Double) (exponent : Int) : Option Double :=
  if exponent < 0 then x.shrink (-exponent).toNat
  else if x.isZero then some x
  else if (largestPower : Int) < exponent then none
  else x.mulTen exponent.toNat

end Double

end YamlLinter
