import YamlLinter.Double
import YamlLinter.Text.Decimal

/-!
# The shortest decimal of a number

Many decimals are nearest to the same number of double precision. A number is written by the one
with the fewest digits, and among these by the closest. The search goes through the grids of
multiples of a power of ten, from coarse to fine, and on each looks at the two points next to the
number.

## Contents

* `Double.gridPoint?`: the point of a grid that stands for a number;
* `Double.exact`: all digits of a number;
* `Double.shortest`: the shortest decimal.
-/

namespace YamlLinter.Double

/-- Whether the next smaller number is half as far away as the next greater one. -/
def narrowBelow (x : Double) : Bool :=
  x.mantissa == leastFull && x.exponent != minExponent

/-- Whether a point is read as the number, where `half` is half the way to the next number on its
side. A point halfway is read as the number with the even mantissa. -/
def readsBack (x : Double) (distance half : Nat) : Bool :=
  distance < half || (distance == half && x.mantissa % 2 == 0)

/-- The multiple of `10 ^ k` that is read as the number, if there is one next to it: the closer of
two, the greater if both are equally close. All lengths are counted in parts of four times the
common denominator. -/
def gridPoint? (x : Double) (k : Int) : Option Nat :=
  let unit := Nat.pow 2 x.exponent.toNat * Nat.pow 10 (-k).toNat
  let grid := 4 * (Nat.pow 2 (-x.exponent).toNat * Nat.pow 10 k.toNat)
  let value := 4 * x.mantissa * unit
  let down := value % grid
  let up := grid - down
  let below := x.readsBack down (if x.narrowBelow then unit else 2 * unit)
  let above := x.readsBack up (2 * unit)
  if below && (!above || down < up) then some (value / grid)
  else if above then some (value / grid + 1)
  else none

/-- All digits of a number. -/
def exact (x : Double) : Decimal :=
  if 0 ≤ x.exponent then ⟨x.mantissa * Nat.pow 2 x.exponent.toNat, 0⟩
  else ⟨x.mantissa * Nat.pow 5 (-x.exponent).toNat, x.exponent⟩

/-- The first grid from `10 ^ k` on, of as many as the fuel allows, with a point for the number. -/
def search (x : Double) : (fuel : Nat) → (k : Int) → Decimal
  | 0, _ => x.exact
  | fuel + 1, k =>
    match x.gridPoint? k with
    | some digits => ⟨digits, k⟩
    | none => x.search fuel (k - 1)

/-- A power of ten above the number: `30103 / 100000` is the decimal logarithm of two, rounded up. -/
def leadingPower (x : Double) : Int :=
  (x.mantissa.log2 + x.exponent + 1) * 30103 / 100000 + 1

/-- The shortest decimal that is read as the number. Seventeen digits are enough for every number,
and the search starts at most two grids above the first digit. -/
def shortest (x : Double) : Decimal :=
  if x.isZero then ⟨0, 0⟩ else x.search 20 x.leadingPower

end YamlLinter.Double
