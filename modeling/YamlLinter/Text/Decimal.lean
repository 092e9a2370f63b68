/-!
# Decimal digits

## Contents

* `digitValue`, `decimalValue`: the numbers that a digit and a row of digits denote;
* `Decimal`: a number as digits and a power of ten;
* `Decimal.text`: its digits, all written out.
-/

namespace YamlLinter

namespace Text

/-- The number that a decimal digit denotes. -/
def digitValue (c : Char) : Nat := c.toNat - '0'.toNat

/-- The number that decimal digits denote. -/
def decimalValue (cs : List Char) : Nat :=
  cs.foldl (fun n c => n * 10 + digitValue c) 0

end Text

/-- The number `digits * 10 ^ exponent`. -/
structure Decimal where
  digits : Nat
  exponent : Int
  deriving Repr, DecidableEq, Inhabited

/-- The text of a decimal: all digits are written out, at least one on each side of the point. -/
def Decimal.text (d : Decimal) : String :=
  if 0 ≤ d.exponent then
    toString (d.digits * Nat.pow 10 d.exponent.toNat) ++ ".0"
  else
    let places := (-d.exponent).toNat
    let unit := Nat.pow 10 places
    let fraction := (toString (d.digits % unit)).toList
    let padded := List.replicate (places - fraction.length) '0' ++ fraction
    let trimmed := (padded.reverse.dropWhile (· == '0')).reverse
    let shown := if trimmed.isEmpty then ['0'] else trimmed
    toString (d.digits / unit) ++ "." ++ String.ofList shown

end YamlLinter
