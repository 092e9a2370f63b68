import YamlLinter.Double.Shortest
import YamlLinter.Text.Decimal

/-!
# Numbers of JSON

A number without fraction and exponent is kept as it is if it fits into 64 bits. Any other number is
kept in double precision: its leading digits, as many as fit into 64 bits, are rounded and then
multiplied or divided by a rounded power of ten. A number that this takes beyond double precision is
none.

## Contents

* `JsonNumber`: whole numbers and numbers of double precision, which a text keeps apart;
* `takeDigits`: the digits that fit into 64 bits;
* `JsonNumber.ofDigits`: the number with the given digits;
* `JsonNumber.render`: its text.
-/

namespace YamlLinter

/-- A number of a JSON text. -/
inductive JsonNumber where
  /-- A number without fraction and exponent that fits into 64 bits, signed or unsigned. -/
  | whole (n : Int)
  /-- Any other number, by its sign and its size. A negative zero is such a number. -/
  | double (negative : Bool) (size : Double)
  deriving Repr, DecidableEq, Inhabited

namespace JsonNumber

/-- Appends digits to a number as long as the result fits into 64 bits: the result, and the digits
that are left. -/
def takeDigits (n : Nat) : List Char → Nat × List Char
  | [] => (n, [])
  | c :: cs =>
    let longer := n * 10 + Text.digitValue c
    if longer < Nat.pow 2 64 then takeDigits longer cs else (n, c :: cs)

/-- The size in double precision of the number with the given digits before and behind the point and
the given exponent. Of the digits that are left, those before the point count as zeros, and those
behind it are dropped. -/
def sizeOfDigits (whole fraction : List Char) (exponent : Int) : Option Double :=
  let (leading, beyond) := takeDigits 0 whole
  let (digits, dropped) := takeDigits leading fraction
  let places : Int := fraction.length - dropped.length
  (Double.ofNat digits).bind (·.scaleTen (beyond.length - places + exponent))

/-- The number with the given sign and digits, unless it is too large. -/
def ofDigits (negative : Bool) (whole : List Char) (fraction : Option (List Char))
    (exponent : Option Int) : Option JsonNumber :=
  let inexact := (sizeOfDigits whole (fraction.getD []) (exponent.getD 0)).map (double negative)
  match fraction, exponent with
  | none, none =>
    let n := Text.decimalValue whole
    if negative then
      if 0 < n && n ≤ Nat.pow 2 63 then some (.whole (-(n : Int))) else inexact
    else
      if n < Nat.pow 2 64 then some (.whole n) else inexact
  | _, _ => inexact

/-- The text of a number. -/
def render : JsonNumber → String
  | .whole n => toString n
  | .double negative size => (if negative then "-" else "") ++ size.shortest.text

end JsonNumber

end YamlLinter
