/-!
# Hexadecimal digits

## Contents

* `hexValue`: the value of a digit;
* `hexDigits`: a number in lower-case digits.
-/

namespace YamlLinter.Text

/-- The value of a hexadecimal digit. -/
def hexValue (c : Char) : Option Nat :=
  if '0' ≤ c && c ≤ '9' then some (c.toNat - '0'.toNat)
  else if 'a' ≤ c && c ≤ 'f' then some (c.toNat - 'a'.toNat + 10)
  else if 'A' ≤ c && c ≤ 'F' then some (c.toNat - 'A'.toNat + 10)
  else none

/-- The number in base sixteen with lower-case digits and no padding. -/
def hexDigits (n : Nat) : List Char :=
  Nat.toDigits 16 n

end YamlLinter.Text
