/-!
# Unicode white space

The characters with the Unicode property White_Space, and trimming by that property. The blanks of
YAML (`Text.isBlank`) are only two of them.

## Contents

* `isSpace`: the property;
* `trimStart`, `trimEnd`, `trim`: a text without the white space at one or both ends.
-/

namespace YamlLinter.Text

/-- The Unicode property White_Space. -/
def isSpace (c : Char) : Bool :=
  let n := c.toNat
  (0x09 ≤ n && n ≤ 0x0d) || n == 0x20 || n == 0x85 || n == 0xa0 || n == 0x1680 ||
    (0x2000 ≤ n && n ≤ 0x200a) || n == 0x2028 || n == 0x2029 || n == 0x202f || n == 0x205f ||
    n == 0x3000

/-- Drops the white space at the front. -/
def trimStart (cs : List Char) : List Char :=
  cs.dropWhile isSpace

/-- Drops the white space at the back. -/
def trimEnd (cs : List Char) : List Char :=
  (cs.reverse.dropWhile isSpace).reverse

/-- Drops the white space at both ends. -/
def trim (cs : List Char) : List Char :=
  trimEnd (trimStart cs)

end YamlLinter.Text
