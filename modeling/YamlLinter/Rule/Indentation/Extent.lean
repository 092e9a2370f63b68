import YamlLinter.Rule

/-!
# Where tokens lie on lines

The indentation rule looks at tokens that take up room on a line, and at the raw text of scalars
that span lines.

## Contents

* `isVisible`, `isProperty`, `isExplicitKey`: what kind of token it is;
* `lastLine`: the line on which a token really ends;
* `continuationLines`: the lines of a scalar behind its first, with their indents.
-/

namespace YamlLinter.Indentation

/-- The column of a token. -/
def columnOf (t : Token) : Int := t.start.column

/-- Whether a token takes up room on a line. -/
def isVisible (t : Token) : Bool :=
  match t.kind with
  | .streamStart | .streamEnd | .blockEnd => false
  | .scalar value _ => !value.isEmpty
  | _ => true

/-- An anchor or a tag, which belongs to the node behind it. -/
def isProperty (t : Token) : Bool :=
  match t.kind with
  | .anchor _ | .tag _ _ => true
  | _ => false

/-- Whether a `KEY` token stands for a `?`. -/
def isExplicitKey (buffer : List UInt8) (t : Token) : Bool :=
  t.start.index < t.stop.index && buffer[t.start.index]? == some 0x3f

/-- A space, tab, line feed, form feed or carriage return. -/
def isAsciiSpace (b : UInt8) : Bool :=
  b == 0x20 || b == 0x09 || b == 0x0a || b == 0x0c || b == 0x0d

/-- The white space at the end of a token, last byte first. The search may go one byte beyond the
start of the token. -/
def trailingSpace (buffer : List UInt8) (t : Token) : List UInt8 :=
  let first := t.start.index - 1
  ((buffer.drop first).take (t.stop.index - first)).reverse.takeWhile isAsciiSpace

/-- The line, counted from one, of the last character of a token that is no white space. A block
scalar ends behind the line breaks that follow it. -/
def lastLine (buffer : List UInt8) (t : Token) : Int :=
  let stop : Int := t.stop.line + 1
  if t.isScalar then stop - (trailingSpace buffer t).count 0x0a else stop

/-- The number of spaces at the front of a line, unless the line is blank. -/
def lineIndent? (bytes : List UInt8) : Option Nat :=
  let spaces := (bytes.takeWhile (· == 0x20)).length
  match bytes[spaces]? with
  | none => none
  | some b => if b == 0x0a || b == 0x0d then none else some spaces

/-- The lines that start behind the line feeds among the next `count` bytes, blank ones left out:
their numbers and indents. The first byte stands on the line `number`. -/
def linesBehind (number : Nat) : (count : Nat) → List UInt8 → List (Nat × Nat)
  | 0, _ | _ + 1, [] => []
  | count + 1, b :: bytes =>
    if b == 0x0a then
      match lineIndent? bytes with
      | some indent => (number + 1, indent) :: linesBehind (number + 1) count bytes
      | none => linesBehind (number + 1) count bytes
    else
      linesBehind number count bytes

/-- The lines of a token behind its first, blank ones left out: their numbers, counted from one, and
their indents. A line feed at the very end of the token starts no line of it. -/
def continuationLines (buffer : List UInt8) (t : Token) : List (Nat × Nat) :=
  let limit := t.stop.index - 1
  if t.start.line == t.stop.line || buffer.length < limit then []
  else
    linesBehind (t.start.line + 1) (limit - t.start.index) (buffer.drop t.start.index)

end YamlLinter.Indentation
