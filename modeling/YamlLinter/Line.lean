import YamlLinter.Text.Utf8

/-!
# Physical lines

A line ends at a line feed, and a carriage return right before the line feed belongs to the line
end. The last line has no line feed and is there even when it is empty.

## Contents

* `Line`: a line with its number and byte offsets;
* `linesOf`: the lines of a text;
* `Line.all`: the lines of a source.
-/

namespace YamlLinter

/-- A line without its line end. -/
structure Line where
  /-- The number of the line, counted from one. -/
  number : Nat
  /-- The byte offset of its first character. -/
  start : Nat
  /-- The byte offset behind its last character. -/
  stop : Nat
  text : List Char
  deriving Repr, DecidableEq, Inhabited

namespace Line

/-- The line with the given text that starts at `start`. -/
def make (number start : Nat) (text : List Char) : Line :=
  { number, start, stop := start + Text.byteCount text, text }

/-- The characters of a line, last one first, without a carriage return at its end. -/
def dropReturn (read : List Char) : List Char :=
  match read with
  | '\r' :: rest => rest
  | _ => read

/-- The lines of a text, of whose first line `read` has been read already, last character first. -/
def allFrom (number start : Nat) (read : List Char) : List Char → List Line
  | [] => [make number start read.reverse]
  | c :: cs =>
    if c == '\n' then
      make number start (dropReturn read).reverse ::
        allFrom (number + 1) (start + Text.byteCount read + 1) [] cs
    else
      allFrom number start (c :: read) cs

/-- The lines of a source. -/
def all (source : List Char) : List Line := allFrom 1 0 [] source

end Line

end YamlLinter
