import YamlLinter.Problem
import YamlLinter.Text.Utf8

/-!
# The text a problem points at

A problem names a line and a column, both counted from one. It points at the character there; a
column beyond the line runs on into the next lines, and a place beyond the source is its end.

## Contents

* `dropLines`: a text without its first lines;
* `pointedText`: the source from the character on that a problem points at;
* `Problem.span`: the bytes of that character.
-/

namespace YamlLinter

/-- The text behind the first `n` line feeds, empty if there are not so many. -/
def dropLines : List Char → Nat → List Char
  | cs, 0 => cs
  | [], _ + 1 => []
  | c :: cs, n + 1 => if c == '\n' then dropLines cs n else dropLines cs (n + 1)

/-- The source from the given line and column on. -/
def pointedText (source : List Char) (line column : Nat) : List Char :=
  (dropLines source (line - 1)).drop (column - 1)

/-- The byte offsets of a character: of its start and of its end. -/
structure Span where
  start : Nat
  stop : Nat
  deriving Repr, DecidableEq, Inhabited

/-- The bytes of the character that a problem points at; none at the end of the source. -/
def Problem.span (p : Problem) (source : List Char) : Span :=
  let behind := pointedText source p.line p.column
  let start := Text.byteCount source - Text.byteCount behind
  { start
    stop :=
      match behind with
      | [] => start
      | c :: _ => start + c.utf8Size }

end YamlLinter
