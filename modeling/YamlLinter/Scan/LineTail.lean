import YamlLinter.Scan.Cursor
import YamlLinter.Scan.Error

/-!
# The tail of a line

Behind a directive and behind the header of a block scalar the line holds nothing but blanks and
possibly a comment.

## Contents

* `Cursor.fail`: an error at the cursor;
* `Cursor.lineTail`: reads such a tail with its line break.
-/

namespace YamlLinter.Cursor

open Text

/-- The error of the given cause at the cursor. -/
def fail {α : Type} (c : Cursor) (cause : ScanError.Cause) : Except ScanError α :=
  .error ⟨cause, c.mark⟩

/-- Reads a line break, if one stands here. -/
def skipBreak (c : Cursor) : Cursor :=
  match c.lineBreak? with
  | some (_, c') => c'
  | none => c

/-- Reads blanks, a comment and the line break; anything else on the line is an error. -/
def lineTail (c : Cursor) : Except ScanError (Option Comment × Cursor) :=
  let c := c.skipWhile isBlank
  if c.peek == '#' then
    .ok (some c.comment, c.skipLine.skipBreak)
  else if isLineEnd c.peek then
    .ok (none, c.skipBreak)
  else
    c.fail (.trailingText c.peek)

end YamlLinter.Cursor
