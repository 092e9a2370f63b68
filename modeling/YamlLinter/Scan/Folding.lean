import YamlLinter.Scan.Cursor

/-!
# Line folding

Plain and quoted scalars may span lines. A single line feed between two lines becomes a space; of
several breaks the first is dropped; a line or paragraph separator stays.

## Contents

* `foldedBreak`: what a line break and the breaks behind it contribute to a scalar.
-/

namespace YamlLinter

/-- The text that stands for the line break `first` and the empty lines `more` behind it. -/
def foldedBreak (first : Char) (more : List Char) : List Char :=
  if first != '\n' then first :: more
  else if more.isEmpty then [' ']
  else more

end YamlLinter
