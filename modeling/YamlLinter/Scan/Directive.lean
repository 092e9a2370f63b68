import YamlLinter.Scan.LineTail
import YamlLinter.Token

/-!
# Directives

A directive is a line that starts with `%`, a name, blanks and a value. A `#` behind a blank of the
value starts a comment.

## Contents

* `directiveText`: the part of a line that belongs to the value;
* `Cursor.directive`: reads a directive with the rest of its line.
-/

namespace YamlLinter

open Text

/-- The characters up to the end of the line or to a `#` behind a blank. The flag says whether the
character before is a blank of the value. -/
def directiveText : (afterBlank : Bool) → List Char → List Char
  | _, [] => []
  | afterBlank, c :: cs =>
    if isLineEnd c || (c == '#' && afterBlank) then []
    else c :: directiveText (isBlank c) cs

/-- Reads a directive and the rest of its line. The token ends where its value does, trailing white
space included. -/
def Cursor.directive (c : Cursor) : Except ScanError (Token × Option Comment × Cursor) :=
  let c₁ := c.forward 1
  let name := c₁.rest.takeWhile isWordChar
  if name.isEmpty then
    c₁.fail .missingDirectiveName
  else
    let c₂ := c₁.forward name.length
    if !isBlankOrEnd c₂.peek then
      c₂.fail (.badDirectiveName c₂.peek)
    else
      let c₃ := c₂.skipWhile isBlank
      let value := directiveText false c₃.rest
      let c₄ := c₃.forward value.length
      match c₄.lineTail with
      | .error e => .error e
      | .ok (comment, c₅) =>
        let kind := .directive (String.ofList name) (String.ofList (trimEnd value))
        .ok (⟨kind, c.mark, c₄.mark⟩, comment, c₅)

end YamlLinter
