import YamlLinter.Scan.LineTail
import YamlLinter.Token

/-!
# Tags

A tag is `!<text>`, a lone `!`, or a handle with a suffix. The handle is `!`, unless another `!`
follows before the next space: then it is what stands between the two, with both.

## Contents

* `Cursor.tagHandle`, `Cursor.tagSuffix`: the two parts;
* `Cursor.tag`: reads a tag and looks at the character behind it.
-/

namespace YamlLinter.Cursor

open Text

/-- Whether a second `!` follows before the tag ends, so that the handle is longer than one. -/
def hasLongHandle (c : Cursor) : Bool :=
  ((c.rest.drop 1).takeWhile (!isSpaceOrEnd ·)).contains '!'

/-- Reads a handle from its first `!` to its second. -/
def tagHandle (c : Cursor) : Except ScanError (List Char × Cursor) :=
  let word := (c.rest.drop 1).takeWhile isWordChar
  let c₁ := c.forward (word.length + 1)
  if c₁.peek == '!' then
    .ok (c.rest.take (word.length + 2), c₁.forward 1)
  else
    c₁.fail (.badTagHandle c₁.peek)

/-- Reads the text of a tag behind its handle. Inside flow collections flow marks end it. -/
def tagSuffix (c : Cursor) (flow : Bool) : Except ScanError (List Char × Cursor) :=
  let text := c.rest.takeWhile fun ch => isUriChar ch && !(flow && isFlowMark ch)
  if text.isEmpty then
    c.fail (.missingTagSuffix c.peek)
  else
    .ok (text, c.forward text.length)

/-- Reads `!<text>` and gives the text. -/
def verbatimTag (c : Cursor) (flow : Bool) : Except ScanError (List Char × Cursor) :=
  match (c.forward 2).tagSuffix flow with
  | .error e => .error e
  | .ok (text, c₁) =>
    if c₁.peek == '>' then .ok (text, c₁.forward 1) else c₁.fail (.unclosedTag c₁.peek)

/-- Reads a handle and a suffix. -/
def shorthandTag (c : Cursor) (flow : Bool) :
    Except ScanError (List Char × List Char × Cursor) :=
  let handle := if c.hasLongHandle then c.tagHandle else .ok (['!'], c.forward 1)
  match handle with
  | .error e => .error e
  | .ok (handle, c₁) =>
    match c₁.tagSuffix flow with
    | .error e => .error e
    | .ok (suffix, c₂) => .ok (handle, suffix, c₂)

/-- Reads the handle and the suffix of a tag in any of its forms. -/
def tagParts (c : Cursor) (flow : Bool) : Except ScanError (List Char × List Char × Cursor) :=
  if c.peekAt 1 == '<' then
    match c.verbatimTag flow with
    | .error e => .error e
    | .ok (text, c₁) => .ok ([], text, c₁)
  else if isBlankOrEnd (c.peekAt 1) then
    .ok ([], ['!'], c.forward 1)
  else
    c.shorthandTag flow

/-- What may stand behind a tag: a space, the end of the line, and in flow collections a separator
or a closing bracket. -/
def isTagEnd (flow : Bool) (ch : Char) : Bool :=
  isSpaceOrEnd ch || (flow && (ch == ',' || ch == ']' || ch == '\x7d'))

/-- Reads a tag. -/
def tag (c : Cursor) (flow : Bool) : Except ScanError (Token × Cursor) :=
  match c.tagParts flow with
  | .error e => .error e
  | .ok (handle, suffix, c₁) =>
    if isTagEnd flow c₁.peek then
      .ok (⟨.tag (String.ofList handle) (String.ofList suffix), c.mark, c₁.mark⟩, c₁)
    else
      c₁.fail (.textAfterTag c₁.peek)

end YamlLinter.Cursor
