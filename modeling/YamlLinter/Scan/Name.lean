import YamlLinter.Scan.LineTail
import YamlLinter.Token

/-!
# Anchors and aliases

An anchor `&name` names a node and an alias `*name` refers to one. The name runs to the next blank,
line break or flow mark.

## Contents

* `isNameChar`: the alphabet of these names;
* `Cursor.aliasRef`, `Cursor.anchor`: read an alias or an anchor.
-/

namespace YamlLinter

open Text

/-- The characters of anchor names. -/
def isNameChar (c : Char) : Bool :=
  !isBlankOrEnd c && !isFlowMark c

namespace Cursor

/-- Reads one character and a name, and makes a token of the name. -/
def name (c : Cursor) (missing : Char → ScanError.Cause) (kind : String → TokenKind) :
    Except ScanError (Token × Cursor) :=
  let c₁ := c.forward 1
  let text := c₁.rest.takeWhile isNameChar
  if text.isEmpty then
    c₁.fail (missing c₁.peek)
  else
    let c₂ := c₁.forward text.length
    .ok (⟨kind (String.ofList text), c.mark, c₂.mark⟩, c₂)

/-- Reads an alias. -/
def aliasRef (c : Cursor) : Except ScanError (Token × Cursor) :=
  c.name .missingAliasName .aliasRef

/-- Reads an anchor. -/
def anchor (c : Cursor) : Except ScanError (Token × Cursor) :=
  c.name .missingAnchorName .anchor

end Cursor

end YamlLinter
