import YamlLinter.Mark
import YamlLinter.Text.Space

/-!
# Comments

Comments are no tokens: the scanner sets them aside, in the order in which it meets them.

## Contents

* `Comment`: the text of a comment with its marks, and whether anything precedes it on its line;
* `Comment.body`: what the comment says.
-/

namespace YamlLinter

/-- A comment from its `#` to the end of the line. -/
structure Comment where
  start : Mark
  stop : Mark
  /-- The text with the leading `#`. -/
  text : String
  /-- Whether something other than white space stands before the comment on its line. -/
  inline : Bool
  deriving Repr, DecidableEq, Inhabited

/-- The text without its leading `#` characters and without white space around it. -/
def Comment.body (c : Comment) : String :=
  String.ofList (Text.trim (c.text.toList.dropWhile (· == '#')))

end YamlLinter
