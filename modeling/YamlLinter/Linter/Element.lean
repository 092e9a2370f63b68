import YamlLinter.Comment
import YamlLinter.Line
import YamlLinter.Problem
import YamlLinter.Token

/-!
# Elements of a source

The linter goes over the tokens, comments and lines of a source in one order: tokens and comments by
where they start, and each line behind the tokens and comments that start on it.

## Contents

* `Element`: a token with what was found at it, a comment, or a line;
* `elements`: all elements in order.
-/

namespace YamlLinter

/-- Something that the linter meets in a source. -/
inductive Element where
  /-- A token and what the token rules have found at it. -/
  | token (t : Token) (problems : List Problem)
  | comment (c : Comment)
  /-- The end of a line. -/
  | line (l : Line)
  deriving Repr, DecidableEq, Inhabited

namespace Element

/-- The byte offset at which the element starts. -/
def index : Element → Nat
  | token t _ => t.start.index
  | comment c => c.start.index
  | line l => l.start

/-- The line of the element: tokens and comments count lines from zero, lines have their number. -/
def lineNumber : Element → Nat
  | token t _ => t.start.line
  | comment c => c.start.line
  | line l => l.number

/-- Whether a token comes before a comment: it does at the same place. -/
def startsBefore (a b : Element) : Bool := a.index ≤ b.index

/-- Whether a token or comment comes before the end of a line: it starts on that line or earlier. -/
def endsBefore (a b : Element) : Bool := a.lineNumber < b.lineNumber

end Element

/-- Tokens and comments by where they start, each line behind what starts on it. -/
def elements (tokens : List (Token × List Problem)) (comments : List Comment) (lines : List Line) :
    List Element :=
  let tokens := tokens.map fun (t, problems) => Element.token t problems
  let items := tokens.merge (comments.map .comment) Element.startsBefore
  items.merge (lines.map .line) Element.endsBefore

end YamlLinter
