import YamlLinter.Comment
import YamlLinter.Line
import YamlLinter.Problem
import YamlLinter.Token

/-!
# Rules

There are three shapes of rules. A token rule sees the tokens one after the other, each with its
neighbours, and keeps a state of its own from token to token. A line rule sees each physical line,
a comment rule each comment. All of them can look at the bytes of the source.

## Contents

* `Window`: a token with its neighbours;
* `LineWindow`, `CommentWindow`: a line and a comment with their source;
* `windows`: the windows of a token list;
* `TokenRule`, `LineRule`, `CommentRule`;
* `TokenRule.run`: the findings of a token rule for each window.
-/

namespace YamlLinter

/-- A token, its neighbours, and the bytes of the source. -/
structure Window where
  /-- The bytes of the whole source. -/
  buffer : List UInt8
  prev : Option Token
  token : Token
  next : Option Token
  nextNext : Option Token

/-- A physical line, and the bytes of the source. -/
structure LineWindow extends Line where
  /-- The bytes of the whole source. -/
  buffer : List UInt8

/-- A comment, and the bytes of the source. -/
structure CommentWindow extends Comment where
  /-- The bytes of the whole source. -/
  buffer : List UInt8

/-- The windows of tokens that stand behind `prev`. -/
def windowsFrom (buffer : List UInt8) (prev : Option Token) : List Token → List Window
  | [] => []
  | token :: rest =>
    { buffer, prev, token, next := rest.head?, nextNext := rest.tail.head? } ::
      windowsFrom buffer (some token) rest

/-- The windows of a list of tokens. -/
def windows (buffer : List UInt8) (tokens : List Token) : List Window :=
  windowsFrom buffer none tokens

/-- A rule that sees the tokens in order and keeps a state from token to token. -/
structure TokenRule where
  id : String
  /-- What the rule remembers. -/
  State : Type
  /-- What it remembers before the first token. -/
  start : State
  check : Window → State → List Finding × State

/-- A rule that sees each physical line. -/
structure LineRule where
  id : String
  check : LineWindow → List Finding

/-- A rule that sees each comment. -/
structure CommentRule where
  id : String
  check : CommentWindow → List Finding

namespace TokenRule

/-- The findings of a rule for each window, from the given state on. -/
def runFrom (r : TokenRule) (s : r.State) : List Window → List (List Finding)
  | [] => []
  | w :: ws =>
    let (findings, s') := r.check w s
    findings :: r.runFrom s' ws

/-- The findings of a rule for each window. -/
def run (r : TokenRule) (ws : List Window) : List (List Finding) :=
  r.runFrom r.start ws

end TokenRule

end YamlLinter
