import YamlLinter.Linter.Sweep
import YamlLinter.Rule
import YamlLinter.Scan.Tokens

/-!
# The linter

A linter is a set of rules, each with a level. It scans a source, runs the token rules over its
tokens, and sweeps over tokens, comments and lines. A source that cannot be scanned has one more
problem, which takes the place of the first problem at or behind it.

## Contents

* `Linter`: the rules;
* `Linter.tokenProblems`: what the token rules find at each token;
* `Linter.styleProblems`: the problems of a scanned source;
* `syntaxProblem`, `placeError`: the problem of a source that cannot be scanned;
* `Linter.lint`: the problems of a source.
-/

namespace YamlLinter

/-- Rules with their levels. -/
structure Linter where
  tokenRules : List (TokenRule × Level)
  commentRules : List (CommentRule × Level)
  lineRules : List (LineRule × Level)

/-- The problem of a source that cannot be scanned. -/
def syntaxProblem (e : ScanError) : Problem :=
  { line := e.line
    column := e.column
    desc := "syntax error: " ++ e.problem
    rule := none
    level := .error }

/-- Puts a problem in place of the first one that stands at its place or behind it; at the end if
there is none. -/
def placeError (e : Problem) : List Problem → List Problem
  | [] => [e]
  | p :: ps => if e.placeLe p then e :: ps else p :: placeError e ps

namespace Linter

/-- The linter without rules. -/
def empty : Linter := ⟨[], [], []⟩

/-- Adds a token rule. -/
def withTokenRule (l : Linter) (r : TokenRule) (level : Level) : Linter :=
  { l with tokenRules := l.tokenRules ++ [(r, level)] }

/-- Adds a comment rule. -/
def withCommentRule (l : Linter) (r : CommentRule) (level : Level) : Linter :=
  { l with commentRules := l.commentRules ++ [(r, level)] }

/-- Adds a line rule. -/
def withLineRule (l : Linter) (r : LineRule) (level : Level) : Linter :=
  { l with lineRules := l.lineRules ++ [(r, level)] }

/-- The ids of all rules: token rules, comment rules, line rules. -/
def ruleIds (l : Linter) : List String :=
  l.tokenRules.map (·.1.id) ++ l.commentRules.map (·.1.id) ++ l.lineRules.map (·.1.id)

/-- The linter with its rules, for logs. -/
def describe (l : Linter) : String :=
  let ids := l.ruleIds.map fun id => Text.quoteText id.toList
  "Linter \x7b rules: [" ++ ", ".intercalate ids ++ "] \x7d"

/-- What one token rule finds at each window. -/
def ruleProblems (r : TokenRule × Level) (ws : List Window) : List (List Problem) :=
  (r.1.run ws).map fun findings => findings.map (·.tag r.1.id r.2)

/-- What all token rules find at each window, in the order of the rules. -/
def tokenProblems (l : Linter) (ws : List Window) : List (List Problem) :=
  let none := ws.map fun _ => []
  l.tokenRules.foldr (fun r found => List.zipWith (· ++ ·) (ruleProblems r ws) found) none

/-- What the comment rules find at a comment. -/
def commentProblems (l : Linter) (buffer : List UInt8) (c : Comment) : List Problem :=
  l.commentRules.flatMap fun r => (r.1.check ⟨c, buffer⟩).map (·.tag r.1.id r.2)

/-- What the line rules find at a line. -/
def lineProblems (l : Linter) (buffer : List UInt8) (line : Line) : List Problem :=
  l.lineRules.flatMap fun r => (r.1.check ⟨line, buffer⟩).map (·.tag r.1.id r.2)

/-- What the linter does at the comments and lines of a source with the given bytes. -/
def checks (l : Linter) (buffer : List UInt8) : Sweep.Checks :=
  { known := l.ruleIds, comment := l.commentProblems buffer, line := l.lineProblems buffer }

/-- The windows that are checked: in front of an error, only those with both tokens behind them. -/
def checkedWindows (source : List Char) (scanned : Scan) : List Window :=
  let all := windows (Text.bytes source) scanned.tokens
  match scanned.error with
  | some _ => all.take (scanned.tokens.length - 2)
  | none => all

/-- The problems of a scanned source, but for the error of the scan. -/
def styleProblems (l : Linter) (source : List Char) (scanned : Scan) : List Problem :=
  let ws := checkedWindows source scanned
  let tokens := (ws.map Window.token).zip (l.tokenProblems ws)
  Sweep.problems (l.checks (Text.bytes source)) (elements tokens scanned.comments (Line.all source))

/-- The problems of a text. -/
def lintText (l : Linter) (source : List Char) : List Problem :=
  if fileDisabled source then []
  else
    let scanned := scanText source
    let problems := l.styleProblems source scanned
    match scanned.error with
    | some e => placeError (syntaxProblem e) problems
    | none => problems

/-- The problems of a source. -/
def lint (l : Linter) (source : String) : List Problem :=
  l.lintText source.toList

end Linter

end YamlLinter
