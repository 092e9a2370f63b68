import YamlLinter.Linter.Element
import YamlLinter.Suppression

/-!
# Sweeping over a source

Problems are held back until the end of their line, since a directive further right on the line can
still drop them. At the end of a line they are sorted, and those of suppressed rules are dropped.

## Contents

* `Sweep`: what is suppressed, held back and released;
* `Sweep.meet`: one element;
* `Sweep.problems`: the problems that are left after all elements.
-/

namespace YamlLinter

/-- The state of a linter between two elements. -/
structure Sweep where
  /-- The rules that are switched off until further notice. -/
  off : Suppression
  /-- The rules that are switched off for the current line. -/
  offHere : Suppression
  /-- The rules that are switched off for the next line. -/
  offNext : Suppression
  /-- The problems of the current line. -/
  held : List Problem
  /-- The problems of the lines before. -/
  released : List Problem
  deriving Repr, DecidableEq, Inhabited

namespace Sweep

/-- The state in front of the first element. -/
def start : Sweep := ⟨.empty, .empty, .empty, [], []⟩

/-- Holds problems back until the end of the line. -/
def hold (s : Sweep) (ps : List Problem) : Sweep := { s with held := s.held ++ ps }

/-- Follows a directive. One that disables a line acts on its own line if something stands before
it, else on the next. -/
def follow (s : Sweep) (d : Directive) (inline : Bool) (known : List String) : Sweep :=
  let s := { s with off := s.off.apply d known }
  if inline then { s with offHere := s.offHere.applyLine d known }
  else { s with offNext := s.offNext.applyLine d known }

/-- Whether a problem may be shown. -/
def shows (s : Sweep) (p : Problem) : Bool := !s.offHere.covers p.rule && !s.off.covers p.rule

/-- Releases the problems of a line. -/
def endLine (s : Sweep) : Sweep :=
  { s with
    released := s.released ++ (Problem.sort s.held).filter s.shows
    held := []
    offHere := s.offNext
    offNext := .empty }

/-- What the linter finds at comments and lines, and the rules it knows. -/
structure Checks where
  known : List String
  comment : Comment → List Problem
  line : Line → List Problem

/-- Meets one element. -/
def meet (c : Checks) (s : Sweep) : Element → Sweep
  | .token _ problems => s.hold problems
  | .comment comment =>
    let s := s.hold (c.comment comment)
    match Directive.parse comment.text.toList with
    | some d => s.follow d comment.inline c.known
    | none => s
  | .line line => (s.hold (c.line line)).endLine

/-- The problems released after all elements. Those of a line that never ends are not. -/
def problems (c : Checks) (es : List Element) : List Problem :=
  (es.foldl (meet c) start).released

end Sweep

end YamlLinter
