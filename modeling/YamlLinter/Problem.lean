/-!
# Problems

A problem is a place in a source, what is wrong there, the rule that found it and how much it
matters. Problems are ordered by place, then by wording, rule and level.

## Contents

* `Level`: warnings and errors;
* `Finding`: what a rule reports, before it is known which rule it was;
* `Problem`, its order and its message;
* `Problem.sort`: problems in order.
-/

namespace YamlLinter

/-- How much a problem matters. -/
inductive Level where
  | warning
  | error
  deriving Repr, DecidableEq, Inhabited

namespace Level

/-- The name of the level. -/
def name : Level → String
  | warning => "warning"
  | error => "error"

/-- Warnings come before errors. -/
def rank : Level → Nat
  | warning => 0
  | error => 1

end Level

/-- What a rule reports. Lines and columns count from one. -/
structure Finding where
  line : Nat
  column : Nat
  desc : String
  deriving Repr, DecidableEq, Inhabited

/-- A finding with the rule that reported it and its level. -/
structure Problem where
  line : Nat
  column : Nat
  desc : String
  /-- The rule that found the problem; none for a source that cannot be scanned. -/
  rule : Option String
  level : Level
  deriving Repr, DecidableEq, Inhabited

/-- Marks a finding with the rule that reported it. -/
def Finding.tag (f : Finding) (rule : String) (level : Level) : Problem :=
  { line := f.line, column := f.column, desc := f.desc, rule := some rule, level }

namespace Problem

/-- The description, with the rule in parentheses. -/
def message (p : Problem) : String :=
  match p.rule with
  | some rule => p.desc ++ " (" ++ rule ++ ")"
  | none => p.desc

/-- No rule comes before every rule. -/
def compareRule : Option String → Option String → Ordering
  | none, none => .eq
  | none, some _ => .lt
  | some _, none => .gt
  | some a, some b => compare a b

/-- The order of places. -/
def comparePlace (a b : Problem) : Ordering :=
  (compare a.line b.line).then (compare a.column b.column)

/-- The order of problems. -/
def order (a b : Problem) : Ordering :=
  (comparePlace a b).then <|
    (compare a.desc b.desc).then <|
      (compareRule a.rule b.rule).then (compare a.level.rank b.level.rank)

/-- Whether `a` does not come after `b`. -/
def le (a b : Problem) : Bool := order a b != .gt

/-- The problems in order. -/
def sort (ps : List Problem) : List Problem := ps.mergeSort le

/-- Whether `a` stands at the place of `b` or before it. -/
def placeLe (a b : Problem) : Bool := comparePlace a b != .gt

end Problem

end YamlLinter
