import YamlLinter.Directive

/-!
# Suppressed rules

The rules that are switched off at some place of a source. Only rules that the linter knows can be
switched off, and problems without a rule never are.

## Contents

* `Suppression`: a set of rules;
* `Suppression.apply`: what `disable` and `enable` do;
* `Suppression.applyLine`: what `disable-line` does.
-/

namespace YamlLinter

/-- The rules that are switched off. -/
structure Suppression where
  rules : List String
  deriving Repr, DecidableEq, Inhabited

namespace Suppression

/-- Nothing is switched off. -/
def empty : Suppression := ⟨[]⟩

/-- Whether nothing is switched off. -/
def isEmpty (s : Suppression) : Bool := s.rules.isEmpty

/-- Whether the rule of a problem is switched off. -/
def covers (s : Suppression) : Option String → Bool
  | some rule => s.rules.contains rule
  | none => false

/-- Switches the rules of a directive off, as far as they are known. -/
def disable (s : Suppression) (d : Directive) (known : List String) : Suppression :=
  if d.rules.isEmpty then ⟨s.rules ++ known⟩
  else ⟨s.rules ++ d.rules.filter known.contains⟩

/-- Switches the rules of a directive on. -/
def enable (s : Suppression) (d : Directive) : Suppression :=
  if d.rules.isEmpty then empty
  else ⟨s.rules.filter (!d.rules.contains ·)⟩

/-- Follows a `disable` or `enable` directive and ignores the others. -/
def apply (s : Suppression) (d : Directive) (known : List String) : Suppression :=
  match d.kind with
  | .disable => s.disable d known
  | .enable => s.enable d
  | .disableLine | .disableFile => s

/-- Follows a `disable-line` directive and ignores the others. -/
def applyLine (s : Suppression) (d : Directive) (known : List String) : Suppression :=
  match d.kind with
  | .disableLine => s.disable d known
  | .disable | .enable | .disableFile => s

end Suppression

end YamlLinter
