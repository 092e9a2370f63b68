/-!
# Options of the indentation rule

## Contents

* `Indentation.Width`: the width of one indentation step;
* `Indentation.Policy`: whether a sequence is indented below its key;
* `Indentation.Config`: all options.
-/

namespace YamlLinter.Indentation

/-- The width of one indentation step. -/
inductive Width where
  /-- The first nested construct decides. -/
  | consistent
  | fixed (n : Nat)
  deriving Repr, DecidableEq, Inhabited

/-- Whether block sequences are indented below their key. -/
inductive Policy where
  | always
  | never
  /-- Either is accepted. -/
  | whatever
  /-- Either is accepted, but the first sequence decides for the rest. -/
  | consistent
  deriving Repr, DecidableEq, Inhabited

/-- The name of a policy. -/
def Policy.name : Policy → String
  | always => "always"
  | never => "never"
  | whatever => "whatever"
  | consistent => "consistent"

/-- The options of the rule. -/
structure Config where
  spaces : Width
  indentSequences : Policy
  /-- Whether the lines of scalars that span lines are checked too. -/
  checkMultiLine : Bool
  deriving Repr, DecidableEq, Inhabited

/-- The options unless given. -/
def Config.default : Config := ⟨.consistent, .always, false⟩

end YamlLinter.Indentation
