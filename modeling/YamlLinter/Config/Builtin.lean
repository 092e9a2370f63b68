import YamlLinter.Config.Options

/-!
# Built-in rules

## Contents

* `Builtin`: the rules that a configuration can name, with their ids and descriptions;
* `Builtin.build`: the rule with given options.
-/

namespace YamlLinter

/-- The rules that a configuration can name. -/
inductive Builtin where
  | anchors
  | indentation
  | keyDuplicates
  deriving Repr, DecidableEq, Inhabited

namespace Builtin

/-- The id of the rule. -/
def id : Builtin → String
  | anchors => Anchors.id
  | indentation => Indentation.id
  | keyDuplicates => KeyDuplicates.id

/-- What the rule does. -/
def description : Builtin → String
  | anchors => "Report undeclared aliases and duplicated or unused anchors"
  | indentation => "Check that indentation is consistent across the document"
  | keyDuplicates => "Report keys repeated in the same mapping"

/-- All of them. -/
def all : List Builtin := [anchors, indentation, keyDuplicates]

/-- The rule with the given id. -/
def ofId (id : String) : Option Builtin := all.find? (·.id == id)

/-- The rule with the given options. -/
def build (b : Builtin) (options : Options) : Except OptionFault TokenRule :=
  match b with
  | anchors => (Options.anchors options).map Anchors.rule
  | indentation => (Options.indentation options).map Indentation.rule
  | keyDuplicates => (Options.keyDuplicates options).map KeyDuplicates.rule

end Builtin

end YamlLinter
