import YamlLinter.Rule

/-!
# Repeated keys

A key may stand only once in a mapping. The merge key `<<` may be repeated unless the rule forbids
that too.

## Contents

* `KeyDuplicates.Config`, `KeyDuplicates.Collection`: the option, and an open collection;
* `KeyDuplicates.check`: one token;
* `KeyDuplicates.rule`: the rule.
-/

namespace YamlLinter.KeyDuplicates

/-- The options of the rule. -/
structure Config where
  /-- Whether the merge key is treated like any other key. -/
  forbidMergeKeys : Bool
  deriving Repr, DecidableEq, Inhabited

/-- The options unless given. -/
def Config.default : Config := ⟨false⟩

/-- An open collection. -/
inductive Collection where
  /-- A mapping with the keys seen in it. -/
  | mapping (keys : List String)
  | sequence
  deriving Repr, DecidableEq, Inhabited

/-- The open collections, innermost first. -/
abbrev State := List Collection

/-- The key that may be repeated. -/
def mergeKey : String := "<<"

/-- The finding for a repeated key. -/
def repeated (key : String) (mark : Mark) : Finding :=
  ⟨mark.line + 1, mark.column + 1, "duplication of key \"" ++ key ++ "\" in mapping"⟩

/-- Looks at a key whose first token is `next`. -/
def checkKey (config : Config) (next : Option Token) (s : State) : List Finding × State :=
  match next, s with
  | some next, .mapping keys :: outer =>
    match next.scalarValue? with
    | some key =>
      if keys.contains key then
        if key == mergeKey && !config.forbidMergeKeys then ([], s)
        else ([repeated key next.start], s)
      else
        ([], .mapping (key :: keys) :: outer)
    | none => ([], s)
  | _, _ => ([], s)

/-- Looks at one token. -/
def check (config : Config) (w : Window) (s : State) : List Finding × State :=
  match w.token.kind with
  | .blockMappingStart | .flowMappingStart => ([], .mapping [] :: s)
  | .blockSequenceStart | .flowSequenceStart => ([], .sequence :: s)
  | .blockEnd | .flowMappingEnd | .flowSequenceEnd => ([], s.tail)
  | .key => checkKey config w.next s
  | _ => ([], s)

/-- The name of the rule. -/
def id : String := "key-duplicates"

/-- The rule. -/
def rule (config : Config) : TokenRule :=
  { id, State, start := [], check := check config }

end YamlLinter.KeyDuplicates
