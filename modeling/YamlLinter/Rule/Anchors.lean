import YamlLinter.Rule

/-!
# Anchors and aliases

An alias must refer to an anchor declared before it in the same document. Anchors can also be asked
to be unique and to be used.

## Contents

* `Anchors.Config`: the options;
* `Anchors.Declared`: an anchor of the current document;
* `Anchors.check`: one token;
* `Anchors.rule`: the rule.
-/

namespace YamlLinter.Anchors

/-- The options of the rule. -/
structure Config where
  forbidUndeclaredAliases : Bool
  forbidDuplicatedAnchors : Bool
  forbidUnusedAnchors : Bool
  deriving Repr, DecidableEq, Inhabited

/-- The options unless given. -/
def Config.default : Config := ⟨true, false, false⟩

/-- An anchor of the current document. -/
structure Declared where
  name : String
  mark : Mark
  /-- Whether an alias has referred to it. -/
  used : Bool
  deriving Repr, DecidableEq, Inhabited

/-- The anchors of the current document in the order of their declaration. -/
abbrev State := List Declared

/-- A finding about an anchor or alias. -/
def finding (what name : String) (mark : Mark) : Finding :=
  ⟨mark.line + 1, mark.column + 1, "found " ++ what ++ " \"" ++ name ++ "\""⟩

/-- Whether an anchor of that name has been declared. -/
def declares (s : State) (name : String) : Bool := s.any (·.name == name)

/-- Marks the anchor of that name as used. -/
def use (s : State) (name : String) : State :=
  s.map fun d => if d.name == name then { d with used := true } else d

/-- Declares an anchor. It hides an earlier one of the same name. -/
def declare (s : State) (name : String) (mark : Mark) : State :=
  s.filter (·.name != name) ++ [⟨name, mark, false⟩]

/-- Whether a document starts or ends with a token of this kind, so that anchors are forgotten. -/
def forgets : TokenKind → Bool
  | .streamStart | .documentStart | .documentEnd => true
  | _ => false

/-- Whether the document ends in front of a token of this kind. -/
def endsDocument : TokenKind → Bool
  | .streamEnd | .documentStart | .documentEnd => true
  | _ => false

/-- Looks at an alias or an anchor. -/
def checkName (config : Config) (t : Token) (s : State) : List Finding × State :=
  match t.kind with
  | .aliasRef name =>
    if declares s name then ([], use s name)
    else if config.forbidUndeclaredAliases then ([finding "undeclared alias" name t.start], s)
    else ([], s)
  | .anchor name =>
    let duplicated :=
      if config.forbidDuplicatedAnchors && declares s name then
        [finding "duplicated anchor" name t.start]
      else []
    (duplicated, declare s name t.start)
  | _ => ([], s)

/-- The findings at the end of a document. -/
def unused (config : Config) (next : Option Token) (s : State) : List Finding :=
  if config.forbidUnusedAnchors && next.any (endsDocument ·.kind) then
    (s.filter (!·.used)).map fun d => finding "unused anchor" d.name d.mark
  else []

/-- Looks at one token. -/
def check (config : Config) (w : Window) (s : State) : List Finding × State :=
  let s₁ := if forgets w.token.kind then [] else s
  let (findings, s₂) := checkName config w.token s₁
  (findings ++ unused config w.next s₂, s₂)

/-- The name of the rule. -/
def id : String := "anchors"

/-- The rule. -/
def rule (config : Config) : TokenRule :=
  { id, State, start := [], check := check config }

end YamlLinter.Anchors
