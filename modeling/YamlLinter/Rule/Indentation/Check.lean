import YamlLinter.Rule.Indentation.Frames

/-!
# The indentation rule

Every token that starts a line is compared with the column that the innermost open construct
expects. If asked for, the lines of scalars that span lines are compared too.

## Contents

* `wrongIndentation`, `cannotInfer`: the findings;
* `State.checkStart`: the comparison at the start of a line;
* `State.expectScalar`, `State.checkLines`: the comparison inside scalars;
* `check`: one token;
* `rule`: the rule.
-/

namespace YamlLinter.Indentation

/-! ## Findings -/

/-- The finding for a line that is indented by `found` in place of `expected`. -/
def wrongIndentation (line : Nat) (found expected : Int) : Finding :=
  ⟨line, found.toNat + 1,
    "wrong indentation: expected " ++ toString expected ++ " but found " ++ toString found⟩

/-- The finding for a token at which the constructs do not fit together. -/
def cannotInfer (t : Token) : Finding :=
  ⟨t.start.line + 1, t.start.column + 1, "cannot infer indentation: unexpected token"⟩

/-- The finding for a line, if it is indented wrongly. -/
def compareIndent (line : Nat) (found expected : Int) : List Finding :=
  if found == expected then [] else [wrongIndentation line found expected]

namespace State

/-! ## The start of a line -/

/-- Whether a token is the first visible one on its line. -/
def isFirst (s : State) (t : Token) : Bool :=
  isVisible t && s.line < t.start.line + 1

/-- The column expected of a token that starts a line, or none if that makes no sense. -/
def expectStart (s : State) (t : Token) : Option (Int × State) :=
  match s.top? with
  | none => none
  | some top =>
    if t.kind.isFlowEnd then top.lineIndent?.map (·, s)
    else if t.kind != .value && top.isExplicitKey then some (s.expect top.indent (columnOf t))
    else some (top.indent, s)

/-- Compares a token that starts a line with the column expected of it. -/
def checkStart (s : State) (t : Token) : Option (List Finding × State) :=
  if s.isFirst t then
    match s.expectStart t with
    | none => none
    | some (expected, s') => some (compareIndent (t.start.line + 1) (columnOf t) expected, s')
  else
    some ([], s)

/-! ## The lines of scalars -/

/-- The indent expected of the lines of a block scalar whose first line is indented by `found`. -/
def expectBlock (s : State) (t : Token) (found : Int) : Option (Int × State) :=
  match s.top? with
  | none => none
  | some (.blockEntry _) => some (s.expect (columnOf t) found)
  | some (.key _ explicit) => if explicit then some (s.expect (columnOf t) found) else none
  | some (.value indent) =>
    if s.line < t.start.line + 1 then some (s.expect indent found)
    else
      match s.below? with
      | none => none
      | some below =>
        if below.isExplicitKey then some (s.expect (columnOf t) found)
        else some (s.expect below.indent found)
  | some top => some (s.expect top.indent found)

/-- The indent expected of the lines of a scalar. -/
def expectScalar (s : State) (t : Token) (found : Int) : Option (Int × State) :=
  match t.scalarStyle? with
  | none => none
  | some .plain => some (columnOf t, s)
  | some .singleQuoted | some .doubleQuoted => some (columnOf t + 1, s)
  | some .literal | some .folded => s.expectBlock t found

/-- Compares the lines of a scalar after its first with the indent that the first of them settles. -/
def checkLines (s : State) (buffer : List UInt8) (t : Token) : Option (List Finding × State) :=
  match continuationLines buffer t with
  | [] => some ([], s)
  | lines@((_, found) :: _) =>
    match s.expectScalar t found with
    | none => none
    | some (expected, s') =>
      some (lines.flatMap fun (number, found) => compareIndent number found expected, s')

/-- Compares the lines of a scalar, if the rule is asked to. -/
def checkScalar (s : State) (config : Config) (buffer : List UInt8) (t : Token) :
    Option (List Finding × State) :=
  if config.checkMultiLine && t.isScalar then s.checkLines buffer t else some ([], s)

/-! ## One token -/

/-- Remembers the line on which a token ends, and its column if it starts a line. -/
def moveTo (s : State) (buffer : List UInt8) (t : Token) (first : Bool) : State :=
  if isVisible t then
    { s with
      line := lastLine buffer t
      lineIndent := if first then columnOf t else s.lineIndent }
  else
    s

/-- Opens and closes constructs. The flag says whether they fitted together. -/
def shift (s : State) (w : Window) : State × Bool :=
  match s.openFrames w with
  | none => (s, false)
  | some s' =>
    let (stack, fits) := closeFrames w.token (w.next.map Token.kind) false s'.stack
    ({ s' with stack }, fits)

/-- Looks at one token: the findings, the state after it, and whether everything fitted together. -/
def step (s : State) (config : Config) (w : Window) : List Finding × State × Bool :=
  match s.checkStart w.token with
  | none => ([], s, false)
  | some (starts, s₁) =>
    match s₁.checkScalar config w.buffer w.token with
    | none => (starts, s₁, false)
    | some (lines, s₂) =>
      let (s₃, fits) := (s₂.moveTo w.buffer w.token (s.isFirst w.token)).shift w
      (starts ++ lines, s₃, fits)

end State

/-- Looks at one token. -/
def check (config : Config) (w : Window) (s : State) : List Finding × State :=
  let (findings, s', fits) := s.step config w
  (if fits then findings else findings ++ [cannotInfer w.token], s')

/-- The name of the rule. -/
def id : String := "indentation"

/-- The rule. -/
def rule (config : Config) : TokenRule :=
  { id, State, start := .start config, check := check config }

end YamlLinter.Indentation
