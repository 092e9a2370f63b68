import YamlLinter.Rule.Indentation.Config

/-!
# The state of the indentation rule

The rule keeps a stack of frames, one for each open collection, sequence entry, key and value. A
frame knows the column at which its content is expected.

## Contents

* `Frame`: an open construct;
* `State`: the stack, the width and the policy found so far, and the line of the last token;
* `State.expect`: the column expected for nested content, which may settle the width.
-/

namespace YamlLinter.Indentation

/-- An open construct with the column at which its content is expected. -/
inductive Frame where
  /-- The bottom of the stack. -/
  | root
  | blockMap (indent : Int)
  /-- A flow mapping on a line that is indented by `lineIndent`. -/
  | flowMap (indent lineIndent : Int)
  /-- A block sequence. An implicit one stands at the column of its key and has no start and end
  tokens. -/
  | blockSeq (indent : Int) (implicit : Bool)
  /-- A flow sequence on a line that is indented by `lineIndent`. -/
  | flowSeq (indent lineIndent : Int)
  | blockEntry (indent : Int)
  /-- A key; an explicit one has a `?`. -/
  | key (indent : Int) (explicit : Bool)
  | value (indent : Int)
  deriving Repr, DecidableEq, Inhabited

namespace Frame

/-- The column at which the content is expected. -/
def indent : Frame → Int
  | root => 0
  | blockMap i | flowMap i _ | blockSeq i _ | flowSeq i _ | blockEntry i | key i _ | value i => i

/-- The indent of the line that holds the opening bracket of a flow collection. -/
def lineIndent? : Frame → Option Int
  | flowMap _ l | flowSeq _ l => some l
  | _ => none

/-- A block sequence of either sort. -/
def isBlockSeq : Frame → Bool
  | blockSeq _ _ => true
  | _ => false

/-- A sequence without start and end tokens. -/
def isImplicitSeq : Frame → Bool
  | blockSeq _ implicit => implicit
  | _ => false

/-- A key of either sort. -/
def isKey : Frame → Bool
  | key _ _ => true
  | _ => false

/-- A key with a `?`. -/
def isExplicitKey : Frame → Bool
  | key _ explicit => explicit
  | _ => false

end Frame

/-- What the rule remembers from token to token. -/
structure State where
  /-- The open constructs, innermost first. -/
  stack : List Frame
  /-- The width of one step, once it is known. -/
  width : Option Int
  /-- The policy in force. -/
  policy : Policy
  /-- The line, counted from one, on which the last visible token ended; `-1` before any. -/
  line : Int
  /-- The column of the first token of that line. -/
  lineIndent : Int
  deriving Repr, DecidableEq, Inhabited

namespace State

/-- The state in front of the first token. -/
def start (config : Config) : State :=
  { stack := [.root]
    width :=
      match config.spaces with
      | .consistent => none
      | .fixed n => some n
    policy := config.indentSequences
    line := -1
    lineIndent := 0 }

/-- The innermost open construct. -/
def top? (s : State) : Option Frame := s.stack.head?

/-- The construct around the innermost one. -/
def below? (s : State) : Option Frame := s.stack.tail.head?

/-- Opens a construct. -/
def push (s : State) (f : Frame) : State := { s with stack := f :: s.stack }

/-- The column expected for content that is nested below `base` and stands at `column`. While the
width is not known, the content is right and settles the width. -/
def expect (s : State) (base column : Int) : Int × State :=
  match s.width with
  | some width => (base + width, s)
  | none => (column, { s with width := some (column - base) })

end State

end YamlLinter.Indentation
