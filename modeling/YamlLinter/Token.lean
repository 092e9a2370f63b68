import YamlLinter.Mark

/-!
# Tokens

A YAML source is a sequence of tokens. Block collections have tokens for their start and end though
no character stands for them, and a key that no `?` announces has a `KEY` token of no length.

## Contents

* `ScalarStyle`: how a scalar is written;
* `TokenKind`: the kinds of token with their data, and their names;
* `Token`: a kind with the marks of its start and end.
-/

namespace YamlLinter

/-- How a scalar is written. -/
inductive ScalarStyle where
  | plain
  | singleQuoted
  | doubleQuoted
  /-- The `|` block style, which keeps line breaks. -/
  | literal
  /-- The `>` block style, which folds line breaks. -/
  | folded
  deriving Repr, DecidableEq, Inhabited

namespace ScalarStyle

/-- The two styles in quotes. -/
def isQuoted : ScalarStyle → Bool
  | singleQuoted | doubleQuoted => true
  | _ => false

/-- The two block styles. -/
def isBlock : ScalarStyle → Bool
  | literal | folded => true
  | _ => false

/-- The name of the style. -/
def name : ScalarStyle → String
  | plain => "Plain"
  | singleQuoted => "SingleQuoted"
  | doubleQuoted => "DoubleQuoted"
  | literal => "Literal"
  | folded => "Folded"

end ScalarStyle

/-- The kinds of token, with the data that only some of them carry. -/
inductive TokenKind where
  | streamStart
  | streamEnd
  /-- A `%` line: its name and the text behind the name. -/
  | directive (name value : String)
  | documentStart
  | documentEnd
  | blockSequenceStart
  | blockMappingStart
  | blockEnd
  | flowSequenceStart
  | flowSequenceEnd
  | flowMappingStart
  | flowMappingEnd
  | blockEntry
  | flowEntry
  /-- A `?`, or the place in front of a key that no `?` announces. -/
  | key
  | value
  /-- A `*` with the name of an anchor. -/
  | aliasRef (name : String)
  /-- A `&` with a name. -/
  | anchor (name : String)
  /-- A tag: the handle with its exclamation marks, and what follows it. -/
  | tag (handle suffix : String)
  | scalar (value : String) (style : ScalarStyle)
  deriving Repr, DecidableEq, Inhabited

namespace TokenKind

/-- The name of the kind in upper case. -/
def name : TokenKind → String
  | streamStart => "STREAM-START"
  | streamEnd => "STREAM-END"
  | directive _ _ => "DIRECTIVE"
  | documentStart => "DOCUMENT-START"
  | documentEnd => "DOCUMENT-END"
  | blockSequenceStart => "BLOCK-SEQUENCE-START"
  | blockMappingStart => "BLOCK-MAPPING-START"
  | blockEnd => "BLOCK-END"
  | flowSequenceStart => "FLOW-SEQUENCE-START"
  | flowSequenceEnd => "FLOW-SEQUENCE-END"
  | flowMappingStart => "FLOW-MAPPING-START"
  | flowMappingEnd => "FLOW-MAPPING-END"
  | blockEntry => "BLOCK-ENTRY"
  | flowEntry => "FLOW-ENTRY"
  | key => "KEY"
  | value => "VALUE"
  | aliasRef _ => "ALIAS"
  | anchor _ => "ANCHOR"
  | tag _ _ => "TAG"
  | scalar _ _ => "SCALAR"

/-- The end of a flow collection. -/
def isFlowEnd : TokenKind → Bool
  | flowSequenceEnd | flowMappingEnd => true
  | _ => false

end TokenKind

/-- A token with the marks of its start and its end. -/
structure Token where
  kind : TokenKind
  start : Mark
  stop : Mark
  deriving Repr, DecidableEq, Inhabited

namespace Token

/-- The token of a kind that takes no text. -/
def empty (kind : TokenKind) (mark : Mark) : Token := ⟨kind, mark, mark⟩

/-- The decoded text of a scalar. -/
def scalarValue? (t : Token) : Option String :=
  match t.kind with
  | .scalar value _ => some value
  | _ => none

/-- The style of a scalar. -/
def scalarStyle? (t : Token) : Option ScalarStyle :=
  match t.kind with
  | .scalar _ style => some style
  | _ => none

/-- A scalar. -/
def isScalar (t : Token) : Bool :=
  t.scalarStyle?.isSome

/-- A scalar without quotes or block indicator. -/
def isPlainScalar (t : Token) : Bool :=
  t.scalarStyle? == some .plain

end Token

end YamlLinter
