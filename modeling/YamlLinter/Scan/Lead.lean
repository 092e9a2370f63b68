import YamlLinter.Scan.State

/-!
# What starts at the cursor

A token is recognised by its first character, sometimes with the character behind it, the column and
whether the scanner is inside a flow collection.

## Contents

* `Lead`: what a token can start with;
* `ScanState.lead`: what stands at the cursor.
-/

namespace YamlLinter

open Text

/-- What a token can start with. -/
inductive Lead where
  | streamEnd
  | directive
  | documentStart
  | documentEnd
  /-- A `[` or `{`, with the kind of the token. -/
  | flowStart (kind : TokenKind)
  /-- A `]` or `}`, with the kind of the token. -/
  | flowEnd (kind : TokenKind)
  | flowEntry
  | blockEntry
  | key
  | value
  | aliasRef
  | anchor
  | tag
  | block (folded : Bool)
  | quoted (double : Bool)
  | plain
  /-- A character that starts no token. -/
  | stray (found : Char)
  deriving Repr, DecidableEq, Inhabited

namespace ScanState

/-- Whether a plain scalar can start with `ch` when `next` stands behind it: `-`, and outside flow
collections also `?` and `:`, need a character behind them. -/
def startsPlain (flow : Bool) (ch next : Char) : Bool :=
  !(isBlankOrEnd ch || isIndicator ch) ||
    (!isBlankOrEnd next && (ch == '-' || (!flow && (ch == '?' || ch == ':'))))

/-- What stands at the cursor. -/
def lead (s : ScanState) : Lead :=
  let c := s.cursor
  let ch := c.peek
  let next := c.peekAt 1
  let flow := s.inFlow
  if c.atEnd then .streamEnd
  else if ch == '%' && c.column == 0 then .directive
  else if c.atMarker '-' then .documentStart
  else if c.atMarker '.' then .documentEnd
  else if ch == '[' then .flowStart .flowSequenceStart
  else if ch == '\x7b' then .flowStart .flowMappingStart
  else if ch == ']' then .flowEnd .flowSequenceEnd
  else if ch == '\x7d' then .flowEnd .flowMappingEnd
  else if ch == ',' then .flowEntry
  else if ch == '-' && isBlankOrEnd next then .blockEntry
  else if ch == '?' && (flow || isBlankOrEnd next) then .key
  else if ch == ':' && (flow || isBlankOrEnd next) then .value
  else if ch == '*' then .aliasRef
  else if ch == '&' then .anchor
  else if ch == '!' then .tag
  else if ch == '|' && !flow then .block false
  else if ch == '>' && !flow then .block true
  else if ch == '\x27' then .quoted false
  else if ch == '\x22' then .quoted true
  else if startsPlain flow ch next then .plain
  else .stray ch

end ScanState

end YamlLinter
