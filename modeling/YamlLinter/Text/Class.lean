/-!
# Character classes of YAML text

The scanner decides everything by a handful of character classes. The NUL character stands in for
the end of the text, so the classes that end a lexeme also contain it.

## Contents

* `nul`: the character read past the end;
* `isBreak`, `isBlank` and their unions with NUL;
* `isWordChar`, `isUriChar`: the alphabets of directive names, tag handles and tag suffixes;
* `isFlowMark`: the characters that delimit flow collections.
-/

namespace YamlLinter.Text

/-- The character read where the text has ended. -/
def nul : Char := '\x00'

/-- Line breaks: carriage return, line feed, next line, line separator, paragraph separator. -/
def isBreak (c : Char) : Bool :=
  c == '\r' || c == '\n' || c == '\u0085' || c == '\u2028' || c == '\u2029'

/-- A space or a tab. -/
def isBlank (c : Char) : Bool :=
  c == ' ' || c == '\t'

/-- A line break or NUL: what ends a line. -/
def isLineEnd (c : Char) : Bool :=
  c == nul || isBreak c

/-- A space, a line break or NUL: what ends a tag. -/
def isSpaceOrEnd (c : Char) : Bool :=
  c == ' ' || isLineEnd c

/-- A blank, a line break or NUL: what ends a word. -/
def isBlankOrEnd (c : Char) : Bool :=
  isBlank c || isLineEnd c

/-- ASCII letters, digits, `-` and `_`: the alphabet of directive names and tag handles. -/
def isWordChar (c : Char) : Bool :=
  c.isAlphanum || c == '-' || c == '_'

/-- The alphabet of tag suffixes and verbatim tags. -/
def isUriChar (c : Char) : Bool :=
  c.isAlphanum || "-;/?:@&=+$,_.!~*'()[]%".toList.contains c

/-- The characters that open, separate or close flow collections. -/
def isFlowMark (c : Char) : Bool :=
  c == ',' || c == '[' || c == ']' || c == '\x7b' || c == '\x7d'

/-- The characters that cannot start a plain scalar by themselves. -/
def isIndicator (c : Char) : Bool :=
  "-?:,[]\x7b\x7d#&*!|>'\"%@\x60".toList.contains c

end YamlLinter.Text
