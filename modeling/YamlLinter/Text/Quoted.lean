import YamlLinter.Text.Hex
import YamlLinter.Text.Printable

/-!
# Quoted text in messages

Messages quote a character in single quotes and a text in double quotes. Inside, the quote itself
and the backslash are escaped, four controls have a letter, and any other character that is not
printable is written by its code point in braces.

## Contents

* `escaped`: one character as it stands between the given quotes;
* `quoteChar`, `quoteText`: a character and a text with their quotes.
-/

namespace YamlLinter.Text

/-- One character as it stands between two `quote` characters. -/
def escaped (quote c : Char) : List Char :=
  if c == '\x00' then ['\\', '0']
  else if c == '\t' then ['\\', 't']
  else if c == '\n' then ['\\', 'n']
  else if c == '\r' then ['\\', 'r']
  else if c == '\\' || c == quote then ['\\', c]
  else if isPrintable c then [c]
  else ['\\', 'u', '\x7b'] ++ hexDigits c.toNat ++ ['\x7d']

/-- A character in single quotes. -/
def quoteChar (c : Char) : String :=
  String.ofList ('\x27' :: escaped '\x27' c ++ ['\x27'])

/-- A text in double quotes. -/
def quoteText (cs : List Char) : String :=
  String.ofList ('\x22' :: cs.flatMap (escaped '\x22') ++ ['\x22'])

end YamlLinter.Text
