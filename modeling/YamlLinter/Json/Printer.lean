import YamlLinter.Json.Value
import YamlLinter.Text.Hex

/-!
# Printing JSON

Values are printed in two ways: on one line without spaces, and over several lines with two spaces
of indentation. Members keep their order.

## Contents

* `escapeText`: a text in quotes;
* `Json.compress`: a value on one line;
* `Json.pretty`: a value over several lines.
-/

namespace YamlLinter

namespace Json

/-- The four hexadecimal digits of a control character. -/
def controlDigits (n : Nat) : List Char :=
  let digits := Text.hexDigits n
  List.replicate (4 - digits.length) '0' ++ digits

/-- A character as it stands in a text: quote, backslash and controls are escaped. -/
def escapeChar (c : Char) : List Char :=
  if c == '\x22' then ['\\', '\x22']
  else if c == '\\' then ['\\', '\\']
  else if c == '\x08' then ['\\', 'b']
  else if c == '\x0c' then ['\\', 'f']
  else if c == '\n' then ['\\', 'n']
  else if c == '\r' then ['\\', 'r']
  else if c == '\t' then ['\\', 't']
  else if c.toNat < 0x20 then ['\\', 'u'] ++ controlDigits c.toNat
  else [c]

/-- A text in quotes. -/
def escapeText (s : String) : String :=
  String.ofList ('\x22' :: s.toList.flatMap escapeChar ++ ['\x22'])

/-- Puts pieces between two brackets with a separator between them. -/
def enclose (opening closing separator : String) (pieces : List String) : String :=
  opening ++ separator.intercalate pieces ++ closing

mutual

/-- The value on one line. -/
def compress : Json → String
  | .null => "null"
  | .bool b => if b then "true" else "false"
  | .number n => n.render
  | .text s => escapeText s
  | .array items => enclose "[" "]" "," (compressItems items)
  | .object members => enclose "\x7b" "\x7d" "," (compressMembers members)

/-- The items of an array on one line each. -/
def compressItems : List Json → List String
  | [] => []
  | item :: items => compress item :: compressItems items

/-- The members of an object on one line each. -/
def compressMembers : List (String × Json) → List String
  | [] => []
  | (name, value) :: members =>
    (escapeText name ++ ":" ++ compress value) :: compressMembers members

end

/-- The start of a line that is nested `depth` times. -/
def indentation (depth : Nat) : String :=
  String.ofList (List.replicate (2 * depth) ' ')

/-- Puts pieces on lines of their own between two brackets; without pieces the brackets touch. -/
def encloseLines (opening closing : String) (depth : Nat) (pieces : List String) : String :=
  if pieces.isEmpty then opening ++ closing
  else
    let lines := pieces.map (indentation (depth + 1) ++ ·)
    opening ++ "\n" ++ ",\n".intercalate lines ++ "\n" ++ indentation depth ++ closing

mutual

/-- The value over several lines, nested `depth` times. -/
def prettyAt (depth : Nat) : Json → String
  | .array items => encloseLines "[" "]" depth (prettyItems (depth + 1) items)
  | .object members => encloseLines "\x7b" "\x7d" depth (prettyMembers (depth + 1) members)
  | .null => "null"
  | .bool b => if b then "true" else "false"
  | .number n => n.render
  | .text s => escapeText s

/-- The items of an array over several lines each. -/
def prettyItems (depth : Nat) : List Json → List String
  | [] => []
  | item :: items => prettyAt depth item :: prettyItems depth items

/-- The members of an object over several lines each. -/
def prettyMembers (depth : Nat) : List (String × Json) → List String
  | [] => []
  | (name, value) :: members =>
    (escapeText name ++ ": " ++ prettyAt depth value) :: prettyMembers depth members

end

/-- The value over several lines. -/
def pretty (j : Json) : String := prettyAt 0 j

end Json

end YamlLinter
