import YamlLinter.Json.Value
import YamlLinter.Text.Decimal
import YamlLinter.Text.Hex
import YamlLinter.Text.Utf8

/-!
# Reading JSON

A text is read from left to right and the first fault counts. Nesting is limited, raw control
characters are not allowed in texts, and a number must not exceed the range of double precision.

## Contents

* `JsonFault`: the three ways in which a text can fail to be what was asked for;
* lexemes: `skipSpace`, `readWord`, `readNumber`, `readText`;
* `readValue`: any value;
* the seams of objects and arrays, for readers that look for a certain shape;
* `Json.parse`: a whole text.
-/

namespace YamlLinter

/-- Why a text could not be read. -/
inductive JsonFault where
  /-- The text ended too early. -/
  | eof
  /-- The text is not JSON. -/
  | malformed
  /-- The text is JSON, but not of the shape that was asked for. -/
  | shape
  deriving Repr, DecidableEq, Inhabited

namespace Json

/-- The result of reading at the front of a text: a value and the text behind it. -/
abbrev Read (α : Type) := Except JsonFault (α × List Char)

/-- The white space between the lexemes of JSON. -/
def isGap (c : Char) : Bool := c == ' ' || c == '\t' || c == '\n' || c == '\r'

/-- Drops white space. -/
def skipSpace (cs : List Char) : List Char := cs.dropWhile isGap

/-! ## Words and numbers -/

/-- Reads the given characters. -/
def readWord : (word : List Char) → List Char → Except JsonFault (List Char)
  | [], cs => .ok cs
  | _ :: _, [] => .error .eof
  | w :: ws, c :: cs => if c == w then readWord ws cs else .error .malformed

/-- Reads decimal digits, at least one. -/
def readDigits (cs : List Char) : Read (List Char) :=
  match cs with
  | [] => .error .eof
  | c :: _ =>
    if c.isDigit then .ok (cs.takeWhile Char.isDigit, cs.dropWhile Char.isDigit)
    else .error .malformed

/-- Reads the digits before the point: a zero stands alone. -/
def readWhole (cs : List Char) : Read (List Char) :=
  match cs with
  | '0' :: rest =>
    if (rest.headD ' ').isDigit then .error .malformed else .ok (['0'], rest)
  | _ => readDigits cs

/-- Reads a point and the digits behind it, if there are any. -/
def readFraction (cs : List Char) : Read (Option (List Char)) :=
  match cs with
  | '.' :: rest =>
    match readDigits rest with
    | .error e => .error e
    | .ok (digits, rest') => .ok (some digits, rest')
  | _ => .ok (none, cs)

/-- Reads the sign of an exponent: whether it is negative. -/
def readSign (cs : List Char) : Bool × List Char :=
  match cs with
  | '+' :: rest => (false, rest)
  | '-' :: rest => (true, rest)
  | _ => (false, cs)

/-- Reads an exponent, if there is one. -/
def readExponent (cs : List Char) : Read (Option Int) :=
  match cs with
  | c :: rest =>
    if c == 'e' || c == 'E' then
      let (negative, rest') := readSign rest
      match readDigits rest' with
      | .error e => .error e
      | .ok (digits, rest'') =>
        let n : Int := Text.decimalValue digits
        .ok (some (if negative then -n else n), rest'')
    else
      .ok (none, cs)
  | [] => .ok (none, cs)

/-- Reads a number behind its sign. -/
def readNumber (negative : Bool) (cs : List Char) : Read JsonNumber :=
  match readWhole cs with
  | .error e => .error e
  | .ok (whole, cs₁) =>
    match readFraction cs₁ with
    | .error e => .error e
    | .ok (fraction, cs₂) =>
      match readExponent cs₂ with
      | .error e => .error e
      | .ok (exponent, cs₃) =>
        match JsonNumber.ofDigits negative whole fraction exponent with
        | none => .error .malformed
        | some n => .ok (n, cs₃)

/-! ## Texts -/

/-- Reads the four digits of a unit of UTF-16. -/
def readUnit (cs : List Char) : Read Nat :=
  if Text.byteCount cs < 4 then .error .eof
  else
    match cs with
    | a :: b :: c :: d :: rest =>
      match Text.hexValue a, Text.hexValue b, Text.hexValue c, Text.hexValue d with
      | some a, some b, some c, some d => .ok (((a * 16 + b) * 16 + c) * 16 + d, rest)
      | _, _, _, _ => .error .malformed
    | _ => .error .malformed

/-- Reads the second unit of a surrogate pair and gives the character of both. -/
def readLowSurrogate (high : Nat) (cs : List Char) : Read Char :=
  match cs with
  | [] | ['\\'] => .error .eof
  | '\\' :: 'u' :: rest =>
    match readUnit rest with
    | .error e => .error e
    | .ok (low, rest') =>
      if 0xdc00 ≤ low && low ≤ 0xdfff then
        .ok (Char.ofNat (0x10000 + (high - 0xd800) * 0x400 + (low - 0xdc00)), rest')
      else
        .error .malformed
  | _ => .error .malformed

/-- Reads an escape behind its backslash. -/
def readEscape (cs : List Char) : Read Char :=
  match cs with
  | [] => .error .eof
  | c :: rest =>
    match c with
    | '\x22' => .ok ('\x22', rest)
    | '\\' => .ok ('\\', rest)
    | '/' => .ok ('/', rest)
    | 'b' => .ok ('\x08', rest)
    | 'f' => .ok ('\x0c', rest)
    | 'n' => .ok ('\n', rest)
    | 'r' => .ok ('\r', rest)
    | 't' => .ok ('\t', rest)
    | 'u' =>
      match readUnit rest with
      | .error e => .error e
      | .ok (unit, rest') =>
        if 0xdc00 ≤ unit && unit ≤ 0xdfff then .error .malformed
        else if 0xd800 ≤ unit && unit ≤ 0xdbff then readLowSurrogate unit rest'
        else .ok (Char.ofNat unit, rest')
    | _ => .error .malformed

/-- Reads a text behind its opening quote. The fuel bounds the number of its characters. -/
def readTextFrom : (fuel : Nat) → (read : List Char) → List Char → Read String
  | 0, _, _ => .error .malformed
  | _ + 1, _, [] => .error .eof
  | fuel + 1, read, c :: cs =>
    if c == '\x22' then .ok (String.ofList read.reverse, cs)
    else if c == '\\' then
      match readEscape cs with
      | .error e => .error e
      | .ok (decoded, cs') => readTextFrom fuel (decoded :: read) cs'
    else if c.toNat < 0x20 then .error .malformed
    else readTextFrom fuel (c :: read) cs

/-- Reads a text behind its opening quote. -/
def readText (cs : List Char) : Read String :=
  readTextFrom (cs.length + 1) [] cs

/-! ## The seams of arrays and objects -/

/-- Looks for the next item of an array: whether there is one, and the text in front of it. -/
def readItemSeam (first : Bool) (cs : List Char) : Read Bool :=
  match skipSpace cs with
  | [] => .error .eof
  | c :: rest =>
    if c == ']' then .ok (false, c :: rest)
    else if first then .ok (true, c :: rest)
    else if c == ',' then
      match skipSpace rest with
      | [] => .error .eof
      | c' :: rest' => if c' == ']' then .error .malformed else .ok (true, c' :: rest')
    else .error .malformed

/-- Looks for the next member of an object: whether there is one, and the text behind the opening
quote of its name. -/
def readMemberSeam (first : Bool) (cs : List Char) : Read Bool :=
  match skipSpace cs with
  | [] => .error .eof
  | c :: rest =>
    if c == '\x7d' then .ok (false, c :: rest)
    else if first then
      if c == '\x22' then .ok (true, rest) else .error .malformed
    else if c == ',' then
      match skipSpace rest with
      | [] => .error .eof
      | c' :: rest' => if c' == '\x22' then .ok (true, rest') else .error .malformed
    else .error .malformed

/-- Reads the colon between a name and its value. -/
def readColon (cs : List Char) : Except JsonFault (List Char) :=
  match skipSpace cs with
  | [] => .error .eof
  | c :: rest => if c == ':' then .ok rest else .error .malformed

/-- Reads the bracket that closes an array or an object. -/
def readClose (bracket : Char) (cs : List Char) : Except JsonFault (List Char) :=
  match skipSpace cs with
  | [] => .error .eof
  | c :: rest => if c == bracket then .ok rest else .error .malformed

/-- Reads the end of the text: only white space may be left. -/
def readEnd (cs : List Char) : Except JsonFault Unit :=
  if (skipSpace cs).isEmpty then .ok () else .error .malformed

/-! ## Values -/

/-- Values are nested less deeply than this. -/
def nestingLimit : Nat := 128

/-- Reads a value that is neither an array nor an object. -/
def readScalar (c : Char) (cs : List Char) : Read Json :=
  match c with
  | 'n' =>
    match readWord ['u', 'l', 'l'] cs with
    | .error e => .error e
    | .ok rest => .ok (.null, rest)
  | 't' =>
    match readWord ['r', 'u', 'e'] cs with
    | .error e => .error e
    | .ok rest => .ok (.bool true, rest)
  | 'f' =>
    match readWord ['a', 'l', 's', 'e'] cs with
    | .error e => .error e
    | .ok rest => .ok (.bool false, rest)
  | '-' =>
    match readNumber true cs with
    | .error e => .error e
    | .ok (n, rest) => .ok (.number n, rest)
  | '\x22' =>
    match readText cs with
    | .error e => .error e
    | .ok (s, rest) => .ok (.text s, rest)
  | _ =>
    if c.isDigit then
      match readNumber false (c :: cs) with
      | .error e => .error e
      | .ok (n, rest) => .ok (.number n, rest)
    else
      .error .malformed

mutual

/-- Reads a value inside `depth` brackets. The fuel bounds the number of values and seams. -/
def readValueFrom : (fuel depth : Nat) → List Char → Read Json
  | 0, _, _ => .error .malformed
  | fuel + 1, depth, cs =>
    match skipSpace cs with
    | [] => .error .eof
    | c :: rest =>
      if c == '[' then
        if nestingLimit ≤ depth + 1 then .error .malformed
        else
          match readItemsFrom fuel (depth + 1) true rest with
          | .error e => .error e
          | .ok (items, rest') => .ok (.array items, rest')
      else if c == '\x7b' then
        if nestingLimit ≤ depth + 1 then .error .malformed
        else
          match readMembersFrom fuel (depth + 1) true rest with
          | .error e => .error e
          | .ok (members, rest') => .ok (.object members, rest')
      else
        readScalar c rest

/-- Reads the items of an array and its closing bracket. -/
def readItemsFrom : (fuel depth : Nat) → (first : Bool) → List Char → Read (List Json)
  | 0, _, _, _ => .error .malformed
  | fuel + 1, depth, first, cs =>
    match readItemSeam first cs with
    | .error e => .error e
    | .ok (false, rest) => .ok ([], rest.drop 1)
    | .ok (true, rest) =>
      match readValueFrom fuel depth rest with
      | .error e => .error e
      | .ok (item, rest') =>
        match readItemsFrom fuel depth false rest' with
        | .error e => .error e
        | .ok (items, rest'') => .ok (item :: items, rest'')

/-- Reads the members of an object and its closing brace. -/
def readMembersFrom : (fuel depth : Nat) → (first : Bool) → List Char →
    Read (List (String × Json))
  | 0, _, _, _ => .error .malformed
  | fuel + 1, depth, first, cs =>
    match readMemberSeam first cs with
    | .error e => .error e
    | .ok (false, rest) => .ok ([], rest.drop 1)
    | .ok (true, rest) =>
      match readText rest with
      | .error e => .error e
      | .ok (name, rest₁) =>
        match readColon rest₁ with
        | .error e => .error e
        | .ok rest₂ =>
          match readValueFrom fuel depth rest₂ with
          | .error e => .error e
          | .ok (value, rest₃) =>
            match readMembersFrom fuel depth false rest₃ with
            | .error e => .error e
            | .ok (members, rest₄) => .ok ((name, value) :: members, rest₄)

end

/-- Reads a value inside `depth` brackets. Every value and every seam takes a character, so that the
length of the text bounds their number. -/
def readValue (depth : Nat) (cs : List Char) : Read Json :=
  readValueFrom (2 * cs.length + 2) depth cs

/-- Reads a whole text as one value. -/
def parse (text : String) : Except JsonFault Json :=
  match readValue 0 text.toList with
  | .error e => .error e
  | .ok (value, rest) =>
    match readEnd rest with
    | .error e => .error e
    | .ok () => .ok value

end Json

end YamlLinter
