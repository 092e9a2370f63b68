import YamlLinter.Mark
import YamlLinter.Text.Quoted

/-!
# Scan errors

The scanner stops at the first error. An error is a cause and the mark at which it was noticed.

## Contents

* `ScanError.Cause`: everything that can be wrong with a source, and the wording of each cause;
* `ScanError`: a cause at a mark, with its line and column for people.
-/

namespace YamlLinter

namespace ScanError

/-- What is wrong with a source. A cause that speaks of a character holds the one that was found. -/
inductive Cause where
  /-- No token starts with the character. -/
  | strayCharacter (found : Char)
  /-- A key that had to be one is followed by no `:`. -/
  | missingColon
  /-- A `-` where no sequence may start. -/
  | misplacedEntry
  /-- A `?` where no mapping may start. -/
  | misplacedKey
  /-- A `:` where no mapping may start. -/
  | misplacedValue
  /-- Text behind a directive or a block scalar header. -/
  | trailingText (found : Char)
  /-- A `%` without a name. -/
  | missingDirectiveName
  /-- A directive name that does not end where it should. -/
  | badDirectiveName (found : Char)
  /-- A `*` without a name. -/
  | missingAliasName (found : Char)
  /-- A `&` without a name. -/
  | missingAnchorName (found : Char)
  /-- A verbatim tag that is not closed. -/
  | unclosedTag (found : Char)
  /-- A tag handle that does not end in `!`. -/
  | badTagHandle (found : Char)
  /-- A tag without a suffix. -/
  | missingTagSuffix (found : Char)
  /-- Text right behind a tag. -/
  | textAfterTag (found : Char)
  /-- A block scalar header that asks for indentation zero. -/
  | zeroIndentation
  /-- A block scalar header that is none. -/
  | badBlockHeader (found : Char)
  /-- A numeric escape without a code point of the right length. -/
  | badEscapeCode (length : Nat) (digits : List Char)
  /-- An escape that does not exist. -/
  | unknownEscape (found : Char)
  /-- A quoted scalar that runs to the end. -/
  | unclosedQuote
  /-- A document marker inside a quoted scalar. -/
  | markerInQuote
  deriving Repr, DecidableEq, Inhabited

/-- The wording of a cause. -/
def Cause.message : Cause → String
  | strayCharacter c => "found character " ++ Text.quoteChar c ++ " that cannot start any token"
  | missingColon => "could not find expected ':'"
  | misplacedEntry => "sequence entries are not allowed here"
  | misplacedKey => "mapping keys are not allowed here"
  | misplacedValue => "mapping values are not allowed here"
  | trailingText c => "expected a comment or a line break, but found " ++ Text.quoteChar c
  | missingDirectiveName => "expected alphabetic or numeric character in directive name"
  | badDirectiveName c =>
    "expected alphabetic or numeric character, but found " ++ Text.quoteChar c
  | missingAliasName c => "expected alias name, but found " ++ Text.quoteChar c
  | missingAnchorName c => "expected anchor name, but found " ++ Text.quoteChar c
  | unclosedTag c => "expected '>', but found " ++ Text.quoteChar c
  | badTagHandle c => "expected '!', but found " ++ Text.quoteChar c
  | missingTagSuffix c => "expected URI, but found " ++ Text.quoteChar c
  | textAfterTag c => "expected ' ', but found " ++ Text.quoteChar c
  | zeroIndentation => "expected indentation indicator in the range 1-9, but found 0"
  | badBlockHeader c =>
    "expected chomping or indentation indicators, but found " ++ Text.quoteChar c
  | badEscapeCode length digits =>
    "expected escape sequence of " ++ toString length ++ " hexadecimal numbers, but found " ++
      Text.quoteText digits
  | unknownEscape c => "found unknown escape character " ++ Text.quoteChar c
  | unclosedQuote => "found unexpected end of stream while scanning a quoted scalar"
  | markerInQuote => "found unexpected document separator while scanning a quoted scalar"

end ScanError

/-- A cause and the mark at which it was noticed. -/
structure ScanError where
  cause : ScanError.Cause
  mark : Mark
  deriving Repr, DecidableEq, Inhabited

namespace ScanError

/-- The wording of the error without its place. -/
def problem (e : ScanError) : String := e.cause.message

/-- The line of the error, counted from one. -/
def line (e : ScanError) : Nat := e.mark.line + 1

/-- The column of the error, counted from one. -/
def column (e : ScanError) : Nat := e.mark.column + 1

/-- The wording of the error with its place. -/
def message (e : ScanError) : String :=
  e.problem ++ " (line " ++ toString e.line ++ ", column " ++ toString e.column ++ ")"

end ScanError

end YamlLinter
