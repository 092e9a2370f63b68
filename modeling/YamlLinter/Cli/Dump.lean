import YamlLinter.Cli.Run
import YamlLinter.Json.Printer
import YamlLinter.Scan.Tokens

/-!
# Dumping tokens

Two small programs show what the scanner makes of a file: one line by line, one as JSON.

## Contents

* `tokenLine`, `commentLine`: the lines of a listing;
* `listTokens`: lists the tokens of a file, possibly only those near a line;
* `TokenKind.toJson`, `Scan.toJson`: tokens as JSON;
* `dumpTokens`: prints the tokens of a file as JSON.
-/

namespace YamlLinter

/-- A number at the right end of a field of the given width. -/
def rightAligned (width n : Nat) : String :=
  let digits := toString n
  String.ofList (List.replicate (width - digits.length) ' ') ++ digits

/-- A text at the left end of a field of the given width. -/
def leftAligned (width : Nat) (s : String) : String :=
  s ++ String.ofList (List.replicate (width - s.length) ' ')

/-- Line and column of a mark, counted from one. -/
def Mark.text (m : Mark) : String := toString (m.line + 1) ++ ":" ++ toString (m.column + 1)

/-- The start of every line of a listing. -/
def lineHead (m : Mark) : String := "Line " ++ rightAligned 4 (m.line + 1) ++ ": "

/-- A token in a listing. -/
def tokenLine (t : Token) : String :=
  lineHead t.start ++ leftAligned 22 t.kind.name ++ " " ++ t.start.text ++ " .. " ++ t.stop.text ++
    "  " ++ toString t.start.index ++ ".." ++ toString t.stop.index

/-- A comment in a listing. -/
def commentLine (c : Comment) : String :=
  lineHead c.start ++ "COMMENT " ++ Text.quoteText c.text.toList ++ " (inline: " ++
    (if c.inline then "true" else "false") ++ ")"

/-- The number of a line in an argument: digits behind an optional `+`. Anything else, and a number
of more than 64 bits, counts as zero. -/
def lineArgument (arg : String) : Nat :=
  let digits :=
    match arg.toList with
    | '+' :: cs => cs
    | cs => cs
  let n := Text.decimalValue digits
  if digits.isEmpty || !digits.all Char.isDigit || Nat.pow 2 64 ≤ n then 0 else n

/-- Whether a mark is within five lines of the line `target`; zero stands for all lines. -/
def nearLine (target : Nat) (m : Mark) : Bool :=
  target == 0 || (target - 5 ≤ m.line + 1 && m.line + 1 ≤ target + 5)

/-- The source of the file that the first argument names. -/
def dumpSource (args : List String) (w : World) : Except Outcome String :=
  match args with
  | [] => .error ⟨1, "", none⟩
  | name :: _ =>
    match w.file name with
    | .error fault =>
      .error ⟨1, "", some ("Error reading file '" ++ name ++ "': " ++ fault.message)⟩
    | .ok source => .ok source

/-- Lists the tokens and comments of a file; a second argument names a line. -/
def listTokens (args : List String) (w : World) : Outcome :=
  match dumpSource args w with
  | .error outcome => outcome
  | .ok source =>
    let target := ((args.drop 1).head?.map lineArgument).getD 0
    let s := scan source
    let tokens := s.tokens.filter fun t => nearLine target t.start
    let comments := s.comments.filter fun c => nearLine target c.start
    ⟨0, unlines (tokens.map tokenLine ++ comments.map commentLine),
      s.error.map fun e => "Scanner error: " ++ e.message⟩

/-! ## JSON -/

/-- A mark as JSON. -/
def Mark.toJson (m : Mark) : Json :=
  .object [("index", .ofNat m.index), ("line", .ofNat m.line), ("column", .ofNat m.column)]

/-- A kind of token as JSON: a name, or an object with the name and the data. -/
def TokenKind.toJson : TokenKind → Json
  | streamStart => .text "StreamStart"
  | streamEnd => .text "StreamEnd"
  | directive name text =>
    .object [("Directive", .object [("name", .text name), ("value", .text text)])]
  | documentStart => .text "DocumentStart"
  | documentEnd => .text "DocumentEnd"
  | blockSequenceStart => .text "BlockSequenceStart"
  | blockMappingStart => .text "BlockMappingStart"
  | blockEnd => .text "BlockEnd"
  | flowSequenceStart => .text "FlowSequenceStart"
  | flowSequenceEnd => .text "FlowSequenceEnd"
  | flowMappingStart => .text "FlowMappingStart"
  | flowMappingEnd => .text "FlowMappingEnd"
  | blockEntry => .text "BlockEntry"
  | flowEntry => .text "FlowEntry"
  | key => .text "Key"
  | value => .text "Value"
  | aliasRef name => .object [("Alias", .text name)]
  | anchor name => .object [("Anchor", .text name)]
  | tag handle suffix =>
    .object [("Tag", .object [("handle", .text handle), ("suffix", .text suffix)])]
  | scalar text style =>
    .object [("Scalar", .object [("value", .text text), ("style", .text style.name)])]

/-- A token as JSON. -/
def Token.toJson (t : Token) : Json :=
  .object [("kind", t.kind.toJson), ("start", t.start.toJson), ("end", t.stop.toJson)]

/-- A comment as JSON. -/
def Comment.toJson (c : Comment) : Json :=
  .object
    [("start", c.start.toJson), ("end", c.stop.toJson), ("text", .text c.text),
      ("inline", .bool c.inline)]

/-- A scan as JSON. -/
def Scan.toJson (s : Scan) : Json :=
  .object
    [("tokens", .array (s.tokens.map Token.toJson)),
      ("comments", .array (s.comments.map Comment.toJson)),
      ("error", .ofOption (.text ·.message) s.error)]

/-- Prints the tokens and comments of a file as JSON. -/
def dumpTokens (args : List String) (w : World) : Outcome :=
  match dumpSource args w with
  | .error outcome => outcome
  | .ok source =>
    let s := scan source
    ⟨if s.error.isSome then 1 else 0, s.toJson.pretty ++ "\n", none⟩

end YamlLinter
