import YamlLinter.Report.Span
import YamlLinter.Text.Space

/-!
# Excerpts

The pretty format shows the line a problem is on with a pointer below it. Offsets into the source
are taken to count characters here, which they do in ASCII sources; an offset beyond the source has
no excerpt.

## Contents

* `displayLines`: the lines of a source as excerpts number them;
* `Place`: where an offset lies;
* `Excerpt`: the parts of a report on one problem;
* `Excerpt.render`: its drawing.
-/

namespace YamlLinter

/-- The characters that end a line of an excerpt. -/
def endsDisplayLine (c : Char) : Bool :=
  c == '\n' || c == '\r' || c == '\x0b' || c == '\x0c' || c == '\u0085' || c == '\u2028' ||
    c == '\u2029'

/-- Splits a text behind each line end, CR LF being one; `read` is what has been read of the first
line, last character first. The empty text has no lines. -/
def displayLinesFrom (read : List Char) : List Char → List (List Char)
  | [] => if read.isEmpty then [] else [read.reverse]
  | c :: cs =>
    if endsDisplayLine c && !(c == '\r' && cs.head? == some '\n') then
      (c :: read).reverse :: displayLinesFrom [] cs
    else
      displayLinesFrom (c :: read) cs

/-- The lines of a source as excerpts number them, with their line ends. -/
def displayLines (source : List Char) : List (List Char) := displayLinesFrom [] source

/-- Where an offset lies: a line, counted from one, its text, and a column, counted from zero. -/
structure Place where
  line : Nat
  column : Nat
  text : List Char
  deriving Repr, DecidableEq, Inhabited

/-- The place of an offset among lines. The end of the last line belongs to it. -/
def placeAmong (line offset : Nat) : List (List Char) → Option Place
  | [] => none
  | [text] => some ⟨line, offset, text⟩
  | text :: rest =>
    if offset < text.length then some ⟨line, offset, text⟩
    else placeAmong (line + 1) (offset - text.length) rest

/-- The place of a span, if it lies inside the source. -/
def placeOf (source : List Char) (span : Span) : Option Place :=
  let last := if span.start < span.stop then span.stop - 1 else span.start
  if span.start ≤ source.length && last ≤ source.length then
    placeAmong 1 span.start (displayLines source)
  else
    none

/-- The parts of a report on one problem. -/
structure Excerpt where
  /-- The level and the description. -/
  header : String
  desc : String
  /-- The name of the source, and the place in it. -/
  location : Option (String × Place)
  /-- Whether the problem points at the end of the source. -/
  atEnd : Bool
  note : Option String
  deriving Repr, DecidableEq, Inhabited

/-- The heading of a level. -/
def Level.heading : Level → String
  | .error => "Error"
  | .warning => "Warning"

namespace Excerpt

/-- The report on a problem of a source. -/
def ofProblem (name : String) (source : List Char) (p : Problem) : Excerpt :=
  let span := p.span source
  let place := placeOf source span
  { header := p.level.heading ++ ": " ++ p.desc
    desc := p.desc
    location := place.map (name, ·)
    atEnd := span.start == span.stop
    note := if place.isSome then p.rule.map ("rule: " ++ ·) else none }

/-- The text of a location. -/
def locationText (name : String) (place : Place) : String :=
  name ++ ":" ++ toString place.line ++ ":" ++ toString (place.column + 1)

/-- The same character several times. -/
def times (n : Nat) (c : Char) : String := String.ofList (List.replicate n c)

/-- The lines of the drawing below the header. -/
def body (e : Excerpt) (name : String) (place : Place) : List String :=
  let number := toString place.line
  let margin := times (number.length + 2) ' '
  let pointer := margin ++ "│ " ++ times place.column ' '
  let label :=
    if e.atEnd then [pointer ++ "│ ", pointer ++ "╰─ " ++ e.desc]
    else [pointer ++ "┬  ", pointer ++ "╰── " ++ e.desc]
  let note :=
    match e.note with
    | some note => [margin ++ "│ ", margin ++ "│ Note: " ++ note]
    | none => []
  [margin ++ "╭─[" ++ locationText name place ++ "]",
    margin ++ "│",
    " " ++ number ++ " │ " ++ String.ofList (Text.trimEnd place.text)] ++
    label ++ note ++ [times (number.length + 2) '─' ++ "╯"]

/-- The drawing of a report. -/
def render (e : Excerpt) : String :=
  let body :=
    match e.location with
    | some (name, place) => e.body name place
    | none => []
  String.join ((e.header :: body).map (· ++ "\n"))

end Excerpt

end YamlLinter
