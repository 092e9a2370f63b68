import YamlLinter.Json.Printer
import YamlLinter.Report.Excerpt

/-!
# Output formats

## Contents

* `Format`: the four formats and their names;
* `FileReport`: the problems of one file;
* `Format.file`: what is printed for a file;
* `Format.closing`: what is printed after all files;
* `Format.render`: the whole output.
-/

namespace YamlLinter

/-- How problems are printed. -/
inductive Format where
  /-- The name of the file, then one aligned line per problem. -/
  | standard
  /-- One line per problem with the name of the file in front. -/
  | parsable
  /-- A JSON array of all problems. -/
  | json
  /-- Excerpts of the source. -/
  | pretty
  deriving Repr, DecidableEq, Inhabited

/-- The problems of one file. -/
structure FileReport where
  name : String
  source : String
  problems : List Problem
  deriving Repr, DecidableEq, Inhabited

/-- Spaces behind a text up to a width. -/
def padTo (width : Nat) (s : String) : String :=
  s ++ String.ofList (List.replicate (width - s.utf8ByteSize) ' ')

namespace Problem

/-- The line of a problem in the standard format. -/
def standardLine (p : Problem) : String :=
  let place := padTo 12 ("  " ++ toString p.line ++ ":" ++ toString p.column)
  let level := padTo 21 (place ++ p.level.name)
  let rule :=
    match p.rule with
    | some rule => "  (" ++ rule ++ ")"
    | none => ""
  level ++ p.desc ++ rule

/-- The line of a problem in the parsable format. -/
def parsableLine (p : Problem) (name : String) : String :=
  name ++ ":" ++ toString p.line ++ ":" ++ toString p.column ++ ": [" ++ p.level.name ++ "] " ++
    p.message

/-- A problem of a file as JSON, its members sorted by name. -/
def toJson (p : Problem) (name : String) : Json :=
  .object
    [("column", .ofNat p.column), ("desc", .text p.desc), ("file", .text name),
      ("level", .text p.level.name), ("line", .ofNat p.line), ("rule", .ofOption .text p.rule)]

end Problem

/-- Texts on lines of their own. -/
def unlines (lines : List String) : String := String.join (lines.map (· ++ "\n"))

namespace Format

/-- The name of a format. -/
def name : Format → String
  | standard => "standard"
  | parsable => "parsable"
  | json => "json"
  | pretty => "pretty"

/-- All formats. -/
def all : List Format := [standard, parsable, json, pretty]

/-- The format of the given name. -/
def ofName (name : String) : Option Format := all.find? (·.name == name)

/-- What is printed for a file as soon as it has been checked. -/
def file (format : Format) (r : FileReport) : String :=
  match format with
  | standard =>
    if r.problems.isEmpty then ""
    else unlines ((r.name :: r.problems.map Problem.standardLine) ++ [""])
  | parsable => unlines (r.problems.map (·.parsableLine r.name))
  | json => ""
  | pretty =>
    String.join (r.problems.map fun p => (Excerpt.ofProblem r.name r.source.toList p).render)

/-- What is printed after all files. -/
def closing (format : Format) (rs : List FileReport) : String :=
  match format with
  | json =>
    let problems := rs.flatMap fun r => r.problems.map (·.toJson r.name)
    (Json.array problems).pretty ++ "\n"
  | standard | parsable | pretty => ""

/-- What is printed for files. -/
def files (format : Format) (rs : List FileReport) : String := String.join (rs.map format.file)

/-- The whole output. -/
def render (format : Format) (rs : List FileReport) : String :=
  format.files rs ++ format.closing rs

end Format

end YamlLinter
