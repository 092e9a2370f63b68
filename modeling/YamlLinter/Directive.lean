import YamlLinter.Line
import YamlLinter.Text.Class
import YamlLinter.Text.Space

/-!
# Directives to the linter

A comment can switch rules off and on. Behind its `#` stand words between blanks: a marker, what to
do, and the rules to do it with, each in the form `rule:id`. A directive that names no rule
addresses all of them.

## Contents

* `Directive`: what to do with which rules;
* `words`: the words of a text;
* `Directive.parse`: the directive that a comment holds;
* `fileDisabled`: whether the first line switches the linter off.
-/

namespace YamlLinter

/-- What a directive does. -/
inductive DirectiveKind where
  | disable
  | enable
  /-- Switches rules off for one line. -/
  | disableLine
  /-- Switches the linter off for a file. -/
  | disableFile
  deriving Repr, DecidableEq, Inhabited

namespace DirectiveKind

/-- The word for the kind. -/
def word : DirectiveKind → String
  | disable => "disable"
  | enable => "enable"
  | disableLine => "disable-line"
  | disableFile => "disable-file"

/-- All kinds. -/
def all : List DirectiveKind := [disable, enable, disableLine, disableFile]

/-- The kind with the given word. -/
def ofWord (w : List Char) : Option DirectiveKind :=
  all.find? (·.word.toList == w)

end DirectiveKind

/-- A directive: what to do, and with which rules. No rules stands for all. -/
structure Directive where
  kind : DirectiveKind
  rules : List String
  deriving Repr, DecidableEq, Inhabited

/-- The word that marks a comment as a directive. -/
def directiveMarker : String := "yamlstyle"

/-- The mark in front of the id of a rule. -/
def ruleMark : List Char := ['r', 'u', 'l', 'e', ':']

/-- Splits a text at its blanks; `read` has been read of the first word, last character first. -/
def wordsFrom (read : List Char) : List Char → List (List Char)
  | [] => if read.isEmpty then [] else [read.reverse]
  | c :: cs =>
    if Text.isBlank c then
      if read.isEmpty then wordsFrom [] cs else read.reverse :: wordsFrom [] cs
    else
      wordsFrom (c :: read) cs

/-- The words of a text, which spaces and tabs divide. -/
def words (cs : List Char) : List (List Char) := wordsFrom [] cs

namespace Directive

/-- The rule that a word of the form `rule:id` names. An id holds no white space. -/
def ruleOfWord (w : List Char) : Option String :=
  if ruleMark.isPrefixOf w then
    let id := w.drop ruleMark.length
    if id.isEmpty || id.any Text.isSpace then none else some (String.ofList id)
  else
    none

/-- The rules that words name; none if one of them is no rule. -/
def rulesOfWords : List (List Char) → Option (List String)
  | [] => some []
  | w :: ws =>
    match ruleOfWord w, rulesOfWords ws with
    | some id, some ids => some (id :: ids)
    | _, _ => none

/-- The directive that the words behind a `#` make. -/
def ofWords : List (List Char) → Option Directive
  | marker :: kind :: rules =>
    if marker == directiveMarker.toList then
      match DirectiveKind.ofWord kind, rulesOfWords rules with
      | some kind, some rules => some { kind, rules }
      | _, _ => none
    else
      none
  | _ => none

/-- The directive that a comment holds. -/
def parse (comment : List Char) : Option Directive :=
  match comment with
  | '#' :: cs => ofWords (words cs)
  | _ => none

/-- Whether a directive of this kind addresses a rule. -/
def addresses (d : Directive) (rule : String) : Bool :=
  d.rules.isEmpty || d.rules.contains rule

end Directive

/-- The text of the first line of a source. -/
def firstLine (source : List Char) : List Char :=
  match Line.all source with
  | [] => []
  | line :: _ => line.text

/-- Whether the first line of a source switches the linter off. -/
def fileDisabled (source : List Char) : Bool :=
  match Directive.parse (firstLine source) with
  | some d => d.kind == .disableFile
  | none => false

end YamlLinter
