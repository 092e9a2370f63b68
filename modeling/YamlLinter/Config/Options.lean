import YamlLinter.Json.Printer
import YamlLinter.Problem
import YamlLinter.Rule.Anchors
import YamlLinter.Rule.Indentation.Check
import YamlLinter.Rule.KeyDuplicates
import YamlLinter.Text.Quoted

/-!
# Options of rules

The options of a rule come as the members of a JSON object. They are looked at in the order of their
names, and the first that is wrong counts.

## Contents

* `Options`: the options of one rule, sorted by name;
* `OptionFault`: what can be wrong with them, and its wording;
* readers for the options of each rule;
* `Options.level`: the level that options may ask for.
-/

namespace YamlLinter

/-- The options of one rule, sorted by name, each name once. -/
abbrev Options := List (String × Json)

namespace Options

/-- Puts an option in its place. It replaces an earlier one of the same name. -/
def insert (name : String) (value : Json) : Options → Options
  | [] => [(name, value)]
  | (n, v) :: rest =>
    if name == n then (name, value) :: rest
    else if name < n then (name, value) :: (n, v) :: rest
    else (n, v) :: insert name value rest

/-- The options that the members of an object give. -/
def ofMembers (members : List (String × Json)) : Options :=
  members.foldl (fun options (name, value) => insert name value options) []

/-- The options without the one of the given name. -/
def erase (options : Options) (name : String) : Options :=
  options.filter (·.1 != name)

/-- The option of the given name. -/
def get? (options : Options) (name : String) : Option Json :=
  (options.find? (·.1 == name)).map (·.2)

end Options

/-- What can be wrong with the options of a rule. -/
inductive OptionFault where
  /-- There is no such option; the rule has the options `expected`. -/
  | unknown (name : String) (expected : List String)
  /-- A value that is not a boolean where one is expected. -/
  | notBoolean (found : Json)
  /-- A number of spaces that is out of range. -/
  | spacesRange (n : Int)
  /-- A text or boolean as number of spaces. -/
  | spacesKind
  /-- A text or number that is no policy for sequences. -/
  | policyKind
  /-- A value that is neither boolean, nor number, nor text. -/
  | noVariant
  /-- A level that is none. -/
  | level
  deriving Repr, Inhabited

namespace OptionFault

/-- What a value is, in the words of a message. -/
def describe : Json → String
  | .null => "null"
  | .bool b => "boolean \x60" ++ (if b then "true" else "false") ++ "\x60"
  | .number (.whole n) => "integer \x60" ++ toString n ++ "\x60"
  | .number n => "floating point \x60" ++ n.render ++ "\x60"
  | .text s => "string " ++ Text.quoteText s.toList
  | .array _ => "sequence"
  | .object _ => "map"

/-- Names between backticks. -/
def listNames (names : List String) : String :=
  let quoted := names.map fun n => "\x60" ++ n ++ "\x60"
  match quoted with
  | [one] => one
  | _ => "one of " ++ ", ".intercalate quoted

/-- The wording of a fault. -/
def message : OptionFault → String
  | unknown name expected =>
    "unknown field \x60" ++ name ++ "\x60, expected " ++ listNames expected
  | notBoolean found => "invalid type: " ++ describe found ++ ", expected a boolean"
  | spacesRange n => "spaces must be a positive integer, got " ++ toString n
  | spacesKind => "spaces must be a positive integer or \"consistent\""
  | policyKind => "indent-sequences must be true, false, \"whatever\" or \"consistent\""
  | noVariant => "data did not match any variant of untagged enum RawOption"
  | level => "level must be \"error\" or \"warning\""

end OptionFault

namespace Options

/-! ## Values -/

/-- A value that is a boolean, a number of 64 bits with sign, or a text. -/
inductive Choice where
  | bool (b : Bool)
  | int (n : Int)
  | text (s : String)
  deriving Repr, DecidableEq, Inhabited

/-- The choice that a value is. -/
def choice : Json → Except OptionFault Choice
  | .bool b => .ok (.bool b)
  | .text s => .ok (.text s)
  | .number (.whole n) => if n < Int.pow 2 63 then .ok (.int n) else .error .noVariant
  | _ => .error .noVariant

/-- A boolean option. -/
def readBool : Json → Except OptionFault Bool
  | .bool b => .ok b
  | value => .error (.notBoolean value)

/-- The width of an indentation step: a positive number of 32 bits, or `consistent`. -/
def readWidth (value : Json) : Except OptionFault Indentation.Width :=
  match choice value with
  | .error e => .error e
  | .ok (.int n) => if 0 < n && n < Int.pow 2 32 then .ok (.fixed n.toNat) else .error (.spacesRange n)
  | .ok (.text s) => if s == "consistent" then .ok .consistent else .error .spacesKind
  | .ok (.bool _) => .error .spacesKind

/-- The policy for sequences. -/
def readPolicy (value : Json) : Except OptionFault Indentation.Policy :=
  match choice value with
  | .error e => .error e
  | .ok (.bool b) => .ok (if b then .always else .never)
  | .ok (.text s) =>
    if s == "whatever" then .ok .whatever
    else if s == "consistent" then .ok .consistent
    else .error .policyKind
  | .ok (.int _) => .error .policyKind

/-! ## The rules -/

/-- Folds the options into a configuration, up to the first fault. -/
def readAll {α : Type} (set : α → String → Json → Except OptionFault α) (config : α) :
    Options → Except OptionFault α
  | [] => .ok config
  | (name, value) :: rest =>
    match set config name value with
    | .error e => .error e
    | .ok config' => readAll set config' rest

/-- The options of the indentation rule. -/
def indentationFields : List String := ["spaces", "indent-sequences", "check-multi-line-strings"]

/-- Sets one option of the indentation rule. -/
def setIndentation (c : Indentation.Config) (name : String) (value : Json) :
    Except OptionFault Indentation.Config :=
  if name == "spaces" then (readWidth value).map fun spaces => { c with spaces }
  else if name == "indent-sequences" then
    (readPolicy value).map fun indentSequences => { c with indentSequences }
  else if name == "check-multi-line-strings" then
    (readBool value).map fun checkMultiLine => { c with checkMultiLine }
  else .error (.unknown name indentationFields)

/-- Reads the options of the indentation rule. -/
def indentation (options : Options) : Except OptionFault Indentation.Config :=
  readAll setIndentation .default options

/-- The options of the anchors rule. -/
def anchorsFields : List String :=
  ["forbid-undeclared-aliases", "forbid-duplicated-anchors", "forbid-unused-anchors"]

/-- Sets one option of the anchors rule. -/
def setAnchors (c : Anchors.Config) (name : String) (value : Json) :
    Except OptionFault Anchors.Config :=
  if name == "forbid-undeclared-aliases" then
    (readBool value).map fun forbidUndeclaredAliases => { c with forbidUndeclaredAliases }
  else if name == "forbid-duplicated-anchors" then
    (readBool value).map fun forbidDuplicatedAnchors => { c with forbidDuplicatedAnchors }
  else if name == "forbid-unused-anchors" then
    (readBool value).map fun forbidUnusedAnchors => { c with forbidUnusedAnchors }
  else .error (.unknown name anchorsFields)

/-- Reads the options of the anchors rule. -/
def anchors (options : Options) : Except OptionFault Anchors.Config :=
  readAll setAnchors .default options

/-- The options of the rule on repeated keys. -/
def keyDuplicatesFields : List String := ["forbid-duplicated-merge-keys"]

/-- Sets one option of the rule on repeated keys. -/
def setKeyDuplicates (c : KeyDuplicates.Config) (name : String) (value : Json) :
    Except OptionFault KeyDuplicates.Config :=
  if name == "forbid-duplicated-merge-keys" then
    (readBool value).map fun forbidMergeKeys => { c with forbidMergeKeys }
  else .error (.unknown name keyDuplicatesFields)

/-- Reads the options of the rule on repeated keys. -/
def keyDuplicates (options : Options) : Except OptionFault KeyDuplicates.Config :=
  readAll setKeyDuplicates .default options

/-! ## Levels -/

/-- The level of the given name. -/
def levelOfName (name : String) : Except OptionFault Level :=
  if name == "error" then .ok .error
  else if name == "warning" then .ok .warning
  else .error .level

/-- The level that a value names. It may stand as the only member of an object, with a null. -/
def readLevel : Json → Except OptionFault Level
  | .text name => levelOfName name
  | .object members =>
    match ofMembers members with
    | [(name, .null)] => levelOfName name
    | _ => .error .level
  | _ => .error .level

end Options

end YamlLinter
