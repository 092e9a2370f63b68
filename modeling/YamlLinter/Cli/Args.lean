import YamlLinter.Report.Format

/-!
# Arguments

Options and files may stand in any order and are read from left to right. Short flags can be joined,
the value of an option stands in the same argument or in the next, and behind `--` everything is a
file. Help and version win over everything behind them.

## Contents

* `Invocation`: what the linter is asked to do;
* `Command`: an invocation, or a text to print;
* `Command.ofArgs`: the command that arguments give, none for a usage error.
-/

namespace YamlLinter

/-- What the linter is asked to do. -/
structure Invocation where
  files : List String
  configFile : Option String
  configData : Option String
  format : Option Format
  strict : Bool
  noWarnings : Bool
  deriving Repr, DecidableEq, Inhabited

/-- What the arguments ask for. -/
inductive Command where
  | run (invocation : Invocation)
  | shortHelp
  | longHelp
  | version
  deriving Repr, DecidableEq, Inhabited

/-- An option that takes a value. -/
inductive Valued where
  | configFile
  | configData
  | format
  deriving Repr, DecidableEq, Inhabited

/-- An option without a value. -/
inductive Flag where
  | strict
  | noWarnings
  | verbose
  deriving Repr, DecidableEq, Inhabited

/-- What the name of an option stands for. -/
inductive Switch where
  | valued (v : Valued)
  | flag (f : Flag)
  | print (c : Command)
  deriving Repr, DecidableEq, Inhabited

namespace Switch

/-- The option with the given letter. -/
def ofLetter : Char → Option Switch
  | 'c' => some (.valued .configFile)
  | 'd' => some (.valued .configData)
  | 'f' => some (.valued .format)
  | 's' => some (.flag .strict)
  | 'v' => some (.flag .verbose)
  | 'h' => some (.print .shortHelp)
  | 'V' => some (.print .version)
  | _ => none

/-- The option with the given long name. -/
def ofName (name : String) : Option Switch :=
  if name == "config-file" then some (.valued .configFile)
  else if name == "config-data" then some (.valued .configData)
  else if name == "format" then some (.valued .format)
  else if name == "strict" then some (.flag .strict)
  else if name == "no-warnings" then some (.flag .noWarnings)
  else if name == "verbose" then some (.flag .verbose)
  else if name == "help" then some (.print .longHelp)
  else if name == "version" then some (.print .version)
  else none

end Switch

namespace Invocation

/-- Nothing has been asked for yet. -/
def empty : Invocation := ⟨[], none, none, none, false, false⟩

/-- Adds a file. Its name is not empty. -/
def addFile (i : Invocation) (name : String) : Option Invocation :=
  if name.isEmpty then none else some { i with files := i.files ++ [name] }

/-- Sets an option that takes a value. It is given once, and the value must make sense. -/
def setValue (i : Invocation) (v : Valued) (value : String) : Option Invocation :=
  match v with
  | .configFile =>
    if i.configFile.isSome || value.isEmpty then none else some { i with configFile := some value }
  | .configData =>
    if i.configData.isSome then none else some { i with configData := some value }
  | .format =>
    if i.format.isSome then none
    else (Format.ofName value).map fun format => { i with format := some format }

/-- Sets a flag. All but `verbose` are given once. -/
def setFlag (i : Invocation) (f : Flag) : Option Invocation :=
  match f with
  | .strict => if i.strict then none else some { i with strict := true }
  | .noWarnings => if i.noWarnings then none else some { i with noWarnings := true }
  | .verbose => some i

end Invocation

/-- What reading one argument leads to. -/
inductive ArgStep where
  /-- The argument has been read. -/
  | go (i : Invocation)
  /-- The next argument is the value of an option. -/
  | await (v : Valued) (i : Invocation)
  /-- The text to print is known. -/
  | stop (c : Command)
  | usage
  deriving Repr, DecidableEq, Inhabited

namespace ArgStep

/-- Goes on if there is something to go on with. -/
def ofOption : Option Invocation → ArgStep
  | some i => .go i
  | none => .usage

/-- The value that stands behind the letter of an option in the same argument: a `=` may divide
them. -/
def attached : List Char → String
  | '=' :: rest => String.ofList rest
  | rest => String.ofList rest

/-- Reads joined letters. -/
def ofLetters (i : Invocation) : List Char → ArgStep
  | [] => .go i
  | c :: cs =>
    match Switch.ofLetter c with
    | none => .usage
    | some (.print command) => .stop command
    | some (.flag f) =>
      match i.setFlag f with
      | none => .usage
      | some i' => ofLetters i' cs
    | some (.valued v) =>
      if cs.isEmpty then .await v i else .ofOption (i.setValue v (attached cs))

/-- Reads a long option, with its value behind a `=` if it has one. -/
def ofLong (i : Invocation) (cs : List Char) : ArgStep :=
  let name := String.ofList (cs.takeWhile (· != '='))
  match Switch.ofName name, cs.dropWhile (· != '=') with
  | none, _ => .usage
  | some (.print command), [] => .stop command
  | some (.flag f), [] => .ofOption (i.setFlag f)
  | some (.valued v), [] => .await v i
  | some (.valued v), _ :: value => .ofOption (i.setValue v (String.ofList value))
  | some _, _ :: _ => .usage

/-- Reads one argument in front of `--`. -/
def ofArg (i : Invocation) (arg : String) : ArgStep :=
  match arg.toList with
  | '-' :: '-' :: cs => ofLong i cs
  | '-' :: c :: cs => ofLetters i (c :: cs)
  | _ => .ofOption (i.addFile arg)

end ArgStep

namespace Command

/-- The command of an invocation. A file and a text cannot both configure it. -/
def ofInvocation (i : Invocation) : Option Command :=
  if i.configFile.isSome && i.configData.isSome then none else some (.run i)

/-- Takes all arguments as files. -/
def ofFiles (i : Invocation) : List String → Option Command
  | [] => ofInvocation i
  | name :: names =>
    match i.addFile name with
    | none => none
    | some i' => ofFiles i' names

/-- Whether an argument can be the value of the option before it. -/
def isValue (arg : String) : Bool := arg == "-" || arg.toList.head? != some '-'

/-- Reads arguments from left to right. -/
def ofArgsFrom (i : Invocation) : List String → Option Command
  | [] => ofInvocation i
  | arg :: args =>
    if arg == "--" then ofFiles i args
    else
      match ArgStep.ofArg i arg with
      | .usage => none
      | .stop command => some command
      | .go i' => ofArgsFrom i' args
      | .await v i' =>
        match args with
        | [] => none
        | value :: args' =>
          if isValue value then
            match i'.setValue v value with
            | none => none
            | some i'' => ofArgsFrom i'' args'
          else
            none

/-- The command that arguments give. -/
def ofArgs (args : List String) : Option Command := ofArgsFrom .empty args

end Command

end YamlLinter
