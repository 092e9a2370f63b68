import YamlLinter.Cli.Args
import YamlLinter.Cli.Help
import YamlLinter.Config

/-!
# Running the linter

The linter reads its configuration, then the files one after the other. What has been printed before
a failure stays.

## Contents

* `Content`, `World`: what can be read;
* `Failure`: what can go wrong, and its wording;
* `Invocation.config`: the configuration in force;
* `Invocation.reports`: the problems of the files;
* `run`: what the program prints and its exit code.
-/

namespace YamlLinter

/-- Why a file cannot be read. -/
inductive ReadFault where
  | missing
  | directory
  /-- The bytes are no UTF-8. -/
  | encoding
  /-- Any other reason. -/
  | other (reason : String)
  deriving Repr, DecidableEq, Inhabited

/-- The wording of a fault. -/
def ReadFault.message : ReadFault → String
  | missing => "No such file or directory (os error 2)"
  | directory => "Is a directory (os error 21)"
  | encoding => "stream did not contain valid UTF-8"
  | other reason => reason

/-- What reading a file gives. -/
abbrev Content := Except ReadFault String

/-- What the program can read. -/
structure World where
  /-- The content of the file of a name. -/
  file : String → Content
  /-- The standard input. -/
  input : Content

/-- Whether a name is that of a file. -/
def World.isFile (w : World) (name : String) : Bool :=
  match w.file name with
  | .ok _ | .error .encoding | .error (.other _) => true
  | .error .missing | .error .directory => false

/-- What can go wrong. -/
inductive Failure where
  /-- A file that cannot be read. -/
  | file (name : String) (fault : ReadFault)
  /-- A standard input that cannot be read. -/
  | input (fault : ReadFault)
  /-- A configuration file that cannot be read. -/
  | configFile (name : String) (fault : ReadFault)
  /-- A configuration that is wrong. -/
  | config (error : ConfigError)
  deriving Repr, Inhabited

/-- The wording of a failure. -/
def Failure.message : Failure → String
  | file name fault => "yamlstyle: cannot read " ++ name ++ ": " ++ fault.message
  | input fault => "yamlstyle: cannot read standard input: " ++ fault.message
  | configFile name fault =>
    "yamlstyle: cannot read config file " ++ name ++ ": " ++ fault.message ++ ": " ++ fault.message
  | config error => "yamlstyle: " ++ error.message

/-- What a program prints, and its exit code. -/
structure Outcome where
  exit : Nat
  output : String
  /-- What it prints to the standard error. -/
  message : Option String
  deriving Repr, DecidableEq, Inhabited

/-- The exit code for arguments that make no sense, and for failures. -/
def failureCode : Nat := 255

/-- The configuration file that is used when none is given. -/
def defaultConfigFile : String := ".yamlstyle.json"

/-- Whether a file name stands for the standard input: a `-`, with nothing behind it but separators
and dots between them. -/
def isInputName (name : String) : Bool :=
  match name.splitOn "/" with
  | first :: rest => first == "-" && rest.all fun part => part.isEmpty || part == "."
  | [] => false

namespace Invocation

/-- The configuration of a file. -/
def configOfFile (w : World) (name : String) : Except Failure LintConfig :=
  match w.file name with
  | .error fault => .error (.configFile name fault)
  | .ok text =>
    match LintConfig.ofText text with
    | .error e => .error (.config e)
    | .ok config => .ok config

/-- The configuration in force: that of the arguments, that of the default file, or the default. -/
def config (i : Invocation) (w : World) : Except Failure LintConfig :=
  match i.configData, i.configFile with
  | some text, _ =>
    match LintConfig.ofText text with
    | .error e => .error (.config e)
    | .ok config => .ok config
  | none, some name => configOfFile w name
  | none, none =>
    if w.isFile defaultConfigFile then configOfFile w defaultConfigFile else .ok .default

/-- The linter of an invocation. -/
def linter (i : Invocation) (w : World) : Except Failure Linter :=
  match i.config w with
  | .error e => .error e
  | .ok config =>
    match Linter.ofConfig config with
    | .error e => .error (.config e)
    | .ok linter => .ok linter

/-- The files to check; without any, the standard input. -/
def inputs (i : Invocation) : List String := if i.files.isEmpty then ["-"] else i.files

/-- The problems of a source that are shown. -/
def shown (i : Invocation) (l : Linter) (source : String) : List Problem :=
  let problems := l.lint source
  if i.noWarnings then problems.filter (·.level == .error) else problems

/-- The reports on files up to the first that cannot be read. The standard input is empty when it is
read again. -/
def reports (i : Invocation) (l : Linter) (w : World) : List String →
    List FileReport × Option Failure
  | [] => ([], none)
  | name :: names =>
    if isInputName name then
      match w.input with
      | .error fault => ([], some (.input fault))
      | .ok source =>
        let (rest, failure) := i.reports l { w with input := .ok "" } names
        (⟨"stdin", source, i.shown l source⟩ :: rest, failure)
    else
      match w.file name with
      | .error fault => ([], some (.file name fault))
      | .ok source =>
        let (rest, failure) := i.reports l w names
        (⟨name, source, i.shown l source⟩ :: rest, failure)

/-- The exit code for what has been found: 1 for errors, 2 for warnings if those count, else 0. -/
def exitCode (i : Invocation) (rs : List FileReport) : Nat :=
  let problems := rs.flatMap FileReport.problems
  if problems.any (·.level == .error) then 1
  else if i.strict && !problems.isEmpty then 2
  else 0

/-- Runs the linter. -/
def run (i : Invocation) (w : World) : Outcome :=
  match i.linter w with
  | .error e => ⟨failureCode, "", some e.message⟩
  | .ok linter =>
    let format := i.format.getD .standard
    match i.reports linter w i.inputs with
    | (rs, some e) => ⟨failureCode, format.files rs, some e.message⟩
    | (rs, none) => ⟨i.exitCode rs, format.render rs, none⟩

end Invocation

/-- Runs the program with arguments. -/
def run (args : List String) (w : World) : Outcome :=
  match Command.ofArgs args with
  | none => ⟨failureCode, "", none⟩
  | some .shortHelp => ⟨0, shortHelpText, none⟩
  | some .longHelp => ⟨0, longHelpText, none⟩
  | some .version => ⟨0, versionText, none⟩
  | some (.run i) => i.run w

end YamlLinter
