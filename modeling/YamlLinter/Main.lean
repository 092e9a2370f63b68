import YamlLinter.Cli.Run

/-!
# The program

Reads what the arguments name, runs the linter, and prints what it says.
-/

namespace YamlLinter

/-- The text of some bytes. -/
def contentOfBytes (bytes : ByteArray) : Content :=
  match String.fromUTF8? bytes with
  | some text => .ok text
  | none => .error .encoding

/-- Why a file could not be read. -/
def readFaultOf : IO.Error → ReadFault
  | .noFileOrDirectory .. => .missing
  | .inappropriateType .. => .directory
  | e => .other (toString e)

/-- Reads a file. -/
def readContent (name : String) : IO Content := do
  try
    return contentOfBytes (← IO.FS.readBinFile name)
  catch e =>
    return .error (readFaultOf e)

/-- Reads the standard input to its end. -/
def readInput : IO Content := do
  return contentOfBytes (← (← IO.getStdin).readBinToEnd)

/-- Reads everything that a command may need. -/
def readWorld (command : Option Command) : IO World := do
  match command with
  | some (.run i) =>
    let names := i.inputs ++ i.configFile.toList ++ [defaultConfigFile]
    let contents ← names.mapM fun name => return (name, ← readContent name)
    let input ← if i.inputs.any isInputName then readInput else pure (.ok "")
    return { file := fun name => ((contents.find? (·.1 == name)).map (·.2)).getD (.error .missing)
             input }
  | _ => return { file := fun _ => .error .missing, input := .ok "" }

end YamlLinter

open YamlLinter in
/-- Runs the program. -/
def main (args : List String) : IO UInt32 := do
  let world ← readWorld (Command.ofArgs args)
  let outcome := run args world
  IO.print outcome.output
  match outcome.message with
  | some message => IO.eprintln message
  | none => pure ()
  return outcome.exit.toUInt32
