import OneTape.CommandLine

/-!
# The executable

Reads the files that the options name and the input, runs the compilation, and writes the result.
-/

namespace OneTape

open CommandLine

/-- The fault behind a failed access to a file. -/
def accessFault : IO.Error → AccessFault
  | .noFileOrDirectory .. => .notFound
  | .inappropriateType _ 20 _ => .notDirectory
  | .inappropriateType _ 21 _ => .isDirectory
  | .invalidArgument _ 36 _ => .nameTooLong
  | e => .other (toString e)

/-- Reads a file. -/
def readBytes (path : String) : IO (Except AccessFault ByteArray) := do
  try
    return .ok (← IO.FS.readBinFile path)
  catch e =>
    return .error (accessFault e)

/-- Reads the input to its end. -/
def readInput : IO ByteArray := do
  (← IO.getStdin).readBinToEnd

/-- Writes a result where the options ask for it. -/
def deliver (o : Options) (text : String) : IO UInt32 := do
  match o.output with
  | none =>
    IO.print text
    return 0
  | some path =>
    try
      IO.FS.writeFile path text
      return 0
    catch e =>
      IO.eprint (errorLine (.file (.write path (accessFault e))))
      return 1

/-- Runs the command. -/
def execute (args : List String) : IO UInt32 := do
  match Options.ofArgs? args with
  | none =>
    IO.eprintln "error: invalid arguments"
    return 2
  | some o =>
    let paths := (o.file.toList ++ o.config.toList)
    let contents ← paths.mapM fun path => return (path, ← readBytes path)
    let input ← if o.file.isNone && o.sample.isNone then readInput else pure ByteArray.empty
    let read : ReadFile := fun path => (contents.lookup path).getD (.error .notFound)
    for event in shownEvents o read input do
      IO.eprintln event.message
    match compile o read input with
    | .error e =>
      IO.eprint (errorLine e)
      return 1
    | .ok text => deliver o text

end OneTape

/-- The entry point of the command. -/
def main (args : List String) : IO UInt32 := OneTape.execute args
