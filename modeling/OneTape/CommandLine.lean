import OneTape.Catalogue
import OneTape.CommandLine.Options
import OneTape.Config.Reader
import OneTape.Description.Writer
import OneTape.FlatMachine
import OneTape.Loader
import OneTape.Log
import OneTape.Machine.Json

/-!
# The command

The command loads a machine from a file, from the catalogue or from its input, compiles it and
writes the one-tape machine to a file or to its output. `compile` does everything up to the text to
be written, given a way to read files; `run` also writes, on a directory tree that is a value.
-/

namespace OneTape.CommandLine

/-- A way to read files. -/
abbrev ReadFile := String → Except AccessFault ByteArray

/-- Loads the machine that the options ask for. -/
def loadMachine (o : Options) (read : ReadFile) (input : ByteArray) : Except Error Machine :=
  match o.file, o.sample with
  | some path, _ => loadRead path (read path)
  | none, some name => Catalogue.byName name
  | none, none => do
    loadText (← (textOfBytes input).mapError fun fault => .file (.readInput fault))

/-- Loads settings from a file. -/
def loadConfig (path : String) (read : ReadFile) : Except Error Config := do
  let bytes ← (read path).mapError fun fault => .file (.readConfig path fault)
  let text ← (textOfBytes bytes).mapError fun fault => .file (.readConfig path fault)
  (Config.parse text).mapError .config

/-- The settings that the options ask for. -/
def settings (o : Options) (read : ReadFile) : Except Error Config := do
  let base ← match o.config with
    | some path => loadConfig path read
    | none => pure {}
  let c := o.override base
  c.validate.mapError .config
  return c

/-- The text of a one-tape machine. -/
def render (format : Format) (m : Machine) : String :=
  match format with
  | .text => Description.write m
  | .json => m.toJson.print

/-- Compiles what the options ask for. -/
def compile (o : Options) (read : ReadFile) (input : ByteArray) : Except Error String := do
  let m ← loadMachine o read input
  let c ← settings o read
  let flat ← m.flatten c
  let result ← flat.toMachine
  return render (o.format.getD .text) result

/-- The events that are shown while the command works: all of them if the options ask for it, and
otherwise the warnings. -/
def shownEvents (o : Options) (read : ReadFile) (input : ByteArray) : List Event :=
  match loadMachine o read input, settings o read with
  | .ok m, .ok c => (m.flattenLog c).filter fun e => o.verbose || e.level == .warn
  | _, _ => []

/-- What a run of the command leaves behind. -/
structure Result where
  /-- The exit code: zero for success, one for an error, two for wrong arguments. -/
  exit : Nat
  output : String := ""
  errorOutput : String := ""
  files : FileTree

/-- What the command says about an error. -/
def errorLine (e : Error) : String := "Error: " ++ e.message ++ "\n"

/-- Runs the command with its arguments and its input on a directory tree. -/
def run (args : List String) (input : ByteArray) (files : FileTree) : Result :=
  match Options.ofArgs? args with
  | none => { exit := 2, files }
  | some o =>
    match compile o files.read input with
    | .error e => { exit := 1, errorOutput := errorLine e, files }
    | .ok text =>
      match o.output with
      | none => { exit := 0, output := text, files }
      | some path =>
        match files.write path text.toUTF8 with
        | .ok files => { exit := 0, files }
        | .error fault => { exit := 1, errorOutput := errorLine (.file (.write path fault)), files }

end OneTape.CommandLine
