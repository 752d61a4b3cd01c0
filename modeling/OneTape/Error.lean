import OneTape.Config
import OneTape.Description.Reader
import OneTape.Tapes.Layout

/-!
# Errors

Every operation that can fail has a type of causes. `Error` is their sum, with the wording that a
user sees: a label that tells the kind of error, and the cause.
-/

namespace OneTape

/-- Why a name or an index finds nothing in the catalogue of sample machines. -/
inductive CatalogueFault
  | name (wanted : String)
  | index (n : Nat)
  | textIndex (n : Nat)
deriving DecidableEq

/-- The wording of a fault. -/
def CatalogueFault.message : CatalogueFault → String
  | name wanted => "Machine '" ++ wanted ++ "' not found"
  | index n => "Machine index " ++ n.repr ++ " out of range"
  | textIndex n => "Machine text index " ++ n.repr ++ " out of range"

/-- Why a file or directory cannot be used. -/
inductive AccessFault
  | notFound
  | notDirectory
  | isDirectory
  /-- A path or a step of it has too many bytes. -/
  | nameTooLong
  /-- A path holds the character that ends names in the system. -/
  | nullInName
  /-- The bytes are not the encoding of a text. -/
  | notText
  /-- A fault outside the model, in the words of the system. -/
  | other (words : String)
deriving DecidableEq

/-- The wording of a fault. -/
def AccessFault.message : AccessFault → String
  | notFound => "No such file or directory (os error 2)"
  | notDirectory => "Not a directory (os error 20)"
  | isDirectory => "Is a directory (os error 21)"
  | nameTooLong => "File name too long (os error 36)"
  | nullInName => "file name contained an unexpected NUL byte"
  | notText => "stream did not contain valid UTF-8"
  | other words => words

/-- The largest size of a machine description, in bytes. -/
def maxDescriptionSize : Nat := 1048576

/-- What went wrong with a file. -/
inductive FileFault
  | read (path : String) (fault : AccessFault)
  | size (path : String) (bytes : Nat)
  | textSize (bytes : Nat)
  | noDirectory (path : String)
  | readDirectory (path : String) (fault : AccessFault)
  | readEntry (fault : AccessFault)
  | readConfig (path : String) (fault : AccessFault)
  | readInput (fault : AccessFault)
  | write (path : String) (fault : AccessFault)
deriving DecidableEq

/-- The wording of a fault. -/
def FileFault.message : FileFault → String
  | read path fault => "Failed to read file " ++ path ++ ": " ++ fault.message
  | size path bytes =>
    "File " ++ path ++ " is " ++ bytes.repr ++ " bytes, the limit is " ++ maxDescriptionSize.repr
  | textSize bytes =>
    "Machine description is " ++ bytes.repr ++ " bytes, the limit is " ++ maxDescriptionSize.repr
  | noDirectory path => "Directory " ++ path ++ " does not exist"
  | readDirectory path fault => "Failed to read directory " ++ path ++ ": " ++ fault.message
  | readEntry fault => "Failed to read directory entry: " ++ fault.message
  | readConfig path fault => "Failed to read config " ++ path ++ ": " ++ fault.message
  | readInput fault => "Failed to read from stdin: " ++ fault.message
  | write path fault => "Failed to write " ++ path ++ ": " ++ fault.message

/-- Any error. -/
inductive Error
  | description (cause : DescriptionError)
  | machine (finding : Finding)
  | layout (cause : LayoutError)
  | catalogue (fault : CatalogueFault)
  | file (fault : FileFault)
  /-- A machine file of a directory could not be loaded. -/
  | load (path : String) (cause : Error)
  | config (cause : ConfigError)
  /-- Two generated rows disagree. -/
  | conflict (cause : RowConflict)
  /-- A state has no rule for a tuple of symbols. -/
  | uncovered (state : String) (symbols : List Symbol)
  /-- A generated row overwrites a boundary. -/
  | edgeWrite (cause : EdgeWrite)
  /-- Two different states of a table have the same name. -/
  | nameClash (name : String)
deriving DecidableEq

namespace Error

/-- The kinds of error. -/
inductive Kind
  | malformed
  | invalid
  | file
  | config
  | conflict
  | uncovered
  | edgeWrite
  | nameClash
deriving DecidableEq

/-- The kind of an error. -/
def kind : Error → Kind
  | description (.malformed _) => .malformed
  | description _ | machine _ | layout _ | catalogue _ => .invalid
  | file _ | load .. => .file
  | config _ => .config
  | conflict _ => .conflict
  | uncovered .. => .uncovered
  | edgeWrite _ => .edgeWrite
  | nameClash _ => .nameClash

/-- The wording of an error. -/
def message : Error → String
  | description (.malformed report) => "Machine parsing error: " ++ report.render
  | description .missingName => "Machine validation error: Missing 'name' header"
  | description .missingInit => "Machine validation error: Missing 'init' header"
  | description .emptyName => "Machine validation error: Machine name must not be empty"
  | description (.machine finding) | machine finding =>
    "Machine validation error: " ++ finding.message
  | layout cause => "Machine validation error: " ++ cause.message
  | catalogue fault => "Machine validation error: " ++ fault.message
  | file fault => "File error: " ++ fault.message
  | load path cause => "File error: Failed to load machine from " ++ path ++ ": " ++ cause.message
  | config cause => "Configuration error: " ++ cause.message
  | conflict cause =>
    "Determinism violation: state " ++ cause.state.name ++ " has conflicting rules for symbol "
      ++ cause.symbol.text
  | uncovered state symbols =>
    "State " ++ state ++ " has no rule for symbols " ++ Symbol.quotedList symbols
  | edgeWrite cause =>
    "Unsupported tape extension: state " ++ cause.state.name ++ " still writes "
      ++ cause.write.text ++ " over a tape boundary"
  | nameClash name => "State name collision: two different states render as " ++ name

end Error
end OneTape
