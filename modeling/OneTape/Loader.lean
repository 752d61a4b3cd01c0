import OneTape.Files

/-!
# Loading machines

Machines are loaded from texts, from files and from directories. A directory yields the machines of
its files with the extension `tm`, sorted by name, and after them the errors of those that cannot be
loaded and of the entries that cannot be read, in the order in which the directory lists them.
-/

namespace OneTape

/-- Loads a machine from a text. -/
def loadText (description : String) : Except Error Machine :=
  if description.utf8ByteSize > maxDescriptionSize then
    .error (.file (.textSize description.utf8ByteSize))
  else
    (Description.parse description).mapError .description

/-- Loads a machine from the outcome of reading a file. -/
def loadRead (path : String) (content : Except AccessFault ByteArray) : Except Error Machine := do
  let bytes ← content.mapError fun fault => .file (.read path fault)
  if bytes.size > maxDescriptionSize then throw (.file (.size path bytes.size))
  let description ← (textOfBytes bytes).mapError fun fault => .file (.read path fault)
  (Description.parse description).mapError .description

/-- Loads a machine from a file. -/
def FileTree.loadMachine (t : FileTree) (path : String) : Except Error Machine :=
  loadRead path (t.read path)

/-! ## Directories -/

/-- The extension of a file name: what follows its last dot, unless that is its first character. -/
def extension? (name : String) : Option String :=
  let (tail, front) := name.toList.reverse.span (· ≠ '.')
  if front.length ≤ 1 then none else some (String.ofList tail.reverse)

/-- The path of an entry of a directory. -/
def entryPath (directory name : String) : String :=
  if directory.endsWith "/" then directory ++ name else directory ++ "/" ++ name

/-- Whether a name in a directory is that of a machine file. -/
def FileTree.isMachineFile (t : FileTree) (directory name : String) : Bool :=
  !t.isDirectory (entryPath directory name) && extension? name == some "tm"

/-- What an entry of a directory gives: the machine of a file, with the name and path of the file,
or an error. -/
inductive Loaded
  | machine (name path : String) (m : Machine)
  | failure (e : Error)

namespace Loaded

/-- Machines come by name and before all errors; errors keep their order. -/
def notAfter : Loaded → Loaded → Bool
  | machine a _ _, machine b _ _ => (compare a b).isLE
  | machine .., failure _ => true
  | failure _, machine .. => false
  | failure _, failure _ => true

/-- The path and the machine, or the error. -/
def outcome : Loaded → Except Error (String × Machine)
  | machine _ path m => .ok (path, m)
  | failure e => .error e

end Loaded

/-- Loads an entry of a directory, unless it is the name of something else than a machine file. -/
def FileTree.loadEntry (t : FileTree) (directory : String) :
    Except AccessFault String → Option Loaded
  | .error fault => some (.failure (.file (.readEntry fault)))
  | .ok name =>
    if t.isMachineFile directory name then
      let path := entryPath directory name
      match t.loadMachine path with
      | .ok m => some (.machine name path m)
      | .error cause => some (.failure (.load path cause))
    else
      none

/-- Loads the machine files among the entries of a directory, given in the order of the directory's
listing. -/
def FileTree.loadEntries (t : FileTree) (directory : String)
    (entries : List (Except AccessFault String)) : List (Except Error (String × Machine)) :=
  ((entries.filterMap (t.loadEntry directory)).mergeSort Loaded.notAfter).map Loaded.outcome

/-- Loads every machine file of a directory. -/
def FileTree.loadDirectory (t : FileTree) (directory : String) :
    List (Except Error (String × Machine)) :=
  if !t.reaches directory then
    [.error (.file (.noDirectory directory))]
  else
    match t.list directory with
    | .error fault => [.error (.file (.readDirectory directory fault))]
    | .ok entries => t.loadEntries directory entries

end OneTape
