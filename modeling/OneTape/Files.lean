import OneTape.Error

/-!
# File trees

A directory tree as a value: the files with their bytes and the directories, each by the names on
the way to it from the working directory. Paths are texts and are followed step by step, so that a
path through a file or through a missing directory fails as the system says.

Names are texts. A system may know names that are no encoding of a text; a tree cannot hold them.
-/

namespace OneTape

/-- A directory tree. The working directory, with no names on the way to it, is always there. -/
structure FileTree where
  files : List (List String × ByteArray) := []
  directories : List (List String) := []
  /-- The faults that stand in listings in place of a name, each with the place of the directory. -/
  faults : List (List String × AccessFault) := []

namespace FileTree

/-- What stands at a place of the tree. -/
inductive Entry
  | file (bytes : ByteArray)
  | directory
  | missing

/-- The place of the directory above the working directory. It is a directory in which nothing is
known to stand. -/
def outside : List String := [".."]

/-- The place of the directory that a place lies in. -/
def parent (place : List String) : List String :=
  if place.isEmpty || place == outside then outside else place.dropLast

/-- What stands at a place. -/
def entry (t : FileTree) (place : List String) : Entry :=
  if place.isEmpty || place == outside || t.directories.contains place then .directory
  else
    match t.files.find? (·.1 == place) with
    | some (_, bytes) => .file bytes
    | none => .missing

/-- The steps of a path. -/
def steps (path : String) : List String :=
  let rec split : List Char → List Char → List String
    | [], step => [String.ofList step.reverse]
    | c :: cs, step =>
      if c = '/' then String.ofList step.reverse :: split cs [] else split cs (c :: step)
  split path.toList []

/-- The largest size of a step, in bytes. -/
def maxStepSize : Nat := 255

/-- The largest size of a path, in bytes. -/
def maxPathSize : Nat := 4095

/-- Follows steps from a directory. What the last step leads to need not exist, but everything
before it must be a directory. -/
def follow (t : FileTree) (place : List String) : List String → Except AccessFault (List String)
  | [] => .ok place
  | step :: more =>
    if step = "" || step = "." then t.follow place more
    else if step = ".." then t.follow (parent place) more
    else if step.utf8ByteSize > maxStepSize then .error .nameTooLong
    else
      let next := place ++ [step]
      if more.isEmpty then .ok next
      else
        match t.entry next with
        | .directory => t.follow next more
        | .file _ => .error .notDirectory
        | .missing => .error .notFound

/-- The steps of a path that the system accepts. The empty path leads nowhere. -/
def checkedSteps (path : String) : Except AccessFault (List String) :=
  if path.toList.contains '\x00' then .error .nullInName
  else if path.isEmpty then .error .notFound
  else if path.utf8ByteSize > maxPathSize then .error .nameTooLong
  else .ok (steps path)

/-- The place a path leads to. -/
def locate (t : FileTree) (path : String) : Except AccessFault (List String) := do
  t.follow [] (← checkedSteps path)

/-- The bytes of a file. -/
def read (t : FileTree) (path : String) : Except AccessFault ByteArray := do
  match t.entry (← t.locate path) with
  | .file bytes => return bytes
  | .directory => throw .isDirectory
  | .missing => throw .notFound

/-- The steps of a path up to the slash at its end, if there is one: all but the last, which stays
in the directory reached. -/
def beforeSlash? (steps : List String) : Option (List String) :=
  match steps.reverse with
  | "" :: before => some ((before.dropWhile (· = "")).drop 1).reverse
  | _ => none

/-- Writes a file, in place of an older one. A path that ends in a slash is that of a directory, so
nothing is written there, whatever its last step. -/
def write (t : FileTree) (path : String) (bytes : ByteArray) : Except AccessFault FileTree := do
  let steps ← checkedSteps path
  if let some before := beforeSlash? steps then
    let _ ← t.follow [] (before ++ ["."])
    throw .isDirectory
  let place ← t.follow [] steps
  match t.entry place with
  | .directory => throw .isDirectory
  | _ => return { t with files := (place, bytes) :: t.files.filter (·.1 != place) }

/-- The entries of a directory: the names in it, and a fault for each entry that cannot be read. -/
def list (t : FileTree) (path : String) :
    Except AccessFault (List (Except AccessFault String)) := do
  let place ← t.locate path
  match t.entry place with
  | .directory =>
    let names := (t.files.map (·.1) ++ t.directories).filterMap fun names =>
      if names.dropLast == place then names.getLast? else none
    let faults := t.faults.filterMap fun (directory, fault) =>
      if directory == place then some fault else none
    return names.map .ok ++ faults.map .error
  | .file _ => throw .notDirectory
  | .missing => throw .notFound

/-- Whether a path leads to something. -/
def reaches (t : FileTree) (path : String) : Bool :=
  match t.locate path with
  | .ok place =>
    match t.entry place with
    | .missing => false
    | _ => true
  | .error _ => false

/-- Whether a path leads to a directory. -/
def isDirectory (t : FileTree) (path : String) : Bool :=
  match t.locate path with
  | .ok place =>
    match t.entry place with
    | .directory => true
    | _ => false
  | .error _ => false

/-- Adds a directory with the directories on the way to it. -/
def addDirectory (t : FileTree) (names : List String) : FileTree :=
  let onTheWay := (List.range names.length).map fun n => names.take (n + 1)
  let add (all : List (List String)) (d : List String) := if all.contains d then all else all ++ [d]
  { t with directories := onTheWay.foldl add t.directories }

/-- Adds a file with the directories on the way to it. -/
def addFile (t : FileTree) (names : List String) (bytes : ByteArray) : FileTree :=
  let t := t.addDirectory names.dropLast
  { t with files := (t.files.filter (·.1 != names)) ++ [(names, bytes)] }

/-- The names on the way of a plain path. -/
def names (path : String) : List String := (steps path).filter fun s => s != "" && s != "."

end FileTree

/-- The text that bytes encode. -/
def textOfBytes (bytes : ByteArray) : Except AccessFault String :=
  match String.fromUTF8? bytes with
  | some s => .ok s
  | none => .error .notText

end OneTape
