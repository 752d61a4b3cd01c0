import OneTape.Error

/-!
# The catalogue of sample machines

Four machines whose descriptions come with the library. They can be looked up by index, by name
without regard to case, and by a part of the name. All names are plain letters, so case is that of
the Latin letters.
-/

namespace OneTape.Catalogue

/-- The first tape moves right and the second is overwritten in place. -/
def scenarioText : String :=
  "\n".intercalate
    ["// Tape 1 moves right, tape 2 is overwritten in place.",
      "name: Scenario",
      "init: q0",
      "accept: q0",
      "",
      "q0, a, b",
      "q0, a, c, >, -",
      ""]

/-- Copies the first tape onto the second. -/
def copyText : String :=
  "\n".intercalate
    ["// Copies tape 1 onto tape 2. Tape 2 grows by one cell per step.",
      "name: Copy",
      "init: copy",
      "accept: done",
      "",
      "copy, a, _",
      "copy, a, a, >, >",
      "",
      "copy, b, _",
      "copy, b, b, >, >",
      "",
      "copy, _, _",
      "done, _, _, -, -",
      ""]

/-- Writes the first tape in reverse onto the second. -/
def reverseText : String :=
  "\n".intercalate
    ["// Writes tape 1 reversed onto tape 2 by walking tape 2 off its left end.",
      "name: Reverse",
      "init: scan",
      "accept: done",
      "",
      "scan, a, _",
      "scan, a, a, >, <",
      "",
      "scan, b, _",
      "scan, b, b, >, <",
      "",
      "scan, _, _",
      "done, _, _, -, >",
      ""]

/-- Accepts when both tapes hold the same word. -/
def compareText : String :=
  "\n".intercalate
    ["// Accepts when both tapes hold the same word.",
      "name: Compare",
      "init: cmp",
      "accept: equal",
      "",
      "cmp, a, a",
      "cmp, a, a, >, >",
      "",
      "cmp, b, b",
      "cmp, b, b, >, >",
      "",
      "cmp, _, _",
      "equal, _, _, -, -",
      ""]

/-- The descriptions, in the order of their indices. -/
def texts : List String := [scenarioText, copyText, reverseText, compareText]

/-- The machines, in the order of their indices. -/
def machines : List Machine := texts.filterMap fun t => (Description.parse t).toOption

/-- The number of machines. -/
def count : Nat := machines.length

/-- The names of the machines. -/
def names : List String := machines.map Machine.name

/-- A machine by its index. -/
def get (index : Nat) : Except Error Machine :=
  match machines[index]? with
  | some m => .ok m
  | none => .error (.catalogue (.index index))

/-- A description by its index. -/
def text (index : Nat) : Except Error String :=
  match texts[index]? with
  | some t => .ok t
  | none => .error (.catalogue (.textIndex index))

/-- A text with its Latin letters in lower case. -/
def lower (s : String) : List Char := s.toList.map Char.toLower

/-- The first machine with a name, without regard to case. -/
def byName (name : String) : Except Error Machine :=
  match machines.find? fun m => lower m.name == lower name with
  | some m => .ok m
  | none => .error (.catalogue (.name name))

/-- Whether a text stands somewhere in another one. -/
def occursIn (part : List Char) : List Char → Bool
  | [] => part.isEmpty
  | c :: cs => part.isPrefixOf (c :: cs) || occursIn part cs

/-- The indices of the machines whose names contain a text, without regard to case. -/
def search (query : String) : List Nat :=
  (machines.zipIdx.filter fun (m, _) => occursIn (lower query) (lower m.name)).map (·.2)

/-- A summary of a machine of the catalogue. -/
structure Info where
  index : Nat
  name : String
  initial : String
  tapeCount : Nat
  stateCount : Nat
  ruleCount : Nat
deriving DecidableEq

/-- The summary of a machine by its index. -/
def info (index : Nat) : Except Error Info := do
  let m ← get index
  return ⟨index, m.name, m.initial, m.tapeCount?.getD 0, m.domainStates.length, m.rules.length⟩

end OneTape.Catalogue
