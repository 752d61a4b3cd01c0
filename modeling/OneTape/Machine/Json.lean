import OneTape.Json.Reader
import OneTape.Machine

/-!
# Machines as JSON

A machine is an object with the members `name`, `initial_state`, `accept_states` and `transitions`.
The reader ignores other members. It also takes an array of the members' values in order in place of
an object, and an object that maps the name of a direction to null in place of the name.
-/

namespace OneTape

namespace Json

/-- The text of a string. -/
def text? : Json → Option String
  | string text => text
  | _ => none

/-- The elements of an array, each read in a given way. -/
def listOf? {α : Type} (read? : Json → Option α) : Json → Option (List α)
  | array elements => elements.mapM read?
  | _ => none

/-- The value of the one member with a name. -/
def member? (members : List (Option String × Json)) (name : String) : Option Json :=
  match members.filter (·.1 == some name) with
  | [(_, value)] => some value
  | _ => none

/-- The values of the members with the given names. -/
def record? (names : List String) : Json → Option (List Json)
  | array elements => if elements.length = names.length then some elements else none
  | object members =>
    if members.all (·.1.isSome) then names.mapM (member? members) else none
  | _ => none

end Json

namespace Direction

/-- The name of a direction. -/
def word : Direction → String
  | left => "Left"
  | right => "Right"
  | stay => "Stay"

/-- Reads the name of a direction. -/
def ofWord? (word : String) : Option Direction :=
  [left, right, stay].find? (·.word == word)

/-- Reads a direction. -/
def ofJson? : Json → Option Direction
  | .string (some word) => ofWord? word
  | .object [(some word, .null)] => ofWord? word
  | _ => none

end Direction

/-- Reads a symbol. -/
def Symbol.ofJson? (j : Json) : Option Symbol := j.text?.map Symbol.mk

namespace Rule

/-- The names of a rule's members. -/
def members : List String := ["state", "read", "next_state", "write", "directions"]

/-- A rule as a JSON value. -/
def toJson (r : Rule) : Json :=
  let symbols (ss : List Symbol) := Json.array (ss.map fun s => .string (some s.text))
  .object [(some "state", .string (some r.state)), (some "read", symbols r.read),
    (some "next_state", .string (some r.next)), (some "write", symbols r.write),
    (some "directions", .array (r.moves.map fun d => .string (some d.word)))]

/-- Reads a rule. -/
def ofJson? (j : Json) : Option Rule := do
  match ← j.record? members with
  | [state, read, next, write, moves] =>
    return {
      state := ← state.text?
      read := ← read.listOf? Symbol.ofJson?
      next := ← next.text?
      write := ← write.listOf? Symbol.ofJson?
      moves := ← moves.listOf? Direction.ofJson? }
  | _ => none

end Rule

namespace Machine

/-- The names of a machine's members. -/
def members : List String := ["name", "initial_state", "accept_states", "transitions"]

/-- A machine as a JSON value. -/
def toJson (m : Machine) : Json :=
  .object [(some "name", .string (some m.name)),
    (some "initial_state", .string (some m.initial)),
    (some "accept_states", .array (m.accept.map fun s => .string (some s))),
    (some "transitions", .array (m.rules.map Rule.toJson))]

/-- Reads a machine. -/
def ofJson? (j : Json) : Option Machine := do
  match ← j.record? members with
  | [name, initial, accept, rules] =>
    return {
      name := ← name.text?
      initial := ← initial.text?
      accept := ← accept.listOf? Json.text?
      rules := ← rules.listOf? Rule.ofJson? }
  | _ => none

/-- Reads a machine from a JSON text. -/
def ofJsonText? (s : String) : Option Machine := (Json.parse? s).bind ofJson?

end Machine
end OneTape
