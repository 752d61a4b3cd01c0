import OneTape.Machine

/-!
# Writing descriptions

A machine is written as its three headers and, behind an empty line each, the domain line and the
range line of every rule. Head moves are written with their signs.
-/

namespace OneTape.Description

/-- Texts separated by a comma and a blank. -/
def commaSeparated (parts : List String) : String := ", ".intercalate parts

/-- The lines of a rule, with the empty line in front. -/
def writeRule (r : Rule) : String :=
  "\n" ++ r.state ++ ", " ++ commaSeparated (r.read.map Symbol.text) ++ "\n"
    ++ r.next ++ ", " ++ commaSeparated (r.write.map Symbol.text) ++ ", "
    ++ commaSeparated (r.moves.map Direction.token) ++ "\n"

/-- The description of a machine. -/
def write (m : Machine) : String :=
  "name: " ++ m.name ++ "\ninit: " ++ m.initial ++ "\naccept: " ++ commaSeparated m.accept ++ "\n"
    ++ String.join (m.rules.map writeRule)

end OneTape.Description
