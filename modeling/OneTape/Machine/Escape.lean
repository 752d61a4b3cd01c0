import OneTape.Machine
import OneTape.Ordered

/-!
# Escaping the symbols of a machine

Before a machine is compiled, the symbols that a one-tape machine uses for its own purposes are
escaped in every rule. States and moves stay as they are.
-/

namespace OneTape

/-- A rule with its symbols escaped. -/
def Rule.escape (r : Rule) (iteration : Nat) : Rule :=
  { r with
    read := r.read.map (·.escape iteration)
    write := r.write.map (·.escape iteration) }

namespace Machine

/-- A machine with its symbols escaped. -/
def escape (m : Machine) (iteration : Nat) : Machine :=
  { m with rules := m.rules.map (·.escape iteration) }

/-- The symbols of a machine that are escaped, with their escaped forms, in increasing order. -/
def escapes (m : Machine) (iteration : Nat) : List (Symbol × Symbol) :=
  (sortedSet (m.symbols.filter (·.needsEscape iteration))).map fun s => (s, s.escape iteration)

end Machine
end OneTape
