import OneTape.Plan

/-!
# One-tape machines

The result of a compilation is a one-tape machine whose states still say what they are for.
`Machine.flatten` compiles, and `FlatMachine.toMachine` replaces the structured states by names,
which gives a machine that can be written, run and compiled again.
-/

namespace OneTape

/-- A one-tape machine with structured states. -/
structure FlatMachine where
  name : String
  initial : State
  accept : List State
  rows : List Row
  /-- The source symbols that were escaped, with their escaped forms. -/
  escapes : List (Symbol × Symbol)
deriving DecidableEq

namespace Plan

/-- Carries a plan out. -/
def flatten (p : Plan) : Except Error FlatMachine := do
  let rows ← p.table
  return ⟨p.machine.name, p.initial, p.accept rows, rows, p.escapes⟩

end Plan

/-- Compiles a machine with several tapes to a one-tape machine. -/
def Machine.flatten (m : Machine) (c : Config) : Except Error FlatMachine := do
  (← Plan.prepare m c).flatten

namespace FlatMachine

/-- Every state of the table and the initial state, in increasing order. -/
def states (f : FlatMachine) : List State :=
  sortedSet (Table.states f.rows ++ [f.initial])

/-- The machine with its states given by name. Fails if two different states have the same name. -/
def toMachine (f : FlatMachine) : Except Error Machine := do
  let _ ← (consolidate State.name (f.states ++ f.accept)).mapError fun s => .nameClash s.name
  return ⟨f.name, f.initial.name, f.accept.map State.name, f.rows.map Row.toRule⟩

end FlatMachine
end OneTape
