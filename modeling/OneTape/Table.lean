import OneTape.Consolidate
import OneTape.Machine
import OneTape.Ordered
import OneTape.State

/-!
# Tables of the one-tape machine

A table is a list of rows over structured states. Rows come from several families (discovery,
execution, extension, injection), so a table may repeat rows; `assemble` removes the repetitions
and refuses two different rows for the same state and symbol.
-/

namespace OneTape

/-- One row: in a state, reading a symbol, the machine goes to a state, writes a symbol and
moves. -/
structure Row where
  state : State
  read : Symbol
  next : State
  write : Symbol
  move : Direction
deriving DecidableEq, Hashable, Inhabited

namespace Row

/-- The state and symbol on which a row applies. -/
def domain (r : Row) : State × Symbol := (r.state, r.read)

/-- The row as a rule of a machine with one tape, its states given by name. -/
def toRule (r : Row) : Rule :=
  ⟨r.state.name, [r.read], r.next.name, [r.write], [r.move]⟩

end Row

/-- Two different rows apply on the same state and symbol. -/
structure RowConflict where
  state : State
  symbol : Symbol
deriving DecidableEq

namespace Table

/-- Keeps the first of each group of equal rows, in order. Fails on the first row that differs from
an earlier row with the same state and symbol. -/
def assemble (rows : List Row) : Except RowConflict (List Row) :=
  (consolidate Row.domain rows).mapError fun r => ⟨r.state, r.read⟩

/-- Every state that occurs in a list of rows, in the order of the rows. -/
def states (rows : List Row) : List State := rows.flatMap fun r => [r.state, r.next]

end Table
end OneTape
