import OneTape.Machine
import OneTape.Ordered

/-!
# Alphabets

The symbols a one-tape machine works with. They are derived once per machine: the symbols of the
virtual tapes, the same with the boundary, and these again with their markers.
-/

namespace OneTape

/-- The symbols of the virtual tapes, and the iteration whose markers show their heads. -/
structure Alphabet where
  iteration : Nat
  /-- The symbols of the virtual tapes, blank included. -/
  symbols : List Symbol
deriving DecidableEq, Inhabited

namespace Alphabet

/-- The symbols of a machine's rules and the blank, in increasing order. -/
def ofMachine (m : Machine) (iteration : Nat) : Alphabet :=
  ⟨iteration, sortedSet (Symbol.blank :: m.symbols)⟩

variable (a : Alphabet)

/-- Every symbol that stands on the single tape without a head on it. -/
def unmarked : List Symbol := a.symbols ++ [Symbol.boundary]

/-- The marker of a symbol. -/
def marker (s : Symbol) : Symbol := s.marker a.iteration

/-- The marker of the blank. -/
def blankMarker : Symbol := a.marker Symbol.blank

/-- The marker of the boundary. -/
def boundaryMarker : Symbol := a.marker Symbol.boundary

/-- The unmarked symbols followed by their markers. -/
def library : List Symbol := a.unmarked ++ a.unmarked.map a.marker

end Alphabet
end OneTape
