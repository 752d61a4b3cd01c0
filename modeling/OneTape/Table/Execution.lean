import OneTape.Table.Discovery

/-!
# Execution: the sweep to the left

A determined state knows the rule to apply. The one-tape machine sweeps left from the last virtual
head to the first, applies the write and the move of each head, and then enters discovery for the
rule's next state.
-/

namespace OneTape.Table

/-- What a determined state does at one head. Heads count from one. -/
structure HeadAction where
  head : Nat
  /-- The marker under the head. -/
  marker : Symbol
  write : Symbol
  move : Direction
deriving DecidableEq

namespace Determined

/-- The actions of a determined state, from the last head to the first. -/
def actions (d : Determined) : List HeadAction :=
  ((d.state.heads.zip (d.rule.write.zip d.rule.moves)).zipIdx 1).reverse.map
    fun ((marker, write, move), head) => ⟨head, marker, write, move⟩

end Determined

/-- Walks left over every cell without a head until the head shows up. -/
def retreatRows (a : Alphabet) (s : State) (head : Nat) : List Row :=
  a.unmarked.map fun c => ⟨s.actor head, c, s.actor head, c, .left⟩

/-- Resolves a head: `marked` is written when it stays, `plain` when it moves. -/
def resolveRow (s : State) (h : HeadAction) (read plain marked : Symbol) : Row :=
  if h.move = .stay then
    ⟨s.actor h.head, read, s.after h.head, marked, .left⟩
  else
    ⟨s.actor h.head, read, s.active h.head, plain, h.move⟩

/-- Applies the write of a head on its marker. A head that stays keeps a marker; a head that moves
leaves a plain symbol behind. A head that reads a blank may also rest on the boundary that closes
its tape. There a blank is written by keeping the boundary, unless the head moves right: then a real
cell has to appear, as for any other symbol, and the row is one for an extension to mend. -/
def resolveRows (a : Alphabet) (s : State) (h : HeadAction) : List Row :=
  [resolveRow s h h.marker h.write (a.marker h.write)]
    ++ if h.marker = a.blankMarker then
        if h.write = Symbol.blank then
          let plain := if h.move = .right then Symbol.blank else Symbol.boundary
          [resolveRow s h a.boundaryMarker plain a.boundaryMarker]
        else
          [resolveRow s h a.boundaryMarker h.write (a.marker h.write)]
      else
        []

/-- Marks the cell that a head moved onto and goes on to the next head. A head that moves left onto
a plain boundary has left its tape, and there is no row for that here. -/
def placeRows (a : Alphabet) (s : State) (h : HeadAction) : List Row :=
  if h.move = .stay then
    []
  else
    let step := if h.head > 1 then Direction.left else Direction.stay
    (a.unmarked.filter fun c => !(c == Symbol.boundary && h.move == .left)).map
      fun c => ⟨s.active h.head, c, s.after h.head, a.marker c, step⟩

/-- Ends the simulated step by entering discovery for the next source state. -/
def cycleRows (a : Alphabet) (d : Determined) : List Row :=
  a.library.map fun c => ⟨d.state.complete, c, State.source d.rule.next, c, .stay⟩

/-- The execution rows of a determined state. -/
def executionRows (a : Alphabet) (d : Determined) : List Row :=
  (d.actions.flatMap fun h =>
    retreatRows a d.state h.head ++ resolveRows a d.state h ++ placeRows a d.state h)
    ++ cycleRows a d

end OneTape.Table
