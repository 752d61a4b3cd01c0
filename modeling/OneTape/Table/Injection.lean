import OneTape.Alphabet
import OneTape.Table

/-!
# Blank injection

Input tapes may spell the blank with a placeholder. A pass in front of the start state anchors the
first cell, walks right to the tape end and replaces the placeholder and its marker by the blank and
its marker, walks back to the anchor, restores the boundary there and enters the start state.
-/

namespace OneTape.Table

/-- The state in which a machine with blank injection starts. -/
def injectionEntry (start : State) : State := start.injection .start

/-- Replaces the placeholder, with and without a head on it. -/
def replaceRows (a : Alphabet) (start : State) (placeholder : Symbol) : List Row :=
  let scan := start.injection .scan
  [⟨scan, placeholder, scan, Symbol.blank, .right⟩,
    ⟨scan, a.marker placeholder, scan, a.blankMarker, .right⟩]

/-- The rows of the pass in front of a start state. -/
def injectionRows (a : Alphabet) (start : State) (placeholder : Symbol) : List Row :=
  let scan := start.injection .scan
  let back := start.injection .comeBack
  [⟨injectionEntry start, Symbol.boundary, scan, Symbol.returnMark, .right⟩]
    ++ replaceRows a start placeholder
    ++ (a.library.map fun c => ⟨scan, c, scan, c, .right⟩)
    ++ [⟨scan, Symbol.tapeEnd, back, Symbol.tapeEnd, .left⟩]
    ++ (a.library.map fun c => ⟨back, c, back, c, .left⟩)
    ++ [⟨back, Symbol.returnMark, start, Symbol.boundary, .stay⟩]

end OneTape.Table
