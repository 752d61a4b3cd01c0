import OneTape.Alphabet
import OneTape.Table

/-!
# Tape extension

Virtual tapes hold only the cells they have materialised. When a virtual head must write a symbol
where its tape ends, or walks off the left end of its tape, everything to the right is first shifted
one cell over to make room. Both cases use one shift subroutine, whose states belong to the state
that needs the room.
-/

namespace OneTape

/-- Which ends of the virtual tapes are extended on demand. -/
structure Safety where
  left : Bool
  right : Bool
deriving DecidableEq, Inhabited

/-- A row that overwrites the boundary under a head, which no extension took care of. -/
structure EdgeWrite where
  state : State
  write : Symbol
deriving DecidableEq

namespace Table

/-! ## The shift subroutine -/

/-- Where the machine goes on once a shift has made room. -/
structure Resume where
  state : State
  write : Symbol
  move : Direction
deriving DecidableEq

/-- The state of an extension that carries a symbol. -/
def shifting (owner : State) (side : Side) (carried : Symbol) : State :=
  owner.extension side (.shift carried)

/-- The state of an extension that walks back to the return mark. -/
def comingBack (owner : State) (side : Side) : State := owner.extension side .comeBack

/-- Exchanges the carried symbol for the one found, one cell further right each time. -/
def relayRows (a : Alphabet) (owner : State) (side : Side) : List Row :=
  a.library.flatMap fun carried => a.library.map fun found =>
    ⟨shifting owner side carried, found, shifting owner side found, carried, .right⟩

/-- Moves the tape end one cell to the right. Only a boundary stands in front of the tape end. -/
def moveEndRows (a : Alphabet) (owner : State) (side : Side) : List Row :=
  ([Symbol.boundary, a.boundaryMarker].map fun carried =>
    ⟨shifting owner side carried, Symbol.tapeEnd, shifting owner side Symbol.tapeEnd, carried,
      .right⟩)
    ++ [⟨shifting owner side Symbol.tapeEnd, Symbol.blank, comingBack owner side, Symbol.tapeEnd,
      .left⟩]

/-- Walks back to the return mark and resumes there. -/
def comeBackRows (a : Alphabet) (owner : State) (side : Side) (resume : Resume) : List Row :=
  (a.library.map fun c => ⟨comingBack owner side, c, comingBack owner side, c, .left⟩)
    ++ [⟨comingBack owner side, Symbol.returnMark, resume.state, resume.write, resume.move⟩]

/-- The shift subroutine of an owner: relay every symbol one cell to the right up to the tape end,
move the tape end, walk back to the return mark and resume. -/
def shiftRows (a : Alphabet) (owner : State) (side : Side) (resume : Resume) : List Row :=
  relayRows a owner side ++ moveEndRows a owner side ++ comeBackRows a owner side resume

/-! ## The right end of a tape -/

/-- Whether a row reads a head on a boundary and overwrites the boundary. Anchoring a shift with the
return mark does not count, and neither do the rows of an extension. -/
def overwritesEdge (a : Alphabet) (r : Row) : Bool :=
  !r.state.isExtension && r.read == a.boundaryMarker && r.write != Symbol.boundary
    && r.write != a.boundaryMarker && r.write != Symbol.returnMark

/-- What stands in place of a row that overwrites an edge: anchor, shift everything right, come
back, and take up the row's state again on a fresh blank cell. -/
def rightExtension (a : Alphabet) (r : Row) : List Row :=
  ⟨r.state, r.read, shifting r.state .right Symbol.boundary, Symbol.returnMark, .right⟩
    :: shiftRows a r.state .right ⟨r.state, a.blankMarker, .stay⟩

/-! ## The left end of a tape -/

/-- The head-placing states that some row enters by a left move. -/
def enteredLeftwards (rows : List Row) : List State :=
  sortedSet (((rows.filter (·.move == .left)).map Row.next).filter State.isActive)

/-- The extension of a state that walked off the left end of its tape: step back right and shift,
so that a blank cell appears where the head left the tape, then go on as the state does. -/
def leftExtension (a : Alphabet) (s : State) (goOn : Row) : List Row :=
  let realign := s.extension .left .realign
  ([Symbol.boundary, a.boundaryMarker].map fun edge => ⟨s, edge, realign, edge, .right⟩)
    ++ (a.unmarked.map fun c => ⟨realign, c, shifting s .left c, Symbol.returnMark, .right⟩)
    ++ shiftRows a s .left ⟨goOn.next, a.blankMarker, goOn.move⟩

/-- The extension of a head-placing state, unless it has no rows or one for a boundary. -/
def leftExtensionOf (a : Alphabet) (rows : List Row) (s : State) : List Row :=
  let own := rows.filter (·.state == s)
  match own with
  | [] => []
  | goOn :: _ =>
    if own.any fun r => r.read == Symbol.boundary || r.read == a.boundaryMarker then []
    else leftExtension a s goOn

/-- The extensions of all states that walk off the left end of a tape. -/
def leftExtensions (a : Alphabet) (rows : List Row) : List Row :=
  (enteredLeftwards rows).flatMap (leftExtensionOf a rows)

/-! ## Both ends -/

/-- The rows that an extension replaces. -/
def replaced (a : Alphabet) (safety : Safety) (rows : List Row) : List Row :=
  if safety.right then rows.filter (overwritesEdge a) else []

/-- The rows that stay as they are. -/
def kept (a : Alphabet) (safety : Safety) (rows : List Row) : List Row :=
  if safety.right then rows.filter fun r => !overwritesEdge a r else rows

/-- The rows added for left ends. -/
def addedLeft (a : Alphabet) (safety : Safety) (rows : List Row) : List Row :=
  if safety.left then leftExtensions a rows else []

/-- Adds the extension subroutines to a list of rows. -/
def extend (a : Alphabet) (safety : Safety) (rows : List Row) : Except EdgeWrite (List Row) :=
  let result := kept a safety rows ++ addedLeft a safety rows
    ++ (replaced a safety rows).flatMap (rightExtension a)
  if safety.right then
    match result.find? (overwritesEdge a) with
    | some r => .error ⟨r.state, r.write⟩
    | none => .ok result
  else
    .ok result

end Table
end OneTape
