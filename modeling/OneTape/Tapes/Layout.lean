import OneTape.Tapes

/-!
# Several tapes on one

The layout of virtual tapes `t₁ … tₖ` on a single tape is `# t₁ # t₂ # … # tₖ # $`. The cell under
each virtual head holds the marker of its symbol. A head one past the end of its tape stands on the
boundary that closes the tape, and that boundary is then the marked cell.

`encode` writes this layout and `decode` reads it.
-/

namespace OneTape

/-- Why tapes cannot be laid out, or a list of cells is not a layout. Tapes count from one. -/
inductive LayoutError
  | noTapes
  | headCount (heads tapes : Nat)
  | reservedSymbol (symbol : Symbol)
  | noOpening
  | secondHead (tape : Nat)
  | noHead (tape : Nat)
  | noClosing
deriving DecidableEq

namespace LayoutError

/-- The wording of a layout error. -/
def message : LayoutError → String
  | noTapes => "Cannot encode zero tapes"
  | headCount heads tapes =>
    "Number of head positions (" ++ heads.repr ++ ") does not match number of tapes ("
      ++ tapes.repr ++ ")"
  | reservedSymbol s => "Tape symbol " ++ s.text ++ " is reserved"
  | noOpening => "Encoded tape must start with a boundary"
  | secondHead n => "Tape " ++ n.repr ++ " has more than one head"
  | noHead n => "Tape " ++ n.repr ++ " has no head"
  | noClosing => "Encoded tape must end with a boundary followed by the tape-end marker"

end LayoutError

namespace Tapes

/-! ## Writing the layout -/

/-- The cells of one virtual tape with the boundary that closes it. The tape is first extended with
blanks up to its head, so the head marks one of these cells. -/
def block (iteration : Nat) (tape : List Symbol) (head : Nat) : List Symbol :=
  (padTo head tape ++ [Symbol.boundary]).modify head (·.marker iteration)

/-- Lays tapes out on a single tape. -/
def encode (t : Tapes) (iteration : Nat) : Except LayoutError (List Symbol) :=
  if t.tapes.isEmpty then
    .error .noTapes
  else if t.tapes.length ≠ t.heads.length then
    .error (.headCount t.heads.length t.tapes.length)
  else
    match t.tapes.flatten.find? Symbol.isReserved with
    | some s => .error (.reservedSymbol s)
    | none =>
      .ok ([Symbol.boundary] ++ (List.zipWith (block iteration) t.tapes t.heads).flatten
        ++ [Symbol.tapeEnd])

/-! ## Reading the layout -/

/-- What has been read of a layout: the tapes that are closed, and the tape being read with its
head, if that was met. -/
structure Reading where
  closed : Tapes
  tape : Array Symbol
  head : Option Nat

namespace Reading

/-- Nothing has been read. -/
def start : Reading := ⟨⟨[], []⟩, #[], none⟩

/-- The number of the tape being read. -/
def number (r : Reading) : Nat := r.closed.tapes.length + 1

/-- Sets the head of the current tape on its next cell. -/
def setHead (r : Reading) : Except LayoutError Reading :=
  match r.head with
  | some _ => .error (.secondHead r.number)
  | none => .ok { r with head := some r.tape.size }

/-- Closes the current tape. -/
def close (r : Reading) : Except LayoutError Reading :=
  match r.head with
  | none => .error (.noHead r.number)
  | some position =>
    .ok ⟨⟨r.closed.tapes ++ [r.tape.toList], r.closed.heads ++ [position]⟩, #[], none⟩

/-- Adds a symbol to the current tape. -/
def push (r : Reading) (s : Symbol) : Reading := { r with tape := r.tape.push s }

/-- Reads one cell left of the tape end. -/
def cell (iteration : Nat) (r : Reading) (c : Symbol) : Except LayoutError Reading :=
  if c = Symbol.boundary then
    r.close
  else if c = Symbol.boundary.marker iteration then do
    (← r.setHead).close
  else
    match c.unmark? iteration with
    | some s => do return (← r.setHead).push s
    | none => .ok (r.push c)

end Reading

/-- Reads a layout back. Cells right of the tape end are ignored. -/
def decode (cells : List Symbol) (iteration : Nat) : Except LayoutError Tapes :=
  match cells with
  | [] => .error .noOpening
  | first :: rest =>
    if first ≠ Symbol.boundary then
      .error .noOpening
    else do
      let r ← (rest.takeWhile (· ≠ Symbol.tapeEnd)).foldlM (Reading.cell iteration) Reading.start
      if rest.contains Symbol.tapeEnd && r.tape.isEmpty && r.head.isNone then
        return r.closed
      else
        throw .noClosing

end Tapes
end OneTape
