import OneTape.Symbol

/-!
# Tapes and heads

The contents of several tapes together with a head position for each. The two lists of a `Tapes`
value may differ in length; operations that need one head per tape say so.
-/

namespace OneTape

/-- The contents of several tapes and the positions of their heads. -/
structure Tapes where
  tapes : List (List Symbol)
  heads : List Nat
deriving DecidableEq, Inhabited

namespace Tapes

/-- A tape without the blanks at its right end. -/
def dropBlanks (tape : List Symbol) : List Symbol :=
  (tape.reverse.dropWhile (· == Symbol.blank)).reverse

/-- Drops the blanks at the right ends, so that tapes which differ only in cells that were
materialised as blanks become equal. Heads stay where they are. -/
def normalized (t : Tapes) : Tapes :=
  { t with tapes := t.tapes.map dropBlanks }

/-- Extends a tape with blanks to a least length. -/
def padTo (length : Nat) (tape : List Symbol) : List Symbol :=
  tape ++ List.replicate (length - tape.length) Symbol.blank

/-- Replaces every symbol on the tapes. -/
def map (f : Symbol → Symbol) (t : Tapes) : Tapes :=
  { t with tapes := t.tapes.map (List.map f) }

end Tapes
end OneTape
