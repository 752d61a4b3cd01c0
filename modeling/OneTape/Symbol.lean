import OneTape.Text.Quoted

/-!
# Tape symbols

A symbol is a text that is compared by its exact value. Four symbols have a meaning on the single
tape: the blank, the boundary between virtual tapes, the tape end and the return mark. A virtual
head standing on a symbol is shown by the symbol's *marker*, the symbol followed by a dot and the
iteration number. Symbols of a source machine that could be mistaken for one of these are
*escaped*: wrapped in backslashes.
-/

namespace OneTape

/-- A tape symbol. -/
structure Symbol where
  text : String
deriving DecidableEq, Hashable, Inhabited

namespace Symbol

/-- Symbols are ordered by the code points of their texts. -/
instance : Ord Symbol := ⟨fun a b => compare a.text b.text⟩

/-- An empty cell, on virtual tapes and on the single tape. -/
def blank : Symbol := ⟨"_"⟩

/-- Separates the virtual tapes on the single tape. -/
def boundary : Symbol := ⟨"#"⟩

/-- Stands right of the last boundary of the single tape. -/
def tapeEnd : Symbol := ⟨"$"⟩

/-- Anchors a walk over the single tape, so that it finds its way back. -/
def returnMark : Symbol := ⟨"R"⟩

/-- The usual stand-in for a blank on input tapes that cannot spell one. -/
def placeholder : Symbol := ⟨"~"⟩

/-- Whether the symbol is one that the single tape keeps for itself. The blank is not: source
machines use it with its usual meaning. -/
def isReserved (s : Symbol) : Bool :=
  s == boundary || s == tapeEnd || s == returnMark

/-- What follows a symbol's text in its marker. -/
def markerSuffix (iteration : Nat) : List Char :=
  '.' :: Nat.toDigits 10 iteration

/-- The marker that says "a virtual head stands on this symbol". -/
def marker (s : Symbol) (iteration : Nat) : Symbol :=
  ⟨s.text ++ String.ofList (markerSuffix iteration)⟩

/-- Whether the symbol's text has the form of a marker. -/
def isMarkerLike (s : Symbol) (iteration : Nat) : Bool :=
  (markerSuffix iteration).isSuffixOf s.text.toList

/-- The symbol behind a marker, or `none` for a symbol that is not a marker. -/
def unmark? (s : Symbol) (iteration : Nat) : Option Symbol :=
  if s.isMarkerLike iteration then
    let cs := s.text.toList
    some ⟨String.ofList (cs.take (cs.length - (markerSuffix iteration).length))⟩
  else
    none

/-- Stands at both ends of an escaped symbol. -/
def escapeChar : Char := '\\'

/-- Whether a source symbol has to be escaped: it is reserved, it looks like a marker, or it begins
like an escaped symbol. -/
def needsEscape (s : Symbol) (iteration : Nat) : Bool :=
  s.isReserved || s.isMarkerLike iteration || s.text.toList.head? == some escapeChar

/-- The escaped form of a source symbol, or `none` for a symbol that is used as it is. -/
def escape? (s : Symbol) (iteration : Nat) : Option Symbol :=
  if s.needsEscape iteration then
    some ⟨String.ofList (escapeChar :: s.text.toList ++ [escapeChar])⟩
  else
    none

/-- The symbol that stands for a source symbol on the single tape. -/
def escape (s : Symbol) (iteration : Nat) : Symbol :=
  (s.escape? iteration).getD s

/-- How messages show a symbol. -/
def quoted (s : Symbol) : String :=
  "Symbol(" ++ Text.quote s.text ++ ")"

/-- How messages show a tuple of symbols. -/
def quotedList (symbols : List Symbol) : String :=
  Text.bracketed (symbols.map quoted)

end Symbol
end OneTape
