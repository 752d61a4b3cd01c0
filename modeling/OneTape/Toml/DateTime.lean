import OneTape.Toml.Number

/-!
# Dates and times in TOML

A date is a year of four digits, a month and a day. A time has hours, minutes and seconds, perhaps
with a fraction. A date may be followed by a time, and that by an offset.

Each function goes on over what it reads at the front of a list of characters and gives back the
rest.
-/

namespace OneTape.Toml

/-- Reads a number of a fixed count of digits. -/
def fixed? (count : Nat) (cs : List Char) : Option (Nat × List Char) :=
  let ds := cs.take count
  if ds.length = count ∧ ds.all Char.isDigit then some (ofDigits 10 ds, cs.drop count) else none

/-- Reads a number of two digits within bounds. -/
def between? (low high : Nat) (cs : List Char) : Option (Nat × List Char) := do
  let (n, rest) ← fixed? 2 cs
  if low ≤ n ∧ n ≤ high then some (n, rest) else none

/-- Goes on over a character. -/
def expect? (c : Char) : List Char → Option (List Char)
  | d :: rest => if d = c then some rest else none
  | [] => none

/-- Whether a year has a leap day. -/
def isLeap (year : Nat) : Bool := year % 4 == 0 && (year % 100 != 0 || year % 400 == 0)

/-- The number of days of a month. -/
def daysOf (year month : Nat) : Nat :=
  if month = 2 then if isLeap year then 29 else 28
  else if month = 4 ∨ month = 6 ∨ month = 9 ∨ month = 11 then 30
  else 31

/-- Goes on over a date. -/
def date? (cs : List Char) : Option (List Char) := do
  let (year, rest) ← fixed? 4 cs
  let (month, rest) ← between? 1 12 (← expect? '-' rest)
  let (_, rest) ← between? 1 (daysOf year month) (← expect? '-' rest)
  return rest

/-- Goes on over a fraction of a second, if there is one. -/
def secondFraction : List Char → List Char
  | '.' :: c :: rest => if c.isDigit then rest.dropWhile Char.isDigit else '.' :: c :: rest
  | cs => cs

/-- Goes on over a time. A minute may have a leap second. -/
def time? (cs : List Char) : Option (List Char) := do
  let (_, rest) ← between? 0 23 cs
  let (_, rest) ← between? 0 59 (← expect? ':' rest)
  let (_, rest) ← between? 0 60 (← expect? ':' rest)
  return secondFraction rest

/-- Goes on over the offset of a time, if there is one. -/
def offset? : List Char → Option (List Char)
  | 'Z' :: rest | 'z' :: rest => some rest
  | '+' :: rest | '-' :: rest => do
    let (_, rest) ← between? 0 23 rest
    let (_, rest) ← between? 0 59 (← expect? ':' rest)
    return rest
  | cs => some cs

/-- Goes on over a time with an offset behind a date, or stays there if none follows. -/
def timeOfDate? (cs : List Char) : Option (List Char) :=
  match cs with
  | 'T' :: rest | 't' :: rest | ' ' :: rest =>
    match time? rest with
    | some rest => offset? rest
    | none => some cs
  | _ => some cs

/-- Goes on over a date, a time, or both. -/
def dateTime? (cs : List Char) : Option (List Char) :=
  match date? cs with
  | some rest => timeOfDate? rest
  | none => time? cs

end OneTape.Toml
