import OneTape.Json

/-!
# Reading JSON

The reader accepts exactly the JSON texts: one value with white space around it.
-/

namespace OneTape.Json

/-- Whether a character is JSON white space. -/
def isSpace (c : Char) : Bool := c = ' ' || c = '\t' || c = '\n' || c = '\r'

/-- The value of a hexadecimal digit. -/
def hexDigit? (c : Char) : Option Nat :=
  if '0' ≤ c ∧ c ≤ '9' then some (c.toNat - '0'.toNat)
  else if 'a' ≤ c ∧ c ≤ 'f' then some (c.toNat - 'a'.toNat + 10)
  else if 'A' ≤ c ∧ c ≤ 'F' then some (c.toNat - 'A'.toNat + 10)
  else none

/-- The value of four hexadecimal digits. -/
def hex4? (a b c d : Char) : Option Nat := do
  let a ← hexDigit? a
  let b ← hexDigit? b
  let c ← hexDigit? c
  let d ← hexDigit? d
  return ((a * 16 + b) * 16 + c) * 16 + d

/-- The character of an escape of one letter. -/
def shortEscape? (c : Char) : Option Char :=
  if c = '"' || c = '\\' || c = '/' then some c
  else if c = 'b' then some '\x08'
  else if c = 'f' then some '\x0c'
  else if c = 'n' then some '\n'
  else if c = 'r' then some '\r'
  else if c = 't' then some '\t'
  else none

/-- What an escaped unit of sixteen bits adds to the text read so far, which is kept in reverse. A
first half of a surrogate pair is held back until its second half follows. -/
structure Units where
  text : Option (List Char) := some []
  pending : Option Nat := none

namespace Units

/-- A first half without its second half spoils the text. -/
def settle (u : Units) : Units := if u.pending.isSome then ⟨none, none⟩ else u

/-- Adds a character. -/
def char (u : Units) (c : Char) : Units :=
  let u := u.settle
  { u with text := u.text.map (c :: ·) }

/-- Adds a unit of sixteen bits. -/
def unit (u : Units) (n : Nat) : Units :=
  if 0xDC00 ≤ n ∧ n ≤ 0xDFFF then
    match u.pending with
    | some high =>
      let c := Char.ofNat (0x10000 + (high - 0xD800) * 0x400 + (n - 0xDC00))
      ⟨u.text.map (c :: ·), none⟩
    | none => ⟨none, none⟩
  else if 0xD800 ≤ n ∧ n ≤ 0xDBFF then { u.settle with pending := some n }
  else u.char (Char.ofNat n)

/-- The text read. -/
def toText (u : Units) : Option String := u.settle.text.map fun cs => String.ofList cs.reverse

end Units

/-- Reads a string behind its opening quote. -/
def stringBody : List Char → Units → Option (Option String × List Char)
  | '"' :: rest, u => some (u.toText, rest)
  | '\\' :: 'u' :: a :: b :: c :: d :: rest, u =>
    match hex4? a b c d with
    | some n => stringBody rest (u.unit n)
    | none => none
  | '\\' :: c :: rest, u =>
    match shortEscape? c with
    | some c => stringBody rest (u.char c)
    | none => none
  | c :: rest, u => if c.toNat < 0x20 || c = '\\' then none else stringBody rest (u.char c)
  | [], _ => none

/-- Reads one or more digits. -/
def digits? (cs : List Char) : Option (List Char × List Char) :=
  let ds := cs.takeWhile Char.isDigit
  if ds.isEmpty then none else some (ds, cs.dropWhile Char.isDigit)

/-- Reads a number. -/
def number? (cs : List Char) : Option (String × List Char) := do
  let (sign, cs) := match cs with
    | '-' :: rest => (['-'], rest)
    | _ => ([], cs)
  let (whole, cs) ← match cs with
    | '0' :: rest => some (['0'], rest)
    | _ => digits? cs
  let (fraction, cs) ← match cs with
    | '.' :: rest => (digits? rest).map fun (ds, rest) => ('.' :: ds, rest)
    | _ => some ([], cs)
  let (exponent, cs) ← match cs with
    | e :: s :: rest =>
      if e = 'e' || e = 'E' then
        if s = '+' || s = '-' then (digits? rest).map fun (ds, rest) => (e :: s :: ds, rest)
        else (digits? (s :: rest)).map fun (ds, rest) => (e :: ds, rest)
      else some ([], cs)
    | [e] => if e = 'e' || e = 'E' then none else some ([], cs)
    | [] => some ([], [])
  return (String.ofList (sign ++ whole ++ fraction ++ exponent), cs)

/-- Skips white space. -/
def skipSpace (cs : List Char) : List Char := cs.dropWhile isSpace

mutual

/-- Reads a value. Each value and each element uses up one unit of the first argument. -/
def value? : Nat → List Char → Option (Json × List Char)
  | 0, _ => none
  | n + 1, cs =>
    match skipSpace cs with
    | 'n' :: 'u' :: 'l' :: 'l' :: rest => some (null, rest)
    | 't' :: 'r' :: 'u' :: 'e' :: rest => some (bool true, rest)
    | 'f' :: 'a' :: 'l' :: 's' :: 'e' :: rest => some (bool false, rest)
    | '"' :: rest => (stringBody rest {}).map fun (s, rest) => (string s, rest)
    | '[' :: rest =>
      match skipSpace rest with
      | ']' :: rest => some (array [], rest)
      | rest => elements? n rest []
    | '\x7b' :: rest =>
      match skipSpace rest with
      | '\x7d' :: rest => some (object [], rest)
      | rest => members? n rest []
    | cs => (number? cs).map fun (s, rest) => (number s, rest)

/-- Reads elements up to the closing bracket, after those read before, which are in reverse. -/
def elements? : Nat → List Char → List Json → Option (Json × List Char)
  | 0, _, _ => none
  | n + 1, cs, found =>
    match value? n cs with
    | none => none
    | some (v, rest) =>
      match skipSpace rest with
      | ',' :: rest => elements? n rest (v :: found)
      | ']' :: rest => some (array (v :: found).reverse, rest)
      | _ => none

/-- Reads members up to the closing brace, after those read before, which are in reverse. -/
def members? : Nat → List Char → List (Option String × Json) → Option (Json × List Char)
  | 0, _, _ => none
  | n + 1, cs, found =>
    match skipSpace cs with
    | '"' :: rest =>
      match stringBody rest {} with
      | none => none
      | some (key, rest) =>
        match skipSpace rest with
        | ':' :: rest =>
          match value? n rest with
          | none => none
          | some (v, rest) =>
            match skipSpace rest with
            | ',' :: rest => members? n rest ((key, v) :: found)
            | '\x7d' :: rest => some (object ((key, v) :: found).reverse, rest)
            | _ => none
        | _ => none
    | _ => none

end

/-- Reads a text that holds one value. -/
def parse? (s : String) : Option Json := do
  let cs := s.toList
  let (v, rest) ← value? (2 * cs.length + 1) cs
  if (skipSpace rest).isEmpty then some v else none

end OneTape.Json
