import OneTape.Toml
import OneTape.Toml.DateTime
import OneTape.Toml.Text

/-!
# Reading TOML

A text is read line by line: empty lines and comments, headers of tables, and keys with values. Each
function reads from the front of a list of characters and gives back the rest.
-/

namespace OneTape.Toml

/-- How deep arrays and tables between braces lie in each other at most, and how many parts a key
has at most. -/
def maxDepth : Nat := 79

/-! ## Keys -/

/-- Whether a character may stand in a key without quotes. -/
def isKeyChar (c : Char) : Bool := c.isAlphanum || c = '_' || c = '-'

/-- Reads a part of a key. -/
def keyPart? (cs : List Char) : Option (String × List Char) :=
  match cs with
  | '"' :: _ | '\'' :: _ => shortString? cs
  | _ =>
    let part := cs.takeWhile isKeyChar
    if part.isEmpty then none else some (String.ofList part, cs.drop part.length)

/-- Reads a key of at most a given number of parts: dots stand between them, and blanks around the
dots. -/
def keyUpTo? : Nat → List Char → Option (List String × List Char)
  | 0, _ => none
  | n + 1, cs => do
    let (part, rest) ← keyPart? (skipBlanks cs)
    match skipBlanks rest with
    | '.' :: rest => (keyUpTo? n rest).map fun (parts, rest) => (part :: parts, rest)
    | rest => some ([part], rest)

/-- Reads a key. -/
def key? (cs : List Char) : Option (List String × List Char) := keyUpTo? maxDepth cs

/-! ## Values -/

/-- Reads a date or a number. -/
def scalar? (cs : List Char) : Option (Value × List Char) :=
  match dateTime? cs with
  | some rest => some (.dateTime, rest)
  | none =>
    match float? cs with
    | some rest => some (.float, rest)
    | none => (integer? cs).map fun (k, rest) => (.integer k, rest)

mutual

/-- Reads a value in which brackets and braces lie in each other at most `room` deep. Each value and
each element uses up one unit of the first argument. -/
def value? : Nat → Nat → List Char → Option (Value × List Char)
  | 0, _, _ => none
  | n + 1, room, cs =>
    match cs, room with
    | 't' :: 'r' :: 'u' :: 'e' :: rest, _ => some (.boolean true, rest)
    | 'f' :: 'a' :: 'l' :: 's' :: 'e' :: rest, _ => some (.boolean false, rest)
    | '"' :: _, _ | '\'' :: _, _ => (string? cs).map fun (s, rest) => (.string s, rest)
    | '[' :: _, 0 | '\x7b' :: _, 0 => none
    | '[' :: rest, room + 1 => elements? n room rest []
    | '\x7b' :: rest, room + 1 =>
      match skipBlanks rest with
      | '\x7d' :: rest => some (.table .inline [], rest)
      | rest => members? n room rest []
    | _, _ => scalar? cs

/-- Reads elements up to the closing bracket, after those read before, which are in reverse. A comma
may stand behind the last element. -/
def elements? : Nat → Nat → List Char → List Value → Option (Value × List Char)
  | 0, _, _, _ => none
  | n + 1, room, cs, found =>
    match skipLines cs with
    | ']' :: rest => some (.array found.reverse, rest)
    | cs =>
      match value? n room cs with
      | none => none
      | some (v, rest) =>
        match skipLines rest with
        | ',' :: rest => elements? n room rest (v :: found)
        | ']' :: rest => some (.array (v :: found).reverse, rest)
        | _ => none

/-- Reads keys and values up to the closing brace into a table. No comma may stand behind the last
value, and the braces stand on one line. -/
def members? : Nat → Nat → List Char → Entries → Option (Value × List Char)
  | 0, _, _, _ => none
  | n + 1, room, cs, entries =>
    match key? cs with
    | some (key, '=' :: rest) =>
      match value? n room (skipBlanks rest) with
      | none => none
      | some (v, rest) =>
        match entries.insert true key v with
        | none => none
        | some entries =>
          match skipBlanks rest with
          | ',' :: rest => members? n room rest entries
          | '\x7d' :: rest => some (.table .inline entries, rest)
          | _ => none
    | _ => none

end

/-! ## Documents -/

/-- Reads lines into the entries of a document. `path` is the way to the table that is open. Each
line uses up one unit of the first argument, which is larger than the number of characters left and
so is enough for the value in a line as well. -/
def document? : Nat → List Char → Entries → List String → Option Entries
  | 0, _, _, _ => none
  | n + 1, cs, entries, path =>
    match skipBlanks cs with
    | [] => some entries
    | '[' :: rest => do
      match ← key? rest with
      | (header, ']' :: rest) =>
        let rest ← endOfLine? rest
        document? n rest (← entries.openTable header) header
      | _ => none
    | c :: rest =>
      if c = '#' || (lineEnd? (c :: rest)).isSome then do
        document? n (← endOfLine? (c :: rest)) entries path
      else do
        match ← key? (c :: rest) with
        | (key, '=' :: rest) =>
          let (v, rest) ← value? (n + 1) maxDepth (skipBlanks rest)
          let rest ← endOfLine? rest
          document? n rest (← entries.modifyAt (·.insert true key v) path) path
        | _ => none

/-- Reads a document. A byte order mark in front is skipped. -/
def parse? (s : String) : Option Entries :=
  let cs := match s.toList with
    | '\uFEFF' :: rest => rest
    | cs => cs
  document? (cs.length + 1) cs [] []

end OneTape.Toml
