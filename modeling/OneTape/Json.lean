/-!
# JSON values

JSON values and their printed form over several lines.
-/

namespace OneTape

/-- A JSON value. A string that holds one half of a surrogate pair has no text. -/
inductive Json
  | null
  | bool (value : Bool)
  /-- A number as it is written. -/
  | number (digits : String)
  | string (text : Option String)
  | array (elements : List Json)
  | object (members : List (Option String × Json))
deriving Inhabited

namespace Json

/-! ## Printing -/

/-- How a character is written in a string. -/
def escapeChar (c : Char) : List Char :=
  if c = '"' then ['\\', '"']
  else if c = '\\' then ['\\', '\\']
  else if c = '\x08' then ['\\', 'b']
  else if c = '\t' then ['\\', 't']
  else if c = '\n' then ['\\', 'n']
  else if c = '\x0c' then ['\\', 'f']
  else if c = '\r' then ['\\', 'r']
  else if c.toNat < 0x10 then ['\\', 'u', '0', '0', '0'] ++ Nat.toDigits 16 c.toNat
  else if c.toNat < 0x20 then ['\\', 'u', '0', '0'] ++ Nat.toDigits 16 c.toNat
  else [c]

/-- A text as a JSON string. -/
def quote (s : String) : String :=
  String.ofList (['"'] ++ s.toList.flatMap escapeChar ++ ['"'])

/-- A new line with an indentation of two blanks for each level. -/
def newLine (level : Nat) : String :=
  String.ofList ('\n' :: List.replicate (2 * level) ' ')

mutual

/-- Adds the printed form of a value at a level of indentation to a text. -/
def printOnto (out : String) (level : Nat) : Json → String
  | null => out ++ "null"
  | bool true => out ++ "true"
  | bool false => out ++ "false"
  | number digits => out ++ digits
  | string text => out ++ quote (text.getD "")
  | array [] => out ++ "[]"
  | array (e :: es) =>
    printElements (printOnto (out ++ "[" ++ newLine (level + 1)) (level + 1) e) (level + 1) es
      ++ newLine level ++ "]"
  | object [] => out ++ "\x7b\x7d"
  | object ((key, value) :: ms) =>
    printMembers (printOnto (out ++ "\x7b" ++ newLine (level + 1) ++ quote (key.getD "") ++ ": ")
      (level + 1) value) (level + 1) ms
      ++ newLine level ++ "\x7d"

/-- Adds the printed forms of further elements. -/
def printElements (out : String) (level : Nat) : List Json → String
  | [] => out
  | e :: es => printElements (printOnto (out ++ "," ++ newLine level) level e) level es

/-- Adds the printed forms of further members. -/
def printMembers (out : String) (level : Nat) : List (Option String × Json) → String
  | [] => out
  | (key, value) :: ms =>
    printMembers
      (printOnto (out ++ "," ++ newLine level ++ quote (key.getD "") ++ ": ") level value) level ms

end

/-- The printed form of a value. -/
def print (j : Json) : String := printOnto "" 0 j

end Json
end OneTape
