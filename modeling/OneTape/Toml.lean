/-!
# TOML values

The part of TOML that settings need: strings, numbers, dates, truth values, arrays and tables. No
setting is a float or a date, so which one it is is not kept. A text with a list of tables is not
read.

A table remembers how it came about, because that decides what may still be added to it.
-/

namespace OneTape.Toml

/-- How a table came about. -/
inductive Origin
  /-- Written between braces; nothing may be added. -/
  | inline
  /-- Opened by a header. -/
  | header
  /-- Lies on the way of a header to another table. -/
  | implied
  /-- Lies on the way of a dotted key. -/
  | dotted
deriving DecidableEq, Inhabited

/-- A TOML value. -/
inductive Value
  | string (text : String)
  | integer (n : Int)
  /-- A number with a fraction or an exponent, an infinity, or what is not a number. -/
  | float
  /-- A date, a time or both. -/
  | dateTime
  | boolean (b : Bool)
  | array (elements : List Value)
  | table (origin : Origin) (entries : List (String × Value))
deriving Inhabited

/-- The entries of a table, in order. -/
abbrev Entries := List (String × Value)

namespace Entries

/-- The value of a key. -/
def get? (entries : Entries) (key : String) : Option Value := entries.lookup key

/-- Gives a key a value, in place of an older one. -/
def set (entries : Entries) (key : String) (value : Value) : Entries :=
  if (entries.lookup key).isSome then
    entries.map fun (k, v) => if k == key then (k, value) else (k, v)
  else
    entries ++ [(key, value)]

/-- Adds the value of a dotted key to a table. Tables on the way are made if they are missing. A
table that a header opened or that stands between braces is closed to dotted keys, and so is the
value of any other key. A table on the way of a header may be passed, but is not itself `free` to
take values. -/
def insert (entries : Entries) (free : Bool) : List String → Value → Option Entries
  | [], _ => none
  | [key], value =>
    if !free || (entries.get? key).isSome then none else some (entries.set key value)
  | key :: path, value =>
    match entries.get? key with
    | none => (insert [] true path value).map fun inner => entries.set key (.table .dotted inner)
    | some (.table .dotted inner) =>
      (insert inner true path value).map fun inner => entries.set key (.table .dotted inner)
    | some (.table .implied inner) =>
      (insert inner false path value).map fun inner => entries.set key (.table .implied inner)
    | some _ => none

/-- Opens the table of a header. A table is opened only once, and only if it did not come about in
another way. -/
def openTable (entries : Entries) : List String → Option Entries
  | [] => none
  | [key] =>
    match entries.get? key with
    | none => some (entries.set key (.table .header []))
    | some (.table .implied inner) => some (entries.set key (.table .header inner))
    | some _ => none
  | key :: path =>
    match entries.get? key with
    | none => (openTable [] path).map fun inner => entries.set key (.table .implied inner)
    | some (.table .inline _) => none
    | some (.table origin inner) =>
      (openTable inner path).map fun inner => entries.set key (.table origin inner)
    | some _ => none

/-- Changes the entries of the table at the end of a way. -/
def modifyAt (entries : Entries) (change : Entries → Option Entries) :
    List String → Option Entries
  | [] => change entries
  | key :: path =>
    match entries.get? key with
    | some (.table origin inner) =>
      (modifyAt inner change path).map fun inner => entries.set key (.table origin inner)
    | _ => none

end Entries
end OneTape.Toml
