/-!
# Numbers in TOML

Integers have a base and fit in sixty-four bits. Floats have a fraction, an exponent or both, or are
infinite or not a number. Underscores may stand between digits.

Each reader takes its number from the front of a list of characters and gives back the rest.
-/

namespace OneTape.Toml

/-! ## Digits -/

/-- The value of a hexadecimal digit. -/
def hexDigit? (c : Char) : Option Nat :=
  if '0' ≤ c ∧ c ≤ '9' then some (c.toNat - '0'.toNat)
  else if 'a' ≤ c ∧ c ≤ 'f' then some (c.toNat - 'a'.toNat + 10)
  else if 'A' ≤ c ∧ c ≤ 'F' then some (c.toNat - 'A'.toNat + 10)
  else none

/-- Whether a character is a digit of a base up to sixteen. -/
def isDigitOf (base : Nat) (c : Char) : Bool := (hexDigit? c).any (· < base)

/-- The number of digits of a base. -/
def ofDigits (base : Nat) (digits : List Char) : Nat :=
  digits.foldl (fun n c => n * base + (hexDigit? c).getD 0) 0

/-- Reads digits of a base with single underscores between them. -/
def digits? (isDigit : Char → Bool) (cs : List Char) : Option (List Char × List Char) :=
  let run := cs.takeWhile fun c => isDigit c || c = '_'
  let parts := run.splitOn '_'
  if parts.any List.isEmpty then none else some (parts.flatten, cs.drop run.length)

/-- Reads decimal digits without leading zeros. -/
def wholeDigits? (cs : List Char) : Option (List Char × List Char) := do
  let (ds, rest) ← digits? Char.isDigit cs
  if ds.length > 1 && ds.head? == some '0' then none else some (ds, rest)

/-- Reads a sign, if there is one: whether it is a minus. -/
def sign : List Char → Bool × List Char
  | '-' :: rest => (true, rest)
  | '+' :: rest => (false, rest)
  | cs => (false, cs)

/-- A number with a sign. -/
def signed (negative : Bool) (n : Nat) : Int := if negative then -n else n

/-! ## Integers -/

/-- The number of digits of a base, unless more than sixty-four of them count: those do not fit in
sixty-four bits, whatever the base. -/
def shortNumber? (base : Nat) (digits : List Char) : Option Nat :=
  let ds := digits.dropWhile (· = '0')
  if ds.length > 64 then none else some (ofDigits base ds)

/-- Reads an integer of sixty-four bits. A decimal one has no leading zeros and may have a sign. -/
def integer? (cs : List Char) : Option (Int × List Char) := do
  let (n, rest) ← match cs with
    | '0' :: 'x' :: rest => based 16 rest
    | '0' :: 'o' :: rest => based 8 rest
    | '0' :: 'b' :: rest => based 2 rest
    | _ => decimal (sign cs).1 (sign cs).2
  if -9223372036854775808 ≤ n ∧ n < 9223372036854775808 then some (n, rest) else none
where
  /-- Digits of a base. -/
  based (base : Nat) (cs : List Char) : Option (Int × List Char) := do
    let (ds, rest) ← digits? (isDigitOf base) cs
    return ((← shortNumber? base ds : Nat), rest)
  /-- Decimal digits behind a sign. -/
  decimal (negative : Bool) (cs : List Char) : Option (Int × List Char) := do
    let (ds, rest) ← wholeDigits? cs
    return (signed negative (← shortNumber? 10 ds), rest)

/-! ## Floats -/

/-- A decimal number as it is written. -/
structure Decimal where
  negative : Bool
  /-- The digits in front of the point. -/
  whole : List Char
  /-- The digits behind the point. -/
  fraction : List Char
  exponent : Int

/-- The number of digits in front of the point of `floatLimit`. -/
def floatLimitSize : Nat := 309

/-- The least number that rounds to infinity: halfway from the largest number of sixty-four bits to
the next power of two. -/
def floatLimit : Nat := Nat.pow 2 1024 - Nat.pow 2 970

/-- The number that the first digits of a list stand for, as many as `floatLimit` has; zeros stand
in for missing ones. -/
def frontNumber (digits : List Char) : Nat :=
  ofDigits 10 ((digits ++ List.replicate floatLimitSize '0').take floatLimitSize)

/-- Whether the magnitude of a decimal rounds to infinity. The number of its digits in front of the
point settles all cases but one, and there these digits settle it, as the limit is a whole
number. -/
def Decimal.isHuge (d : Decimal) : Bool :=
  let digits := (d.whole ++ d.fraction).dropWhile (· = '0')
  let size := digits.length + d.exponent - d.fraction.length
  !digits.isEmpty && (floatLimitSize < size
    || size == floatLimitSize && floatLimit ≤ frontNumber digits)

/-- The size of an exponent from which on further digits of it do not count. -/
def exponentCap : Nat := 65536

/-- The number that the digits of an exponent stand for. Once it has reached the cap it does not
grow any more. -/
def exponentOf (digits : List Char) : Nat :=
  digits.foldl (fun n c => if n < exponentCap then n * 10 + (hexDigit? c).getD 0 else n) 0

/-- Reads a fraction, if there is one. -/
def fraction? : List Char → Option (List Char × List Char)
  | '.' :: rest => digits? Char.isDigit rest
  | cs => some ([], cs)

/-- Reads an exponent, if there is one. -/
def exponent? : List Char → Option (Int × List Char)
  | 'e' :: rest | 'E' :: rest => do
    let (negative, rest) := sign rest
    let (ds, rest) ← digits? Char.isDigit rest
    return (signed negative (exponentOf ds), rest)
  | cs => some (0, cs)

/-- Reads a decimal with a fraction, an exponent or both. -/
def decimal? (cs : List Char) : Option (Decimal × List Char) := do
  let (negative, cs) := sign cs
  let (whole, rest) ← wholeDigits? cs
  guard (rest.head?.any fun c => c = '.' || c = 'e' || c = 'E')
  let (fraction, rest) ← fraction? rest
  let (exponent, rest) ← exponent? rest
  return (⟨negative, whole, fraction, exponent⟩, rest)

/-- Goes on over a float. A decimal that rounds to infinity is refused, unless it is negative. -/
def float? (cs : List Char) : Option (List Char) :=
  match (sign cs).2 with
  | 'i' :: 'n' :: 'f' :: rest | 'n' :: 'a' :: 'n' :: rest => some rest
  | _ => do
    let (d, rest) ← decimal? cs
    if !d.negative && d.isHuge then none else some rest

end OneTape.Toml
