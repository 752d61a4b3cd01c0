import OneTape.Toml.Number

/-!
# Gaps and strings in TOML

Blanks, comments and line ends, and the four kinds of strings: basic and literal ones, each on one
line or on several. Each function reads from the front of a list of characters and gives back the
rest. The rest is never longer than the list, which is why the loops end.
-/

namespace OneTape.Toml

/-! ## Gaps -/

/-- Whether a character may stand in comments and literal strings: no control character but the
tab. -/
def isPlain (c : Char) : Bool := c = '\t' || (0x20 ≤ c.toNat && c.toNat ≠ 0x7F)

/-- Skips blanks and tabs. -/
def skipBlanks (cs : List Char) : List Char := cs.dropWhile fun c => c = ' ' || c = '\t'

theorem length_skipBlanks_le (cs : List Char) : (skipBlanks cs).length ≤ cs.length :=
  (List.dropWhile_sublist _).length_le

/-- Goes on over a line end. -/
def lineEnd? : List Char → Option (List Char)
  | '\n' :: rest => some rest
  | '\r' :: '\n' :: rest => some rest
  | _ => none

theorem length_lt_of_lineEnd? {cs rest : List Char} (h : lineEnd? cs = some rest) :
    rest.length < cs.length := by
  unfold lineEnd? at h
  split at h
  · cases h
    simp
  · cases h
    simp only [List.length_cons]
    omega
  · cases h

/-- Goes on over a comment, if one stands here. -/
def skipComment : List Char → List Char
  | '#' :: rest => rest.dropWhile isPlain
  | cs => cs

theorem length_skipComment_le (cs : List Char) : (skipComment cs).length ≤ cs.length := by
  unfold skipComment
  split
  · exact Nat.le_succ_of_le (List.dropWhile_sublist _).length_le
  · exact Nat.le_refl _

/-- Goes on over the rest of a line: blanks, a comment and the line end or the end of the text. -/
def endOfLine? (cs : List Char) : Option (List Char) :=
  match skipComment (skipBlanks cs) with
  | [] => some []
  | cs => lineEnd? cs

/-- Skips blanks, comments and line ends inside an array. -/
def skipLines (cs : List Char) : List Char :=
  match _h : lineEnd? (skipComment (skipBlanks cs)) with
  | some rest => skipLines rest
  | none => skipComment (skipBlanks cs)
termination_by cs.length
decreasing_by
  exact Nat.lt_of_lt_of_le (length_lt_of_lineEnd? _h)
    (Nat.le_trans (length_skipComment_le _) (length_skipBlanks_le _))

/-! ## Escapes -/

/-- The character with a code point of hexadecimal digits. -/
def codePoint? (digits : List Char) : Option Char := do
  let n ← digits.foldlM (fun n c => (hexDigit? c).map (n * 16 + ·)) 0
  if n.isValidChar then some (Char.ofNat n) else none

/-- The character with a code point of a fixed count of digits, with the rest behind it. -/
def codePointOf? (count : Nat) (cs : List Char) : Option (Char × List Char) :=
  let ds := cs.take count
  if ds.length < count then none else (codePoint? ds).map fun c => (c, cs.drop count)

theorem length_le_of_codePointOf? {count : Nat} {cs rest : List Char} {c : Char}
    (h : codePointOf? count cs = some (c, rest)) : rest.length ≤ cs.length := by
  simp only [codePointOf?] at h
  split at h
  · cases h
  · obtain ⟨_, _, h⟩ := Option.map_eq_some_iff.mp h
    cases h
    simp

/-- The character of an escape, with the rest behind it. -/
def escape? : List Char → Option (Char × List Char)
  | 'b' :: rest => some ('\x08', rest)
  | 't' :: rest => some ('\t', rest)
  | 'n' :: rest => some ('\n', rest)
  | 'f' :: rest => some ('\x0c', rest)
  | 'r' :: rest => some ('\r', rest)
  | '"' :: rest => some ('"', rest)
  | '\\' :: rest => some ('\\', rest)
  | 'u' :: rest => codePointOf? 4 rest
  | 'U' :: rest => codePointOf? 8 rest
  | _ => none

theorem length_le_of_escape? {cs rest : List Char} {c : Char} (h : escape? cs = some (c, rest)) :
    rest.length ≤ cs.length := by
  unfold escape? at h
  split at h
  case h_8 | h_9 => exact Nat.le_succ_of_le (length_le_of_codePointOf? h)
  case h_10 => cases h
  all_goals
    cases h
    exact Nat.le_succ _

/-! ## Strings on one line -/

/-- Reads a basic string behind its quote. The text read is kept in reverse. -/
def basic? (cs found : List Char) : Option (String × List Char) :=
  match cs with
  | '"' :: rest => some (String.ofList found.reverse, rest)
  | '\\' :: rest =>
    match _h : escape? rest with
    | some (c, rest) => basic? rest (c :: found)
    | none => none
  | c :: rest => if isPlain c then basic? rest (c :: found) else none
  | [] => none
termination_by cs.length
decreasing_by
  · exact Nat.lt_succ_of_le (length_le_of_escape? _h)
  · exact Nat.lt_succ_self _

/-- Reads a literal string behind its quote. -/
def literal? (cs : List Char) : Option (String × List Char) :=
  let inner := cs.takeWhile fun c => c ≠ '\'' && isPlain c
  match cs.drop inner.length with
  | '\'' :: rest => some (String.ofList inner, rest)
  | _ => none

/-- Reads a string that stands on one line. -/
def shortString? : List Char → Option (String × List Char)
  | '"' :: rest => basic? rest []
  | '\'' :: rest => literal? rest
  | _ => none

/-! ## Strings on several lines -/

/-- The number of quotes in front, up to five. -/
def quoteCount (quote : Char) (cs : List Char) : Nat := ((cs.take 5).takeWhile (· = quote)).length

/-- Skips blanks and line ends. -/
def skipJoined (cs : List Char) : List Char :=
  match _h : lineEnd? (skipBlanks cs) with
  | some rest => skipJoined rest
  | none => skipBlanks cs
termination_by cs.length
decreasing_by exact Nat.lt_of_lt_of_le (length_lt_of_lineEnd? _h) (length_skipBlanks_le _)

theorem length_skipJoined_le (cs : List Char) : (skipJoined cs).length ≤ cs.length := by
  fun_induction skipJoined cs with
  | case1 cs rest h ih =>
    have := length_lt_of_lineEnd? h
    have := length_skipBlanks_le cs
    omega
  | case2 cs _ => exact length_skipBlanks_le cs

/-- Goes on over a backslash that joins lines, behind which only blanks stand up to the end of the
line, and over the gap up to the text of a later line. -/
def joined? (cs : List Char) : Option (List Char) :=
  if (lineEnd? (skipBlanks cs)).isSome then some (skipJoined cs) else none

theorem length_le_of_joined? {cs rest : List Char} (h : joined? cs = some rest) :
    rest.length ≤ cs.length := by
  unfold joined? at h
  split at h
  · cases h
    exact length_skipJoined_le cs
  · cases h

/-- Reads a string of several lines behind its quotes. Line ends become line feeds. Up to two quotes
in a row belong to the text, also right before the closing ones. Escapes are read in basic strings
only. -/
def multiLine? (quote : Char) (cs found : List Char) : Option (String × List Char) :=
  match cs with
  | [] => none
  | c :: rest =>
    if c = quote then
      let quotes := quoteCount quote (c :: rest)
      if 3 ≤ quotes then
        let text := List.replicate (quotes - 3) quote ++ found
        some (String.ofList text.reverse, (c :: rest).drop quotes)
      else
        multiLine? quote rest (c :: found)
    else if c = '\\' && quote = '"' then
      match _hj : joined? rest with
      | some rest => multiLine? quote rest found
      | none =>
        match _he : escape? rest with
        | some (c, rest) => multiLine? quote rest (c :: found)
        | none => none
    else
      match _hl : lineEnd? (c :: rest) with
      | some rest => multiLine? quote rest ('\n' :: found)
      | none => if isPlain c then multiLine? quote rest (c :: found) else none
termination_by cs.length
decreasing_by
  · exact Nat.lt_succ_self _
  · exact Nat.lt_succ_of_le (length_le_of_joined? _hj)
  · exact Nat.lt_succ_of_le (length_le_of_escape? _he)
  · exact length_lt_of_lineEnd? _hl
  · exact Nat.lt_succ_self _

/-- A line end right behind the opening quotes is not part of the text. -/
def skipFirstLineEnd (cs : List Char) : List Char := (lineEnd? cs).getD cs

/-- Reads a string. -/
def string? : List Char → Option (String × List Char)
  | '"' :: '"' :: '"' :: rest => multiLine? '"' (skipFirstLineEnd rest) []
  | '\'' :: '\'' :: '\'' :: rest => multiLine? '\'' (skipFirstLineEnd rest) []
  | cs => shortString? cs

end OneTape.Toml
