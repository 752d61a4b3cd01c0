/-!
# Reports on descriptions

A fault in a description is reported with its place: the line, underlined from the column of the
fault, and the reason below.
-/

namespace OneTape.Description

/-- Places count characters of the text from zero; `stop` is just behind the last character. -/
structure Span where
  start : Nat
  stop : Nat
deriving DecidableEq, Inhabited

/-- A fault in a description. Lines and columns count from one. -/
structure Report where
  line : Nat
  column : Nat
  /-- The line as shown. -/
  source : String
  /-- What is drawn below the line. -/
  underline : String
  reason : String
deriving DecidableEq, Inhabited

namespace Report

/-- The report as text. -/
def render (r : Report) : String :=
  let number := r.line.repr
  let margin := String.ofList (List.replicate number.length ' ')
  "\n".intercalate
    [margin ++ "--> " ++ number ++ ":" ++ r.column.repr,
      margin ++ " |",
      number ++ " | " ++ r.source,
      margin ++ " | " ++ r.underline,
      margin ++ " |",
      margin ++ " = " ++ r.reason]

/-! ## Finding the place -/

/-- The characters of the line in front of a place, the nearest first, and the number of line ends
before that line. -/
def before (text : List Char) (pos : Nat) : List Char × Nat :=
  (text.take pos).foldl
    (fun (line, ends) c => if c = '\n' then ([], ends + 1) else (c :: line, ends)) ([], 0)

/-- The characters from a place to the end of its line, the line end included. -/
def behind (text : List Char) (pos : Nat) : List Char :=
  let (line, rest) := (text.drop pos).span (· ≠ '\n')
  line ++ rest.take 1

/-- What stands below the characters in front of a place: a tab below a tab, and blanks. -/
def indent (shown : List Char) (column : Nat) : List Char :=
  (shown.take (column - 1)).map fun c => if c = '\t' then '\t' else ' '

/-- A report with a given rule for showing the line and a given mark below it. -/
def atPlace (text : List Char) (pos : Nat) (draw : List Char → List Char) (mark reason : String) :
    Report :=
  let (front, ends) := before text pos
  let column := front.length + 1
  let shown := draw (front.reverse ++ behind text pos)
  ⟨ends + 1, column, String.ofList shown, String.ofList (indent shown column) ++ mark, reason⟩

/-- Leaves the characters out that end lines. -/
def hideLineEnds (line : List Char) : List Char := line.filter fun c => c ≠ '\r' && c ≠ '\n'

/-- Shows the characters that end lines by pictures. -/
def showLineEnds (line : List Char) : List Char :=
  line.map fun c => if c = '\r' then '␍' else if c = '\n' then '␊' else c

/-- A report on a stretch of the text: its first and last character are marked. -/
def onSpan (text : List Char) (span : Span) (reason : String) : Report :=
  let length := span.stop - span.start
  let mark :=
    if length ≤ 1 then "^"
    else String.ofList (['^'] ++ List.replicate (length - 2) '-' ++ ['^'])
  atPlace text span.start hideLineEnds mark reason

/-- A report on a place where the text cannot be read on. If a line ends there, that is shown. -/
def onPlace (text : List Char) (pos : Nat) (reason : String) : Report :=
  let atLineEnd := match text.drop pos with
    | c :: _ => c = '\r' || c = '\n'
    | [] => false
  atPlace text pos (if atLineEnd then showLineEnds else hideLineEnds) "^---" reason

end Report
end OneTape.Description
