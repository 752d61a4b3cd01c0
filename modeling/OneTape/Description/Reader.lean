import OneTape.Analysis
import OneTape.Description.Grammar

/-!
# Reading descriptions

The lines of a description make a machine: each header may appear once and anywhere, and the rows
are paired in order into a domain line (a state and the symbols read) and a range line (a state, the
symbols written and the head moves). The machine is analysed before it is returned.
-/

namespace OneTape

/-- Why a text does not describe a machine. -/
inductive DescriptionError
  /-- A fault with a place in the text. -/
  | malformed (report : Description.Report)
  | missingName
  | missingInit
  | emptyName
  /-- The machine described is not well formed. -/
  | machine (finding : Finding)
deriving DecidableEq

namespace Description

/-! ## Headers -/

/-- The headers met so far, and the rows in reverse order. -/
structure Parts where
  name : Option String := none
  init : Option String := none
  accept : Option (List String) := none
  rows : List (List String × Span) := []

/-- Why two lines of one description cannot stand together, or a row makes no rule. -/
inductive LineFault
  | duplicate (header : String)
  | noRange
  | noSymbols
  | fieldCount (fields tapes : Nat)
  | direction (token : String)
deriving DecidableEq

/-- The wording of a fault. -/
def LineFault.message : LineFault → String
  | duplicate header => "Duplicate \"" ++ header ++ ":\" declaration"
  | noRange => "Domain line without a range line"
  | noSymbols => "Domain line needs a state and at least one symbol"
  | fieldCount fields tapes =>
    "Range line has " ++ fields.repr ++ " fields, expected " ++ (1 + 2 * tapes).repr ++ " for "
      ++ tapes.repr ++ " tape(s)"
  | direction token => "Unsupported direction: " ++ token

/-- A fault with the stretch of text it is about. -/
abbrev Located := LineFault × Span

/-- Takes one more line. -/
def Parts.add (p : Parts) (n : Node) : Except Located Parts :=
  match n.content with
  | .name text =>
    if p.name.isSome then .error (.duplicate "name", n.span)
    else .ok { p with name := some (String.ofList (Text.trim text.toList)) }
  | .init state =>
    if p.init.isSome then .error (.duplicate "init", n.span)
    else .ok { p with init := some state }
  | .accept states =>
    if p.accept.isSome then .error (.duplicate "accept", n.span)
    else .ok { p with accept := some states }
  | .row items => .ok { p with rows := (items, n.span) :: p.rows }

/-- The headers and rows of the lines of a description. -/
def Parts.ofNodes (nodes : List Node) : Except Located Parts :=
  (nodes.foldlM Parts.add {}).map fun p => { p with rows := p.rows.reverse }

/-! ## Rules -/

/-- Reads direction tokens, or gives back the first that is none. -/
def directions : List String → Except String (List Direction)
  | [] => .ok []
  | token :: tokens =>
    match Direction.ofToken? token with
    | none => .error token
    | some d => (directions tokens).map (d :: ·)

/-- The rule of a domain line and a range line. -/
def rule (domain range : List String × Span) : Except Located Rule :=
  let tapes := domain.1.length - 1
  if tapes = 0 then
    .error (.noSymbols, domain.2)
  else if range.1.length ≠ 1 + 2 * tapes then
    .error (.fieldCount range.1.length tapes, range.2)
  else
    match directions (range.1.drop (1 + tapes)) with
    | .error token => .error (.direction token, range.2)
    | .ok moves =>
      .ok {
        state := domain.1.headD ""
        read := domain.1.tail.map Symbol.mk
        next := range.1.headD ""
        write := (range.1.tail.take tapes).map Symbol.mk
        moves }

/-- The rules of rows that are paired in order. The rules found are collected in reverse order. -/
def rules : List (List String × Span) → List Rule → Except Located (List Rule)
  | [], found => .ok found.reverse
  | [domain], _ => .error (.noRange, domain.2)
  | domain :: range :: rows, found =>
    match rule domain range with
    | .error fault => .error fault
    | .ok r => rules rows (r :: found)

/-! ## Machines -/

/-- The report on a fault. -/
def located (text : List Char) (fault : Located) : DescriptionError :=
  .malformed (Report.onSpan text fault.2 fault.1.message)

/-- The machine that the lines of a text describe; it need not be well formed. -/
def machineOf (text : List Char) (nodes : List Node) : Except DescriptionError Machine := do
  let parts ← (Parts.ofNodes nodes).mapError (located text)
  let some name := parts.name | throw .missingName
  let some initial := parts.init | throw .missingInit
  if name.isEmpty then throw .emptyName
  let rules ← (rules parts.rows []).mapError (located text)
  return { name, initial, accept := parts.accept.getD [], rules }

/-- Reads the description of a well-formed machine. -/
def parse (description : String) : Except DescriptionError Machine := do
  let text := description.toList
  let nodes ← (machine text).mapError fun a => .malformed (Report.onPlace text a.pos a.reason)
  let m ← machineOf text nodes
  m.analyze.mapError .machine
  return m

end Description
end OneTape
