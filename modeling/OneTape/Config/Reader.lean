import OneTape.Config
import OneTape.Toml.Reader

/-!
# Reading settings

Settings are written in TOML. Every key may be missing and then has its default; other keys are
refused. `mode` is a string, or a table whose one key is the mode and whose value there is empty.
`safety` is a table with the keys `left` and `right`, or an array of their values in that order, of
which some may be missing and further ones are ignored.
-/

namespace OneTape.Config

open Toml (Value Entries)

/-- Whether all keys of a table are among the given ones. -/
def hasOnly (keys : List String) (entries : Entries) : Bool :=
  entries.all fun (key, _) => keys.contains key

/-- Reads an optional key. -/
def optional? {α : Type} (entries : Entries) (key : String) (default : α)
    (read? : Value → Option α) : Option α :=
  match entries.get? key with
  | some v => read? v
  | none => some default

/-- Reads the iteration, an integer of thirty-two bits without sign. -/
def iteration? : Value → Option Nat
  | .integer n => if 0 ≤ n ∧ n < 4294967296 then some n.toNat else none
  | _ => none

/-- Reads the name of a mode. -/
def modeOfName? (name : String) : Option Mode :=
  if name = "normal" then some .normal
  else if name = "strict" then some .strict
  else none

/-- Reads a mode. -/
def mode? : Value → Option Mode
  | .string name => modeOfName? name
  | .table _ [(name, .table _ [])] | .table _ [(name, .array [])] => modeOfName? name
  | _ => none

/-- Reads a truth value. -/
def boolean? : Value → Option Bool
  | .boolean b => some b
  | _ => none

/-- Reads the ends of the tapes that are extended. -/
def safety? : Value → Option Safety
  | .array [] => some ⟨true, true⟩
  | .array [left] => do return ⟨← boolean? left, true⟩
  | .array (left :: right :: _) => do return ⟨← boolean? left, ← boolean? right⟩
  | .table _ entries => do
    guard (hasOnly ["left", "right"] entries)
    return ⟨← optional? entries "left" true boolean?, ← optional? entries "right" true boolean?⟩
  | _ => none

/-- Reads the placeholder. -/
def placeholder? : Value → Option (Option Symbol)
  | .string text => some (some ⟨text⟩)
  | _ => none

/-- The settings of a table. -/
def ofEntries? (entries : Entries) : Option Config := do
  guard (hasOnly ["iteration", "mode", "safety", "placeholder"] entries)
  return {
    iteration := ← optional? entries "iteration" 1 iteration?
    mode := ← optional? entries "mode" .normal mode?
    safety := ← optional? entries "safety" ⟨true, true⟩ safety?
    placeholder := ← optional? entries "placeholder" none placeholder? }

/-- Reads and validates settings. -/
def parse (s : String) : Except ConfigError Config := do
  match (Toml.parse? s).bind ofEntries? with
  | none => throw .unreadable
  | some c =>
    c.validate
    return c

end OneTape.Config
