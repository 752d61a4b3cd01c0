import OneTape.FlatMachine

/-!
# The log of a compilation

What a compilation reports while it works: warnings about the machine, the source states as they are
expanded, and the size of the result. A compilation that fails has reported everything up to the
failure.
-/

namespace OneTape

/-- An event in the log of a compilation. -/
inductive Event
  /-- A warning about the source machine. -/
  | finding (machine : String) (finding : Finding)
  /-- A symbol of the source machine is escaped. -/
  | escape (machine : String) (source escaped : Symbol)
  /-- A source state is expanded: the number of its rules and of its discovery rows. -/
  | expand (state : String) (rules discovery : Nat)
  /-- Tape extensions are added: the number of rows replaced on the right and added on the left. -/
  | extend (right left : Nat)
  /-- The result. -/
  | done (machine : String) (tapes symbols rows : Nat)
deriving DecidableEq

namespace Event

/-- How important an event is. -/
inductive Level
  | debug
  | info
  | warn
deriving DecidableEq

/-- The level of an event. -/
def level : Event → Level
  | finding .. | escape .. => .warn
  | expand .. | extend .. => .debug
  | done .. => .info

/-- The wording of an event. -/
def message : Event → String
  | finding _ f => (Error.machine f).message
  | escape _ source escaped => "rewriting symbol " ++ source.text ++ " to " ++ escaped.text
  | expand .. => "expanding source state"
  | extend .. => "adding tape-extension subroutines"
  | done .. => "flattened machine"

end Event

/-- What is reported while a plan is prepared, for settings and a machine that were accepted. -/
def preparationLog (m : Machine) (c : Config) : List Event :=
  m.lint.map (.finding m.name)
    ++ (m.escapes c.iteration).map fun (source, escaped) => .escape m.name source escaped

namespace Plan

variable (p : Plan)

/-- What is reported while a plan is carried out. -/
def log : List Event :=
  (p.machine.domainStates.map fun s =>
    .expand s (p.machine.rulesFrom s).length (p.discoveryRows s).length)
    ++ [.extend (Table.replaced p.alphabet p.config.safety p.baseRows).length
      (Table.addedLeft p.alphabet p.config.safety p.baseRows).length]
    ++ match p.table with
      | .ok rows => [.done p.machine.name p.tapes p.alphabet.symbols.length rows.length]
      | .error _ => []

end Plan

/-- What is reported while a machine is compiled. -/
def Machine.flattenLog (m : Machine) (c : Config) : List Event :=
  match c.validate, m.analyze with
  | .ok _, .ok _ =>
    preparationLog m c ++ match Plan.prepare m c with
      | .ok p => p.log
      | .error _ => []
  | _, _ => []

end OneTape
