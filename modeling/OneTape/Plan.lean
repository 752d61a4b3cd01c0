import OneTape.Coverage
import OneTape.Machine.Escape
import OneTape.Table.Execution
import OneTape.Table.Injection

/-!
# Plans

A compilation first prepares a plan: settings and machine are checked, the machine's symbols are
escaped where that is needed, and the alphabet is derived. A plan determines the rows of the
one-tape machine: every source state is expanded into discovery and execution rows, the tape
extensions are added, and the rows are assembled into a table.
-/

namespace OneTape

/-- All that is known before rows are generated. -/
structure Plan where
  /-- The machine with its symbols escaped. -/
  machine : Machine
  config : Config
  alphabet : Alphabet
  tapes : Nat
  /-- The escaped symbols with their escaped forms. -/
  escapes : List (Symbol × Symbol)
deriving DecidableEq

namespace Plan

/-- Whether a placeholder can be mistaken for a symbol of the alphabet or has to be escaped. -/
def clashes (a : Alphabet) (placeholder : Symbol) : Bool :=
  a.symbols.contains placeholder || placeholder.needsEscape a.iteration

/-- The plan for a machine whose settings and rules have been checked. -/
def ofChecked (m : Machine) (c : Config) (tapes : Nat) : Except Error Plan := do
  let escaped := m.escape c.iteration
  let alphabet := Alphabet.ofMachine escaped c.iteration
  if let some p := c.placeholder then
    if clashes alphabet p then throw (.config (.placeholderClash p m.name))
  if c.mode = .strict then Coverage.check escaped alphabet.symbols tapes
  return ⟨escaped, c, alphabet, tapes, m.escapes c.iteration⟩

/-- Checks settings and machine, and derives what the rows are generated from. -/
def prepare (m : Machine) (c : Config) : Except Error Plan := do
  c.validate.mapError .config
  m.analyze.mapError .machine
  match m.tapeCount? with
  | none => throw (.machine .noRules)
  | some tapes => ofChecked m c tapes

variable (p : Plan)

/-- The symbol that stands for an input symbol. -/
def escape (s : Symbol) : Symbol := s.escape p.config.iteration

/-! ## Generating rows -/

/-- The state that enters discovery for the machine's initial state. -/
def start : State := State.source p.machine.initial

/-- The initial state of the one-tape machine. -/
def initial : State :=
  if p.config.placeholder.isSome then Table.injectionEntry p.start else p.start

/-- The rows of the blank-injection pass, if there is one. -/
def injectionRows : List Row :=
  match p.config.placeholder with
  | some placeholder => Table.injectionRows p.alphabet p.start placeholder
  | none => []

/-- The discovery rows of a source state. -/
def discoveryRows (state : String) : List Row :=
  Table.discoveryRows p.alphabet state (p.machine.rulesFrom state) p.tapes

/-- The execution rows of a source state. -/
def executionRows (state : String) : List Row :=
  (Table.determined p.alphabet state (p.machine.rulesFrom state)).flatMap
    (Table.executionRows p.alphabet)

/-- The rows of all phases but the tape extensions. -/
def baseRows : List Row :=
  p.injectionRows
    ++ p.machine.domainStates.flatMap fun s => p.discoveryRows s ++ p.executionRows s

/-- The rows with the tape extensions, assembled into a table. -/
def table : Except Error (List Row) := do
  let extended ← (Table.extend p.alphabet p.config.safety p.baseRows).mapError .edgeWrite
  (Table.assemble extended).mapError .conflict

/-- Whether the machine halts in a state when the source machine halts in an accept state: it is a
discovery state that has not found all heads. -/
def isAccepting (s : State) : Bool :=
  s.phase == .discover && s.heads.length < p.tapes && p.machine.isAccepting s.base

/-- The accept states of the one-tape machine. A source machine stops in an accept state when no
rule applies, and the one-tape machine then stops during the discovery for that state. -/
def accept (rows : List Row) : List State :=
  sortedSet (p.machine.accept.map State.source ++ (Table.states rows).filter p.isAccepting)

end Plan
end OneTape
