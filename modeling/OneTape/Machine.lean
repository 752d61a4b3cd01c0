import OneTape.Symbol

/-!
# Machines with several tapes

A machine is a list of rules, each of which reads a tuple of symbols in a state and answers with a
state, a tuple of symbols to write and a tuple of head moves. Nothing is required of a `Machine`
here; `OneTape.Analysis` says which machines are well formed.
-/

namespace OneTape

/-- A head move. -/
inductive Direction
  | left
  | right
  | stay
deriving DecidableEq, Hashable, Inhabited

namespace Direction

/-- The token of a direction in machine descriptions. -/
def token : Direction → String
  | left => "<"
  | right => ">"
  | stay => "-"

/-- Reads a direction token; a letter may stand in place of the sign. -/
def ofToken? (token : String) : Option Direction :=
  if token = "<" ∨ token = "L" then some left
  else if token = ">" ∨ token = "R" then some right
  else if token = "-" ∨ token = "S" then some stay
  else none

end Direction

/-- One rule of a machine with several tapes. -/
structure Rule where
  /-- The state in which the rule applies. -/
  state : String
  /-- The symbols under the heads. -/
  read : List Symbol
  /-- The state that follows. -/
  next : String
  /-- The symbols written under the heads. -/
  write : List Symbol
  /-- The head moves. -/
  moves : List Direction
deriving DecidableEq, Hashable, Inhabited

namespace Rule

/-- The number of tapes a rule reads. -/
def tapeCount (r : Rule) : Nat := r.read.length

/-- Whether two rules apply in the same state to the same symbols. -/
def sameDomain (r s : Rule) : Bool := r.state == s.state && r.read == s.read

/-- The symbols of a rule, those it reads before those it writes. -/
def symbols (r : Rule) : List Symbol := r.read ++ r.write

end Rule

/-- The rules of a list that apply in a state. -/
def ownRules (state : String) (rules : List Rule) : List Rule := rules.filter (·.state == state)

/-- A machine with several tapes. -/
structure Machine where
  name : String
  /-- The state in which runs start. -/
  initial : String
  /-- The states in which a halted run accepts. -/
  accept : List String
  /-- The rules, in the order of the description. -/
  rules : List Rule
deriving DecidableEq, Inhabited

namespace Machine

/-- The number of tapes that the first rule reads, if there is one. -/
def tapeCount? (m : Machine) : Option Nat := m.rules.head?.map Rule.tapeCount

/-- The states that have rules, in the order in which they first appear. -/
def domainStates (m : Machine) : List String := (m.rules.map Rule.state).eraseDups

/-- The rules that apply in a state. -/
def rulesFrom (m : Machine) (state : String) : List Rule := ownRules state m.rules

theorem mem_rulesFrom {m : Machine} {state : String} {r : Rule} :
    r ∈ m.rulesFrom state ↔ r ∈ m.rules ∧ r.state = state := by
  simp [rulesFrom, ownRules]

/-- Whether runs that halt in a state accept. -/
def isAccepting (m : Machine) (state : String) : Bool := m.accept.contains state

/-- Every symbol that a rule reads or writes, in the order of the rules. -/
def symbols (m : Machine) : List Symbol := m.rules.flatMap Rule.symbols

/-- Every state name of the machine: initial, accepting, and those of the rules. -/
def stateNames (m : Machine) : List String :=
  m.initial :: m.accept ++ m.rules.flatMap fun r => [r.state, r.next]

end Machine
end OneTape
