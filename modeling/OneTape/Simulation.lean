import OneTape.FlatMachine
import OneTape.Run

/-!
# Watching a one-tape machine simulate

A one-tape machine made from a machine with several tapes passes through states that bear the name
of a source state. Each time it enters one, its tape shows a configuration of the source machine.
`Simulation.watch` runs the one-tape machine and records these moments.
-/

namespace OneTape.Simulation

/-- A moment at which the one-tape machine enters a source state. -/
structure Observation where
  state : String
  step : Nat
  head : Nat
  /-- What the tape shows. -/
  shown : Except LayoutError Tapes

/-- What is watched: the rules of the one-tape machine, which names are source states, and the
iteration of the markers. -/
structure Setup where
  index : RuleIndex
  isSource : String → Bool
  iteration : Nat

/-- The cells of the single tape. -/
def cells (c : Configuration) : List Symbol := c.tapes.tapes.headD []

/-- The position on the single tape. -/
def position (c : Configuration) : Nat := c.tapes.heads.headD 0

/-- What is observed in a configuration. -/
def Setup.observe (s : Setup) (c : Configuration) : Observation :=
  ⟨c.state, c.steps, position c, Tapes.decode (cells c) s.iteration⟩

/-- How a run that was watched ended. -/
structure Watched where
  observed : List Observation
  outcome : Outcome
  final : Configuration

/-- Goes on watching for at most a number of steps, as long as there are fewer observations than
asked for. Observations are collected in reverse order. -/
def Setup.continue (s : Setup) (entries : Nat) : Nat → List Observation → Configuration → Watched
  | 0, observed, c => ⟨observed.reverse, .running, c⟩
  | n + 1, observed, c =>
    if observed.length < entries then
      match c.step s.index with
      | (.halted, next) => ⟨observed.reverse, .halted, next⟩
      | (.running, next) =>
        if !s.isSource c.state && s.isSource next.state then
          Setup.continue s entries n (s.observe next :: observed) next
        else
          Setup.continue s entries n observed next
    else
      ⟨observed.reverse, .running, c⟩

/-- Watches a run for at most a number of steps and of observations. The start counts as an
observation if it is in a source state. -/
def Setup.watch (s : Setup) (entries steps : Nat) (c : Configuration) : Watched :=
  let observed := if s.isSource c.state then [s.observe c] else []
  s.continue entries (steps - c.steps) observed c

/-- A one-tape machine with its states given by name, and the cells of an input laid out for it. -/
structure Prepared where
  machine : Machine
  cells : List Symbol

/-- Compiles a machine and lays an input out for the result. -/
def prepare (m : Machine) (c : Config) (input : Tapes) : Except Error Prepared := do
  let plan ← Plan.prepare m c
  let flat ← plan.flatten
  let machine ← flat.toMachine
  let cells ← ((input.map plan.escape).encode c.iteration).mapError .layout
  return ⟨machine, cells⟩

/-- Compiles a machine and watches the result on an input. -/
def watch (m : Machine) (c : Config) (input : Tapes) (entries steps : Nat) :
    Except Error (Machine × Watched) := do
  let p ← prepare m c input
  let setup : Setup := ⟨p.machine.index, m.stateNames.contains, c.iteration⟩
  let start := Configuration.start p.machine ⟨[p.cells], [0]⟩
  return (p.machine, setup.watch entries steps start)

end OneTape.Simulation
