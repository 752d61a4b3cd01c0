import OneTape.Alphabet
import OneTape.Table

/-!
# Discovery: the sweep to the right

From the entry of a source state the one-tape machine walks right over the single tape and records
the symbol under each virtual head in its state. The states form a tree of prefixes of the tuples
that the rules read. After the last head the state is *determined*: its markers are those of the
tuple that one rule reads.
-/

namespace OneTape.Table

/-- A state that knows the symbol under every head, with the rule these symbols select. -/
structure Determined where
  state : State
  rule : Rule
deriving DecidableEq

/-- The discovery state of a source state after the markers of some read symbols. -/
def discovered (a : Alphabet) (state : String) (reads : List Symbol) : State :=
  ⟨state, reads.map a.marker, .discover⟩

/-- The states after the first `level` heads, one for each prefix of the tuples read. -/
def undetermined (a : Alphabet) (state : String) (rules : List Rule) (level : Nat) : List State :=
  sortedSet (rules.map fun r => discovered a state (r.read.take level))

/-- Whether the symbols that a rule reads agree with the markers a state has discovered. -/
def agrees (a : Alphabet) (s : State) (r : Rule) : Bool :=
  (r.read.zip s.heads).all fun (symbol, head) => a.marker symbol == head

/-- Walks right over every cell without a head. -/
def scanRows (a : Alphabet) (s : State) : List Row :=
  a.unmarked.map fun c => ⟨s, c, s, c, .right⟩

/-- The rows that record one symbol under the next head. A head on a boundary reads as a blank. -/
def recordRows (a : Alphabet) (s : State) (symbol : Symbol) : List Row :=
  let marker := a.marker symbol
  let next := s.advance marker
  (if symbol = Symbol.blank then [⟨s, a.boundaryMarker, next, a.boundaryMarker, .right⟩] else [])
    ++ [⟨s, marker, next, marker, .right⟩]

/-- The symbols that rules which agree with a state expect under the next head. -/
def candidates (a : Alphabet) (rules : List Rule) (s : State) : List Symbol :=
  sortedSet ((rules.filter (agrees a s)).filterMap fun r => r.read[s.heads.length]?)

/-- Records the symbol under the next head. -/
def advanceRows (a : Alphabet) (rules : List Rule) (s : State) : List Row :=
  (candidates a rules s).flatMap (recordRows a s)

/-- The determined states of a source state, one for each of its rules. -/
def determined (a : Alphabet) (state : String) (rules : List Rule) : List Determined :=
  rules.map fun r => ⟨discovered a state r.read, r⟩

/-- Hands a determined state over to the sweep to the left, which begins with the last head. On the
tape end the machine steps back first, since nothing stands right of it. -/
def handOverRows (a : Alphabet) (d : Determined) : List Row :=
  let actor := d.state.actor d.rule.tapeCount
  (a.unmarked.map fun c => ⟨d.state, c, actor, c, .stay⟩)
    ++ [⟨d.state, Symbol.tapeEnd, actor, Symbol.tapeEnd, .left⟩]

/-- The discovery rows of a source state with its rules, for a number of tapes. -/
def discoveryRows (a : Alphabet) (state : String) (rules : List Rule) (tapes : Nat) : List Row :=
  ((List.range tapes).flatMap fun level =>
    (undetermined a state rules level).flatMap fun s => scanRows a s ++ advanceRows a rules s)
    ++ (determined a state rules).flatMap (handOverRows a)

end OneTape.Table
