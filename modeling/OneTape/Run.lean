import OneTape.Machine
import OneTape.Tapes
import Std.Data.HashMap

/-!
# Runs of machines

A configuration is a state with tapes and heads. A step reads the symbols under the heads and
applies the rule for them, if there is one. Tapes grow on demand: a head beyond the end of its tape
materialises the blanks up to it, a move right past the end appends a blank, and a move left from
the first cell puts one in front. If several rules read the same symbols in the same state, the last
one counts.
-/

namespace OneTape

/-- The rules of a machine by state and symbols read. -/
structure RuleIndex where
  map : Std.HashMap (String × List Symbol) Rule

namespace RuleIndex

/-- Enters rules in order; a later rule takes the place of an earlier one. -/
def ofRules (rules : List Rule) : RuleIndex :=
  ⟨rules.foldl (fun map r => map.insert (r.state, r.read) r) ∅⟩

/-- The rule for a state and the symbols under the heads. -/
def find? (x : RuleIndex) (state : String) (read : List Symbol) : Option Rule :=
  x.map[(state, read)]?

end RuleIndex

/-- The index of a machine's rules. -/
def Machine.index (m : Machine) : RuleIndex := .ofRules m.rules

/-- A state with tapes and heads, and the number of steps made. -/
structure Configuration where
  state : String
  tapes : Tapes
  steps : Nat
deriving DecidableEq, Inhabited

/-- What a step does. -/
inductive Outcome
  | running
  | halted
deriving DecidableEq, Inhabited

/-! ## Tapes during a step -/

namespace Tapes

/-- Materialises the cell under each head. -/
def settleCells : List (List Symbol) → List Nat → List (List Symbol)
  | tape :: tapes, head :: heads => padTo (head + 1) tape :: settleCells tapes heads
  | tapes, _ => tapes

/-- Materialises the cell under each head. -/
def settle (t : Tapes) : Tapes := { t with tapes := settleCells t.tapes t.heads }

/-- The symbols under the heads. -/
def underHeads (t : Tapes) : List Symbol :=
  List.zipWith (fun tape head => tape[head]?.getD Symbol.blank) t.tapes t.heads

/-- Writes under a head and moves it. -/
def act (write : Symbol) (move : Direction) (tape : List Symbol) (head : Nat) :
    List Symbol × Nat :=
  let tape := tape.set head write
  match move with
  | .stay => (tape, head)
  | .left => if head = 0 then (Symbol.blank :: tape, 0) else (tape, head - 1)
  | .right => (padTo (head + 2) tape, head + 1)

/-- Writes and moves on each tape for which there is an action. -/
def actAll : List (Symbol × Direction) → List (List Symbol) → List Nat →
    List (List Symbol) × List Nat
  | (write, move) :: actions, tape :: tapes, head :: heads =>
    let (tape, head) := act write move tape head
    let (tapes, heads) := actAll actions tapes heads
    (tape :: tapes, head :: heads)
  | _, tapes, heads => (tapes, heads)

/-- Applies the writes and moves of a rule. -/
def apply (r : Rule) (t : Tapes) : Tapes :=
  let (tapes, heads) := actAll (r.write.zip r.moves) t.tapes t.heads
  ⟨tapes, heads⟩

end Tapes

/-! ## Steps -/

namespace Configuration

/-- The configuration in which a run of a machine starts. -/
def start (m : Machine) (input : Tapes) : Configuration := ⟨m.initial, input, 0⟩

/-- Makes a step. A machine that has no rule to apply halts; the cells under its heads have been
materialised then. -/
def step (x : RuleIndex) (c : Configuration) : Outcome × Configuration :=
  let tapes := c.tapes.settle
  match x.find? c.state tapes.underHeads with
  | none => (.halted, { c with tapes })
  | some r => (.running, ⟨r.next, tapes.apply r, c.steps + 1⟩)

/-- Makes steps until the machine halts, at most a given number. -/
def run (x : RuleIndex) : Nat → Configuration → Outcome × Configuration
  | 0, c => (.running, c)
  | n + 1, c =>
    match c.step x with
    | (.halted, c) => (.halted, c)
    | (.running, c) => run x n c

/-- Makes steps until the machine halts or has made a given number of steps in all. -/
def runUpTo (x : RuleIndex) (limit : Nat) (c : Configuration) : Outcome × Configuration :=
  c.run x (limit - c.steps)

end Configuration
end OneTape
