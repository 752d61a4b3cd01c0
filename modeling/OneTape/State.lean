import OneTape.Symbol

/-!
# States of the one-tape machine

A state of the generated machine is a structured value: the source state it belongs to, the head
markers discovered on the way to it, and the phase of the simulated step it takes part in. States
are compared by structure and are given a name only when the table is written out.

The states of a tape-extension subroutine belong to the state that needs the extension. They keep
its source state and its markers, and their phase remembers the owner's phase.
-/

namespace OneTape

/-- Which end of a virtual tape an extension adds a cell at. -/
inductive Side
  | left
  | right
deriving DecidableEq, Hashable, Inhabited

/-- The step of a tape extension. -/
inductive ExtensionStep
  /-- Steps back right onto the cell that the head just left. -/
  | realign
  /-- Carries a symbol one cell to the right. -/
  | shift (carried : Symbol)
  /-- Walks back left to the return mark. -/
  | comeBack
deriving DecidableEq, Hashable, Inhabited

/-- The step of the blank-injection pass. -/
inductive InjectionStep
  | start
  | scan
  | comeBack
deriving DecidableEq, Hashable, Inhabited

/-- The part of a simulated step that a state takes part in. Heads count from one. -/
inductive Phase
  /-- Sweeps right to discover the virtual heads. -/
  | discover
  /-- Sweeps left, looking for the marker of a head. -/
  | actor (head : Nat)
  /-- A head has moved and its marker still has to be placed. -/
  | active (head : Nat)
  /-- Every head has been served. -/
  | complete
  /-- A tape extension on behalf of the owner's phase. -/
  | extend (owner : Phase) (side : Side) (step : ExtensionStep)
  /-- The blank-injection pass. -/
  | inject (step : InjectionStep)
deriving DecidableEq, Hashable, Inhabited

/-- A state of the one-tape machine. -/
structure State where
  /-- The source state. -/
  base : String
  /-- The markers discovered so far, one for each head. -/
  heads : List Symbol
  phase : Phase
deriving DecidableEq, Hashable, Inhabited

namespace State

/-- The state that enters discovery for a source state. -/
def source (name : String) : State := ⟨name, [], .discover⟩

/-- Whether the state enters discovery for its source state. -/
def isSource (s : State) : Bool := s.phase == .discover && s.heads.isEmpty

/-- Whether the state is part of a tape extension. -/
def isExtension (s : State) : Bool :=
  match s.phase with
  | .extend .. => true
  | _ => false

/-- Whether the state places the marker of a head that has moved. -/
def isActive (s : State) : Bool :=
  match s.phase with
  | .active _ => true
  | _ => false

/-- The discovery state after one more marker. -/
def advance (s : State) (marker : Symbol) : State :=
  ⟨s.base, s.heads ++ [marker], .discover⟩

/-- The state that looks for the marker of a head. -/
def actor (s : State) (head : Nat) : State := { s with phase := .actor head }

/-- The state that places the marker of a head. -/
def active (s : State) (head : Nat) : State := { s with phase := .active head }

/-- The state in which every head has been served. -/
def complete (s : State) : State := { s with phase := .complete }

/-- The state that follows when a head has been served: heads are served from the last to the
first. -/
def after (s : State) (head : Nat) : State :=
  if head > 1 then s.actor (head - 1) else s.complete

/-- A state of the tape extension owned by `s`. -/
def extension (s : State) (side : Side) (step : ExtensionStep) : State :=
  { s with phase := .extend s.phase side step }

/-- A state of the blank-injection pass in front of `s`. -/
def injection (s : State) (step : InjectionStep) : State := { s with phase := .inject step }

/-- The state in which an extension state's owner waits, for a state of a tape extension. -/
def owner? (s : State) : Option State :=
  match s.phase with
  | .extend owner .. => some { s with phase := owner }
  | _ => none

end State

/-! ## Order -/

namespace Side

/-- The left side comes before the right side. -/
def rank : Side → Nat
  | left => 0
  | right => 1

instance : Ord Side := ⟨fun a b => compare a.rank b.rank⟩

end Side

namespace ExtensionStep

/-- Steps are ordered as they are taken; shifts by the symbol they carry. -/
def order : ExtensionStep → ExtensionStep → Ordering
  | realign, realign => .eq
  | realign, _ => .lt
  | shift _, realign => .gt
  | shift a, shift b => compare a b
  | shift _, comeBack => .lt
  | comeBack, comeBack => .eq
  | comeBack, _ => .gt

instance : Ord ExtensionStep := ⟨order⟩

end ExtensionStep

namespace InjectionStep

/-- Steps are ordered as they are taken. -/
def rank : InjectionStep → Nat
  | start => 0
  | scan => 1
  | comeBack => 2

instance : Ord InjectionStep := ⟨fun a b => compare a.rank b.rank⟩

end InjectionStep

namespace Phase

/-- The place of a phase among the kinds of phase. -/
def rank : Phase → Nat
  | discover => 0
  | actor _ => 1
  | active _ => 2
  | complete => 3
  | extend .. => 4
  | inject _ => 5

/-- Phases are ordered by kind, then by their contents from left to right. -/
def order : Phase → Phase → Ordering
  | actor m, actor n => compare m n
  | active m, active n => compare m n
  | extend p side step, extend q side' step' =>
    (order p q).then ((compare side side').then (compare step step'))
  | inject a, inject b => compare a b
  | p, q => compare p.rank q.rank

instance : Ord Phase := ⟨order⟩

end Phase

namespace State

/-- States are ordered by source state, then markers, then phase. -/
def order (s t : State) : Ordering :=
  (compare s.base t.base).then ((compare s.heads t.heads).then (compare s.phase t.phase))

instance : Ord State := ⟨order⟩

end State

/-! ## Names -/

namespace Side

/-- The letter of a side in state names. -/
def letter : Side → String
  | left => "l"
  | right => "r"

end Side

namespace ExtensionStep

/-- How a step ends the name of its state. -/
def suffix : ExtensionStep → String
  | realign => "M"
  | shift carried => "S[" ++ carried.text ++ "]"
  | comeBack => "R"

end ExtensionStep

namespace InjectionStep

/-- How a step ends the name of its state. -/
def suffix : InjectionStep → String
  | start => "!inj"
  | scan => "!inj>"
  | comeBack => "!inj<"

end InjectionStep

namespace Phase

/-- What follows the source state and the markers in the name of a state. -/
def suffix : Phase → String
  | discover => ""
  | actor n => ":" ++ n.repr
  | active n => ":" ++ n.repr ++ "a"
  | complete => ":F"
  | extend owner side step => owner.suffix ++ "!" ++ side.letter ++ step.suffix
  | inject step => step.suffix

end Phase

namespace State

/-- The markers of a state between square brackets. -/
def headText (heads : List Symbol) : String :=
  String.join (heads.map fun h => "[" ++ h.text ++ "]")

/-- The name of a state. The state that enters discovery has the name of its source state. -/
def name (s : State) : String := s.base ++ headText s.heads ++ s.phase.suffix

end State
end OneTape
