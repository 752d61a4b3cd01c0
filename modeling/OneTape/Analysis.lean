import OneTape.Consolidate
import OneTape.Machine
import OneTape.Ordered
import OneTape.Text.Whitespace

/-!
# Analysis of machines

`analyze` accepts the machines that can be compiled: there are rules, all with the same positive
number of tapes, names and symbols are free of separators, the initial state has rules, and no two
rules disagree. `lint` reports what is legal but suspicious: states with rules and accept states
that no run can reach.
-/

namespace OneTape

/-- What an analysis finds. -/
inductive Finding
  | noRules
  | noTapes
  | tapeCounts (state : String) (expected : Nat)
  | stateName (name : String)
  | symbol (text : String)
  | startState (state : String)
  | conflictingRules (state : String) (read : List Symbol)
  | unreachable (states : List String)
  | unreachedAccept (states : List String)
deriving DecidableEq

namespace Finding

/-- The wording of a finding. -/
def message : Finding → String
  | noRules => "No transitions defined"
  | noTapes => "Transitions must read at least one tape"
  | tapeCounts state expected =>
    "Transition in state '" ++ state ++ "' has inconsistent tape counts (expected "
      ++ expected.repr ++ ")"
  | stateName name => "Invalid state name: '" ++ name ++ "'"
  | symbol text => "Invalid symbol: '" ++ text ++ "'"
  | startState state => "Invalid start state: " ++ state
  | conflictingRules state read =>
    "Conflicting rules in state " ++ state ++ " for symbols " ++ Symbol.quotedList read
  | unreachable states =>
    "Unreachable states detected: " ++ Text.bracketed (states.map Text.quote)
  | unreachedAccept states =>
    "Accept states never reached: " ++ Text.bracketed (states.map Text.quote)

end Finding

namespace Machine

/-! ## Well-formed machines -/

/-- Whether a text can be a state name or a symbol: it is not empty and holds no separator. -/
def isWord (text : String) : Bool :=
  let cs := text.toList
  !cs.isEmpty && cs.all fun c => c != ',' && !Text.isSpace c

/-- There are rules, and all of them have the tape count of the first, which is not zero. -/
def checkStructure (m : Machine) : Except Finding Unit :=
  match m.tapeCount? with
  | none => .error .noRules
  | some 0 => .error .noTapes
  | some tapes =>
    match m.rules.find? fun r =>
        r.read.length != tapes || r.write.length != tapes || r.moves.length != tapes with
    | some r => .error (.tapeCounts r.state tapes)
    | none => .ok ()

/-- Every state name is a word. -/
def checkStateNames (m : Machine) : Except Finding Unit :=
  match m.stateNames.find? (!isWord ·) with
  | some name => .error (.stateName name)
  | none => .ok ()

/-- Every symbol is a word. -/
def checkSymbols (m : Machine) : Except Finding Unit :=
  match m.symbols.find? (!isWord ·.text) with
  | some s => .error (.symbol s.text)
  | none => .ok ()

/-- The initial state has rules. -/
def checkStart (m : Machine) : Except Finding Unit :=
  if (m.rulesFrom m.initial).isEmpty then .error (.startState m.initial) else .ok ()

/-- No two different rules apply in the same state to the same symbols. -/
def checkDeterminism (m : Machine) : Except Finding Unit :=
  match consolidate (fun r : Rule => (r.state, r.read)) m.rules with
  | .error r => .error (.conflictingRules r.state r.read)
  | .ok _ => .ok ()

/-- Accepts a well-formed machine, or reports the first fault. -/
def analyze (m : Machine) : Except Finding Unit := do
  m.checkStructure
  m.checkStateNames
  m.checkSymbols
  m.checkStart
  m.checkDeterminism

/-! ## Reachable states -/

/-- A search for reachable states: the states to visit, the next one in front, and those visited. -/
structure Search where
  /-- A state may stand here several times. -/
  queue : List String
  visited : List String

namespace Search

/-- The search starts with the initial state. -/
def start (m : Machine) : Search := ⟨[m.initial], []⟩

/-- Puts the states that rules lead to in front of the queue, one after the other, except those that
were visited. -/
def enqueue (visited queue : List String) (rules : List Rule) : List String :=
  rules.foldl (fun queue r => if visited.contains r.next then queue else r.next :: queue) queue

/-- Takes the next state from the queue. Unless it was visited before, it is visited and its rules
are followed. -/
def round? (m : Machine) (s : Search) : Option Search :=
  match s.queue with
  | [] => none
  | state :: queue =>
    if s.visited.contains state then
      some ⟨queue, s.visited⟩
    else
      let visited := state :: s.visited
      some ⟨enqueue visited queue (m.rulesFrom state), visited⟩

/-- The rules of the states that were not visited. -/
def unfollowed (visited : List String) (rules : List Rule) : List Rule :=
  rules.filter fun r => !visited.contains r.state

/-- The states in the queue and the rules that are still to be followed. No more rounds than these
are to come, because every rule adds one state at most. -/
def work (m : Machine) (s : Search) : Nat := s.queue.length + (unfollowed s.visited m.rules).length

theorem length_enqueue_le (visited queue : List String) (rules : List Rule) :
    (enqueue visited queue rules).length ≤ queue.length + rules.length := by
  induction rules generalizing queue with
  | nil => exact Nat.le_refl _
  | cons r rules ih =>
    have hstep := ih (if visited.contains r.next then queue else r.next :: queue)
    have hadd : (if visited.contains r.next then queue else r.next :: queue).length ≤
        queue.length + 1 := by
      split
      · exact Nat.le_succ _
      · exact Nat.le_refl _
    simp only [enqueue, List.foldl_cons, List.length_cons] at hstep ⊢
    omega

/-- Visiting a state follows its rules and no others. -/
theorem length_unfollowed_cons {state : String} {visited : List String} (h : state ∉ visited)
    (rules : List Rule) :
    (unfollowed visited rules).length =
      (unfollowed (state :: visited) rules).length + (ownRules state rules).length := by
  induction rules with
  | nil => rfl
  | cons r rules ih =>
    simp only [unfollowed, ownRules, List.filter_cons, List.contains_cons] at ih ⊢
    by_cases hown : r.state = state
    · have hnew : visited.contains state = false := by simpa using h
      simp only [hown, hnew, beq_self_eq_true, Bool.true_or, Bool.not_true, Bool.not_false, if_true,
        Bool.false_eq_true, if_false, List.length_cons, ih]
      omega
    · have hother : (r.state == state) = false := beq_false_of_ne hown
      simp only [hother, Bool.false_or, Bool.false_eq_true, if_false]
      split
      · simp only [List.length_cons, ih]
        omega
      · exact ih

/-- Every round leaves less work. -/
theorem work_lt_of_round? {m : Machine} {s next : Search} (h : s.round? m = some next) :
    next.work m < s.work m := by
  obtain ⟨queue, visited⟩ := s
  cases queue with
  | nil => cases h
  | cons state queue =>
    simp only [round?] at h
    split at h
    · cases h
      simp only [work, List.length_cons]
      omega
    · next hnew =>
      cases h
      have hadded := length_enqueue_le (state :: visited) queue (m.rulesFrom state)
      have hrules := length_unfollowed_cons (by simpa using hnew) m.rules
      simp only [work, rulesFrom, List.length_cons] at hadded ⊢
      omega

/-- The states visited when the queue is empty. -/
def finish (m : Machine) (s : Search) : List String :=
  match _h : s.round? m with
  | none => s.visited
  | some next => next.finish m
termination_by s.work m
decreasing_by exact work_lt_of_round? _h

end Search

/-- The states that some sequence of rules leads to from the initial state. -/
def reachable (m : Machine) : List String := (Search.start m).finish m

/-! ## Lints -/

/-- The states with rules that are not reachable. -/
def unreachableStates (m : Machine) : List String :=
  let reached := m.reachable
  sortedSet (m.domainStates.filter fun s => !reached.contains s)

/-- The accept states that are not reachable. -/
def unreachedAccept (m : Machine) : List String :=
  let reached := m.reachable
  sortedSet (m.accept.filter fun s => !reached.contains s)

/-- What is legal but suspicious in a machine. -/
def lint (m : Machine) : List Finding :=
  let states := m.unreachableStates
  let accept := m.unreachedAccept
  (if states.isEmpty then [] else [.unreachable states])
    ++ if accept.isEmpty then [] else [.unreachedAccept accept]

end Machine
end OneTape
