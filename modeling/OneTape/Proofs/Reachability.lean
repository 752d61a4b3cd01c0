import Mathlib.Data.String.Basic
import Mathlib.Logic.Relation
import OneTape.Proofs.Lockstep

/-!
# Reachable states and lints

A lint reports the states that no sequence of rules leads to from the initial state. The search for
reachable states keeps the states visited and a queue of states to visit, in which a state may stand
several times. The rules of a state are followed only when it is visited for the first time, so the
search ends on graphs with cycles as well, after one round more than there are rules at most.

Results:
* `Explored.round`, `Explored.finish`: the invariant of the search, round by round and to its end.
* `Search.iterate_round?`: the number of rounds.
* `mem_reachable`: the search finds the states that rules lead to.
* `Configuration.reached_of_run`: runs stay among these states.
* `lint_exact`: what the lints report, and that no run enters it.
-/

namespace OneTape

open Relation

namespace Machine

variable {m : Machine} {s state : String}

/-- One state leads to another by a rule. -/
def LeadsTo (m : Machine) (s t : String) : Prop := ∃ r ∈ m.rules, r.state = s ∧ r.next = t

/-- Some sequence of rules leads from the initial state to a state. -/
def Reached (m : Machine) (s : String) : Prop := ReflTransGen m.LeadsTo m.initial s

/-! ## The search -/

namespace Search

theorem mem_enqueue {visited queue : List String} {rules : List Rule} :
    s ∈ enqueue visited queue rules ↔ s ∈ queue ∨ s ∉ visited ∧ ∃ r ∈ rules, r.next = s := by
  induction rules generalizing queue with
  | nil => simp [enqueue]
  | cons r rules ih =>
    show s ∈ enqueue visited (if visited.contains r.next then queue else r.next :: queue) rules ↔ _
    rw [ih, List.exists_mem_cons_iff]
    by_cases hvisited : r.next ∈ visited
    · have hold : s ∉ visited → r.next ≠ s := fun hs hr => hs (hr ▸ hvisited)
      rw [if_pos (List.contains_iff_mem.mpr hvisited)]
      tauto
    · have hnew : r.next = s → s ∉ visited := fun hr => hr ▸ hvisited
      rw [if_neg (mt List.contains_iff_mem.mp hvisited), List.mem_cons, eq_comm]
      tauto

theorem work_start (m : Machine) : (start m).work m = m.rules.length + 1 := by
  simp [start, work, unfollowed, Nat.add_comm]

/-- What a round does. -/
theorem round?_eq_some {t t' : Search} (h : t.round? m = some t') :
    ∃ state queue, t.queue = state :: queue ∧
      (state ∈ t.visited ∧ t' = ⟨queue, t.visited⟩ ∨ state ∉ t.visited ∧
        t' = ⟨enqueue (state :: t.visited) queue (m.rulesFrom state), state :: t.visited⟩) := by
  obtain ⟨queue, visited⟩ := t
  cases queue with
  | nil => cases h
  | cons state queue =>
    refine ⟨state, queue, rfl, ?_⟩
    simp only [round?] at h
    split_ifs at h with hs
    · exact .inl ⟨List.contains_iff_mem.mp hs, (Option.some.inj h).symm⟩
    · exact .inr ⟨mt List.contains_iff_mem.mpr hs, (Option.some.inj h).symm⟩

/-- The search goes on until its queue is empty. -/
theorem queue_of_round?_eq_none {t : Search} (h : t.round? m = none) : t.queue = [] := by
  obtain ⟨queue, visited⟩ := t
  cases queue with
  | nil => rfl
  | cons state queue =>
    simp only [round?] at h
    split_ifs at h

/-- **The search ends** with an empty queue, after as many rounds as there is work at most. -/
theorem iterate_round? (m : Machine) (t : Search) :
    ∃ n ≤ t.work m, (fun t : Option Search => t.bind (round? m))^[n] (some t) =
      some ⟨[], t.finish m⟩ := by
  induction t using finish.induct m with
  | case1 t hround =>
    refine ⟨0, Nat.zero_le _, ?_⟩
    rw [finish, hround, ← queue_of_round?_eq_none hround]
    rfl
  | case2 t next hround ih =>
    obtain ⟨n, hn, hiterate⟩ := ih
    refine ⟨n + 1, Nat.lt_of_le_of_lt hn (work_lt_of_round? hround), ?_⟩
    rw [finish, Function.iterate_succ_apply, Option.bind_some, hround, hiterate]

end Search

/-- What is known during the search: states that were visited or stand in the queue are reached, and
the rules of the states that were visited have been followed. -/
structure Explored (m : Machine) (t : Search) : Prop where
  reached : ∀ s, s ∈ t.visited ∨ s ∈ t.queue → m.Reached s
  followed : ∀ r ∈ m.rules, r.state ∈ t.visited → r.next ∈ t.visited ∨ r.next ∈ t.queue
  initial : m.initial ∈ t.visited ∨ m.initial ∈ t.queue
  nodup : t.visited.Nodup

theorem reached_initial (m : Machine) : m.Reached m.initial := ReflTransGen.refl

theorem explored_start (m : Machine) : Explored m (.start m) where
  reached s hs := by
    obtain rfl : s = m.initial := by simpa [Search.start] using hs
    exact m.reached_initial
  followed r _ hr := by cases hr
  initial := .inr List.mem_cons_self
  nodup := List.nodup_nil

namespace Explored

variable {t t' : Search} {queue : List String}

/-- A state that was visited is dropped from the queue. -/
theorem skip (h : Explored m t) (hqueue : t.queue = state :: queue) (hs : state ∈ t.visited) :
    Explored m ⟨queue, t.visited⟩ := by
  have hdrop : ∀ s, s ∈ t.visited ∨ s ∈ t.queue → s ∈ t.visited ∨ s ∈ queue := by
    intro s hmem
    rw [hqueue] at hmem
    rcases hmem with hmem | hmem
    · exact .inl hmem
    rcases List.mem_cons.mp hmem with rfl | hmem
    · exact .inl hs
    · exact .inr hmem
  refine ⟨fun s hmem => h.reached s ?_, fun r hr hv => hdrop _ (h.followed r hr hv),
    hdrop _ h.initial, h.nodup⟩
  rw [hqueue]
  exact hmem.imp_right (List.mem_cons_of_mem state)

/-- A state is visited and its rules are followed. -/
theorem visit (h : Explored m t) (hqueue : t.queue = state :: queue) (hs : state ∉ t.visited) :
    Explored m ⟨Search.enqueue (state :: t.visited) queue (m.rulesFrom state),
      state :: t.visited⟩ := by
  have hkeep : ∀ s, s ∈ t.visited ∨ s ∈ t.queue → s ∈ state :: t.visited ∨
      s ∈ Search.enqueue (state :: t.visited) queue (m.rulesFrom state) := by
    intro s hmem
    rw [hqueue] at hmem
    simp only [List.mem_cons, Search.mem_enqueue] at hmem ⊢
    tauto
  have hstate : m.Reached state := h.reached state (.inr (hqueue ▸ List.mem_cons_self))
  constructor
  · intro s hmem
    rcases hmem with hmem | hmem
    · rcases List.mem_cons.mp hmem with rfl | hmem
      · exact hstate
      · exact h.reached s (.inl hmem)
    · rcases Search.mem_enqueue.mp hmem with hmem | ⟨-, r, hr, rfl⟩
      · exact h.reached s (.inr (hqueue ▸ List.mem_cons_of_mem state hmem))
      · obtain ⟨hr, hrs⟩ := mem_rulesFrom.mp hr
        exact hstate.tail ⟨r, hr, hrs, rfl⟩
  · intro r hr hv
    rcases List.mem_cons.mp hv with hrs | hv
    · -- a state that is not added to the queue was visited before
      by_cases hnext : r.next ∈ state :: t.visited
      · exact .inl hnext
      · exact .inr (Search.mem_enqueue.mpr (.inr ⟨hnext, r, mem_rulesFrom.mpr ⟨hr, hrs⟩, rfl⟩))
    · exact hkeep _ (h.followed r hr hv)
  · exact hkeep _ h.initial
  · exact List.nodup_cons.mpr ⟨hs, h.nodup⟩

theorem round (h : Explored m t) (hround : t.round? m = some t') : Explored m t' := by
  obtain ⟨state, queue, hqueue, ⟨hs, rfl⟩ | ⟨hs, rfl⟩⟩ := Search.round?_eq_some hround
  · exact h.skip hqueue hs
  · exact h.visit hqueue hs

theorem finish (h : Explored m t) : Explored m ⟨[], t.finish m⟩ := by
  induction t using Search.finish.induct m with
  | case1 t hround =>
    rw [Search.finish, hround, ← Search.queue_of_round?_eq_none hround]
    exact h
  | case2 t next hround ih =>
    rw [Search.finish, hround]
    exact ih (h.round hround)

/-- With an empty queue all states that rules lead to have been visited. -/
theorem mem_visited {visited : List String} (h : Explored m ⟨[], visited⟩) :
    s ∈ visited ↔ m.Reached s := by
  constructor
  · exact fun hs => h.reached s (.inl hs)
  · intro hs
    induction hs with
    | refl => simpa using h.initial
    | tail _ hstep ih =>
      obtain ⟨r, hr, rfl, rfl⟩ := hstep
      simpa using h.followed r hr ih

end Explored

theorem explored_reachable (m : Machine) : Explored m ⟨[], m.reachable⟩ := (explored_start m).finish

/-- **The search finds the states that rules lead to.** -/
theorem mem_reachable : s ∈ m.reachable ↔ m.Reached s := (explored_reachable m).mem_visited

/-! ## Lints -/

/-- A finding that carries a list of states is made if and only if the list is not empty. -/
theorem mem_finding_iff (make : List String → Finding) (hmake : Function.Injective make)
    {states found : List String} :
    make states ∈ (if found.isEmpty then [] else [make found]) ↔ states ≠ [] ∧ states = found := by
  split_ifs with h
  · rw [List.isEmpty_iff] at h
    simp [h]
  · rw [List.isEmpty_iff] at h
    rw [List.mem_singleton, hmake.eq_iff]
    exact ⟨fun heq => ⟨heq ▸ h, heq⟩, And.right⟩

theorem unreachable_mem_lint {states : List String} :
    Finding.unreachable states ∈ m.lint ↔ states ≠ [] ∧ states = m.unreachableStates := by
  have hother : Finding.unreachable states ∉
      if m.unreachedAccept.isEmpty then [] else [Finding.unreachedAccept m.unreachedAccept] := by
    split_ifs <;> simp
  rw [← mem_finding_iff Finding.unreachable fun _ _ => Finding.unreachable.inj]
  exact List.mem_append.trans (or_iff_left hother)

theorem unreachedAccept_mem_lint {states : List String} :
    Finding.unreachedAccept states ∈ m.lint ↔ states ≠ [] ∧ states = m.unreachedAccept := by
  have hother : Finding.unreachedAccept states ∉
      if m.unreachableStates.isEmpty then [] else [Finding.unreachable m.unreachableStates] := by
    split_ifs <;> simp
  rw [← mem_finding_iff Finding.unreachedAccept fun _ _ => Finding.unreachedAccept.inj]
  exact List.mem_append.trans (or_iff_right hother)

/-- A list of names is the sorted list of those that are not reached. -/
theorem eq_sortedSet_unreached_iff {names states : List String} :
    states = sortedSet (names.filter fun s => !m.reachable.contains s) ↔
      states.Pairwise (· < ·) ∧ ∀ s, s ∈ states ↔ s ∈ names ∧ ¬ m.Reached s := by
  have hnot : ∀ s, (!m.reachable.contains s) = true ↔ ¬ m.Reached s := by
    intro s
    rw [← mem_reachable, Bool.not_eq_true', ← Bool.not_eq_true, List.contains_iff_mem]
  simp only [eq_sortedSet_iff, compare_lt_iff_lt, List.mem_filter, hnot]

end Machine

/-! ## Runs -/

namespace Configuration

variable {m : Machine}

/-- A step stays in its state or follows a rule. -/
theorem reached_of_step (c : Configuration) (h : m.Reached c.state) :
    m.Reached (c.step m.index).2.state := by
  unfold step
  dsimp only
  split
  · exact h
  · next r hr =>
    obtain ⟨hmem, hs, -⟩ := RuleIndex.mem_of_find? hr
    exact h.tail ⟨r, hmem, hs, rfl⟩

/-- **A run enters reached states only.** -/
theorem reached_of_run (c : Configuration) (h : m.Reached c.state) (n : Nat) :
    m.Reached (c.run m.index n).2.state :=
  run_invariant (P := fun d => m.Reached d.state) reached_of_step h n

end Configuration

/-- **Lints are exact, and sound for runs.** The search for reachable states ends, after one round
more than there are rules at most, and finds exactly the states that some sequence of rules leads to
from the initial state, each once. A lint of unreachable states reports the sorted list of the
states with rules that are not among them, one of accept states the sorted list of the accept states
that are not among them, each state once, and there is none if the list is empty. No run, on any
input and of any length, enters a state that is reported. -/
theorem Machine.lint_exact (m : Machine) :
    (∃ n ≤ m.rules.length + 1, (fun t : Option Search => t.bind (Search.round? m))^[n]
      (some (Search.start m)) = some ⟨[], m.reachable⟩) ∧
    (m.reachable.Nodup ∧ ∀ s, s ∈ m.reachable ↔ m.Reached s) ∧
    (∀ states, Finding.unreachable states ∈ m.lint ↔ states ≠ [] ∧ states.Pairwise (· < ·) ∧
      ∀ s, s ∈ states ↔ s ∈ m.domainStates ∧ ¬ m.Reached s) ∧
    (∀ states, Finding.unreachedAccept states ∈ m.lint ↔ states ≠ [] ∧ states.Pairwise (· < ·) ∧
      ∀ s, s ∈ states ↔ s ∈ m.accept ∧ ¬ m.Reached s) ∧
    ∀ states, Finding.unreachable states ∈ m.lint ∨ Finding.unreachedAccept states ∈ m.lint →
      ∀ input n, ((Configuration.start m input).run m.index n).2.state ∉ states := by
  have hstates : ∀ states, Finding.unreachable states ∈ m.lint ↔ states ≠ [] ∧
      states.Pairwise (· < ·) ∧ ∀ s, s ∈ states ↔ s ∈ m.domainStates ∧ ¬ m.Reached s := by
    intro states
    exact unreachable_mem_lint.trans (and_congr_right fun _ => eq_sortedSet_unreached_iff)
  have haccept : ∀ states, Finding.unreachedAccept states ∈ m.lint ↔ states ≠ [] ∧
      states.Pairwise (· < ·) ∧ ∀ s, s ∈ states ↔ s ∈ m.accept ∧ ¬ m.Reached s := by
    intro states
    exact unreachedAccept_mem_lint.trans (and_congr_right fun _ => eq_sortedSet_unreached_iff)
  have hrounds := Search.iterate_round? m (Search.start m)
  rw [Search.work_start] at hrounds
  refine ⟨hrounds, ⟨(explored_reachable m).nodup, fun s => mem_reachable⟩, hstates, haccept,
    fun states hlint input n hmem => ?_⟩
  have hreached : m.Reached ((Configuration.start m input).run m.index n).2.state :=
    (Configuration.start m input).reached_of_run m.reached_initial n
  rcases hlint with hlint | hlint
  · exact (((hstates states).mp hlint).2.2 _ |>.mp hmem).2 hreached
  · exact (((haccept states).mp hlint).2.2 _ |>.mp hmem).2 hreached

end OneTape
