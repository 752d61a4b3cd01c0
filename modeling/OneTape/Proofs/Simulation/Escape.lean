import OneTape.Proofs.Simulation.Follow

/-!
# A machine and its escaped form in lockstep

A plan holds a machine with its symbols escaped. Escaping is injective and keeps the blank, so that
every part of a step commutes with it: cells that are materialised, symbols under the heads, the
rule that is found, what it writes, and the blanks that a tape grows by on either side.

Results:
* `Tapes.settle_map`, `Tapes.underHeads_map`, `Tapes.apply_escape`: the parts of a step.
* `Configuration.step_escape`, `Configuration.run_escape`: steps and runs.
* `run_escape_lockstep`: the machine of every plan runs in lockstep with the machine it was made
  for.
-/

namespace OneTape

/-! ## Tapes -/

namespace Tapes

section Map

variable {f : Symbol → Symbol} (hf : f Symbol.blank = Symbol.blank)
include hf

theorem padTo_map (n : Nat) (tape : List Symbol) : padTo n (tape.map f) = (padTo n tape).map f := by
  simp [padTo, hf]

theorem settleCells_map (tapes : List (List Symbol)) (heads : List Nat) :
    settleCells (tapes.map (List.map f)) heads = (settleCells tapes heads).map (List.map f) := by
  induction tapes generalizing heads with
  | nil => simp [settleCells]
  | cons tape tapes ih =>
    cases heads with
    | nil => simp [settleCells]
    | cons head heads => simp [settleCells, ih, padTo_map hf]

theorem settle_map (t : Tapes) : (t.map f).settle = t.settle.map f := by
  simp only [settle, map, settleCells_map hf]

theorem underHeads_map (t : Tapes) : (t.map f).underHeads = t.underHeads.map f := by
  show List.zipWith cellAt (t.tapes.map (List.map f)) t.heads =
    (List.zipWith cellAt t.tapes t.heads).map f
  rw [List.zipWith_map_left, List.map_zipWith]
  congr 1
  funext tape head
  exact cellAt_map f hf tape head

theorem act_map (w : Symbol) (d : Direction) (tape : List Symbol) (head : Nat) :
    act (f w) d (tape.map f) head = Prod.map (List.map f) id (act w d tape head) := by
  have hset : (tape.map f).set head (f w) = (tape.set head w).map f := by rw [List.map_set]
  cases d with
  | stay => simp only [act, hset, Prod.map, id]
  | right => simp only [act, hset, padTo_map hf, Prod.map, id]
  | left =>
    by_cases hhead : head = 0
    · simp [act, hhead, hf]
    · simp [act, hhead]

theorem actAll_map (actions : List (Symbol × Direction)) (tapes : List (List Symbol))
    (heads : List Nat) :
    actAll (actions.map (Prod.map f id)) (tapes.map (List.map f)) heads =
      Prod.map (List.map (List.map f)) id (actAll actions tapes heads) := by
  induction actions generalizing tapes heads with
  | nil => simp [actAll]
  | cons action actions ih =>
    cases tapes with
    | nil => simp [actAll]
    | cons tape tapes =>
      cases heads with
      | nil => simp [actAll]
      | cons head heads =>
        obtain ⟨w, d⟩ := action
        simp [actAll, ih, act_map hf]

end Map

/-- What an escaped rule does to escaped tapes. -/
theorem apply_escape (t : Tapes) (r : Rule) (iteration : Nat) :
    (t.map (·.escape iteration)).apply (r.escape iteration) =
      (t.apply r).map (·.escape iteration) := by
  have hzip : (r.write.map (·.escape iteration)).zip r.moves =
      (r.write.zip r.moves).map (Prod.map (·.escape iteration) id) := by
    rw [List.zip_map_left]
  have hall := actAll_map (f := (·.escape iteration)) (Symbol.escape_blank iteration)
    (r.write.zip r.moves) t.tapes t.heads
  simp only [apply, Rule.escape, map, hzip, hall, Prod.map, id]

end Tapes

/-! ## Steps and runs -/

namespace Configuration

/-- Replaces every symbol on the tapes of a configuration. -/
def map (f : Symbol → Symbol) (c : Configuration) : Configuration :=
  { c with tapes := c.tapes.map f }

variable {m : Machine} {iteration : Nat}

/-- **A step of the escaped machine is the escaped step.** -/
theorem step_escape (hm : Functional (fun r : Rule => (r.state, r.read)) m.rules)
    (c : Configuration) :
    (c.map (·.escape iteration)).step (m.escape iteration).index =
      Prod.map id (map (·.escape iteration)) (c.step m.index) := by
  have hsettle : (c.map (·.escape iteration)).tapes.settle =
      c.tapes.settle.map (·.escape iteration) :=
    Tapes.settle_map (f := (·.escape iteration)) (Symbol.escape_blank iteration) c.tapes
  have hunder : (c.tapes.settle.map (·.escape iteration)).underHeads =
      c.tapes.settle.underHeads.map (·.escape iteration) :=
    Tapes.underHeads_map (f := (·.escape iteration)) (Symbol.escape_blank iteration) c.tapes.settle
  have hescaped : Functional (fun r : Rule => (r.state, r.read)) (m.escape iteration).rules :=
    Machine.functional_rules_escape hm
  by_cases h : ∃ r ∈ m.rules, r.state = c.state ∧ r.read = c.tapes.settle.underHeads
  · obtain ⟨r, hr, hs, hx⟩ := h
    have hread : (r.escape iteration).read =
        (c.map (·.escape iteration)).tapes.settle.underHeads := by
      rw [hsettle, hunder, ← hx]
      rfl
    have hstep := step_of_rule (c := c.map (·.escape iteration)) hescaped (List.mem_map_of_mem hr)
      hs hread
    rw [hstep, step_of_rule hm hr hs hx, hsettle, Tapes.apply_escape]
    rfl
  · -- escaping is injective, so that no rule comes to match that did not before
    have hnone : ∀ r ∈ m.rules, r.state = c.state → r.read ≠ c.tapes.settle.underHeads :=
      fun r hr hs hx => h ⟨r, hr, hs, hx⟩
    have hnone' : ∀ r ∈ (m.escape iteration).rules, r.state = c.state →
        r.read ≠ (c.map (·.escape iteration)).tapes.settle.underHeads := by
      intro r' hr' hs hx
      obtain ⟨r, hr, rfl⟩ := List.mem_map.mp hr'
      rw [hsettle, hunder] at hx
      exact hnone r hr hs (Machine.map_escape_injective hx)
    have hstep := step_of_no_rule (c := c.map (·.escape iteration)) hescaped hnone'
    rw [hstep, step_of_no_rule hm hnone, hsettle]
    rfl

/-- **A run of the escaped machine is the escaped run.** -/
theorem run_escape (iteration : Nat) (hm : Functional (fun r : Rule => (r.state, r.read)) m.rules)
    (n : Nat) (c : Configuration) :
    (c.map (·.escape iteration)).run (m.escape iteration).index n =
      Prod.map id (map (·.escape iteration)) (c.run m.index n) := by
  induction n generalizing c with
  | zero => rfl
  | succ n ih =>
    rw [run, run, step_escape hm c]
    generalize c.step m.index = next
    obtain ⟨outcome, d⟩ := next
    cases outcome with
    | halted => rfl
    | running => exact ih d

end Configuration

/-- **Escaping symbols does not show in a computation.** Every machine that passes the analysis has
a plan for every positive iteration. The machine of such a plan has no conflicting rules. On every
input with its symbols escaped, and for every number of steps, it has halted or not as the machine
itself on the input, after as many steps, in the same state, with the same heads and with the same
symbols, escaped, in every cell; and it accepts in the same states. -/
theorem run_escape_lockstep (m : Machine) (iteration : Nat) (hm : m.analyze = .ok ())
    (hi : 1 ≤ iteration) :
    (∃ p, Plan.prepare m { iteration } = .ok p) ∧
    ∀ c p, c.iteration = iteration → Plan.prepare m c = .ok p →
      p.machine.checkDeterminism = .ok () ∧
      ∀ (input : Tapes) (n : Nat) (outcome : Outcome) (d : Configuration),
        (Configuration.start m input).run m.index n = (outcome, d) →
          (Configuration.start p.machine (input.map p.escape)).run p.machine.index n =
            (outcome, ⟨d.state, d.tapes.map p.escape, d.steps⟩) ∧
          p.machine.isAccepting d.state = m.isAccepting d.state := by
  obtain ⟨k, hk⟩ := Machine.analyze_eq_ok_iff.mp hm
  refine ⟨⟨_, Plan.prepare_of_normal hk ?_ rfl nofun⟩, ?_⟩
  · show (if iteration = 0 then _ else _) = _
    rw [if_neg (by omega)]
  · rintro c p rfl hp
    obtain ⟨k, hk, -, rfl, -⟩ := Plan.prepare_eq_ok hp
    refine ⟨Machine.checkDeterminism_eq_ok_iff.mpr
      (Machine.functional_rules_escape hk.functional), ?_⟩
    intro input n outcome d hrun
    have hescape := Configuration.run_escape c.iteration hk.functional n
      (Configuration.start m input)
    rw [hrun] at hescape
    exact ⟨hescape, rfl⟩

/-- The machine over reserved symbols, on an input over reserved symbols with a head past the end of
its tape. -/
theorem run_escape_exchange : ∃ p, Plan.prepare Machine.exchange {} = .ok p ∧
    (Configuration.start p.machine ⟨[[⟨"\\#\\"⟩], []], [0, 2]⟩).run p.machine.index 2 =
      (.halted, ⟨"h",
        ⟨[[Symbol.blank, ⟨"\\R\\"⟩], [Symbol.blank, Symbol.blank, ⟨"\\$\\"⟩, Symbol.blank]],
          [0, 3]⟩, 1⟩) ∧
    p.machine.isAccepting "h" = true := by
  obtain ⟨⟨p, hp⟩, hlock⟩ :=
    run_escape_lockstep Machine.exchange 1 Machine.analyze_exchange (Nat.le_refl 1)
  obtain ⟨-, hrun⟩ := hlock {} p rfl hp
  obtain ⟨hhalted, haccept⟩ := hrun Simulation.exchangeInput 2 .halted _ Simulation.run_exchange_two
  obtain ⟨k, -, -, rfl, -⟩ := Plan.prepare_eq_ok hp
  have hinput : Simulation.exchangeInput.map (·.escape 1) = ⟨[[⟨"\\#\\"⟩], []], [0, 2]⟩ := by decide
  have houtput : Simulation.exchangeOutput.map (·.escape 1) =
      ⟨[[Symbol.blank, ⟨"\\R\\"⟩], [Symbol.blank, Symbol.blank, ⟨"\\$\\"⟩, Symbol.blank]],
        [0, 3]⟩ := by
    decide
  refine ⟨_, hp, ?_, haccept⟩
  rw [← hinput, ← houtput]
  exact hhalted

end OneTape
