import OneTape.FlatMachine
import OneTape.Proofs.Consolidate
import OneTape.Proofs.Ordered
import OneTape.Proofs.Table.Run

/-!
# Names and structured states in lockstep

A one-tape machine whose states are given by name makes the steps of its table, as long as no two
states have the same name.

Results:
* `RuleIndex.mem_of_find?`, `RuleIndex.find?_ofRules`: what the index of a machine finds.
* `Configuration.step_of_rule`, `Configuration.step_of_no_rule`: one step of a machine.
* `Configuration.run_invariant`: what one step keeps, a run keeps.
* `FlatMachine.Named.step_of_some`, `FlatMachine.Named.step_of_none`: one step of the machine
  against one step of the table.
* `FlatMachine.Named.run_of_running`: a run of the machine against a run of the table.
-/

namespace OneTape

/-! ## The rules of a machine -/

namespace RuleIndex

variable {rules : List Rule} {s : String} {xs : List Symbol} {r : Rule}

/-- The last rule for a state and symbols takes the place of the others. -/
theorem find?_concat (rules : List Rule) (last : Rule) (s : String) (xs : List Symbol) :
    (ofRules (rules ++ [last])).find? s xs =
      if (last.state, last.read) = (s, xs) then some last else (ofRules rules).find? s xs := by
  unfold ofRules find?
  rw [List.foldl_append, List.foldl_cons, List.foldl_nil, Std.HashMap.getElem?_insert]
  simp only [beq_iff_eq]

/-- What the index finds is a rule for the state and symbols. -/
theorem mem_of_find? (h : (ofRules rules).find? s xs = some r) :
    r ∈ rules ∧ r.state = s ∧ r.read = xs := by
  induction rules using List.reverseRecOn with
  | nil => simp [ofRules, find?] at h
  | append_singleton rules last ih =>
    rw [find?_concat] at h
    split_ifs at h with hkey
    · cases h
      exact ⟨by simp, Prod.mk.inj hkey⟩
    · obtain ⟨hr, hdomain⟩ := ih h
      exact ⟨List.mem_append_left _ hr, hdomain⟩

/-- **The index finds the rule for a state and symbols**, if rules do not conflict. -/
theorem find?_ofRules (hf : Functional (fun r : Rule => (r.state, r.read)) rules) :
    (ofRules rules).find? s xs = some r ↔ r ∈ rules ∧ r.state = s ∧ r.read = xs := by
  refine ⟨mem_of_find?, ?_⟩
  induction rules using List.reverseRecOn with
  | nil => simp
  | append_singleton rules last ih =>
    rintro ⟨hr, rfl, rfl⟩
    rw [find?_concat]
    split_ifs with hkey
    · rw [hf last (by simp) r hr hkey]
    · rcases List.mem_append.mp hr with hr | hr
      · exact ih (hf.mono (by simp +contextual)) ⟨hr, rfl, rfl⟩
      · exact absurd (by rw [List.mem_singleton.mp hr]) hkey

end RuleIndex

namespace Configuration

variable {m : Machine} {c : Configuration} {r : Rule}

theorem step_of_rule (hf : Functional (fun r : Rule => (r.state, r.read)) m.rules)
    (hr : r ∈ m.rules) (hs : r.state = c.state) (hx : r.read = c.tapes.settle.underHeads) :
    c.step m.index = (.running, ⟨r.next, c.tapes.settle.apply r, c.steps + 1⟩) := by
  rw [step, Machine.index, (RuleIndex.find?_ofRules hf).mpr ⟨hr, hs, hx⟩]

theorem step_of_no_rule (hf : Functional (fun r : Rule => (r.state, r.read)) m.rules)
    (h : ∀ r ∈ m.rules, r.state = c.state → r.read ≠ c.tapes.settle.underHeads) :
    c.step m.index = (.halted, { c with tapes := c.tapes.settle }) := by
  have hfind : m.index.find? c.state c.tapes.settle.underHeads = none := by
    refine Option.eq_none_iff_forall_ne_some.mpr fun r hr => ?_
    obtain ⟨hmem, hs, hx⟩ := (RuleIndex.find?_ofRules hf).mp hr
    exact h r hmem hs hx
  rw [step, hfind]

/-- What one step keeps, a run keeps. -/
theorem run_invariant {x : RuleIndex} {P : Configuration → Prop} (hstep : ∀ c, P c → P (c.step x).2)
    (h : P c) (n : Nat) : P (c.run x n).2 := by
  induction n generalizing c with
  | zero => exact h
  | succ n ih =>
    have hnext := hstep c h
    rw [run]
    split
    · next d hd => rwa [hd] at hnext
    · next d hd =>
      rw [hd] at hnext
      exact ih hnext

end Configuration

/-! ## Named states -/

namespace FlatMachine

open Table

/-- The machine has been given by name: its table is deterministic and no two of its states have the
same name. -/
structure Named (flat : FlatMachine) (f : Machine) : Prop where
  rules : f.rules = flat.rows.map Row.toRule
  initial : f.initial = flat.initial.name
  accept : f.accept = flat.accept.map State.name
  nodup : (flat.rows.map Row.domain).Nodup
  names : Functional State.name (flat.states ++ flat.accept)

variable {flat : FlatMachine} {f : Machine} {c : Configuration} {x y : Instant} {r : Row}

theorem named_of_toMachine (hd : (flat.rows.map Row.domain).Nodup) (h : flat.toMachine = .ok f) :
    flat.Named f := by
  unfold toMachine at h
  cases hc : consolidate State.name (flat.states ++ flat.accept) with
  | error s => rw [hc] at h; cases h
  | ok kept =>
    rw [hc] at h
    cases h
    exact ⟨rfl, rfl, rfl, hd, functional_of_consolidate hc⟩

theorem toMachine_eq_ok (h : Functional State.name (flat.states ++ flat.accept)) :
    ∃ f, flat.toMachine = .ok f := by
  obtain ⟨kept, hkept⟩ := consolidate_eq_ok h
  unfold toMachine
  rw [hkept]
  exact ⟨_, rfl⟩

theorem state_mem_states (h : r ∈ flat.rows) : r.state ∈ flat.states := by
  simp only [states, mem_sortedSet, Table.states, List.mem_append, List.mem_flatMap]
  exact .inl ⟨r, h, by simp⟩

theorem next_mem_states (h : r ∈ flat.rows) : r.next ∈ flat.states := by
  simp only [states, mem_sortedSet, Table.states, List.mem_append, List.mem_flatMap]
  exact .inl ⟨r, h, by simp⟩

theorem initial_mem_states (flat : FlatMachine) : flat.initial ∈ flat.states := by
  simp [states]

/-- A configuration of the machine with named states shows an instant of the table. -/
structure Depicts (flat : FlatMachine) (c : Configuration) (x : Instant) : Prop where
  mem : x.state ∈ flat.states
  state : c.state = x.state.name
  tapes : c.tapes = ⟨[x.cells], [x.position]⟩

namespace Named

theorem functional (hn : flat.Named f) :
    Functional (fun r : Rule => (r.state, r.read)) f.rules := by
  rw [hn.rules]
  intro p hp q hq hpq
  obtain ⟨r, hr, rfl⟩ := List.mem_map.mp hp
  obtain ⟨r', hr', rfl⟩ := List.mem_map.mp hq
  obtain ⟨hname, hread⟩ : r.state.name = r'.state.name ∧ r.read = r'.read := by
    simpa [Row.toRule] using hpq
  have hstate := hn.names _ (List.mem_append_left _ (state_mem_states hr)) _
    (List.mem_append_left _ (state_mem_states hr')) hname
  rw [List.inj_on_of_nodup_map hn.nodup hr hr' (Prod.ext hstate hread)]

/-- The machine accepts by name in the accept states of the table. -/
theorem isAccepting_iff {s : State} (hn : flat.Named f) (hs : s ∈ flat.states) :
    f.isAccepting s.name = true ↔ s ∈ flat.accept := by
  rw [Machine.isAccepting, List.contains_iff_mem, hn.accept, List.mem_map]
  constructor
  · rintro ⟨t, ht, hname⟩
    rwa [hn.names t (List.mem_append_right _ ht) s (List.mem_append_left _ hs) hname] at ht
  · exact fun hs => ⟨s, hs, rfl⟩

/-- The two runs start in the same place. -/
theorem depicts_start (hn : flat.Named f) (cells : List Symbol) :
    flat.Depicts (Configuration.start f ⟨[cells], [0]⟩) ⟨flat.initial, cells, 0⟩ :=
  ⟨flat.initial_mem_states, hn.initial, rfl⟩

/-- The rule that the machine finds is the row that its table has. -/
theorem find? (hn : flat.Named f) (hc : flat.Depicts c x) :
    f.index.find? c.state c.tapes.settle.underHeads =
      (rowFor? flat.rows x.state x.symbol).map Row.toRule := by
  have hunder : c.tapes.settle.underHeads = [x.symbol] := by
    rw [hc.tapes]
    exact congrArg (fun s => [s]) (Tapes.cellAt_padTo (x.position + 1) x.cells x.position)
  rw [hunder, hc.state]
  refine Option.ext fun rule => ?_
  rw [Machine.index, RuleIndex.find?_ofRules hn.functional, Option.map_eq_some_iff, hn.rules]
  constructor
  · rintro ⟨hmem, hname, hread⟩
    obtain ⟨r, hr, rfl⟩ := List.mem_map.mp hmem
    have hstate := hn.names _ (List.mem_append_left _ (state_mem_states hr)) _
      (List.mem_append_left _ hc.mem) hname
    exact ⟨r, (rowFor?_eq_some hn.nodup).mpr ⟨hr, hstate, by simpa [Row.toRule] using hread⟩, rfl⟩
  · rintro ⟨r, hr, rfl⟩
    obtain ⟨hmem, hstate, hread⟩ := (rowFor?_eq_some hn.nodup).mp hr
    exact ⟨List.mem_map_of_mem hmem, congrArg State.name hstate, congrArg (fun s => [s]) hread⟩

/-- Where the table makes a step, so does the machine. -/
theorem step_of_some (hn : flat.Named f) (hc : flat.Depicts c x) (h : x.step flat.rows = some y) :
    ∃ c', c.step f.index = (.running, c') ∧ flat.Depicts c' y := by
  obtain ⟨r, hr, rfl⟩ := Option.map_eq_some_iff.mp h
  have hfind := hn.find? hc
  rw [hr, Option.map_some] at hfind
  have hmem := ((rowFor?_eq_some hn.nodup).mp hr).1
  refine ⟨_, by rw [Configuration.step, hfind], ?_⟩
  refine ⟨next_mem_states hmem, rfl, ?_⟩
  rw [hc.tapes]
  rfl

/-- Where the table makes no step, the machine halts. -/
theorem step_of_none (hn : flat.Named f) (hc : flat.Depicts c x) (h : x.step flat.rows = none) :
    c.step f.index = (.halted, ⟨c.state, ⟨[Tapes.padTo (x.position + 1) x.cells], [x.position]⟩,
      c.steps⟩) := by
  have hfind := hn.find? hc
  rw [Option.map_eq_none_iff.mp h, Option.map_none] at hfind
  rw [Configuration.step, hfind, hc.tapes]
  rfl

/-- The configurations that the machine comes to show the instants of its table. -/
theorem run_of_running (hn : flat.Named f) (hc : flat.Depicts c x) {n : Nat} {c' : Configuration}
    (h : c.run f.index n = (.running, c')) :
    ∃ y, x.run flat.rows n = some y ∧ flat.Depicts c' y := by
  induction n generalizing c x with
  | zero =>
    cases h
    exact ⟨x, rfl, hc⟩
  | succ n ih =>
    rw [Configuration.run] at h
    cases hx : x.step flat.rows with
    | none =>
      rw [hn.step_of_none hc hx] at h
      cases h
    | some y =>
      obtain ⟨c₁, hstep, hc₁⟩ := hn.step_of_some hc hx
      rw [hstep] at h
      rw [Instant.run, hx]
      exact ih hc₁ h

end Named
end FlatMachine
end OneTape
