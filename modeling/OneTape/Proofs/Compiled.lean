import OneTape.Proofs.Flatten
import OneTape.Proofs.Lockstep
import OneTape.Proofs.Name

/-!
# Compiled machines

What the simulation of a machine needs to know about its compilation: which rows there are, and
which states bear the names of source states.

Results:
* `Generated.of_flatten`: a compilation without a placeholder.
* `Compiled.of_flatten`: a compilation with both extensions and without a placeholder.
* `Generated.contains_stateNames`: the states named like source states are those that enter
  discovery.
* `Generated.isAccepting`, `Generated.isAccepting_eq_false`: which states accept.
* `Generated.toMachine_eq_ok`: states can be named if the source machine does not use the characters
  that names are made with.
-/

namespace OneTape

/-- The alphabet of a compiled machine. -/
def Machine.alphabet (m : Machine) (iteration : Nat) : Alphabet :=
  .ofMachine (m.escape iteration) iteration

/-- The one-tape machine was compiled from a machine with `k` tapes and without a placeholder. -/
structure Generated (m : Machine) (iteration : Nat) (safety : Safety) (k : Nat)
    (flat : FlatMachine) : Prop where
  wellFormed : m.WellFormed k
  nodup : (flat.rows.map Row.domain).Nodup
  mem_rows : ∀ r, r ∈ flat.rows ↔ ∃ rule ∈ (m.escape iteration).rules,
    Table.Emits (m.alphabet iteration) safety rule r
  initial : flat.initial = State.source m.initial
  mem_accept : ∀ s, s ∈ flat.accept ↔ (∃ q ∈ m.accept, State.source q = s) ∨
    s ∈ Table.states flat.rows ∧ s.phase = .discover ∧ s.heads.length < k ∧ s.base ∈ m.accept

/-- The one-tape machine was compiled from a machine with `k` tapes, with both extensions and
without a placeholder. -/
abbrev Compiled (m : Machine) (iteration k : Nat) (flat : FlatMachine) : Prop :=
  Generated m iteration ⟨true, true⟩ k flat

/-! ## Rows and source states -/

namespace Table

variable {a : Alphabet} {rule : Rule} {r : Row} {safety : Safety}

theorem Emits.base_state (h : Emits a safety rule r) : r.state.base = rule.state := by
  rcases h.cases with hd | ⟨hb, -, -⟩
  · cases hd <;> rfl
  · exact hb

/-- The rows that end a simulated step. -/
theorem Emits.of_complete (h : Emits a safety rule r) (hp : r.state.phase = .complete) :
    ∃ c ∈ a.library, r = ⟨ruleState a rule .complete, c, State.source rule.next, c, .stay⟩ := by
  cases h with
  | discover h => cases h.phase.symm.trans hp
  | execute h _ =>
    obtain ⟨phase, hst, -⟩ := h.state_eq
    rw [hst] at hp
    cases hp
    exact h.of_complete hst
  | extendLeft _ _ h => rcases h.phase with h | ⟨_, h⟩ <;> cases h.symm.trans hp
  | extendRight _ _ _ h => rcases h.phase with h | ⟨_, h⟩ <;> cases h.symm.trans hp

theorem afterPhase_ne_discover (i : Nat) : afterPhase i ≠ .discover := by
  unfold afterPhase
  split_ifs <;> simp

theorem readable_afterPhase (i : Nat) : (afterPhase i).Readable := by
  unfold afterPhase
  split_ifs <;> trivial

theorem next_resolveRow (s : State) (h : HeadAction) (read plain marked : Symbol) :
    (resolveRow s h read plain marked).next = s.after h.head ∨
      (resolveRow s h read plain marked).next = s.active h.head := by
  unfold resolveRow
  split_ifs
  · exact .inl rfl
  · exact .inr rfl

/-- The phases that the sweep to the left leads to before it is complete. -/
theorem Executes.next_eq (h : Executes a rule r) (hp : r.state.phase ≠ .complete) :
    ∃ phase, r.next = ruleState a rule phase ∧ phase ≠ .discover ∧ phase.Readable := by
  have hresolve : ∀ {i m w d read plain marked},
      ∃ phase, (resolveRow (ruleState a rule .discover) ⟨i + 1, m, w, d⟩ read plain marked).next =
        ruleState a rule phase ∧ phase ≠ .discover ∧ phase.Readable := by
    intro i m w d read plain marked
    rcases next_resolveRow (ruleState a rule .discover) ⟨i + 1, m, w, d⟩ read plain marked with
      h | h
    · exact ⟨afterPhase i, h.trans (after_eq ..), afterPhase_ne_discover i, readable_afterPhase i⟩
    · exact ⟨.active (i + 1), h, nofun, trivial⟩
  cases h with
  | retreat => exact ⟨_, rfl, nofun, trivial⟩
  | resolve => exact hresolve
  | resolveEdge =>
    unfold edgeResolution
    dsimp only
    split_ifs <;> exact hresolve
  | @place i _ _ _ _ _ _ _ _ => exact ⟨_, rfl, afterPhase_ne_discover i, readable_afterPhase i⟩
  | cycle => exact absurd rfl hp

theorem Shifts.next_eq {owner : State} {side : Side} {resume : Resume}
    (h : Shifts a owner side resume r) :
    r.next = resume.state ∨ ∃ step, r.next = owner.extension side step := by
  cases h with
  | relay | moveEnd | turn | comeBack => exact .inr ⟨_, rfl⟩
  | resume => exact .inl rfl

/-- A row that does not end a simulated step stays with its rule, and leads to a discovery state
only from one. -/
theorem Emits.next_eq (h : Emits a safety rule r) (hp : r.state.phase ≠ .complete) :
    Discovers a rule r ∨
      ∃ phase, r.next = ruleState a rule phase ∧ phase ≠ .discover ∧ phase.Readable := by
  cases h with
  | discover h => exact .inl h
  | execute h _ => exact .inr (h.next_eq hp)
  | @extendLeft i _ _ _ _ _ h =>
    right
    cases h with
    | edge | realign => exact ⟨_, rfl, nofun, rfl⟩
    | shift h =>
      rcases h.next_eq with h | ⟨step, h⟩
      · exact ⟨afterPhase i, h, afterPhase_ne_discover i, readable_afterPhase i⟩
      · exact ⟨_, h, nofun, rfl⟩
  | extendRight _ _ _ h =>
    right
    cases h with
    | anchor => exact ⟨_, rfl, nofun, rfl⟩
    | shift h =>
      rcases h.next_eq with h | ⟨step, h⟩
      · exact ⟨_, h, nofun, trivial⟩
      · exact ⟨_, h, nofun, rfl⟩

theorem Emits.base_next (h : Emits a safety rule r) (hp : r.state.phase ≠ .complete) :
    r.next.base = rule.state := by
  rcases h.next_eq hp with h | ⟨_, h, -, -⟩
  · cases h <;> rfl
  · rw [h]
    rfl

/-- Only the end of a simulated step enters a source state from outside. -/
theorem Emits.isSource_state (h : Emits a safety rule r) (hp : r.state.phase ≠ .complete)
    (hs : r.next.isSource = true) : r.state.isSource = true := by
  have hrecord : ∀ {n x}, rule.read[n]? = some x →
      (prefixState a rule (n + 1)).isSource = false := by
    intro n x hx
    have hne : rule.read ≠ [] := by
      rintro he
      simp [he] at hx
    simp [State.isSource, prefixState, discovered, hne]
  rcases h.next_eq hp with h | ⟨phase, hn, hph, -⟩
  · cases h with
    | scan => exact hs
    | record hx | recordEdge hx => exact absurd hs (by rw [hrecord hx]; exact Bool.false_ne_true)
    | handOver | handOverEnd => simp [State.isSource, ruleState] at hs
  · rw [hn] at hs
    simp [State.isSource, ruleState, hph] at hs

/-! ## Markers and phases of states -/

/-- A state has the markers of symbols that a rule reads, and a phase that can be read back. -/
structure BelongsTo (a : Alphabet) (rule : Rule) (s : State) : Prop where
  heads : ∀ h ∈ s.heads, ∃ x ∈ rule.read, a.marker x = h
  phase : s.phase.Readable

theorem belongsTo_prefixState (n : Nat) : BelongsTo a rule (prefixState a rule n) := by
  refine ⟨fun h hh => ?_, trivial⟩
  obtain ⟨x, hx, rfl⟩ := List.mem_map.mp hh
  exact ⟨x, List.mem_of_mem_take hx, rfl⟩

theorem belongsTo_ruleState {phase : Phase} (h : phase.Readable) :
    BelongsTo a rule (ruleState a rule phase) :=
  ⟨fun _ hh => List.mem_map.mp hh, h⟩

theorem Emits.belongsTo_state (h : Emits a safety rule r) : BelongsTo a rule r.state := by
  have hshift : ∀ {owner : State} {side : Side} {resume : Resume}, Shifts a owner side resume r →
      BelongsTo a rule owner → owner.phase.isSweep = true → BelongsTo a rule r.state := by
    intro owner side resume h howner hsweep
    cases h <;> exact ⟨howner.heads, hsweep⟩
  cases h with
  | discover h =>
    cases h with
    | scan | record | recordEdge => exact belongsTo_prefixState _
    | handOver | handOverEnd => exact belongsTo_ruleState trivial
  | execute h _ =>
    obtain ⟨phase, hst, hph⟩ := h.state_eq
    rw [hst]
    rcases hph with ⟨_, rfl⟩ | ⟨_, rfl⟩ | rfl <;> exact belongsTo_ruleState trivial
  | extendLeft _ _ h =>
    cases h with
    | edge => exact belongsTo_ruleState trivial
    | realign => exact belongsTo_ruleState rfl
    | shift h => exact hshift h (belongsTo_ruleState trivial) rfl
  | extendRight _ _ _ h =>
    cases h with
    | anchor => exact belongsTo_ruleState trivial
    | shift h => exact hshift h (belongsTo_ruleState trivial) rfl

theorem Emits.belongsTo_next (h : Emits a safety rule r) : BelongsTo a rule r.next := by
  by_cases hp : r.state.phase = .complete
  · obtain ⟨c, -, rfl⟩ := h.of_complete hp
    exact ⟨nofun, trivial⟩
  · rcases h.next_eq hp with h | ⟨phase, hn, -, hread⟩
    · cases h with
      | scan | record | recordEdge => exact belongsTo_prefixState _
      | handOver | handOverEnd => exact belongsTo_ruleState trivial
    · rw [hn]
      exact belongsTo_ruleState hread

end Table

namespace Generated

variable {m : Machine} {iteration k : Nat} {safety : Safety} {flat : FlatMachine} {s : State}
  {c : Config}

theorem of_flatten (h : m.flatten c = .ok flat) (hp : c.placeholder = none) :
    ∃ k, Generated m c.iteration c.safety k flat := by
  obtain ⟨k, rows, hm, -, -, rfl, hnodup, hmem⟩ := Machine.flatten_eq_ok h
  refine ⟨k, hm, hnodup, fun r => ?_, ?_, fun s => ?_⟩
  · rw [hmem r]
    simp only [Plan.injectionRows, Plan.ofMachine, hp, List.not_mem_nil, false_or]
    rfl
  · simp only [Plan.initial, Plan.ofMachine, hp]
    rfl
  · simp only [Plan.accept, mem_sortedSet, List.mem_append, List.mem_map, List.mem_filter,
      Plan.isAccepting, Bool.and_eq_true, beq_iff_eq, decide_eq_true_eq, Machine.isAccepting,
      List.contains_iff_mem, and_assoc]
    rfl

theorem fits (hg : Generated m iteration safety k flat) :
    Table.Fits (m.alphabet iteration) (m.escape iteration).rules k :=
  Plan.fits_of_wellFormed hg.wellFormed iteration

theorem mem_states (hg : Generated m iteration safety k flat) (hs : s ∈ flat.states) :
    s = State.source m.initial ∨ s ∈ Table.states flat.rows := by
  simp only [FlatMachine.states, mem_sortedSet, List.mem_append, List.mem_singleton,
    hg.initial] at hs
  exact hs.symm

/-- What holds of source states and of the states of all rows holds of all states. -/
@[elab_as_elim] theorem state_induction {motive : State → Prop}
    (hg : Generated m iteration safety k flat) (hs : s ∈ flat.states ++ flat.accept)
    (source : ∀ q ∈ m.stateNames, motive (State.source q))
    (row : ∀ rule ∈ (m.escape iteration).rules, ∀ r,
      Table.Emits (m.alphabet iteration) safety rule r → motive r.state ∧ motive r.next) :
    motive s := by
  have htable : ∀ s ∈ Table.states flat.rows, motive s := by
    intro s hs
    obtain ⟨r, hr, hmem⟩ := List.mem_flatMap.mp hs
    obtain ⟨rule, hrule, he⟩ := (hg.mem_rows r).mp hr
    obtain ⟨hstate, hnext⟩ := row rule hrule r he
    rcases List.mem_cons.mp hmem with rfl | hmem
    · exact hstate
    · obtain rfl := List.mem_singleton.mp hmem
      exact hnext
  rcases List.mem_append.mp hs with hs | hs
  · rcases hg.mem_states hs with rfl | hs
    · exact source _ (by simp [Machine.stateNames])
    · exact htable s hs
  · rcases (hg.mem_accept s).mp hs with ⟨q, hq, rfl⟩ | ⟨hs, -⟩
    · exact source q (by simp [Machine.stateNames, hq])
    · exact htable s hs

theorem base_mem_stateNames (hg : Generated m iteration safety k flat)
    (hs : s ∈ flat.states ++ flat.accept) : s.base ∈ m.stateNames := by
  refine hg.state_induction hs (fun q hq => hq) fun rule hrule r he => ?_
  obtain ⟨source, hmem, rfl⟩ := List.mem_map.mp hrule
  have hnames : source.state ∈ m.stateNames ∧ source.next ∈ m.stateNames := by
    simp only [Machine.stateNames, List.mem_cons, List.mem_append, List.mem_flatMap]
    exact ⟨.inr ⟨source, hmem, by simp⟩, .inr ⟨source, hmem, by simp⟩⟩
  refine ⟨he.base_state ▸ hnames.1, ?_⟩
  by_cases hp : r.state.phase = .complete
  · obtain ⟨c, -, rfl⟩ := he.of_complete hp
    exact hnames.2
  · rw [he.base_next hp]
    exact hnames.1

/-- The markers of a state are those of source symbols, and its phase can be read back. -/
theorem heads_of_mem (hg : Generated m iteration safety k flat)
    (hs : s ∈ flat.states ++ flat.accept) :
    (∀ h ∈ s.heads, ∃ x ∈ m.symbols, (x.escape iteration).marker iteration = h) ∧
      s.phase.Readable := by
  refine hg.state_induction hs (fun q _ => ⟨nofun, trivial⟩) fun rule hrule r he => ?_
  have hbelongs : ∀ {s}, Table.BelongsTo (m.alphabet iteration) rule s →
      (∀ h ∈ s.heads, ∃ x ∈ m.symbols, (x.escape iteration).marker iteration = h) ∧
      s.phase.Readable := by
    intro s hb
    refine ⟨fun h hh => ?_, hb.phase⟩
    obtain ⟨_, hread, rfl⟩ := hb.heads h hh
    obtain ⟨source, hsource, rfl⟩ := List.mem_map.mp hrule
    obtain ⟨x, hx, rfl⟩ := List.mem_map.mp hread
    exact ⟨x, List.mem_flatMap.mpr ⟨source, hsource, List.mem_append_left _ hx⟩, rfl⟩
  exact ⟨hbelongs he.belongsTo_state, hbelongs he.belongsTo_next⟩

end Generated

namespace Compiled

variable {m : Machine} {iteration k : Nat} {flat : FlatMachine} {s : State} {c : Config}

theorem of_flatten (h : m.flatten c = .ok flat) (hp : c.placeholder = none)
    (hs : c.safety = ⟨true, true⟩) : ∃ k, Compiled m c.iteration k flat := by
  obtain ⟨k, hg⟩ := Generated.of_flatten h hp
  rw [hs] at hg
  exact ⟨k, hg⟩

/-! ## Names of source states -/

theorem name_source (q : String) : (State.source q).name = q := by
  simp [State.source, State.name, State.headText, Phase.suffix]

theorem eq_source (h : s.isSource = true) : s = State.source s.base := by
  obtain ⟨base, heads, phase⟩ := s
  obtain ⟨rfl, rfl⟩ : phase = .discover ∧ heads = [] := by simpa [State.isSource] using h
  rfl

end Compiled

namespace Generated

variable {m : Machine} {iteration k : Nat} {safety : Safety} {flat : FlatMachine} {f : Machine}
  {s : State}

/-- Every source state is a state of the one-tape machine. -/
theorem source_mem (hg : Generated m iteration safety k flat) {q : String} (hq : q ∈ m.stateNames) :
    State.source q ∈ flat.states ++ flat.accept := by
  simp only [Machine.stateNames, List.mem_cons, List.mem_append, List.mem_flatMap, List.not_mem_nil,
    or_false] at hq
  rcases hq with (rfl | hq) | ⟨rule, hrule, hq⟩
  · rw [← hg.initial]
    exact List.mem_append_left _ flat.initial_mem_states
  · exact List.mem_append_right _ ((hg.mem_accept _).mpr (.inl ⟨q, hq, rfl⟩))
  · have hmem : rule.escape iteration ∈ (m.escape iteration).rules := List.mem_map_of_mem hrule
    have hpos : 0 < (rule.escape iteration).read.length := by
      rw [(hg.fits.lengths _ hmem).1]
      exact hg.wellFormed.tapes_pos
    refine List.mem_append_left _ ?_
    rcases hq with rfl | rfl
    · have hrow := (hg.mem_rows _).mpr
        ⟨_, hmem, .discover (.scan hpos Alphabet.boundary_mem_unmarked)⟩
      exact FlatMachine.state_mem_states hrow
    · have hlib := Alphabet.mem_library_of_mem_unmarked
        (Alphabet.boundary_mem_unmarked (a := m.alphabet iteration))
      have hrow := (hg.mem_rows _).mpr ⟨_, hmem, .execute (.cycle hlib) fun _ => ?_⟩
      · exact FlatMachine.next_mem_states hrow
      · simp [Table.overwritesEdge]

/-- **The states named like source states are those that enter discovery.** -/
theorem contains_stateNames (hg : Generated m iteration safety k flat) (hn : flat.Named f)
    (hs : s ∈ flat.states) : m.stateNames.contains s.name = s.isSource := by
  rw [Bool.eq_iff_iff, List.contains_iff_mem]
  constructor
  · intro hq
    have hname : s.name = (State.source s.name).name := (Compiled.name_source _).symm
    rw [hn.names _ (List.mem_append_left _ hs) _ (hg.source_mem hq) hname]
    rfl
  · intro h
    have hbase := hg.base_mem_stateNames (List.mem_append_left _ hs)
    rw [Compiled.eq_source h, Compiled.name_source]
    exact hbase

/-- **A state in which discovery stops accepts if its source state does.** -/
theorem isAccepting (hg : Generated m iteration safety k flat) (hn : flat.Named f)
    (hs : s ∈ flat.states) (hp : s.phase = .discover) (hk : s.heads.length < k) :
    f.isAccepting s.name = m.isAccepting s.base := by
  rw [Bool.eq_iff_iff, hn.isAccepting_iff hs, hg.mem_accept, Machine.isAccepting,
    List.contains_iff_mem]
  constructor
  · rintro (⟨q, hq, rfl⟩ | ⟨-, -, -, hb⟩)
    · exact hq
    · exact hb
  · intro h
    rcases hg.mem_states hs with rfl | hs
    · exact .inl ⟨_, h, rfl⟩
    · exact .inr ⟨hs, hp, hk, h⟩

/-- No other state accepts. -/
theorem isAccepting_eq_false (hg : Generated m iteration safety k flat) (hn : flat.Named f)
    (hs : s ∈ flat.states) (hp : s.phase ≠ .discover) : f.isAccepting s.name = false := by
  rw [Bool.eq_false_iff, ne_eq, hn.isAccepting_iff hs, hg.mem_accept]
  rintro (⟨q, -, rfl⟩ | ⟨-, hdiscover, -, -⟩)
  · exact hp rfl
  · exact hp hdiscover

end Generated

/-! ## Naming all states -/

namespace Compiled

/-- The source machine does not use the characters that names are made with. -/
structure Legible (m : Machine) : Prop where
  names : ∀ q ∈ m.stateNames, ∀ c ∈ q.toList, c ≠ '[' ∧ c ≠ ':' ∧ c ≠ '!'
  symbols : ∀ x ∈ m.symbols, ']' ∉ x.text.toList

theorem bracket_notMem_marker {iteration : Nat} {x : Symbol} (h : ']' ∉ x.text.toList) :
    ']' ∉ ((x.escape iteration).marker iteration).text.toList := by
  intro hc
  rcases Symbol.mem_marker hc with hc | hc | hc
  · rcases Symbol.mem_escape hc with hc | hc
    · exact h hc
    · exact absurd hc (by decide)
  · exact absurd hc (by decide)
  · exact absurd hc (by decide)

end Compiled

namespace Generated

variable {m : Machine} {iteration k : Nat} {safety : Safety} {flat : FlatMachine} {s : State}

theorem readable (hg : Generated m iteration safety k flat) (hm : Compiled.Legible m)
    (hs : s ∈ flat.states ++ flat.accept) : s.Readable := by
  obtain ⟨hheads, hphase⟩ := hg.heads_of_mem hs
  refine ⟨hm.names _ (hg.base_mem_stateNames hs), fun h hh => ?_, hphase⟩
  obtain ⟨x, hx, rfl⟩ := hheads h hh
  exact Compiled.bracket_notMem_marker (hm.symbols x hx)

/-- **States can be named** if the source machine does not use the characters that names are made
with. -/
theorem toMachine_eq_ok (hg : Generated m iteration safety k flat) (hm : Compiled.Legible m) :
    ∃ f, flat.toMachine = .ok f := by
  have hnames : Functional State.name (flat.states ++ flat.accept) := fun s hs t ht h =>
    State.name_injective (hg.readable hm hs) (hg.readable hm ht) h
  exact FlatMachine.toMachine_eq_ok hnames

end Generated

namespace Compiled

theorem legible_exchange : Legible Machine.exchange where
  names := by simp [Machine.stateNames, Machine.exchange]
  symbols := by decide

/-- The machine over reserved symbols is compiled and its states are named. -/
theorem toMachine_exchange :
    ∃ flat f, Machine.exchange.flatten {} = .ok flat ∧ flat.toMachine = .ok f := by
  obtain ⟨flat, hflat⟩ :=
    Machine.flatten_eq_ok_of_normal (c := {}) Machine.wellFormed_exchange (Nat.le_refl 1) rfl rfl
  obtain ⟨k, hc⟩ := of_flatten hflat rfl rfl
  obtain ⟨f, hf⟩ := hc.toMachine_eq_ok legible_exchange
  exact ⟨flat, f, hflat, hf⟩

end Compiled
end OneTape
