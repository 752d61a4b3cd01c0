import OneTape.Proofs.Compiled
import OneTape.Proofs.Table.Discovery

/-!
# Closed tables

The rows of a table come from several families, and a state that one family leads to gets its rows
from another. `StateOf` lists the states that a rule brings into a table, each kind once: a row of
the rule belongs to one of them and leads to one of them or to the next source state, and each of
them has rows for all symbols that it can meet.

Results:
* `Emits.stateOf_state`, `Emits.stateOf_next`: the states of a row.
* `StateOf.answers`: the rows of a state.
* `Machine.flatten_closed`: the table of a compiled machine is closed and covers what it can meet.
-/

namespace OneTape

namespace Table

/-- There is a row of `T` for each of some symbols in a state. -/
def Answers (T : Row → Prop) (s : State) (symbols : List Symbol) : Prop :=
  ∀ x ∈ symbols, ∃ r, T r ∧ r.domain = (s, x)

/-- The symbols that a state of a phase can meet, with or without the extension of left ends. A
sweep meets cells without a head, a head that goes left also meets the boundary that it must not
pass, and a shift meets everything. -/
def expected (a : Alphabet) (left : Bool) : Phase → List Symbol
  | .discover | .actor _ => a.unmarked
  | .active _ => if left then a.unmarked else a.symbols
  | .complete => a.library
  | .extend _ _ .realign => a.unmarked
  | .extend _ _ (.shift carried) => if carried ∈ a.library then a.library else [Symbol.blank]
  | .extend _ _ .comeBack => a.library
  | .inject _ => []

/-- A state that makes room with the shift subroutine, at which side, and where it then goes on. -/
inductive Extends (a : Alphabet) (safety : Safety) (rule : Rule) : State → Side → Resume → Prop
  | left {i : Nat} {x w : Symbol} : safety.left = true → ActsAt rule i x w .left →
      Extends a safety rule (ruleState a rule (.active (i + 1))) .left
        ⟨ruleState a rule (afterPhase i), a.blankMarker, placeMove i⟩
  | right {i : Nat} {w : Symbol} {d : Direction} : safety.right = true →
      ActsAt rule i Symbol.blank w d → overwritesEdge a (edgeResolution a rule i w d) = true →
      Extends a safety rule (ruleState a rule (.actor (i + 1))) .right
        ⟨ruleState a rule (.actor (i + 1)), a.blankMarker, .stay⟩

/-- The states that a rule brings into a table. -/
inductive StateOf (a : Alphabet) (safety : Safety) (rule : Rule) : State → Prop
  | discover {n : Nat} : n ≤ rule.read.length → StateOf a safety rule (prefixState a rule n)
  | actor {i : Nat} {x w : Symbol} {d : Direction} : ActsAt rule i x w d →
      StateOf a safety rule (ruleState a rule (.actor (i + 1)))
  | active {i : Nat} {x w : Symbol} {d : Direction} : ActsAt rule i x w d → d ≠ .stay →
      StateOf a safety rule (ruleState a rule (.active (i + 1)))
  | complete : StateOf a safety rule (ruleState a rule .complete)
  | realign {i : Nat} {x w : Symbol} : safety.left = true → ActsAt rule i x w .left →
      StateOf a safety rule ((ruleState a rule (.active (i + 1))).extension .left .realign)
  | shift {owner : State} {side : Side} {resume : Resume} {c : Symbol} :
      Extends a safety rule owner side resume → c ∈ a.library ∨ c = Symbol.tapeEnd →
      StateOf a safety rule (shifting owner side c)
  | comeBack {owner : State} {side : Side} {resume : Resume} :
      Extends a safety rule owner side resume → StateOf a safety rule (comingBack owner side)

variable {a : Alphabet} {rule : Rule} {rules : List Rule} {safety : Safety} {k i : Nat}
  {x w : Symbol} {d : Direction} {r : Row} {s owner : State} {side : Side} {resume : Resume}

theorem Extends.emits (h : Extends a safety rule owner side resume)
    (hr : Shifts a owner side resume r) :
    Emits a safety rule r := by
  cases h with
  | left hs hi => exact .extendLeft hs hi (.shift hr)
  | right hs hi ho => exact .extendRight hs hi ho (.shift hr)

/-! ## The states of a row -/

theorem stateOf_determined : StateOf a safety rule (ruleState a rule .discover) := by
  rw [← prefixState_length]
  exact .discover (Nat.le_refl _)

/-- Once a head has been served, the one in front of it is next, or all have been served. -/
theorem stateOf_after (hf : Fits a rules k) (hrule : rule ∈ rules) (hi : ActsAt rule i x w d) :
    StateOf a safety rule (ruleState a rule (afterPhase i)) := by
  have hlt : i < k := by
    rw [← (hf.lengths rule hrule).1]
    exact (List.getElem?_eq_some_iff.mp hi.read).1
  cases i with
  | zero => exact .complete
  | succ j =>
    obtain ⟨_, _, _, hj⟩ := hf.actsAt hrule (Nat.lt_of_succ_lt hlt)
    exact .actor hj

theorem Extends.stateOf_resume (hf : Fits a rules k) (hrule : rule ∈ rules)
    (h : Extends a safety rule owner side resume) : StateOf a safety rule resume.state := by
  cases h with
  | left _ hi => exact stateOf_after hf hrule hi
  | right _ hi _ => exact .actor hi

/-- A row of the shift subroutine stays in it or leads to where it resumes. -/
theorem Shifts.stateOf (hf : Fits a rules k) (hrule : rule ∈ rules)
    (he : Extends a safety rule owner side resume) (h : Shifts a owner side resume r) :
    StateOf a safety rule r.state ∧ StateOf a safety rule r.next := by
  cases h with
  | relay hc hfound => exact ⟨.shift he (.inl hc), .shift he (.inl hfound)⟩
  | moveEnd hc => exact ⟨.shift he (.inl hc.mem_library), .shift he (.inr rfl)⟩
  | turn => exact ⟨.shift he (.inr rfl), .comeBack he⟩
  | comeBack _ => exact ⟨.comeBack he, .comeBack he⟩
  | resume => exact ⟨.comeBack he, he.stateOf_resume hf hrule⟩

/-- A head that has been resolved is served, or its new place is marked next. -/
theorem stateOf_resolveRow (hf : Fits a rules k) (hrule : rule ∈ rules) (hi : ActsAt rule i x w d)
    (m read plain marked : Symbol) :
    StateOf a safety rule
      (resolveRow (ruleState a rule .discover) ⟨i + 1, m, w, d⟩ read plain marked).next := by
  unfold resolveRow
  split_ifs with hd
  · rw [after_eq]
    exact stateOf_after hf hrule hi
  · exact .active hi hd

theorem Discovers.stateOf (hf : Fits a rules k) (hk : 0 < k) (hrule : rule ∈ rules)
    (h : Discovers a rule r) : StateOf a safety rule r.state ∧ StateOf a safety rule r.next := by
  have hrecord : ∀ {n y}, rule.read[n]? = some y →
      StateOf a safety rule (prefixState a rule n) ∧
      StateOf a safety rule (prefixState a rule (n + 1)) := by
    intro n y hy
    have hn := (List.getElem?_eq_some_iff.mp hy).1
    exact ⟨.discover (Nat.le_of_lt hn), .discover hn⟩
  have hlast : StateOf a safety rule (ruleState a rule (.actor rule.read.length)) := by
    obtain ⟨j, hj⟩ : ∃ j, k = j + 1 := ⟨k - 1, by omega⟩
    obtain ⟨_, _, _, hi⟩ := hf.actsAt hrule (show j < k by omega)
    rw [(hf.lengths rule hrule).1, hj]
    exact .actor hi
  cases h with
  | scan hn _ => exact ⟨.discover (Nat.le_of_lt hn), .discover (Nat.le_of_lt hn)⟩
  | record hx => exact hrecord hx
  | recordEdge hx => exact hrecord hx
  | handOver | handOverEnd => exact ⟨stateOf_determined, hlast⟩

theorem Executes.stateOf_state (h : Executes a rule r) : StateOf a safety rule r.state := by
  cases h with
  | retreat hi _ => exact .actor hi
  | resolve hi =>
    rw [state_resolution]
    exact .actor hi
  | resolveEdge hi =>
    rw [state_edgeResolution]
    exact .actor hi
  | place hi hd _ _ => exact .active hi hd
  | cycle _ => exact .complete

theorem Executes.stateOf_next (hf : Fits a rules k) (hrule : rule ∈ rules) (h : Executes a rule r) :
    StateOf a safety rule r.next ∨ r.next = State.source rule.next := by
  cases h with
  | retreat hi _ => exact .inl (.actor hi)
  | resolve hi => exact .inl (stateOf_resolveRow hf hrule hi ..)
  | resolveEdge hi =>
    unfold edgeResolution
    dsimp only
    split_ifs <;> exact .inl (stateOf_resolveRow hf hrule hi ..)
  | place hi _ _ _ => exact .inl (stateOf_after hf hrule hi)
  | cycle _ => exact .inr rfl

/-- **A row belongs to a state that its rule brings in.** -/
theorem Emits.stateOf_state (hf : Fits a rules k) (hk : 0 < k) (hrule : rule ∈ rules)
    (h : Emits a safety rule r) : StateOf a safety rule r.state := by
  cases h with
  | discover h => exact (h.stateOf hf hk hrule).1
  | execute h _ => exact h.stateOf_state
  | extendLeft hs hi h =>
    cases h with
    | edge _ => exact .active hi (by decide)
    | realign _ => exact .realign hs hi
    | shift h => exact (h.stateOf hf hrule (.left hs hi)).1
  | extendRight hs hi ho h =>
    cases h with
    | anchor => exact .actor hi
    | shift h => exact (h.stateOf hf hrule (.right hs hi ho)).1

/-- **A row leads to a state that its rule brings in**, or to the rule's next source state. -/
theorem Emits.stateOf_next (hf : Fits a rules k) (hk : 0 < k) (hrule : rule ∈ rules)
    (h : Emits a safety rule r) :
    StateOf a safety rule r.next ∨ r.next = State.source rule.next := by
  cases h with
  | discover h => exact .inl (h.stateOf hf hk hrule).2
  | execute h _ => exact h.stateOf_next hf hrule
  | extendLeft hs hi h =>
    left
    cases h with
    | edge _ => exact .realign hs hi
    | realign hc => exact .shift (.left hs hi) (.inl (Alphabet.mem_library_of_mem_unmarked hc))
    | shift h => exact (h.stateOf hf hrule (.left hs hi)).2
  | extendRight hs hi ho h =>
    left
    cases h with
    | anchor =>
      have hb : Symbol.boundary ∈ a.library :=
        Alphabet.mem_library_of_mem_unmarked Alphabet.boundary_mem_unmarked
      exact .shift (.right hs hi ho) (.inl hb)
    | shift h => exact (h.stateOf hf hrule (.right hs hi ho)).2

/-! ## The rows of a state -/

/-- A state that places a head has rows for the symbols of the virtual tapes. It has one for the
boundary too, unless the head goes left and left ends are not extended. -/
theorem answers_active (ha : a.Proper) (hi : ActsAt rule i x w d) (hd : d ≠ .stay) :
    Answers (Emits a safety rule) (ruleState a rule (.active (i + 1)))
      (expected a safety.left (.active (i + 1))) := by
  have hplace : ∀ {c}, c ∈ a.unmarked → ¬(c = Symbol.boundary ∧ d = .left) →
      ∃ r, Emits a safety rule r ∧ r.domain = (ruleState a rule (.active (i + 1)), c) := by
    intro c hc hcd
    refine ⟨_, .execute (.place hi hd hc hcd) fun _ => ?_, rfl⟩
    rw [Bool.eq_false_iff, ne_eq, overwritesEdge_iff]
    exact fun ho => ha.marker_ne_of_mem_unmarked hc ho.2.1.symm
  have hsymbol : ∀ {c}, c ∈ a.symbols →
      ∃ r, Emits a safety rule r ∧ r.domain = (ruleState a rule (.active (i + 1)), c) := fun hc =>
    hplace (Alphabet.mem_unmarked_of_mem_symbols hc) fun h => (ha.plain _ hc).ne_boundary h.1
  intro c hc
  rw [expected] at hc
  split_ifs at hc with hl
  · rcases Alphabet.mem_unmarked.mp hc with hc | rfl
    · exact hsymbol hc
    · by_cases hleft : d = .left
      · subst hleft
        exact ⟨_, .extendLeft hl hi (.edge (.inl rfl)), rfl⟩
      · exact hplace Alphabet.boundary_mem_unmarked fun h => hleft h.2
  · exact hsymbol hc

/-- **Each state that a rule brings into a table has rows for all symbols that it can meet.** -/
theorem StateOf.answers (ha : a.Proper) (h : StateOf a safety rule s) :
    Answers (Emits a safety rule) s (expected a safety.left s.phase) := by
  cases h with
  | @discover n hn =>
    intro c hc
    rcases Nat.lt_or_eq_of_le hn with hlt | rfl
    · exact ⟨_, .discover (.scan hlt hc), rfl⟩
    · rw [prefixState_length]
      exact ⟨_, .discover (.handOver hc), rfl⟩
  | actor hi =>
    exact fun c hc => ⟨_, .execute (.retreat hi hc) fun _ => overwritesEdge_of_write_eq rfl, rfl⟩
  | active hi hd => exact answers_active ha hi hd
  | complete =>
    exact fun c hc => ⟨_, .execute (.cycle hc) fun _ => overwritesEdge_of_write_eq rfl, rfl⟩
  | realign hs hi => exact fun c hc => ⟨_, .extendLeft hs hi (.realign hc), rfl⟩
  | @shift owner side resume carried he hc =>
    intro c hmem
    change c ∈ (if carried ∈ a.library then a.library else [Symbol.blank]) at hmem
    split_ifs at hmem with hlib
    · exact ⟨_, he.emits (.relay hlib hmem), rfl⟩
    · -- only the tape end is carried besides the library, and it is put down on a blank
      obtain rfl := hc.resolve_left hlib
      obtain rfl := List.mem_singleton.mp hmem
      exact ⟨_, he.emits .turn, rfl⟩
  | comeBack he => exact fun c hc => ⟨_, he.emits (.comeBack hc), rfl⟩

/-- There is always a symbol that a state can meet. -/
theorem StateOf.exists_row (ha : a.Proper) (h : StateOf a safety rule s) :
    ∃ r, Emits a safety rule r ∧ r.state = s := by
  have hblank : ∃ c, c ∈ expected a safety.left s.phase := by
    have hunmarked := Alphabet.mem_unmarked_of_mem_symbols ha.blank_mem
    have hlibrary := Alphabet.mem_library_of_mem_unmarked hunmarked
    refine ⟨Symbol.blank, ?_⟩
    cases h with
    | discover | actor | realign => exact hunmarked
    | active =>
      change _ ∈ if safety.left then a.unmarked else a.symbols
      split_ifs
      · exact hunmarked
      · exact ha.blank_mem
    | complete | comeBack => exact hlibrary
    | @shift _ _ _ carried _ _ =>
      change _ ∈ if carried ∈ a.library then a.library else [Symbol.blank]
      split_ifs
      · exact hlibrary
      · exact List.mem_singleton_self _
  obtain ⟨c, hc⟩ := hblank
  obtain ⟨r, hr, hdomain⟩ := h.answers ha c hc
  exact ⟨r, hr, congrArg Prod.fst hdomain⟩

end Table

/-! ## The table of a compiled machine -/

namespace Machine

open Table

variable {m : Machine} {c : Config} {f : FlatMachine} {s : State} {r : Row}

/-- The states that the rules of a machine bring into its table. -/
def CompiledState (m : Machine) (c : Config) (s : State) : Prop :=
  ∃ rule ∈ (m.escape c.iteration).rules, StateOf (m.alphabet c.iteration) c.safety rule s

theorem compiledState_source {q : String} (hq : m.rulesFrom q ≠ []) :
    CompiledState m c (State.source q) := by
  obtain ⟨rule, hrule⟩ := List.exists_mem_of_ne_nil _ hq
  obtain ⟨hmem, rfl⟩ := Machine.mem_rulesFrom.mp hrule
  refine ⟨rule.escape c.iteration, List.mem_map_of_mem hmem, ?_⟩
  have hstate : StateOf (m.alphabet c.iteration) c.safety (rule.escape c.iteration)
      (prefixState (m.alphabet c.iteration) (rule.escape c.iteration) 0) :=
      .discover (Nat.zero_le _)
  rwa [prefixState_zero] at hstate

/-- A compiled state has rows for all symbols that it can meet. -/
theorem CompiledState.answers (h : m.flatten c = .ok f) (hs : CompiledState m c s) :
    Answers (· ∈ f.rows) s (expected (m.alphabet c.iteration) c.safety.left s.phase) := by
  obtain ⟨k, rows, hm, -, -, rfl, -, hmem⟩ := flatten_eq_ok h
  obtain ⟨rule, hrule, hstate⟩ := hs
  intro x hx
  obtain ⟨r, hr, hdomain⟩ := hstate.answers (Plan.fits_of_wellFormed hm c.iteration).proper x hx
  exact ⟨r, (hmem r).mpr (.inr ⟨rule, hrule, hr⟩), hdomain⟩

theorem CompiledState.exists_row (h : m.flatten c = .ok f) (hs : CompiledState m c s) :
    ∃ r ∈ f.rows, r.state = s := by
  obtain ⟨k, rows, hm, -, -, rfl, -, hmem⟩ := flatten_eq_ok h
  obtain ⟨rule, hrule, hstate⟩ := hs
  obtain ⟨r, hr, hdomain⟩ := hstate.exists_row (Plan.fits_of_wellFormed hm c.iteration).proper
  exact ⟨r, (hmem r).mpr (.inr ⟨rule, hrule, hr⟩), hdomain⟩

theorem compiledState_of_row (h : m.flatten c = .ok f) (hr : r ∈ f.rows) :
    CompiledState m c r.state ∨ ∃ step, r.state.phase = .inject step := by
  obtain ⟨k, rows, hm, -, hsound, rfl, -, hmem⟩ := flatten_eq_ok h
  rcases (hmem r).mp hr with hinj | ⟨rule, hrule, hemit⟩
  · obtain ⟨q, -, -, hinj⟩ := hsound.injects hinj
    obtain ⟨step, hstep⟩ := hinj.phase
    exact .inr ⟨step, congrArg State.phase hstep⟩
  · exact .inl ⟨rule, hrule,
      hemit.stateOf_state (Plan.fits_of_wellFormed hm c.iteration) hm.tapes_pos hrule⟩

/-- **Where the rows of a table lead**: to compiled states, to source states without rules, and from
the injection pass on to states that have rows as well. -/
theorem next_cases (h : m.flatten c = .ok f) (hr : r ∈ f.rows) : CompiledState m c r.next ∨
    (∃ q, r.next = State.source q ∧ m.rulesFrom q = []) ∨
    (∃ step, r.next.phase = .inject step) ∧ ∃ r' ∈ f.rows, r'.state = r.next := by
  obtain ⟨k, rows, hm, -, hsound, rfl, -, hmem⟩ := flatten_eq_ok h
  rcases (hmem r).mp hr with hinj | ⟨rule, hrule, hemit⟩
  · obtain ⟨q, hq, -, hinj⟩ := hsound.injects hinj
    have hrow : ∀ r', Injects (m.alphabet c.iteration) (State.source m.initial) q r' →
        r' ∈ rows := by
      intro r' hr'
      refine (hmem r').mpr (.inl ?_)
      unfold Plan.injectionRows
      rw [show (Plan.ofMachine m c k).config.placeholder = some q from hq]
      exact mem_injectionRows.mpr hr'
    cases hinj with
    | enter | replace | replaceMarker | pass _ => exact .inr (.inr ⟨⟨_, rfl⟩, _, hrow _ .turn, rfl⟩)
    | turn | comeBack _ => exact .inr (.inr ⟨⟨_, rfl⟩, _, hrow _ .leave, rfl⟩)
    | leave => exact .inl (compiledState_source hm.start)
  · rcases hemit.stateOf_next (Plan.fits_of_wellFormed hm c.iteration) hm.tapes_pos hrule
      with hs | hs
    · exact .inl ⟨rule, hrule, hs⟩
    · rw [hs]
      by_cases hq : m.rulesFrom rule.next = []
      · exact .inr (.inl ⟨rule.next, rfl, hq⟩)
      · exact .inl (compiledState_source hq)

theorem compiledState_of_mem_states (h : m.flatten c = .ok f) (hs : s ∈ f.states) :
    CompiledState m c s ∨ s.phase = .discover ∨ ∃ step, s.phase = .inject step := by
  simp only [FlatMachine.states, mem_sortedSet, List.mem_append, List.mem_cons, Table.states,
    List.mem_flatMap, List.not_mem_nil, or_false] at hs
  rcases hs with ⟨r, hr, rfl | rfl⟩ | rfl
  · exact (compiledState_of_row h hr).imp_right .inr
  · rcases next_cases h hr with hstate | ⟨q, hq, -⟩ | ⟨hstep, -⟩
    · exact .inl hstate
    · exact .inr (.inl (by rw [hq]; rfl))
    · exact .inr (.inr hstep)
  · obtain ⟨k, rows, -, -, -, rfl, -, -⟩ := flatten_eq_ok h
    right
    unfold Plan.initial
    split_ifs
    · exact .inr ⟨_, rfl⟩
    · exact .inl rfl

/-- The states of a table have rows for all symbols that they can meet, except those discovery
states that have no rows at all. -/
theorem answers_of_mem_states (h : m.flatten c = .ok f) (hs : s ∈ f.states) {p : Phase}
    (hp : s.phase = p) (hrow : p = .discover → ∃ r ∈ f.rows, r.state = s) :
    Answers (· ∈ f.rows) s (expected (m.alphabet c.iteration) c.safety.left p) := by
  subst hp
  rcases compiledState_of_mem_states h hs with hstate | hdiscover | ⟨step, hstep⟩
  · exact hstate.answers h
  · obtain ⟨r, hr, rfl⟩ := hrow hdiscover
    rcases compiledState_of_row h hr with hstate | ⟨step, hstep⟩
    · exact hstate.answers h
    · cases hdiscover.symm.trans hstep
  · rw [hstep]
    exact nofun

/-- **The table of a compiled machine is closed and covers what it can meet.** Every state that a
row leads to has rows, unless it enters discovery for a source state without rules. A discovery
state that has rows and a state that looks for a head have one for every cell without a head; a
state in which all heads have been served, one that walks back to the return mark and one that
carries a symbol of the library have one for the whole library; a state that places a head has one
for every symbol of the virtual tapes, and for the boundary too if left ends are extended. -/
theorem flatten_closed (m : Machine) (c : Config) (f : FlatMachine) (h : m.flatten c = .ok f) :
    (∀ r ∈ f.rows, (∃ r' ∈ f.rows, r'.state = r.next) ∨
      ∃ q, r.next = State.source q ∧ m.rulesFrom q = []) ∧
    ∀ s ∈ f.states,
      ((s.phase = .discover ∧ ∃ r ∈ f.rows, r.state = s) ∨ (∃ n, s.phase = .actor n) →
        Answers (· ∈ f.rows) s (m.alphabet c.iteration).unmarked) ∧
      (s.phase = .complete ∨ (∃ p side, s.phase = .extend p side .comeBack) ∨
          (∃ p side, ∃ x ∈ (m.alphabet c.iteration).library, s.phase = .extend p side (.shift x)) →
        Answers (· ∈ f.rows) s (m.alphabet c.iteration).library) ∧
      ((∃ n, s.phase = .active n) → Answers (· ∈ f.rows) s (m.alphabet c.iteration).symbols ∧
        (c.safety.left = true → Answers (· ∈ f.rows) s [Symbol.boundary])) := by
  refine ⟨fun r hr => ?_, fun s hs => ?_⟩
  · rcases next_cases h hr with hstate | hsource | ⟨-, hrow⟩
    · exact .inl (hstate.exists_row h)
    · exact .inr hsource
    · exact .inl hrow
  · refine ⟨?_, ?_, ?_⟩
    · rintro (⟨hp, hrow⟩ | ⟨n, hp⟩)
      · exact answers_of_mem_states h hs hp fun _ => hrow
      · exact answers_of_mem_states h hs hp nofun
    · rintro (hp | ⟨p, side, hp⟩ | ⟨p, side, x, hx, hp⟩)
      · exact answers_of_mem_states h hs hp nofun
      · exact answers_of_mem_states h hs hp nofun
      · have hshift := answers_of_mem_states h hs hp nofun
        rwa [expected, if_pos hx] at hshift
    · rintro ⟨n, hp⟩
      have hactive := answers_of_mem_states h hs hp nofun
      refine ⟨fun x hx => hactive x ?_, fun hl x hx => hactive x ?_⟩
      · rw [expected]
        split_ifs
        · exact Alphabet.mem_unmarked_of_mem_symbols hx
        · exact hx
      · rw [expected, if_pos hl, List.mem_singleton.mp hx]
        exact Alphabet.boundary_mem_unmarked

/-- The first head of the machine over reserved symbols walks off the left end of its tape, so the
state that places this head has a row for the boundary. -/
theorem flatten_closed_exchange : ∃ f, exchange.flatten {} = .ok f ∧
    (∀ r ∈ f.rows, (∃ r' ∈ f.rows, r'.state = r.next) ∨
      ∃ q, r.next = State.source q ∧ exchange.rulesFrom q = []) ∧
    ∃ r ∈ f.rows, r.domain = (⟨"q", [⟨"\\#\\.1"⟩, ⟨"_.1"⟩], .active 1⟩, Symbol.boundary) := by
  obtain ⟨f, hf⟩ := flatten_eq_ok_of_normal (c := {}) wellFormed_exchange (Nat.le_refl 1) rfl rfl
  obtain ⟨hnext, hanswers⟩ := flatten_closed exchange {} f hf
  have hplaced : CompiledState exchange {} ⟨"q", [⟨"\\#\\.1"⟩, ⟨"_.1"⟩], .active 1⟩ :=
    ⟨_, List.mem_cons_self, .active (i := 0) (d := .left) ⟨rfl, rfl, rfl⟩ (by decide)⟩
  obtain ⟨r, hr, hstate⟩ := hplaced.exists_row hf
  have hmem := FlatMachine.state_mem_states hr
  rw [hstate] at hmem
  obtain ⟨r', hr', hdomain⟩ := ((hanswers _ hmem).2.2 ⟨1, rfl⟩).2 rfl _ List.mem_cons_self
  exact ⟨f, hf, hnext, r', hr', hdomain⟩

end Machine
end OneTape
