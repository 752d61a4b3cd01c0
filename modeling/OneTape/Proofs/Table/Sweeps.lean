import OneTape.Plan
import OneTape.Proofs.Alphabet

/-!
# The rows of the two sweeps

`Discovers a rule` and `Executes a rule` list the kinds of row that discovery and execution make for
a rule, each kind once. Heads are counted from zero here, as positions in the tuples of a rule; head
`i` of the tuples is head `i + 1` of the phases.

Results:
* `mem_discoveryRows`, `mem_executionRows`: these are the rows of the two sweeps.
* `mem_sweepRows`: the rows of the sweeps over all states of a machine are those of its rules.
-/

namespace OneTape.Table

/-! ## The states of a rule -/

/-- The state that knows the symbols which a rule reads, in a phase. -/
def ruleState (a : Alphabet) (rule : Rule) (phase : Phase) : State :=
  ⟨rule.state, rule.read.map a.marker, phase⟩

/-- The discovery state that knows the first `n` symbols which a rule reads. -/
def prefixState (a : Alphabet) (rule : Rule) (n : Nat) : State :=
  discovered a rule.state (rule.read.take n)

/-- At head `i` a rule reads `x`, writes `w` and moves in direction `d`. -/
structure ActsAt (rule : Rule) (i : Nat) (x w : Symbol) (d : Direction) : Prop where
  read : rule.read[i]? = some x
  write : rule.write[i]? = some w
  move : rule.moves[i]? = some d

/-- The phase that follows when head `i` has been served. -/
def afterPhase (i : Nat) : Phase := if i = 0 then .complete else .actor i

/-- Where the machine goes once it has marked the new place of head `i`. -/
def placeMove (i : Nat) : Direction := if i = 0 then .stay else .left

/-- What a rule does at head `i`, on the head's marker. -/
def resolution (a : Alphabet) (rule : Rule) (i : Nat) (x w : Symbol) (d : Direction) : Row :=
  resolveRow (ruleState a rule .discover) ⟨i + 1, a.marker x, w, d⟩ (a.marker x) w (a.marker w)

/-- What a rule does at head `i`, which reads a blank, on the boundary that closes the tape. -/
def edgeResolution (a : Alphabet) (rule : Rule) (i : Nat) (w : Symbol) (d : Direction) : Row :=
  let h : HeadAction := ⟨i + 1, a.blankMarker, w, d⟩
  if w = Symbol.blank then
    resolveRow (ruleState a rule .discover) h a.boundaryMarker
      (if d = .right then Symbol.blank else Symbol.boundary) a.boundaryMarker
  else
    resolveRow (ruleState a rule .discover) h a.boundaryMarker w (a.marker w)

/-- The rows of discovery that are due to a rule. -/
inductive Discovers (a : Alphabet) (rule : Rule) : Row → Prop
  | scan {n : Nat} {c : Symbol} : n < rule.read.length → c ∈ a.unmarked →
      Discovers a rule ⟨prefixState a rule n, c, prefixState a rule n, c, .right⟩
  | record {n : Nat} {x : Symbol} : rule.read[n]? = some x →
      Discovers a rule
        ⟨prefixState a rule n, a.marker x, prefixState a rule (n + 1), a.marker x, .right⟩
  | recordEdge {n : Nat} : rule.read[n]? = some Symbol.blank →
      Discovers a rule ⟨prefixState a rule n, a.boundaryMarker, prefixState a rule (n + 1),
        a.boundaryMarker, .right⟩
  | handOver {c : Symbol} : c ∈ a.unmarked →
      Discovers a rule ⟨ruleState a rule .discover, c,
        ruleState a rule (.actor rule.read.length), c, .stay⟩
  | handOverEnd :
      Discovers a rule ⟨ruleState a rule .discover, Symbol.tapeEnd,
        ruleState a rule (.actor rule.read.length), Symbol.tapeEnd, .left⟩

/-- The rows of execution that are due to a rule. -/
inductive Executes (a : Alphabet) (rule : Rule) : Row → Prop
  | retreat {i : Nat} {x w c : Symbol} {d : Direction} : ActsAt rule i x w d → c ∈ a.unmarked →
      Executes a rule ⟨ruleState a rule (.actor (i + 1)), c, ruleState a rule (.actor (i + 1)), c,
        .left⟩
  | resolve {i : Nat} {x w : Symbol} {d : Direction} : ActsAt rule i x w d →
      Executes a rule (resolution a rule i x w d)
  | resolveEdge {i : Nat} {w : Symbol} {d : Direction} : ActsAt rule i Symbol.blank w d →
      Executes a rule (edgeResolution a rule i w d)
  | place {i : Nat} {x w c : Symbol} {d : Direction} : ActsAt rule i x w d → d ≠ .stay →
      c ∈ a.unmarked → ¬(c = Symbol.boundary ∧ d = .left) →
      Executes a rule ⟨ruleState a rule (.active (i + 1)), c, ruleState a rule (afterPhase i),
        a.marker c, placeMove i⟩
  | cycle {c : Symbol} : c ∈ a.library →
      Executes a rule ⟨ruleState a rule .complete, c, State.source rule.next, c, .stay⟩

variable {a : Alphabet} {rule : Rule} {rules : List Rule} {q : String} {r : Row} {k : Nat}

/-! ## Discovery -/

theorem discovered_advance (reads : List Symbol) (x : Symbol) :
    (discovered a q reads).advance (a.marker x) = discovered a q (reads ++ [x]) := by
  simp [discovered, State.advance]

theorem take_succ_of_getElem? {n : Nat} {x : Symbol} (h : rule.read[n]? = some x) :
    rule.read.take (n + 1) = rule.read.take n ++ [x] := by
  rw [List.take_add_one, h]; rfl

theorem mem_undetermined {s : State} {n : Nat} :
    s ∈ undetermined a q rules n ↔ ∃ rule ∈ rules, discovered a q (rule.read.take n) = s := by
  simp [undetermined]

/-- A rule agrees with a state that has discovered symbols if it reads these symbols first. -/
theorem agrees_discovered_iff {reads : List Symbol} (h : reads.length ≤ rule.read.length) :
    agrees a (discovered a q reads) rule = true ↔ rule.read.take reads.length = reads := by
  simp only [agrees, discovered]
  generalize rule.read = xs at h
  induction reads generalizing xs with
  | nil => simp
  | cons y ys ih =>
    cases xs with
    | nil => simp at h
    | cons x xs => simp [ih xs (by simpa using h)]

/-- The symbols that a state expects next are those that follow its own in some rule. -/
theorem mem_candidates {reads : List Symbol} {x : Symbol}
    (h : ∀ rule ∈ rules, reads.length ≤ rule.read.length) :
    x ∈ candidates a rules (discovered a q reads) ↔
      ∃ rule ∈ rules, rule.read.take reads.length = reads ∧ rule.read[reads.length]? = some x := by
  simp only [candidates, mem_sortedSet, List.mem_filterMap, List.mem_filter]
  have hlen : (discovered a q reads).heads.length = reads.length := by simp [discovered]
  rw [hlen]
  constructor
  · rintro ⟨rule, ⟨hr, ha⟩, hx⟩
    exact ⟨rule, hr, (agrees_discovered_iff (h rule hr)).mp ha, hx⟩
  · rintro ⟨rule, hr, ha, hx⟩
    exact ⟨rule, ⟨hr, (agrees_discovered_iff (h rule hr)).mpr ha⟩, hx⟩

theorem mem_recordRows {s : State} {x : Symbol} : r ∈ recordRows a s x ↔
    (x = Symbol.blank ∧
      r = ⟨s, a.boundaryMarker, s.advance (a.marker x), a.boundaryMarker, .right⟩) ∨
      r = ⟨s, a.marker x, s.advance (a.marker x), a.marker x, .right⟩ := by
  by_cases h : x = Symbol.blank <;> simp [recordRows, h]

theorem mem_handOverRows : r ∈ handOverRows a ⟨discovered a rule.state rule.read, rule⟩ ↔
    (∃ c ∈ a.unmarked, r = ⟨ruleState a rule .discover, c,
      ruleState a rule (.actor rule.read.length), c, .stay⟩) ∨
    r = ⟨ruleState a rule .discover, Symbol.tapeEnd, ruleState a rule (.actor rule.read.length),
      Symbol.tapeEnd, .left⟩ := by
  simp only [handOverRows, List.mem_append, List.mem_map, List.mem_singleton]
  constructor
  · rintro (⟨c, hc, rfl⟩ | rfl)
    · exact .inl ⟨c, hc, rfl⟩
    · exact .inr rfl
  · rintro (⟨c, hc, rfl⟩ | rfl)
    · exact .inl ⟨c, hc, rfl⟩
    · exact .inr rfl

/-- The discovery rows of a state are those of its rules. Rules with a common prefix share rows. -/
theorem mem_discoveryRows (hq : ∀ rule ∈ rules, rule.state = q)
    (hk : ∀ rule ∈ rules, rule.read.length = k) :
    r ∈ discoveryRows a q rules k ↔ ∃ rule ∈ rules, Discovers a rule r := by
  simp only [discoveryRows, determined, List.mem_append, List.mem_flatMap, List.mem_range,
    List.mem_map, mem_undetermined, scanRows, advanceRows, mem_recordRows]
  constructor
  · rintro (⟨n, hn, s, ⟨rule, hr, rfl⟩, ⟨c, hc, rfl⟩ | ⟨x, hx, hrow⟩⟩ | ⟨d, ⟨rule, hr, rfl⟩, hrow⟩)
    · refine ⟨rule, hr, ?_⟩
      rw [← hq rule hr]
      exact .scan (by rw [hk rule hr]; exact hn) hc
    · have hlen : (rule.read.take n).length = n := by
        rw [List.length_take, hk rule hr]; omega
      rw [mem_candidates fun r' hr' => by rw [hlen, hk r' hr']; omega, hlen] at hx
      obtain ⟨rule', hr', hpre, hx⟩ := hx
      rw [← hpre, discovered_advance, ← take_succ_of_getElem? hx, ← hq rule' hr'] at hrow
      refine ⟨rule', hr', ?_⟩
      rcases hrow with ⟨rfl, rfl⟩ | rfl
      · exact .recordEdge hx
      · exact .record hx
    · refine ⟨rule, hr, ?_⟩
      rw [← hq rule hr, mem_handOverRows] at hrow
      rcases hrow with ⟨c, hc, rfl⟩ | rfl
      · exact .handOver hc
      · exact .handOverEnd
  · rintro ⟨rule, hr, h⟩
    have hcand : ∀ {n x}, rule.read[n]? = some x →
        n < k ∧ x ∈ candidates a rules (discovered a rule.state (rule.read.take n)) := by
      intro n x hx
      have hn : n < k := by
        rw [← hk rule hr]
        exact (List.getElem?_eq_some_iff.mp hx).1
      have hlen : (rule.read.take n).length = n := by
        rw [List.length_take, hk rule hr]; omega
      refine ⟨hn, (mem_candidates fun r' hr' => ?_).mpr ⟨rule, hr, ?_⟩⟩
      · rw [hlen, hk r' hr']; omega
      · rw [hlen]; exact ⟨rfl, hx⟩
    cases h with
    | @scan n c hn hc =>
      exact .inl ⟨n, by rw [← hk rule hr]; exact hn, _, ⟨rule, hr, by rw [← hq rule hr]; rfl⟩,
        .inl ⟨c, hc, rfl⟩⟩
    | @record n x hx =>
      obtain ⟨hn, hc⟩ := hcand hx
      refine .inl ⟨n, hn, _, ⟨rule, hr, by rw [← hq rule hr]⟩, .inr ⟨x, hc, .inr ?_⟩⟩
      rw [prefixState, prefixState, discovered_advance, take_succ_of_getElem? hx]
    | @recordEdge n hx =>
      obtain ⟨hn, hc⟩ := hcand hx
      refine .inl ⟨n, hn, _, ⟨rule, hr, by rw [← hq rule hr]⟩, .inr ⟨_, hc, .inl ⟨rfl, ?_⟩⟩⟩
      rw [prefixState, prefixState, discovered_advance, take_succ_of_getElem? hx]
    | @handOver c hc =>
      refine .inr ⟨_, ⟨rule, hr, rfl⟩, ?_⟩
      rw [← hq rule hr, mem_handOverRows]
      exact .inl ⟨c, hc, rfl⟩
    | handOverEnd =>
      refine .inr ⟨_, ⟨rule, hr, rfl⟩, ?_⟩
      rw [← hq rule hr, mem_handOverRows]
      exact .inr rfl

/-! ## Execution -/

theorem mem_actions {h : HeadAction} :
    h ∈ (Determined.mk (discovered a q rule.read) rule).actions ↔
      ∃ i x w d, ActsAt rule i x w d ∧ h = ⟨i + 1, a.marker x, w, d⟩ := by
  simp only [Determined.actions, discovered, List.mem_map, List.mem_reverse, Prod.exists,
    List.mk_mem_zipIdx_iff_le_and_getElem?_sub, List.getElem?_zip_eq_some, List.getElem?_map,
    Option.map_eq_some_iff]
  constructor
  · rintro ⟨marker, w, d, n, ⟨hn, ⟨x, hx, rfl⟩, hw, hd⟩, rfl⟩
    exact ⟨n - 1, x, w, d, ⟨hx, hw, hd⟩, by rw [Nat.sub_add_cancel hn]⟩
  · rintro ⟨i, x, w, d, ⟨hx, hw, hd⟩, rfl⟩
    exact ⟨_, w, d, i + 1, ⟨by omega, ⟨x, hx, rfl⟩, hw, hd⟩, rfl⟩

theorem after_eq (s : State) (i : Nat) : s.after (i + 1) = { s with phase := afterPhase i } := by
  cases i <;> simp [State.after, afterPhase, State.actor, State.complete]

theorem mem_resolveRows {i : Nat} {x w : Symbol} {d : Direction} :
    r ∈ resolveRows a (discovered a rule.state rule.read) ⟨i + 1, a.marker x, w, d⟩ ↔
      r = resolution a rule i x w d ∨ x = Symbol.blank ∧ r = edgeResolution a rule i w d := by
  have hblank : a.marker x = a.blankMarker ↔ x = Symbol.blank := Alphabet.marker_inj
  simp only [resolveRows, hblank, List.mem_append, List.mem_singleton, resolution, ruleState,
    discovered, edgeResolution]
  by_cases hx : x = Symbol.blank
  · subst hx
    by_cases hw : w = Symbol.blank <;> simp [hw, Alphabet.blankMarker]
  · simp [hx]

theorem mem_placeRows {i : Nat} {m w : Symbol} {d : Direction} :
    r ∈ placeRows a (discovered a rule.state rule.read) ⟨i + 1, m, w, d⟩ ↔
      d ≠ .stay ∧ ∃ c ∈ a.unmarked, ¬(c = Symbol.boundary ∧ d = .left) ∧
        r = ⟨ruleState a rule (.active (i + 1)), c, ruleState a rule (afterPhase i), a.marker c,
          placeMove i⟩ := by
  have hmove : (if i + 1 > 1 then Direction.left else .stay) = placeMove i := by
    cases i <;> simp [placeMove]
  by_cases hd : d = .stay
  · simp [placeRows, hd]
  · rw [placeRows, if_neg hd]
    simp only [hmove, after_eq, List.mem_map, List.mem_filter, ne_eq, hd, not_false_eq_true,
      true_and, Bool.not_eq_true', Bool.and_eq_false_iff, beq_eq_false_iff_ne, not_and_or]
    constructor
    · rintro ⟨c, ⟨hc, hcd⟩, rfl⟩
      exact ⟨c, hc, hcd, rfl⟩
    · rintro ⟨c, hc, hcd, rfl⟩
      exact ⟨c, ⟨hc, hcd⟩, rfl⟩

theorem mem_executionRows :
    r ∈ executionRows a ⟨discovered a rule.state rule.read, rule⟩ ↔ Executes a rule r := by
  simp only [executionRows, List.mem_append, List.mem_flatMap, mem_actions, retreatRows, cycleRows,
    List.mem_map]
  constructor
  · rintro (⟨h, ⟨i, x, w, d, hi, rfl⟩, (⟨c, hc, rfl⟩ | hrow) | hrow⟩ | ⟨c, hc, rfl⟩)
    · exact .retreat hi hc
    · rcases mem_resolveRows.mp hrow with rfl | ⟨rfl, rfl⟩
      · exact .resolve hi
      · exact .resolveEdge hi
    · obtain ⟨hd, c, hc, hcd, rfl⟩ := mem_placeRows.mp hrow
      exact .place hi hd hc hcd
    · exact .cycle hc
  · intro h
    cases h with
    | retreat hi hc => exact .inl ⟨_, ⟨_, _, _, _, hi, rfl⟩, .inl (.inl ⟨_, hc, rfl⟩)⟩
    | resolve hi =>
      exact .inl ⟨_, ⟨_, _, _, _, hi, rfl⟩, .inl (.inr (mem_resolveRows.mpr (.inl rfl)))⟩
    | resolveEdge hi =>
      exact .inl ⟨_, ⟨_, _, _, _, hi, rfl⟩, .inl (.inr (mem_resolveRows.mpr (.inr ⟨rfl, rfl⟩)))⟩
    | place hi hd hc hcd =>
      exact .inl ⟨_, ⟨_, _, _, _, hi, rfl⟩, .inr (mem_placeRows.mpr ⟨hd, _, hc, hcd, rfl⟩)⟩
    | cycle hc => exact .inr ⟨_, hc, rfl⟩

/-! ## All states of a machine -/

theorem mem_domainStates {m : Machine} : q ∈ m.domainStates ↔ ∃ rule ∈ m.rules, rule.state = q := by
  simp [Machine.domainStates, List.mem_eraseDups]

/-- **The rows of the sweeps over all states of a machine are those of its rules.** -/
theorem mem_sweepRows {p : Plan} (hk : ∀ rule ∈ p.machine.rules, rule.read.length = p.tapes) :
    r ∈ (p.machine.domainStates.flatMap fun q => p.discoveryRows q ++ p.executionRows q) ↔
      ∃ rule ∈ p.machine.rules, Discovers p.alphabet rule r ∨ Executes p.alphabet rule r := by
  have hdisc : ∀ q, r ∈ p.discoveryRows q ↔
      ∃ rule ∈ p.machine.rulesFrom q, Discovers p.alphabet rule r := fun q =>
    mem_discoveryRows (fun rule hr => (Machine.mem_rulesFrom.mp hr).2)
      fun rule hr => hk rule (Machine.mem_rulesFrom.mp hr).1
  have hexec : ∀ q, r ∈ p.executionRows q ↔
      ∃ rule ∈ p.machine.rulesFrom q, Executes p.alphabet rule r := by
    intro q
    simp only [Plan.executionRows, determined, List.flatMap_map, List.mem_flatMap]
    constructor
    · rintro ⟨rule, hr, hrow⟩
      rw [← (Machine.mem_rulesFrom.mp hr).2, mem_executionRows] at hrow
      exact ⟨rule, hr, hrow⟩
    · rintro ⟨rule, hr, hrow⟩
      refine ⟨rule, hr, ?_⟩
      rw [← (Machine.mem_rulesFrom.mp hr).2, mem_executionRows]
      exact hrow
  simp only [List.mem_flatMap, List.mem_append, hdisc, hexec, Machine.mem_rulesFrom,
    mem_domainStates]
  constructor
  · rintro ⟨q, -, ⟨rule, ⟨hr, -⟩, h⟩ | ⟨rule, ⟨hr, -⟩, h⟩⟩
    · exact ⟨rule, hr, .inl h⟩
    · exact ⟨rule, hr, .inr h⟩
  · rintro ⟨rule, hr, h | h⟩
    · exact ⟨rule.state, ⟨rule, hr, rfl⟩, .inl ⟨rule, ⟨hr, rfl⟩, h⟩⟩
    · exact ⟨rule.state, ⟨rule, hr, rfl⟩, .inr ⟨rule, ⟨hr, rfl⟩, h⟩⟩

end OneTape.Table
