import OneTape.Proofs.Compiled
import OneTape.Proofs.NestedName

/-!
# A compiled machine can be compiled again

The symbols of a compiled machine are those of its source machine, escaped and marked, and the
symbols that the single tape keeps for itself. Its states stay with a source state and with such
symbols. So what is required of names and symbols is passed on from one machine to the next.

Results:
* `Table.Emits.onTape`: the symbols of a row.
* `Generated.stems`: the states of a compiled machine.
* `Generated.wellFormed_named`: a compiled machine is well formed.
* `Generated.mem_symbols_of_mem_library`: it has rules for everything that stands on an encoded
  tape.
-/

namespace OneTape

/-! ## Properties of symbols that are passed on -/

namespace Symbol

/-- A property of symbols that a machine passes on to the machine compiled from it. -/
structure Inherited (K : Symbol → Prop) : Prop where
  own : ∀ s ∈ [blank, boundary, tapeEnd, returnMark], K s
  escape : ∀ {s : Symbol} (iteration : Nat), K s → K (s.escape iteration)
  marker : ∀ {s : Symbol} (iteration : Nat), K s → K (s.marker iteration)

end Symbol

/-- The symbol can stand on the single tape. -/
def Alphabet.OnTape (a : Alphabet) (c : Symbol) : Prop :=
  c ∈ a.library ∨ c = Symbol.tapeEnd ∨ c = Symbol.returnMark

theorem Symbol.Inherited.of_onTape {K : Symbol → Prop} {m : Machine} {iteration : Nat} {c : Symbol}
    (hK : Inherited K) (hm : ∀ x ∈ m.symbols, K x) (h : (m.alphabet iteration).OnTape c) : K c := by
  have hunmarked : ∀ x ∈ (m.alphabet iteration).unmarked, K x := by
    intro x hx
    rcases Alphabet.mem_unmarked.mp hx with hx | rfl
    · rcases Alphabet.mem_symbols_ofMachine.mp hx with rfl | hx
      · exact hK.own _ (by simp)
      · obtain ⟨y, hy, rfl⟩ := Alphabet.mem_symbols_escape.mp hx
        exact hK.escape iteration (hm y hy)
    · exact hK.own _ (by simp)
  rcases h with h | rfl | rfl
  · rcases Alphabet.mem_library.mp h with h | ⟨x, hx, rfl⟩
    · exact hunmarked c h
    · exact hK.marker iteration (hunmarked x hx)
  · exact hK.own _ (by simp)
  · exact hK.own _ (by simp)

/-! ## The symbols of a row -/

namespace Table

variable {a : Alphabet} {rule : Rule} {rules : List Rule} {k : Nat} {r : Row} {safety : Safety}

/-- The symbols that a row reads, writes, and carries before and after. -/
def rowSymbols (r : Row) : List Symbol := [r.read, r.write] ++ r.state.carried ++ r.next.carried

theorem Effect.onTape {s s' : Stage} {c w : Symbol} {d : Direction} (ha : a.Proper)
    (h : Effect a s c s' w d) : ∀ x ∈ [c, w] ++ s.carried ++ s'.carried, a.OnTape x := by
  have hlib : ∀ {x}, x ∈ a.library → a.OnTape x := .inl
  have hunm : ∀ {x}, x ∈ a.unmarked → a.OnTape x := fun hx =>
    hlib (Alphabet.mem_library_of_mem_unmarked hx)
  have hmark : ∀ {x}, x ∈ a.unmarked → a.OnTape (a.marker x) := fun hx =>
    hlib (Alphabet.marker_mem_library hx)
  have hsym : ∀ {x}, x ∈ a.symbols → x ∈ a.unmarked := Alphabet.mem_unmarked_of_mem_symbols
  have hbound : Symbol.boundary ∈ a.unmarked := Alphabet.boundary_mem_unmarked
  have hend : a.OnTape Symbol.tapeEnd := .inr (.inl rfl)
  have hret : a.OnTape Symbol.returnMark := .inr (.inr rfl)
  cases h with
  | sweep hc | comeBack hc => simp [Stage.carried, hlib hc]
  | sweepEnd => simp [Stage.carried, hend]
  | rewrite hx hw => simp [Stage.carried, hmark (hsym hx), hmark (hsym hw)]
  | lift hx hw => simp [Stage.carried, hmark (hsym hx), hunm (hsym hw)]
  | liftEdge => simp [Stage.carried, Alphabet.boundaryMarker, hmark hbound, hunm hbound]
  | place hc => simp [Stage.carried, hmark hc, hunm hc]
  | stepBack he => simp [Stage.carried, hlib he.mem_library]
  | anchor hc => simp [Stage.carried, hunm hc, hret]
  | anchorEdge => simp [Stage.carried, Alphabet.boundaryMarker, hmark hbound, hunm hbound, hret]
  | relay hc hf => simp [Stage.carried, hlib hc, hlib hf]
  | takeEnd he => simp [Stage.carried, hlib he.mem_library, hend]
  | putEnd => simp [Stage.carried, hunm (hsym ha.blank_mem), hend]
  | resume => simp [Stage.carried, Alphabet.blankMarker, hmark (hsym ha.blank_mem), hret]

/-- Without an extension a head may overwrite the boundary that closes its tape. -/
theorem onTape_edgeResolution {i : Nat} {w : Symbol} {d : Direction} (ha : a.Proper)
    (hw : w ∈ a.symbols) :
    ∀ x ∈ rowSymbols (edgeResolution a rule i w d), a.OnTape x := by
  have hunm : ∀ {x}, x ∈ a.unmarked → a.OnTape x ∧ a.OnTape (a.marker x) := fun hx =>
    ⟨.inl (Alphabet.mem_library_of_mem_unmarked hx), .inl (Alphabet.marker_mem_library hx)⟩
  have hbound := hunm (Alphabet.boundary_mem_unmarked (a := a))
  have hblank := hunm (Alphabet.mem_unmarked_of_mem_symbols ha.blank_mem)
  have hwrite := hunm (Alphabet.mem_unmarked_of_mem_symbols hw)
  have hresolve : ∀ {h : HeadAction} {plain marked : Symbol}, a.OnTape plain → a.OnTape marked →
      ∀ x ∈ rowSymbols (resolveRow (ruleState a rule .discover) h a.boundaryMarker plain marked),
        a.OnTape x := by
    intro h plain marked hp hm
    unfold resolveRow State.after
    split_ifs <;> simp_all [rowSymbols, State.carried, State.stage, Stage.carried, State.actor,
      State.active, State.complete, Alphabet.boundaryMarker]
  unfold edgeResolution
  dsimp only
  split_ifs
  · exact hresolve hblank.1 hbound.2
  · exact hresolve hbound.1 hbound.2
  · exact hresolve hwrite.1 hwrite.2

/-- **The symbols of a row can stand on the single tape.** -/
theorem Emits.onTape (hf : Fits a rules k) (hrule : rule ∈ rules) (h : Emits a safety rule r) :
    ∀ x ∈ rowSymbols r, a.OnTape x := by
  cases h with
  | discover h => exact (h.effect hf hrule).onTape hf.proper
  | execute h _ =>
    cases ho : overwritesEdge a r with
    | false => exact (h.effect hf hrule ho).onTape hf.proper
    | true =>
      obtain ⟨i, w, d, hi, rfl⟩ := h.of_overwritesEdge hf hrule ho
      exact onTape_edgeResolution hf.proper (hf.write_mem hrule hi)
  | extendLeft _ hi h =>
    exact (Emits.effect hf hrule (.extendLeft rfl hi h)).onTape hf.proper
  | extendRight _ hi ho h =>
    exact (Emits.effect hf hrule (.extendRight rfl hi ho h)).onTape hf.proper

/-- A row without markers in its states belongs to discovery. -/
theorem Emits.phase_state (h : Emits a safety rule r) (hne : rule.read ≠ [])
    (hs : r.state.heads = []) :
    r.state.phase = .discover := by
  rcases h.cases with h | ⟨-, hh, -⟩
  · exact h.phase
  · exact absurd (List.map_eq_nil_iff.mp (hh.symm.trans hs)) hne

theorem Emits.phase_next (h : Emits a safety rule r) (hne : rule.read ≠ [])
    (hs : r.next.heads = []) :
    r.next.phase = .discover := by
  have hdetermined : ∀ {phase}, r.next ≠ ruleState a rule phase := by
    intro phase hn
    rw [hn] at hs
    exact hne (List.map_eq_nil_iff.mp hs)
  by_cases hp : r.state.phase = .complete
  · obtain ⟨c, -, rfl⟩ := h.of_complete hp
    rfl
  · rcases h.next_eq hp with h | ⟨phase, hn, -, -⟩
    · cases h with
      | scan | record | recordEdge => rfl
      | handOver | handOverEnd => exact absurd rfl hdetermined
    · exact absurd hn hdetermined

end Table

/-! ## The states of a compiled machine -/

/-- A state that stems from a machine: it stays with one of its states, its markers carry the
iteration, its symbols can stand on the single tape, and without markers it enters discovery. -/
structure State.Stems (m : Machine) (iteration : Nat) (s : State) : Prop where
  base : s.base ∈ m.stateNames
  marked : ∀ h ∈ s.heads, h.isMarkerLike iteration = true
  symbols : ∀ x ∈ s.heads ++ s.carried, (m.alphabet iteration).OnTape x
  phase : s.phase.Readable
  source : s.heads = [] → s.phase = .discover

namespace Generated

variable {m : Machine} {iteration k : Nat} {safety : Safety} {flat : FlatMachine} {s : State}

/-- **Every state of a compiled machine stems from the source machine.** -/
theorem stems (hg : Generated m iteration safety k flat) (hs : s ∈ flat.states ++ flat.accept) :
    s.Stems m iteration := by
  obtain ⟨hheads, hphase⟩ := hg.heads_of_mem hs
  have hrows : (∀ c ∈ s.carried, (m.alphabet iteration).OnTape c) ∧
      (s.heads = [] → s.phase = .discover) := by
    refine hg.state_induction hs (fun q _ => ⟨nofun, fun _ => rfl⟩) fun rule hrule r he => ?_
    have hne : rule.read ≠ [] := by
      apply List.ne_nil_of_length_pos
      rw [(hg.fits.lengths rule hrule).1]
      exact hg.wellFormed.tapes_pos
    have htape := he.onTape hg.fits hrule
    refine ⟨⟨fun c hc => htape c ?_, he.phase_state hne⟩, fun c hc => htape c ?_, he.phase_next hne⟩
    · simp [Table.rowSymbols, hc]
    · simp [Table.rowSymbols, hc]
  refine ⟨hg.base_mem_stateNames hs, fun h hh => ?_, fun x hx => ?_, hphase, hrows.2⟩
  · obtain ⟨x, -, rfl⟩ := hheads h hh
    exact Symbol.isMarkerLike_marker _ iteration
  · rcases List.mem_append.mp hx with hx | hx
    · obtain ⟨y, hy, rfl⟩ := hheads x hx
      have hmem : y.escape iteration ∈ (m.alphabet iteration).symbols :=
        Alphabet.mem_symbols_ofMachine.mpr (.inr (Alphabet.mem_symbols_escape.mpr ⟨y, hy, rfl⟩))
      exact .inl (Alphabet.marker_mem_library (Alphabet.mem_unmarked_of_mem_symbols hmem))
    · exact hrows.1 x hx

end Generated

/-! ## Words -/

namespace Machine

/-- The character may stand in a word. -/
def Unseparated (c : Char) : Prop := c ≠ ',' ∧ Text.isSpace c = false

instance (c : Char) : Decidable (Unseparated c) := inferInstanceAs (Decidable (_ ∧ _))

theorem isWord_iff {t : String} :
    isWord t = true ↔ t.toList ≠ [] ∧ ∀ c ∈ t.toList, Unseparated c := by
  simp [isWord, Unseparated]

theorem unseparated_of_isDigit {c : Char} (h : c.isDigit = true) : Unseparated c := by
  have hrange : 48 ≤ c.toNat ∧ c.toNat ≤ 57 := by
    simp only [Char.isDigit, Bool.and_eq_true, decide_eq_true_eq] at h
    exact h
  refine ⟨?_, ?_⟩
  · rintro rfl
    exact absurd h (by decide)
  · simp [Text.isSpace]
    omega

theorem inherited_isWord : Symbol.Inherited fun s => isWord s.text = true where
  own := by decide
  escape {s} iteration h := by
    obtain ⟨hne, hall⟩ := isWord_iff.mp h
    refine isWord_iff.mpr ⟨?_, fun c hc => ?_⟩
    · cases hs : s.needsEscape iteration with
      | false => rwa [Symbol.escape_eq_self hs]
      | true => simp [Symbol.escape_of_needsEscape hs]
    · rcases Symbol.mem_escape hc with hc | rfl
      · exact hall c hc
      · decide
  marker {s} iteration h := by
    obtain ⟨hne, hall⟩ := isWord_iff.mp h
    refine isWord_iff.mpr ⟨by simp [Symbol.toList_marker, hne], fun c hc => ?_⟩
    rcases Symbol.mem_marker hc with hc | rfl | hc
    · exact hall c hc
    · decide
    · exact unseparated_of_isDigit hc

theorem unseparated_brackets {heads : List Symbol} (hx : ∀ x ∈ heads, isWord x.text = true) :
    ∀ c ∈ State.brackets heads, Unseparated c := by
  intro c hc
  obtain ⟨x, hmem, hc⟩ := List.mem_flatMap.mp hc
  simp only [List.mem_cons, List.mem_append, List.not_mem_nil, or_false] at hc
  rcases hc with rfl | hc | rfl
  · decide
  · exact (isWord_iff.mp (hx x hmem)).2 c hc
  · decide

theorem unseparated_addition {s : State} (hx : ∀ x ∈ s.carried, isWord x.text = true) :
    ∀ c ∈ s.phase.addition, Unseparated c := by
  rcases s.addition_cases with hsign | ⟨side, x, hcarried, hadd⟩
  · have hsigns : ∀ t ∈ Phase.signs, ∀ c ∈ t, Unseparated c := by
      simp [Phase.signs]
      decide
    exact hsigns _ hsign
  · have hfront : ∀ c ∈ '!' :: side.letter.toList ++ ['S'], Unseparated c := by
      cases side <;> simp [Side.letter] <;> decide
    intro c hc
    rw [hadd] at hc
    simp only [List.mem_append, List.mem_cons, List.not_mem_nil, or_false, or_assoc] at hc hfront
    rcases hc with hc | hc | hc | rfl | hc | rfl
    · exact hfront c (.inl hc)
    · exact hfront c (.inr (.inl hc))
    · exact hfront c (.inr (.inr hc))
    · decide
    · exact (isWord_iff.mp (hx x (by simp [hcarried]))).2 c hc
    · decide

/-- A name over words is a word. -/
theorem isWord_name {s : State} (hbase : isWord s.base = true) (hp : s.phase.Readable)
    (hx : ∀ x ∈ s.heads ++ s.carried, isWord x.text = true) : isWord s.name = true := by
  obtain ⟨hne, hall⟩ := isWord_iff.mp hbase
  have hsigns : ∀ c ∈ [':', 'a', 'F'], Unseparated c := by
    simp
    decide
  refine isWord_iff.mpr ⟨by simp [State.toList_name, hne], fun c hc => ?_⟩
  rw [State.toList_name, Phase.toList_suffix] at hc
  simp only [List.mem_append] at hc
  rcases hc with hc | hc | hc | hc
  · exact hall c hc
  · exact unseparated_brackets (fun x hmem => hx x (List.mem_append_left _ hmem)) c hc
  · rcases Phase.mem_suffix_of_isSweep (Phase.isSweep_sweep hp) hc with hc | hc
    · exact unseparated_of_isDigit hc
    · exact hsigns c hc
  · exact unseparated_addition (fun x hmem => hx x (List.mem_append_right _ hmem)) c hc

end Machine

/-! ## The compiled machine -/

namespace FlatMachine.Named

variable {flat : FlatMachine} {f : Machine} {r : Row}

theorem mem_stateNames (hn : flat.Named f) {q : String} (hq : q ∈ f.stateNames) :
    ∃ s ∈ flat.states ++ flat.accept, s.name = q := by
  simp only [Machine.stateNames, hn.initial, hn.accept, hn.rules, List.mem_cons, List.mem_append,
    List.mem_map, List.mem_flatMap, List.not_mem_nil, or_false] at hq
  rcases hq with (rfl | ⟨s, hs, rfl⟩) | ⟨_, ⟨r, hr, rfl⟩, rfl | rfl⟩
  · exact ⟨_, List.mem_append_left _ flat.initial_mem_states, rfl⟩
  · exact ⟨s, List.mem_append_right _ hs, rfl⟩
  · exact ⟨_, List.mem_append_left _ (state_mem_states hr), rfl⟩
  · exact ⟨_, List.mem_append_left _ (next_mem_states hr), rfl⟩

theorem mem_symbols (hn : flat.Named f) {x : Symbol} :
    x ∈ f.symbols ↔ ∃ r ∈ flat.rows, x = r.read ∨ x = r.write := by
  simp [Machine.symbols, Rule.symbols, Row.toRule, hn.rules, List.mem_flatMap]

theorem tapeCount (hn : flat.Named f) (hr : r ∈ flat.rows) : f.tapeCount? = some 1 := by
  obtain ⟨first, rest, hrows⟩ := List.exists_cons_of_ne_nil (List.ne_nil_of_mem hr)
  simp [Machine.tapeCount?, hn.rules, hrows, Row.toRule, Rule.tapeCount]

theorem lengths (hn : flat.Named f) :
    ∀ rule ∈ f.rules, rule.read.length = 1 ∧ rule.write.length = 1 ∧ rule.moves.length = 1 := by
  intro rule hrule
  rw [hn.rules] at hrule
  obtain ⟨r, -, rfl⟩ := List.mem_map.mp hrule
  exact ⟨rfl, rfl, rfl⟩

theorem start (hn : flat.Named f) (hr : r ∈ flat.rows) (hs : r.state = flat.initial) :
    f.rulesFrom f.initial ≠ [] := by
  have hrule : r.toRule ∈ f.rules := hn.rules ▸ List.mem_map_of_mem hr
  refine List.ne_nil_of_mem (Machine.mem_rulesFrom.mpr ⟨hrule, ?_⟩)
  rw [hn.initial, ← hs]
  rfl

end FlatMachine.Named

namespace Generated

variable {m f : Machine} {iteration k : Nat} {safety : Safety} {flat : FlatMachine} {s : State}
  {x : Symbol}

theorem onTape_of_mem_symbols (hg : Generated m iteration safety k flat) (hn : flat.Named f)
    (hx : x ∈ f.symbols) : (m.alphabet iteration).OnTape x := by
  obtain ⟨r, hr, hread⟩ := hn.mem_symbols.mp hx
  obtain ⟨rule, hrule, he⟩ := (hg.mem_rows r).mp hr
  exact he.onTape hg.fits hrule x (by rcases hread with rfl | rfl <;> simp [Table.rowSymbols])

theorem isWord_onTape (hg : Generated m iteration safety k flat)
    (hx : (m.alphabet iteration).OnTape x) :
    Machine.isWord x.text = true :=
  Machine.inherited_isWord.of_onTape hg.wellFormed.words hx

theorem isWord_name (hg : Generated m iteration safety k flat)
    (hs : s ∈ flat.states ++ flat.accept) :
    Machine.isWord s.name = true := by
  have hstems := hg.stems hs
  exact Machine.isWord_name (hg.wellFormed.names _ hstems.base) hstems.phase fun x hx =>
    hg.isWord_onTape (hstems.symbols x hx)

/-- The initial state scans the tape for its first head. -/
theorem exists_scan (hg : Generated m iteration safety k flat) :
    ∃ r ∈ flat.rows, r.state = flat.initial := by
  obtain ⟨rule, hrule⟩ := List.exists_mem_of_ne_nil _ hg.wellFormed.start
  obtain ⟨hmem, hstate⟩ := Machine.mem_rulesFrom.mp hrule
  have hpos : 0 < (rule.escape iteration).read.length := by
    rw [(hg.fits.lengths _ (List.mem_map_of_mem hmem)).1]
    exact hg.wellFormed.tapes_pos
  refine ⟨_, (hg.mem_rows _).mpr ⟨_, List.mem_map_of_mem hmem,
    .discover (.scan hpos Alphabet.boundary_mem_unmarked)⟩, ?_⟩
  rw [hg.initial, ← hstate]
  rfl

/-- **A compiled machine is well formed**, with one tape. -/
theorem wellFormed_named (hg : Generated m iteration safety k flat) (hn : flat.Named f) :
    f.WellFormed 1 where
  tapeCount := by
    obtain ⟨r, hr, -⟩ := hg.exists_scan
    exact hn.tapeCount hr
  tapes_pos := Nat.one_pos
  lengths := hn.lengths
  names q hq := by
    obtain ⟨s, hs, rfl⟩ := hn.mem_stateNames hq
    exact hg.isWord_name hs
  words x hx := hg.isWord_onTape (hg.onTape_of_mem_symbols hn hx)
  start := by
    obtain ⟨r, hr, hstate⟩ := hg.exists_scan
    exact hn.start hr hstate
  functional := hn.functional

/-- **The compiled machine has rules for everything that stands on an encoded tape.** -/
theorem mem_symbols_of_mem_library (hg : Generated m iteration safety k flat) (hn : flat.Named f)
    (hx : x ∈ (m.alphabet iteration).library ∨ x = Symbol.tapeEnd) : x ∈ f.symbols := by
  obtain ⟨rule, hrule⟩ := List.exists_mem_of_ne_nil _ hg.wellFormed.start
  have hmem : rule.escape iteration ∈ (m.escape iteration).rules :=
    List.mem_map_of_mem (Machine.mem_rulesFrom.mp hrule).1
  rw [hn.mem_symbols]
  rcases hx with hx | rfl
  · exact ⟨_, (hg.mem_rows _).mpr ⟨_, hmem,
      .execute (.cycle hx) fun _ => Table.overwritesEdge_of_write_eq rfl⟩, .inl rfl⟩
  · exact ⟨_, (hg.mem_rows _).mpr ⟨_, hmem, .discover .handOverEnd⟩, .inl rfl⟩

end Generated
end OneTape
