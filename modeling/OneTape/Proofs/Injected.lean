import OneTape.Proofs.Tower

/-!
# Machines with a blank-injection pass

A machine that is compiled with a placeholder is the one that is compiled without, with the
injection pass in front. The pass adds three states, whose names are words, and the symbols of the
placeholder. So what the analysis checks on the compiled machine depends on the placeholder only
through these symbols.

Results:
* `Injected.of_flatten`: a compilation with a placeholder.
* `Injected.mem_cases`: its states.
* `Injected.mem_symbols`: its symbols.
* `Machine.analyze_compile`: which compiled machines can be compiled again.
-/

namespace OneTape

open Table

/-- The one-tape machine `flat` was compiled with the placeholder `q`, and `plain` without it. -/
structure Injected (m : Machine) (iteration : Nat) (safety : Safety) (k : Nat) (q : Symbol)
    (plain flat : FlatMachine) : Prop where
  generated : Generated m iteration safety k plain
  clash : Plan.clashes (m.alphabet iteration) q = false
  nodup : (flat.rows.map Row.domain).Nodup
  mem_rows : ∀ r, r ∈ flat.rows ↔
    Injects (m.alphabet iteration) (State.source m.initial) q r ∨ r ∈ plain.rows
  initial : flat.initial = (State.source m.initial).injection .start
  mem_accept : ∀ s, s ∈ flat.accept ↔ (∃ q ∈ m.accept, State.source q = s) ∨
    s ∈ Table.states flat.rows ∧ s.phase = .discover ∧ s.heads.length < k ∧ s.base ∈ m.accept

/-- The symbols of the pass. -/
theorem Table.Injects.onTape {a : Alphabet} {start : State} {q : Symbol} {r : Row} (ha : a.Proper)
    (h : Injects a start q r) : ∀ x ∈ [r.read, r.write], x = q ∨ x = a.marker q ∨ a.OnTape x := by
  have hlib : ∀ {c}, c ∈ a.library → a.OnTape c := .inl
  have hunm : ∀ {c}, c ∈ a.unmarked → a.OnTape c ∧ a.OnTape (a.marker c) := fun hc =>
    ⟨.inl (Alphabet.mem_library_of_mem_unmarked hc), .inl (Alphabet.marker_mem_library hc)⟩
  have hbound := hunm (Alphabet.boundary_mem_unmarked (a := a))
  have hblank := hunm (Alphabet.mem_unmarked_of_mem_symbols ha.blank_mem)
  have hend : a.OnTape Symbol.tapeEnd := .inr (.inl rfl)
  have hret : a.OnTape Symbol.returnMark := .inr (.inr rfl)
  cases h with
  | enter | leave => simp [hbound.1, hret]
  | replace => simp [hblank.1]
  | replaceMarker => simp [Alphabet.blankMarker, hblank.2]
  | pass hc | comeBack hc => simp [hlib hc]
  | turn => simp [hend]

namespace Injected

variable {m f : Machine} {c : Config} {iteration k : Nat} {safety : Safety} {q x : Symbol}
  {plain flat : FlatMachine} {s : State}

theorem of_flatten (h : m.flatten c = .ok flat) (hq : c.placeholder = some q) :
    ∃ k plain, Injected m c.iteration c.safety k q plain flat := by
  obtain ⟨p, hp, -⟩ := except_bind_eq_ok_iff.mp h
  obtain ⟨p', hp'⟩ := Plan.prepare_without_placeholder hp
  obtain ⟨plain, hplain⟩ := Machine.flatten_eq_ok_of_prepare hp'
  obtain ⟨k', hg⟩ := Generated.of_flatten hplain rfl
  obtain ⟨k, rows, hm, -, hsound, rfl, hnodup, hmem⟩ := Machine.flatten_eq_ok h
  obtain rfl : k = k' := Option.some.inj (hm.tapeCount.symm.trans hg.wellFormed.tapeCount)
  refine ⟨k, plain, hg, hsound.placeholder q hq, hnodup, fun r => ?_, ?_, fun s => ?_⟩
  · rw [hmem r, hg.mem_rows r]
    simp only [Plan.injectionRows, Plan.ofMachine, hq, mem_injectionRows]
    rfl
  · simp only [Plan.initial, Plan.ofMachine, hq]
    rfl
  · simp only [Plan.accept, mem_sortedSet, List.mem_append, List.mem_map, List.mem_filter,
      Plan.isAccepting, Bool.and_eq_true, beq_iff_eq, decide_eq_true_eq, Machine.isAccepting,
      List.contains_iff_mem, and_assoc]
    rfl

/-! ## States -/

/-- The pass leads to the state that enters discovery. -/
theorem mem_table_states (hi : Injected m iteration safety k q plain flat)
    (hs : s ∈ Table.states flat.rows) :
    (∃ step, s = (State.source m.initial).injection step) ∨ s ∈ Table.states plain.rows := by
  have hstart : State.source m.initial ∈ Table.states plain.rows := by
    obtain ⟨r, hr, hstate⟩ := hi.generated.exists_scan
    rw [← hi.generated.initial, ← hstate]
    exact List.mem_flatMap.mpr ⟨r, hr, List.mem_cons_self⟩
  obtain ⟨r, hr, hmem⟩ := List.mem_flatMap.mp hs
  rcases (hi.mem_rows r).mp hr with hinj | hplain
  · rcases List.mem_cons.mp hmem with rfl | hmem
    · exact .inl hinj.phase
    · obtain rfl := List.mem_singleton.mp hmem
      cases hinj with
      | leave => exact .inr hstart
      | enter | replace | replaceMarker | pass | turn | comeBack => exact .inl ⟨_, rfl⟩
  · exact .inr (List.mem_flatMap.mpr ⟨r, hplain, hmem⟩)

/-- **The states of the pass, and those of the machine that is compiled without it.** -/
theorem mem_cases (hi : Injected m iteration safety k q plain flat)
    (hs : s ∈ flat.states ++ flat.accept) :
    (∃ step, s = (State.source m.initial).injection step) ∨ s ∈ plain.states ++ plain.accept := by
  have hplain : ∀ {s}, s ∈ Table.states plain.rows → s ∈ plain.states ++ plain.accept := fun h =>
    List.mem_append_left _ (by simpa [FlatMachine.states, mem_sortedSet] using .inl h)
  rcases List.mem_append.mp hs with hs | hs
  · simp only [FlatMachine.states, mem_sortedSet, List.mem_append, List.mem_singleton,
      hi.initial] at hs
    rcases hs with hs | hs
    · exact (hi.mem_table_states hs).imp_right hplain
    · exact .inl ⟨_, hs⟩
  · rcases (hi.mem_accept s).mp hs with hsource | ⟨hs, hphase, haccept⟩
    · exact .inr (List.mem_append_right _ ((hi.generated.mem_accept s).mpr (.inl hsource)))
    · -- accepting states belong to discovery, so none of them is one of the pass
      rcases hi.mem_table_states hs with ⟨step, rfl⟩ | hs
      · cases hphase
      · exact .inr (hplain hs)

theorem isWord_name (hi : Injected m iteration safety k q plain flat)
    (hs : s ∈ flat.states ++ flat.accept) : Machine.isWord s.name = true := by
  rcases hi.mem_cases hs with ⟨step, rfl⟩ | hs
  · have hinitial : m.initial ∈ m.stateNames := by simp [Machine.stateNames]
    exact Machine.isWord_name (hi.generated.wellFormed.names _ hinitial) trivial fun x hx =>
      absurd hx List.not_mem_nil
  · exact hi.generated.isWord_name hs

/-- States can be named if the source machine does not use the characters that names are made
with. -/
theorem toMachine_eq_ok (hi : Injected m iteration safety k q plain flat)
    (hm : Compiled.Legible m) :
    ∃ f, flat.toMachine = .ok f := by
  have hreadable : ∀ {s}, s ∈ flat.states ++ flat.accept → s.Readable := by
    intro s hs
    rcases hi.mem_cases hs with ⟨step, rfl⟩ | hs
    · exact ⟨hm.names m.initial (by simp [Machine.stateNames]), nofun, trivial⟩
    · exact hi.generated.readable hm hs
  exact FlatMachine.toMachine_eq_ok fun s hs t ht h =>
    State.name_injective (hreadable hs) (hreadable ht) h

/-! ## Symbols -/

/-- **The symbols of a compiled machine**: its placeholder, the marker of its placeholder, and
symbols that can stand on the single tape anyway. -/
theorem mem_symbols (hi : Injected m iteration safety k q plain flat) (hn : flat.Named f)
    (hx : x ∈ f.symbols) : x = q ∨ x = q.marker iteration ∨ (m.alphabet iteration).OnTape x := by
  obtain ⟨r, hr, hread⟩ := hn.mem_symbols.mp hx
  rcases (hi.mem_rows r).mp hr with hinj | hplain
  · exact hinj.onTape hi.generated.fits.proper x (by simpa using hread)
  · obtain ⟨rule, hrule, he⟩ := (hi.generated.mem_rows r).mp hplain
    have hmem : x ∈ rowSymbols r := by rcases hread with rfl | rfl <;> simp [rowSymbols]
    exact .inr (.inr (he.onTape hi.generated.fits hrule x hmem))

/-- The placeholder is a symbol of the compiled machine. -/
theorem placeholder_mem_symbols (hi : Injected m iteration safety k q plain flat)
    (hn : flat.Named f) :
    q ∈ f.symbols :=
  hn.mem_symbols.mpr ⟨_, (hi.mem_rows _).mpr (.inl .replace), .inl rfl⟩

/-- **The symbols of a compiled machine are words if its placeholder is one.** -/
theorem isWord_symbols_iff (hi : Injected m iteration safety k q plain flat) (hn : flat.Named f) :
    (∀ x ∈ f.symbols, Machine.isWord x.text = true) ↔ Machine.isWord q.text = true := by
  refine ⟨fun h => h q (hi.placeholder_mem_symbols hn), fun hq x hx => ?_⟩
  rcases hi.mem_symbols hn hx with rfl | rfl | hx
  · exact hq
  · exact Machine.inherited_isWord.marker iteration hq
  · exact hi.generated.isWord_onTape hx

/-- All that can be wrong with the compiled machine is a symbol. -/
theorem analyze_eq_checkSymbols (hi : Injected m iteration safety k q plain flat)
    (hn : flat.Named f) :
    f.analyze = f.checkSymbols := by
  have henter := (hi.mem_rows _).mpr (.inl .enter)
  have hstructure : f.checkStructure = .ok () :=
    Machine.checkStructure_eq_ok_iff.mpr ⟨1, hn.tapeCount henter, Nat.one_pos, hn.lengths⟩
  have hnames : f.checkStateNames = .ok () := by
    refine Machine.checkStateNames_eq_ok_iff.mpr fun name hname => ?_
    obtain ⟨s, hs, rfl⟩ := hn.mem_stateNames hname
    exact hi.isWord_name hs
  have hstart : f.checkStart = .ok () :=
    Machine.checkStart_eq_ok_iff.mpr (hn.start henter hi.initial.symm)
  have hfunctional : f.checkDeterminism = .ok () :=
    Machine.checkDeterminism_eq_ok_iff.mpr hn.functional
  unfold Machine.analyze
  rw [hstructure, hnames, hstart, hfunctional]
  cases f.checkSymbols <;> rfl

end Injected

/-! ## Compiling again -/

namespace Machine

variable {m f : Machine} {c : Config} {q : Symbol}

theorem checkSymbols_eq_error {e : Finding} (h : f.checkSymbols = .error e) :
    ∃ x ∈ f.symbols, isWord x.text = false ∧ e = .symbol x.text := by
  unfold checkSymbols at h
  split at h
  · next x hx =>
    cases h
    exact ⟨x, List.mem_of_find?_eq_some hx, by simpa using List.find?_some hx, rfl⟩
  · cases h

/-- A machine that is compiled with a placeholder can be compiled again if the placeholder is a
word. -/
theorem analyze_of_placeholder (hq : c.placeholder = some q) (hf : m.compile c = .ok f) :
    (f.analyze = .ok () ↔ isWord q.text = true) ∧ ∀ e, f.analyze = .error e →
      e = .symbol q.text ∨ e = .symbol (q.marker c.iteration).text := by
  obtain ⟨flat, hflat, hname⟩ := compile_eq_ok_iff.mp hf
  obtain ⟨k, plain, hi⟩ := Injected.of_flatten hflat hq
  have hn := FlatMachine.named_of_toMachine hi.nodup hname
  rw [hi.analyze_eq_checkSymbols hn]
  refine ⟨checkSymbols_eq_ok_iff.trans (hi.isWord_symbols_iff hn), fun e he => ?_⟩
  obtain ⟨x, hx, hword, rfl⟩ := checkSymbols_eq_error he
  rcases hi.mem_symbols hn hx with rfl | rfl | hx
  · exact .inl rfl
  · exact .inr rfl
  · rw [hi.generated.isWord_onTape hx] at hword
    cases hword

/-- **A compiled machine can be compiled again**, unless it has a placeholder that is not a word.
The analysis then finds the placeholder or its marker, and nothing else is wrong. -/
theorem analyze_compile (m f : Machine) (c : Config) (hf : m.compile c = .ok f) :
    (f.analyze = .ok () ↔ ∀ q, c.placeholder = some q → isWord q.text = true) ∧
      ∀ e, f.analyze = .error e → ∃ q, c.placeholder = some q ∧
        (e = .symbol q.text ∨ e = .symbol (q.marker c.iteration).text) := by
  cases hp : c.placeholder with
  | none =>
    have hok := analyze_of_compile hp hf
    refine ⟨iff_of_true hok (by simp), fun e he => ?_⟩
    rw [hok] at he
    cases he
  | some q =>
    obtain ⟨hiff, herror⟩ := analyze_of_placeholder hp hf
    exact ⟨by simpa using hiff, fun e he => ⟨q, rfl, herror e he⟩⟩

/-- A placeholder that the machine does not use, and that has not to be escaped, does not clash. -/
theorem not_clashes {iteration : Nat} (hq : q ∉ m.symbols) (hblank : q ≠ Symbol.blank)
    (hplain : q.needsEscape iteration = false) : Plan.clashes (m.alphabet iteration) q = false := by
  have hmem : q ∉ (m.alphabet iteration).symbols := by
    intro h
    rcases Alphabet.mem_symbols_ofMachine.mp h with h | h
    · exact hblank h
    · obtain ⟨x, hx, he⟩ := Alphabet.mem_symbols_escape.mp h
      rw [← Symbol.escape_eq_self hplain] at he
      exact hq (Symbol.escape_injective he ▸ hx)
  have hescape : q.needsEscape (m.alphabet iteration).iteration = false := hplain
  simp [Plan.clashes, hmem, hescape]

/-- A machine is compiled with a placeholder that does not clash. -/
theorem WellFormed.exists_compile_of_placeholder {k : Nat} (hm : m.WellFormed k)
    (hl : Compiled.Legible m) (hv : c.validate = .ok ()) (hn : c.mode = .normal)
    (hq : c.placeholder = some q) (hclash : Plan.clashes (m.alphabet c.iteration) q = false) :
    ∃ f, m.compile c = .ok f := by
  have hno : ∀ q', c.placeholder = some q' → Plan.clashes (m.alphabet c.iteration) q' = false := by
    intro q' hq'
    obtain rfl := Option.some.inj (hq.symm.trans hq')
    exact hclash
  obtain ⟨flat, hflat⟩ := flatten_eq_ok_of_prepare (Plan.prepare_of_normal hm hv hn hno)
  obtain ⟨k, plain, hi⟩ := Injected.of_flatten hflat hq
  obtain ⟨f, hf⟩ := hi.toMachine_eq_ok hl
  exact ⟨f, compile_eq_ok_iff.mpr ⟨flat, hflat, hf⟩⟩

/-- The machine over reserved symbols is compiled with a placeholder, and can be compiled again. -/
theorem analyze_compile_exchange : ∃ f, exchange.compile { placeholder := some ⟨"~"⟩ } = .ok f ∧
    isWord "~" = true ∧ f.analyze = .ok () := by
  obtain ⟨f, hf⟩ := wellFormed_exchange.exists_compile_of_placeholder Compiled.legible_exchange
    (c := { placeholder := some ⟨"~"⟩ }) (by decide) rfl rfl
    (not_clashes (by decide) (by decide) (by decide))
  have hword : ∀ q : Symbol, some ⟨"~"⟩ = some q → isWord q.text = true := by
    rintro q ⟨⟩
    decide
  exact ⟨f, hf, by decide, (analyze_compile exchange f _ hf).1.mpr hword⟩

theorem legible_loop {state : String} (h : ∀ c ∈ state.toList, c ≠ '[' ∧ c ≠ ':' ∧ c ≠ '!') :
    Compiled.Legible (loop state) where
  names := by simpa [stateNames, loop] using h
  symbols := by
    simp [symbols, loop, Rule.symbols]
    decide

/-- **A machine that is compiled with a comma in its placeholder cannot be compiled again.** -/
theorem analyze_compile_comma : ∃ f, (loop "q").compile { placeholder := some ⟨"a,b"⟩ } = .ok f ∧
    f.analyze ≠ .ok () := by
  have hloop : (loop "q").WellFormed 1 := wellFormed_loop (by decide)
  obtain ⟨f, hf⟩ := hloop.exists_compile_of_placeholder (legible_loop (by simp))
    (c := { placeholder := some ⟨"a,b"⟩ }) (by decide) rfl rfl
    (not_clashes (by decide) (by decide) (by decide))
  refine ⟨f, hf, fun hok => ?_⟩
  have hword := (analyze_of_placeholder rfl hf).1.mp hok
  exact absurd hword (by decide)

end Machine
end OneTape
