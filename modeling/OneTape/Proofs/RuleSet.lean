import OneTape.Proofs.Compiled
import OneTape.Proofs.Coverage

/-!
# Compilation and sets of rules

The order of a machine's rules reaches far into its compilation: source states are expanded as they
appear, candidates are tried in order, and the first of equal rows is kept. None of this shows in
the result, which depends on the set of rules only.

Results:
* `Machine.exists_flatten_iff`: what a compilation asks of settings and machine.
* `SameRules.wellFormed`, `SameRules.exists_flatten`: machines with the same rules are both compiled
  or both refused.
* `Machine.flatten_sameRules`: their tables are permutations of each other, and all else is the
  same.
-/

namespace OneTape

namespace Machine

variable {m m' : Machine} {c : Config} {k iteration : Nat}

/-- **What a compilation asks for**: an accepted machine, settings that are in order, a placeholder
that does not clash, and no gaps if the settings are strict. -/
theorem exists_flatten_iff :
    (∃ f, m.flatten c = .ok f) ↔ ∃ k, m.WellFormed k ∧ c.validate = .ok () ∧
    (∀ q, c.placeholder = some q → Plan.clashes (m.alphabet c.iteration) q = false) ∧
    Plan.checkCoverage m c k = .ok () := by
  constructor
  · rintro ⟨f, h⟩
    obtain ⟨p, hp, -⟩ := except_bind_eq_ok_iff.mp h
    obtain ⟨k, hm, hv, rfl, hsound⟩ := Plan.prepare_eq_ok hp
    have hno : ∀ q, c.placeholder = some q →
        Plan.clashes (Plan.ofMachine m c k).alphabet q = false :=
      hsound.placeholder
    refine ⟨k, hm, hv, hno, ?_⟩
    rw [Plan.prepare_eq hm, hv] at hp
    change Plan.ofChecked m c k = _ at hp
    rw [Plan.ofChecked_eq hno] at hp
    obtain ⟨_, hcover, -⟩ := except_bind_eq_ok_iff.mp hp
    exact hcover
  · rintro ⟨k, hm, hv, hno, hcover⟩
    have hp : Plan.prepare m c = .ok (Plan.ofMachine m c k) := by
      rw [Plan.prepare_eq hm, hv]
      change Plan.ofChecked m c k = _
      rw [Plan.ofChecked_eq hno, hcover]
      rfl
    exact flatten_eq_ok_of_prepare hp

/-- The machines differ at most in the order and the repetitions of their rules and accept
states. -/
structure SameRules (m m' : Machine) : Prop where
  name : m.name = m'.name
  initial : m.initial = m'.initial
  accept : ∀ q, q ∈ m.accept ↔ q ∈ m'.accept
  rules : ∀ r, r ∈ m.rules ↔ r ∈ m'.rules

namespace SameRules

theorem symm (h : SameRules m m') : SameRules m' m :=
  ⟨h.name.symm, h.initial.symm, fun q => (h.accept q).symm, fun r => (h.rules r).symm⟩

theorem escape (h : SameRules m m') (iteration : Nat) :
    SameRules (m.escape iteration) (m'.escape iteration) where
  name := h.name
  initial := h.initial
  accept := h.accept
  rules r := by simp only [Machine.escape, List.mem_map, h.rules]

theorem mem_rulesFrom (h : SameRules m m') {q : String} {r : Rule} :
    r ∈ m.rulesFrom q ↔ r ∈ m'.rulesFrom q := by
  rw [Machine.mem_rulesFrom, Machine.mem_rulesFrom, h.rules]

theorem mem_symbols (h : SameRules m m') {x : Symbol} : x ∈ m.symbols ↔ x ∈ m'.symbols := by
  simp only [symbols, List.mem_flatMap, h.rules]

theorem mem_stateNames (h : SameRules m m') {q : String} :
    q ∈ m.stateNames ↔ q ∈ m'.stateNames := by
  simp only [stateNames, List.cons_append, List.mem_cons, List.mem_append, List.mem_flatMap,
    h.initial, h.accept, h.rules]

/-- What is sorted does not depend on the order of the rules. -/
theorem alphabet (h : SameRules m m') (iteration : Nat) :
    m.alphabet iteration = m'.alphabet iteration := by
  unfold Machine.alphabet Alphabet.ofMachine
  congr 1
  refine sortedSet_congr fun x => ?_
  rw [List.mem_cons, List.mem_cons, (h.escape iteration).mem_symbols]

theorem escapes (h : SameRules m m') (iteration : Nat) :
    m.escapes iteration = m'.escapes iteration := by
  unfold Machine.escapes
  congr 1
  refine sortedSet_congr fun x => ?_
  rw [List.mem_filter, List.mem_filter, h.mem_symbols]

/-! ## Both are compiled or both are refused -/

theorem wellFormed (h : SameRules m m') (hm : m.WellFormed k) : m'.WellFormed k where
  tapeCount := by
    obtain ⟨rule, hrule⟩ := List.exists_mem_of_ne_nil _ hm.start
    have hmem := (h.rules rule).mp (Machine.mem_rulesFrom.mp hrule).1
    cases hrules : m'.rules with
    | nil =>
      rw [hrules] at hmem
      cases hmem
    | cons first rest =>
      have hfirst : first ∈ m.rules :=
        (h.rules first).mpr (by rw [hrules]; exact List.mem_cons_self)
      rw [tapeCount?, hrules]
      exact congrArg some (hm.lengths first hfirst).1
  tapes_pos := hm.tapes_pos
  lengths r hr := hm.lengths r ((h.rules r).mpr hr)
  names q hq := hm.names q (h.mem_stateNames.mpr hq)
  words x hx := hm.words x (h.mem_symbols.mpr hx)
  start := by
    obtain ⟨rule, hrule⟩ := List.exists_mem_of_ne_nil _ hm.start
    rw [h.initial] at hrule
    exact List.ne_nil_of_mem (h.mem_rulesFrom.mp hrule)
  functional := hm.functional.mono fun r hr => (h.rules r).mpr hr

theorem checkCoverage (h : SameRules m m') (hm : Plan.checkCoverage m c k = .ok ()) :
    Plan.checkCoverage m' c k = .ok () := by
  have he := h.escape c.iteration
  have hsymbols : (Plan.ofMachine m c k).alphabet.symbols =
      (Plan.ofMachine m' c k).alphabet.symbols :=
    congrArg Alphabet.symbols (h.alphabet c.iteration)
  unfold Plan.checkCoverage at hm ⊢
  split_ifs at hm ⊢
  · rw [Coverage.check_eq_ok_iff] at hm ⊢
    intro q hq
    obtain ⟨rule, hrule, hstate⟩ := Table.mem_domainStates.mp hq
    rw [← hsymbols, ← Coverage.gap?_congr fun r => he.mem_rulesFrom]
    exact hm q (Table.mem_domainStates.mpr ⟨rule, (he.rules rule).mpr hrule, hstate⟩)
  · rfl

theorem exists_flatten (h : SameRules m m') (hm : ∃ f, m.flatten c = .ok f) :
    ∃ f, m'.flatten c = .ok f := by
  obtain ⟨k, hwf, hv, hno, hcover⟩ := exists_flatten_iff.mp hm
  rw [h.alphabet c.iteration] at hno
  exact exists_flatten_iff.mpr ⟨k, h.wellFormed hwf, hv, hno, h.checkCoverage hcover⟩

/-! ## The results -/

theorem injectionRows (h : SameRules m m') :
    (Plan.ofMachine m c k).injectionRows = (Plan.ofMachine m' c k).injectionRows := by
  have halphabet : (Plan.ofMachine m c k).alphabet = (Plan.ofMachine m' c k).alphabet :=
    h.alphabet c.iteration
  have hstart : (Plan.ofMachine m c k).start = (Plan.ofMachine m' c k).start :=
    congrArg State.source h.initial
  unfold Plan.injectionRows
  rw [halphabet, hstart]
  rfl

theorem accept_eq (h : SameRules m m') {rows rows' : List Row} (hrows : ∀ r, r ∈ rows ↔ r ∈ rows') :
    (Plan.ofMachine m c k).accept rows = (Plan.ofMachine m' c k).accept rows' := by
  have haccepting : ∀ s, (Plan.ofMachine m c k).isAccepting s =
      (Plan.ofMachine m' c k).isAccepting s := by
    intro s
    have hcontains : m.accept.contains s.base = m'.accept.contains s.base := by
      rw [Bool.eq_iff_iff, List.contains_iff_mem, List.contains_iff_mem, h.accept]
    unfold Plan.isAccepting Machine.isAccepting
    change (_ && m.accept.contains s.base) = (_ && m'.accept.contains s.base)
    rw [hcontains]
    rfl
  refine sortedSet_congr fun s => ?_
  rw [List.mem_append, List.mem_append, List.mem_filter, List.mem_filter, haccepting]
  have hsource : s ∈ m.accept.map State.source ↔ s ∈ m'.accept.map State.source := by
    simp only [List.mem_map, h.accept]
  have hstates : s ∈ Table.states rows ↔ s ∈ Table.states rows' := by
    simp only [Table.states, List.mem_flatMap, hrows]
  exact or_congr hsource (and_congr hstates Iff.rfl)

end SameRules

/-- **The result of a compilation depends on the set of rules only.** Of two machines that differ in
the order and the repetitions of their rules, both are compiled or both are refused. The results
have the same name, the same initial state, the same accept states and the same escaped symbols, and
their tables are permutations of each other. -/
theorem flatten_sameRules (m m' : Machine) (c : Config) (h : SameRules m m') :
    ((∃ f, m.flatten c = .ok f) ↔ ∃ f', m'.flatten c = .ok f') ∧
    ∀ f f', m.flatten c = .ok f → m'.flatten c = .ok f' →
      f.name = f'.name ∧ f.initial = f'.initial ∧ f.accept = f'.accept ∧ f.escapes = f'.escapes ∧
        f.rows.Perm f'.rows := by
  refine ⟨⟨h.exists_flatten, h.symm.exists_flatten⟩, fun f f' hf hf' => ?_⟩
  obtain ⟨k, rows, hm, -, -, rfl, hnodup, hmem⟩ := flatten_eq_ok hf
  obtain ⟨k', rows', hm', -, -, rfl, hnodup', hmem'⟩ := flatten_eq_ok hf'
  obtain rfl : k = k' := Option.some.inj ((h.wellFormed hm).tapeCount.symm.trans hm'.tapeCount)
  have hrows : ∀ r, r ∈ rows ↔ r ∈ rows' := by
    intro r
    have halphabet : (Plan.ofMachine m c k).alphabet = (Plan.ofMachine m' c k).alphabet :=
      h.alphabet c.iteration
    rw [hmem, hmem', h.injectionRows, halphabet]
    simp only [(h.escape c.iteration).rules]
  have hinitial : (Plan.ofMachine m c k).initial = (Plan.ofMachine m' c k).initial := by
    have hstart : (Plan.ofMachine m c k).start = (Plan.ofMachine m' c k).start :=
      congrArg State.source h.initial
    unfold Plan.initial
    rw [hstart]
    rfl
  have hperm := (List.perm_ext_iff_of_nodup hnodup.of_map hnodup'.of_map).mpr hrows
  exact ⟨h.name, hinitial, h.accept_eq hrows, h.escapes c.iteration, hperm⟩

/-- A machine that walks left over boundaries and blanks, with two rules in a given order. -/
def walker (rules : List Rule) : Machine := ⟨"Walker", "q", ["h"], rules⟩

def walkerRules : List Rule :=
  [⟨"q", [Symbol.blank], "q", [Symbol.boundary], [.left]⟩,
    ⟨"q", [Symbol.boundary], "h", [Symbol.blank], [.left]⟩]

theorem wellFormed_walker : (walker walkerRules).WellFormed 1 where
  tapeCount := rfl
  tapes_pos := Nat.one_pos
  lengths := by decide
  names := by decide
  words := by decide
  start := by decide
  functional := by
    unfold Functional
    decide

/-- The rules of the walker in reverse and twice over give a permutation of its table. -/
theorem flatten_walker_reverse : ∃ f f', (walker walkerRules).flatten {} = .ok f ∧
    (walker (walkerRules.reverse ++ walkerRules)).flatten {} = .ok f' ∧ f.accept = f'.accept ∧
    f.rows.Perm f'.rows := by
  have hsame : SameRules (walker walkerRules) (walker (walkerRules.reverse ++ walkerRules)) :=
    ⟨rfl, rfl, fun _ => Iff.rfl, fun r => by simp [walker]⟩
  obtain ⟨hiff, hresult⟩ := flatten_sameRules _ _ {} hsame
  obtain ⟨f, hf⟩ := flatten_eq_ok_of_normal (c := {}) wellFormed_walker (Nat.le_refl 1) rfl rfl
  obtain ⟨f', hf'⟩ := hiff.mp ⟨f, hf⟩
  obtain ⟨-, -, haccept, -, hperm⟩ := hresult f f' hf hf'
  exact ⟨f, f', hf, hf', haccept, hperm⟩

end Machine
end OneTape
