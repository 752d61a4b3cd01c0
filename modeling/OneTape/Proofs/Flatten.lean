import OneTape.FlatMachine
import OneTape.Proofs.Analysis
import OneTape.Proofs.Table.Determinism
import OneTape.Proofs.Table.Injection

/-!
# Compilation

A machine that was accepted is compiled: settings can be refused, and strict settings can find gaps
in the rules, but the table itself never fails.

Results:
* `Plan.Sound.table`: a sound plan has a table, its rows are those of the injection pass and of the
  rules, and no two of them apply on the same state and symbol.
* `flatten_complete`: the only ways in which a compilation fails.
-/

namespace OneTape

namespace Plan

/-- The plan for a machine with `k` tapes. -/
def ofMachine (m : Machine) (c : Config) (k : Nat) : Plan :=
  ⟨m.escape c.iteration, c, Alphabet.ofMachine (m.escape c.iteration) c.iteration, k,
    m.escapes c.iteration⟩

/-- The rules of a plan fit its alphabet, and its placeholder does not clash. -/
structure Sound (p : Plan) : Prop where
  fits : Table.Fits p.alphabet p.machine.rules p.tapes
  placeholder : ∀ q, p.config.placeholder = some q → clashes p.alphabet q = false

variable {m : Machine} {c : Config} {k : Nat} {p : Plan}

/-! ## Preparing a plan -/

/-- The rules of a well-formed machine fit its alphabet. -/
theorem fits_of_wellFormed (hm : m.WellFormed k) (iteration : Nat) :
    Table.Fits (Alphabet.ofMachine (m.escape iteration) iteration)
      (m.escape iteration).rules k where
  proper := Alphabet.proper_ofMachine_escape m iteration
  functional := Machine.functional_rules_escape hm.functional
  lengths := Machine.lengths_escape hm.lengths
  symbols rule hr _ hx :=
    Alphabet.mem_symbols_ofMachine.mpr (.inr (List.mem_flatMap.mpr ⟨rule, hr, hx⟩))

/-- Once settings and machine are accepted, the rest of the preparation follows. -/
theorem prepare_eq (hm : m.WellFormed k) :
    prepare m c = c.validate.mapError Error.config >>= fun _ => ofChecked m c k := by
  unfold prepare
  rw [Machine.analyze_eq_ok_iff.mpr ⟨k, hm⟩, hm.tapeCount]
  rfl

/-- What strict settings ask of the rules. -/
def checkCoverage (m : Machine) (c : Config) (k : Nat) : Except Error Unit :=
  if c.mode = .strict then
    Coverage.check (m.escape c.iteration) (ofMachine m c k).alphabet.symbols k
  else
    .ok ()

theorem checkCoverage_eq_error {e : Error} (h : checkCoverage m c k = .error e) :
    c.mode = .strict ∧ ∃ state tuple, e = .uncovered state tuple := by
  unfold checkCoverage Coverage.check at h
  dsimp only at h
  split_ifs at h with hs
  split at h <;> cases h
  exact ⟨hs, _, _, rfl⟩

theorem ofChecked_of_clash {q : Symbol} (hq : c.placeholder = some q)
    (hclash : clashes (ofMachine m c k).alphabet q = true) :
    ofChecked m c k = .error (.config (.placeholderClash q m.name)) := by
  simp only [ofMachine] at hclash
  unfold ofChecked
  simp only [hq, hclash]
  rfl

theorem ofChecked_eq
    (hno : ∀ q, c.placeholder = some q → clashes (ofMachine m c k).alphabet q = false) :
    ofChecked m c k = checkCoverage m c k >>= fun _ => .ok (ofMachine m c k) := by
  unfold ofChecked checkCoverage
  cases hq : c.placeholder with
  | none => split_ifs <;> rfl
  | some q =>
    have hq := hno q hq
    simp only [ofMachine] at hq ⊢
    simp only [hq, Bool.false_eq_true, ↓reduceIte]
    split_ifs <;> rfl

/-- What becomes of the settings of an accepted machine. -/
theorem ofChecked_cases (m : Machine) (c : Config) (k : Nat) :
    (∃ q, c.placeholder = some q ∧ clashes (ofMachine m c k).alphabet q = true ∧
      ofChecked m c k = .error (.config (.placeholderClash q m.name))) ∨
    (c.mode = .strict ∧ ∃ state tuple, ofChecked m c k = .error (.uncovered state tuple)) ∨
    ((∀ q, c.placeholder = some q → clashes (ofMachine m c k).alphabet q = false) ∧
      ofChecked m c k = .ok (ofMachine m c k)) := by
  by_cases hno : ∀ q, c.placeholder = some q → clashes (ofMachine m c k).alphabet q = false
  · rw [ofChecked_eq hno]
    cases hc : checkCoverage m c k with
    | error e =>
      obtain ⟨hs, state, tuple, rfl⟩ := checkCoverage_eq_error hc
      exact .inr (.inl ⟨hs, state, tuple, rfl⟩)
    | ok _ => exact .inr (.inr ⟨hno, rfl⟩)
  · simp only [not_forall, Bool.not_eq_false] at hno
    obtain ⟨q, hq, hclash⟩ := hno
    exact .inl ⟨q, hq, hclash, ofChecked_of_clash hq hclash⟩

/-- A plan that was prepared is that of a well-formed machine, and sound. -/
theorem prepare_eq_ok (h : prepare m c = .ok p) : ∃ k, m.WellFormed k ∧ c.validate = .ok () ∧
    p = ofMachine m c k ∧ p.Sound := by
  have hana : m.analyze = .ok () := by
    unfold prepare at h
    cases hv : c.validate with
    | error e => rw [hv] at h; cases h
    | ok _ =>
      cases ha : m.analyze with
      | error e => rw [hv, ha] at h; cases h
      | ok _ => rfl
  obtain ⟨k, hm⟩ := Machine.analyze_eq_ok_iff.mp hana
  rw [prepare_eq hm] at h
  obtain ⟨_, hv, h⟩ := except_bind_eq_ok_iff.mp h
  refine ⟨k, hm, ?_, ?_⟩
  · cases hval : c.validate with
    | error e => rw [hval] at hv; cases hv
    | ok _ => rfl
  · rcases ofChecked_cases m c k with ⟨q, -, -, he⟩ | ⟨-, state, tuple, he⟩ | ⟨hno, hok⟩
    · rw [he] at h; cases h
    · rw [he] at h; cases h
    · obtain rfl := Except.ok.inj (hok.symm.trans h)
      exact ⟨rfl, fits_of_wellFormed hm c.iteration, hno⟩

/-- Normal settings without a clash are accepted. -/
theorem prepare_of_normal (hm : m.WellFormed k) (hv : c.validate = .ok ()) (hn : c.mode = .normal)
    (hno : ∀ q, c.placeholder = some q → clashes (ofMachine m c k).alphabet q = false) :
    prepare m c = .ok (ofMachine m c k) := by
  rw [prepare_eq hm, hv]
  change ofChecked m c k = _
  rw [ofChecked_eq hno, checkCoverage, if_neg (by simp [hn])]
  rfl

/-- The settings without their placeholder are accepted too. -/
theorem prepare_without_placeholder (h : prepare m c = .ok p) :
    ∃ p', prepare m { c with placeholder := none } = .ok p' := by
  obtain ⟨k, hm, hv, rfl, hsound⟩ := prepare_eq_ok h
  have hpos : c.iteration ≠ 0 := by
    intro hzero
    simp [Config.validate, hzero] at hv
  have hv' : ({ c with placeholder := none } : Config).validate = .ok () := if_neg hpos
  rw [prepare_eq hm, hv] at h
  change ofChecked m c k = _ at h
  have hno : ∀ q, c.placeholder = some q → clashes (ofMachine m c k).alphabet q = false :=
    hsound.placeholder
  rw [ofChecked_eq hno] at h
  obtain ⟨_, hcover, -⟩ := except_bind_eq_ok_iff.mp h
  -- strict settings ask the same of the rules with and without a placeholder
  have hcover' : checkCoverage m { c with placeholder := none } k = .ok _ := hcover
  rw [prepare_eq hm, hv']
  change ∃ p', ofChecked m { c with placeholder := none } k = .ok p'
  rw [ofChecked_eq (by simp), hcover']
  exact ⟨_, rfl⟩

/-! ## The table of a sound plan -/

namespace Sound

theorem injects (h : p.Sound) {r : Row} (hr : r ∈ p.injectionRows) :
    ∃ q, p.config.placeholder = some q ∧ clashes p.alphabet q = false ∧
      Table.Injects p.alphabet p.start q r := by
  unfold injectionRows at hr
  split at hr
  · next q hq => exact ⟨q, hq, h.placeholder q hq, Table.mem_injectionRows.mp hr⟩
  · cases hr

theorem mem_extended (h : p.Sound) {r : Row} :
    r ∈ Table.extended p.alphabet p.config.safety p.baseRows ↔
      r ∈ p.injectionRows ∨
        ∃ rule ∈ p.machine.rules, Table.Emits p.alphabet p.config.safety rule r := by
  refine Table.Extensible.mem_extended_iff ⟨fun r hr => ?_, fun r => ?_⟩ h.fits
  · obtain ⟨q, -, hq, hi⟩ := h.injects hr
    exact hi.inert hq rfl
  · exact Table.mem_sweepRows fun rule hr => (h.fits.lengths rule hr).1

theorem functional (h : p.Sound) :
    Functional Row.domain (Table.extended p.alphabet p.config.safety p.baseRows) := by
  intro r hr r' hr' hd
  obtain ⟨hs, hread⟩ : r.state = r'.state ∧ r.read = r'.read := by simpa [Row.domain] using hd
  -- a state of the pass is of no other phase
  have hinj : ∀ {r : Row} {step}, r.state = p.start.injection step → ∀ {rule},
      rule ∈ p.machine.rules → ¬ Table.Emits p.alphabet p.config.safety rule r := by
    intro r step hst rule _ he
    cases he with
    | discover he =>
      have := he.phase
      rw [hst] at this
      cases this
    | execute he _ =>
      obtain ⟨phase, hph, hc⟩ := he.state_eq
      have := congrArg State.phase (hst.symm.trans hph)
      rcases hc with ⟨_, rfl⟩ | ⟨_, rfl⟩ | rfl <;> cases this
    | extendLeft _ _ he =>
      rcases he.phase with hph | ⟨_, hph⟩ <;> rw [hst] at hph <;> cases hph
    | extendRight _ _ _ he =>
      rcases he.phase with hph | ⟨_, hph⟩ <;> rw [hst] at hph <;> cases hph
  rcases h.mem_extended.mp hr with hi | ⟨rule, hrule, he⟩
  · obtain ⟨q, hq, hc, hi⟩ := h.injects hi
    obtain ⟨step, hst⟩ := hi.phase
    rcases h.mem_extended.mp hr' with hi' | ⟨rule', hrule', he'⟩
    · obtain ⟨q', hq', -, hi'⟩ := h.injects hi'
      obtain rfl := Option.some.inj (hq.symm.trans hq')
      exact hi.unique h.fits.proper hc hi' hs hread
    · exact absurd he' (hinj (hs ▸ hst) hrule')
  · rcases h.mem_extended.mp hr' with hi' | ⟨rule', hrule', he'⟩
    · obtain ⟨q', -, -, hi'⟩ := h.injects hi'
      obtain ⟨step, hst⟩ := hi'.phase
      exact absurd he (hinj (hs.trans hst) hrule)
    · exact he.unique h.fits hrule hrule' he' hs hread

/-- **A sound plan has a table.** Its rows are those of the injection pass and of the rules, and no
two of them apply on the same state and symbol. -/
theorem table (h : p.Sound) : ∃ rows, p.table = .ok rows ∧ (rows.map Row.domain).Nodup ∧
    ∀ r, r ∈ rows ↔ r ∈ p.injectionRows ∨
      ∃ rule ∈ p.machine.rules, Table.Emits p.alphabet p.config.safety rule r := by
  obtain ⟨rows, hrows⟩ := consolidate_eq_ok h.functional
  refine ⟨rows, ?_, nodup_of_consolidate hrows, fun r => ?_⟩
  · unfold Plan.table Table.assemble
    rw [Table.extend_eq_ok]
    change ((consolidate Row.domain (Table.extended _ _ _)).mapError _).mapError _ = _
    rw [hrows]
    rfl
  · rw [mem_of_consolidate hrows, h.mem_extended]

theorem flatten (h : p.Sound) : ∃ rows, p.flatten =
    .ok ⟨p.machine.name, p.initial, p.accept rows, rows, p.escapes⟩ ∧
      (rows.map Row.domain).Nodup ∧
      ∀ r, r ∈ rows ↔ r ∈ p.injectionRows ∨
        ∃ rule ∈ p.machine.rules, Table.Emits p.alphabet p.config.safety rule r := by
  obtain ⟨rows, hrows, hnodup, hmem⟩ := h.table
  refine ⟨rows, ?_, hnodup, hmem⟩
  unfold Plan.flatten
  rw [hrows]
  rfl

end Sound
end Plan

/-! ## Compiling a machine -/

namespace Machine

variable {m : Machine} {c : Config} {k : Nat}

/-- A compilation fails in its preparation only. -/
theorem flatten_eq_error {e : Error} (h : m.flatten c = .error e) :
    Plan.prepare m c = .error e := by
  unfold flatten at h
  cases hp : Plan.prepare m c with
  | error e' =>
    rw [hp] at h
    cases h
    rfl
  | ok p =>
    obtain ⟨-, -, -, -, hsound⟩ := Plan.prepare_eq_ok hp
    obtain ⟨rows, hrows, -⟩ := hsound.flatten
    rw [hp] at h
    change p.flatten = _ at h
    rw [hrows] at h
    cases h

theorem flatten_eq_ok {f : FlatMachine} (h : m.flatten c = .ok f) : ∃ k rows, m.WellFormed k ∧
    c.validate = .ok () ∧ (Plan.ofMachine m c k).Sound ∧
    f = ⟨m.name, (Plan.ofMachine m c k).initial, (Plan.ofMachine m c k).accept rows, rows,
      m.escapes c.iteration⟩ ∧
    (rows.map Row.domain).Nodup ∧
    ∀ r, r ∈ rows ↔ r ∈ (Plan.ofMachine m c k).injectionRows ∨
      ∃ rule ∈ (m.escape c.iteration).rules,
      Table.Emits (Plan.ofMachine m c k).alphabet c.safety rule r := by
  obtain ⟨p, hp, h⟩ := except_bind_eq_ok_iff.mp h
  obtain ⟨k, hm, hv, rfl, hsound⟩ := Plan.prepare_eq_ok hp
  obtain ⟨rows, hrows, hnodup, hmem⟩ := hsound.flatten
  rw [hrows] at h
  cases h
  exact ⟨k, rows, hm, hv, hsound, rfl, hnodup, hmem⟩

/-- The settings and rules that a compilation accepts. -/
theorem flatten_eq_ok_of_prepare {p : Plan} (h : Plan.prepare m c = .ok p) :
    ∃ f, m.flatten c = .ok f := by
  cases hf : m.flatten c with
  | ok f => exact ⟨f, rfl⟩
  | error e =>
    rw [flatten_eq_error hf] at h
    cases h

theorem flatten_eq_ok_of_normal (hwf : m.WellFormed k) (hi : 1 ≤ c.iteration)
    (hn : c.mode = .normal) (hp : c.placeholder = none) : ∃ f, m.flatten c = .ok f := by
  have hv : c.validate = .ok () := by
    simp only [Config.validate, hp, if_neg (show ¬ c.iteration = 0 by omega)]
  exact flatten_eq_ok_of_prepare (Plan.prepare_of_normal hwf hv hn (by simp [hp]))

/-- **Compilation never fails on its own account.** The machine was accepted, so an error comes from
the settings, from a placeholder that clashes, or from strict settings that find a gap; with a
positive iteration, normal settings and no placeholder there is none. A table has one row at most
for each state and symbol. -/
theorem flatten_complete (m : Machine) (c : Config) (hm : m.analyze = .ok ()) :
    (∀ e, m.flatten c = .error e →
      (∃ cause, c.validate = .error cause ∧ e = .config cause) ∨
      (∃ q, c.placeholder = some q ∧
        Plan.clashes (.ofMachine (m.escape c.iteration) c.iteration) q = true ∧
        e = .config (.placeholderClash q m.name)) ∨
      (c.mode = .strict ∧ ∃ state tuple, e = .uncovered state tuple)) ∧
    (1 ≤ c.iteration → c.mode = .normal → c.placeholder = none → ∃ f, m.flatten c = .ok f) ∧
    ∀ f, m.flatten c = .ok f → (f.rows.map Row.domain).Nodup := by
  obtain ⟨k, hwf⟩ := analyze_eq_ok_iff.mp hm
  have hprep := Plan.prepare_eq (c := c) hwf
  refine ⟨fun e he => ?_, fun hi hn hp => flatten_eq_ok_of_normal hwf hi hn hp, fun f hf => ?_⟩
  · have he := flatten_eq_error he
    rw [hprep] at he
    cases hv : c.validate with
    | error cause =>
      rw [hv] at he
      cases he
      exact .inl ⟨cause, rfl, rfl⟩
    | ok _ =>
      rw [hv] at he
      change Plan.ofChecked m c k = .error e at he
      rcases Plan.ofChecked_cases m c k with ⟨q, hq, hc, h⟩ | ⟨hs, state, tuple, h⟩ | ⟨-, h⟩
      · cases he.symm.trans h
        exact .inr (.inl ⟨q, hq, hc, rfl⟩)
      · cases he.symm.trans h
        exact .inr (.inr ⟨hs, state, tuple, rfl⟩)
      · cases he.symm.trans h
  · obtain ⟨k, rows, -, -, -, rfl, hnodup, -⟩ := flatten_eq_ok hf
    exact hnodup

/-- A machine over reserved symbols, with one rule given twice: the first head finds a boundary and
walks off the left end of its tape, the second writes a tape end past the right end of its own. -/
def exchange : Machine :=
  let rule : Rule := ⟨"q", [Symbol.boundary, Symbol.blank], "h",
    [Symbol.returnMark, Symbol.tapeEnd], [.left, .right]⟩
  ⟨"Exchange", "q", ["h"], [rule, rule]⟩

theorem wellFormed_exchange : exchange.WellFormed 2 where
  tapeCount := rfl
  tapes_pos := by decide
  lengths := by decide
  names := by decide
  words := by decide
  start := by decide
  functional := by
    unfold Functional
    decide

theorem analyze_exchange : exchange.analyze = .ok () :=
  analyze_eq_ok_iff.mpr ⟨2, wellFormed_exchange⟩

/-- A machine that stays where it is, in a state of a given name. -/
def loop (state : String) : Machine :=
  ⟨"Loop", state, [state], [⟨state, [Symbol.blank], state, [Symbol.blank], [.stay]⟩]⟩

theorem wellFormed_loop {state : String} (h : isWord state = true) : (loop state).WellFormed 1 where
  tapeCount := rfl
  tapes_pos := Nat.one_pos
  lengths := by simp [loop]
  names := by simpa [stateNames, loop] using h
  words := by
    simp [symbols, loop, Rule.symbols]
    decide
  start := List.ne_nil_of_mem (Machine.mem_rulesFrom.mpr ⟨List.mem_cons_self, rfl⟩)
  functional := by
    intro r hr r' hr' _
    rw [List.mem_singleton.mp hr, List.mem_singleton.mp hr']

/-- The machine over reserved symbols is compiled, with and without extensions. -/
theorem flatten_exchange : exchange.analyze = .ok () ∧ ∀ safety, ∃ f,
    exchange.flatten { safety } = .ok f ∧ (f.rows.map Row.domain).Nodup := by
  refine ⟨analyze_exchange, fun safety => ?_⟩
  obtain ⟨-, hok, hnodup⟩ := flatten_complete exchange { safety } analyze_exchange
  obtain ⟨f, hf⟩ := hok (Nat.le_refl 1) rfl rfl
  exact ⟨f, hf, hnodup f hf⟩

/-- Normal settings without a placeholder are not enough: no marker carries the iteration zero. -/
theorem flatten_iteration_zero : exchange.analyze = .ok () ∧
    exchange.flatten { iteration := 0 } = .error (.config .zeroIteration) := by
  refine ⟨analyze_exchange, ?_⟩
  unfold flatten
  rw [Plan.prepare_eq wellFormed_exchange]
  rfl

end Machine
end OneTape
