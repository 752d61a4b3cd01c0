import OneTape.Proofs.Recompilation

/-!
# Towers of compilations

A compiled machine with its states named is a machine again, and can be compiled again. If every
level of such a tower takes an iteration of its own, no level fails: what one level requires of the
names and symbols of its source machine, the level below provides.

Results:
* `Machine.Stackable.level`: one level.
* `Machine.Stackable.compileAll`: a tower, by induction on its levels.
* `Machine.compileAll_of_fresh`: towers with different iterations are built, and no two states of a
  level have the same name.
-/

namespace OneTape

/-- Compiles a machine and names its states. -/
def Machine.compile (m : Machine) (c : Config) : Except Error Machine := do
  (← m.flatten c).toMachine

/-- Compiles a machine repeatedly. -/
def Machine.compileAll (m : Machine) (levels : List Config) : Except Error Machine :=
  levels.foldlM Machine.compile m

theorem Symbol.inherited_unbracketed : Inherited Unbracketed where
  own := by simp [Unbracketed, blank, boundary, tapeEnd, returnMark]
  escape iteration h c hc := by
    rcases mem_escape hc with hc | rfl
    · exact h c hc
    · decide
  marker iteration h c hc := by
    rcases mem_marker hc with hc | rfl | hdigit
    · exact h c hc
    · decide
    · intro hbracket
      have hbrackets : ∀ c ∈ ['[', ']'], c.isDigit = false := by simp
      exact absurd (hdigit.symm.trans (hbrackets c hbracket)) (by decide)

namespace Machine

variable {m f : Machine} {c : Config} {levels : List Config} {used : List Nat}

theorem compile_eq_ok_iff : m.compile c = .ok f ↔
    ∃ flat, m.flatten c = .ok flat ∧ flat.toMachine = .ok f :=
  except_bind_eq_ok_iff

/-- **A compiled machine without a placeholder can be compiled again.** -/
theorem analyze_of_compile (hp : c.placeholder = none) (hf : m.compile c = .ok f) :
    f.analyze = .ok () := by
  obtain ⟨flat, hflat, hname⟩ := compile_eq_ok_iff.mp hf
  obtain ⟨k, hg⟩ := Generated.of_flatten hflat hp
  have hn := FlatMachine.named_of_toMachine hg.nodup hname
  exact analyze_eq_ok_iff.mpr ⟨1, hg.wellFormed_named hn⟩

theorem compileAll_cons_eq_ok_iff : m.compileAll (c :: levels) = .ok f ↔
    ∃ m', m.compile c = .ok m' ∧ m'.compileAll levels = .ok f := by
  rw [compileAll, List.foldlM_cons, except_bind_eq_ok_iff]
  rfl

theorem compileAll_concat_eq_ok_iff : m.compileAll (levels ++ [c]) = .ok f ↔
    ∃ m', m.compileAll levels = .ok m' ∧ m'.compile c = .ok f := by
  rw [compileAll, List.foldlM_append, except_bind_eq_ok_iff]
  simp only [List.foldlM_cons, List.foldlM_nil, bind_pure]
  rfl

/-- A machine on which a tower can be built: it is well formed, its states are spelled with markers
of some iterations, and its symbols have no brackets. -/
structure Stackable (used : List Nat) (m : Machine) : Prop where
  wellFormed : ∃ k, m.WellFormed k
  names : ∀ q ∈ m.stateNames, Spelled used q.toList
  symbols : ∀ x ∈ m.symbols, x.Unbracketed

namespace Stackable

theorem nested {s : State} {i : Nat} (h : m.Stackable used) (hs : s.Stems m i) :
    s.Nested used i where
  base := h.names _ hs.base
  heads x hx := ⟨Symbol.inherited_unbracketed.of_onTape h.symbols
    (hs.symbols x (List.mem_append_left _ hx)), hs.marked x hx⟩
  carried x hx := Symbol.inherited_unbracketed.of_onTape h.symbols
    (hs.symbols x (List.mem_append_right _ hx))
  phase := hs.phase
  source := hs.source

/-- **One level**: a machine is compiled with a new iteration, its states are named, and the result
can be compiled again. -/
theorem level (h : m.Stackable used) (hn : c.mode = .normal) (hp : c.placeholder = none)
    (hi : 1 ≤ c.iteration) (hfresh : c.iteration ∉ used) :
    ∃ flat f, m.flatten c = .ok flat ∧ Functional State.name (flat.states ++ flat.accept) ∧
      flat.toMachine = .ok f ∧ f.Stackable (c.iteration :: used) := by
  obtain ⟨k, hwf⟩ := h.wellFormed
  obtain ⟨flat, hflat⟩ := flatten_eq_ok_of_normal hwf hi hn hp
  obtain ⟨k, hg⟩ := Generated.of_flatten hflat hp
  have hnested : ∀ s ∈ flat.states ++ flat.accept, s.Nested used c.iteration := fun s hs =>
    h.nested (hg.stems hs)
  have hnames : Functional State.name (flat.states ++ flat.accept) := fun s hs t ht hst =>
    (hnested s hs).name_injective hfresh (hnested t ht) hst
  obtain ⟨f, hf⟩ := FlatMachine.toMachine_eq_ok hnames
  have hnamed := FlatMachine.named_of_toMachine hg.nodup hf
  refine ⟨flat, f, hflat, hnames, hf, ⟨1, hg.wellFormed_named hnamed⟩, fun q hq => ?_,
    fun x hx => ?_⟩
  · obtain ⟨s, hs, rfl⟩ := hnamed.mem_stateNames hq
    exact (hnested s hs).spelled_name
  · exact Symbol.inherited_unbracketed.of_onTape h.symbols (hg.onTape_of_mem_symbols hnamed hx)

/-- **A tower**, by induction on its levels. The iterations that names are spelled with grow by one
at each level. -/
theorem compileAll (h : m.Stackable used)
    (hlevels : ∀ c ∈ levels, c.mode = .normal ∧ c.placeholder = none ∧ 1 ≤ c.iteration)
    (hnodup : (levels.map Config.iteration).Nodup) (hfresh : ∀ c ∈ levels, c.iteration ∉ used) :
    ∃ f, m.compileAll levels = .ok f ∧
      f.Stackable ((levels.map Config.iteration).reverse ++ used) := by
  induction levels generalizing m used with
  | nil => exact ⟨m, rfl, h⟩
  | cons c levels ih =>
    obtain ⟨hn, hp, hi⟩ := hlevels c List.mem_cons_self
    obtain ⟨flat, m', hflat, -, hm', hstack⟩ := h.level hn hp hi (hfresh c List.mem_cons_self)
    obtain ⟨hnew, hnodup⟩ := List.nodup_cons.mp hnodup
    obtain ⟨f, hf, htop⟩ := ih hstack (fun c hc => hlevels c (List.mem_cons_of_mem _ hc)) hnodup (by
      intro d hd hmem
      rcases List.mem_cons.mp hmem with he | hmem
      · exact hnew (he ▸ List.mem_map_of_mem hd)
      · exact hfresh d (List.mem_cons_of_mem _ hd) hmem)
    exact ⟨f, compileAll_cons_eq_ok_iff.mpr ⟨m', compile_eq_ok_iff.mpr ⟨flat, hflat, hm'⟩, hf⟩,
      by simpa using htop⟩

end Stackable

/-- A machine without the characters that names are made with is the ground of a tower. -/
theorem stackable_of_analyze (hm : m.analyze = .ok ())
    (hnames : ∀ q ∈ m.stateNames, ∀ c ∈ q.toList, c ∉ ['[', ']', ':', '!'])
    (hsymbols : ∀ x ∈ m.symbols, ∀ c ∈ x.text.toList, c ∉ ['[', ']']) : m.Stackable [] where
  wellFormed := analyze_eq_ok_iff.mp hm
  names q hq := .of_plain (fun h => hnames q hq _ h (by decide))
    fun h => hnames q hq _ h (by decide)
  symbols := hsymbols

/-- **A tower with different iterations is built.** Each level finds a well-formed machine, compiles
it and names its states, no two of which have the same name. -/
theorem compileAll_of_fresh (m : Machine) (levels : List Config) (hm : m.analyze = .ok ())
    (hnames : ∀ q ∈ m.stateNames, ∀ c ∈ q.toList, c ∉ ['[', ']', ':', '!'])
    (hsymbols : ∀ x ∈ m.symbols, ∀ c ∈ x.text.toList, c ∉ ['[', ']'])
    (hlevels : ∀ c ∈ levels, c.mode = .normal ∧ c.placeholder = none ∧ 1 ≤ c.iteration)
    (hfresh : (levels.map Config.iteration).Nodup) :
    (∃ f, m.compileAll levels = .ok f ∧ f.analyze = .ok ()) ∧
      ∀ below c above, levels = below ++ c :: above →
        ∃ m' flat f, m.compileAll below = .ok m' ∧ m'.analyze = .ok () ∧ m'.flatten c = .ok flat ∧
          Functional State.name (flat.states ++ flat.accept) ∧ flat.toMachine = .ok f ∧
          m.compileAll (below ++ [c]) = .ok f := by
  have hground := stackable_of_analyze hm hnames hsymbols
  refine ⟨?_, ?_⟩
  · obtain ⟨f, hf, htop⟩ := hground.compileAll hlevels hfresh (fun _ _ => List.not_mem_nil)
    exact ⟨f, hf, analyze_eq_ok_iff.mpr htop.wellFormed⟩
  · rintro below c above rfl
    have hsplit :
        (below.map Config.iteration ++ c.iteration :: above.map Config.iteration).Nodup := by
      simpa using hfresh
    obtain ⟨hbelow, -, hapart⟩ := List.nodup_append.mp hsplit
    obtain ⟨m', hm', hstack⟩ := hground.compileAll
      (fun c hc => hlevels c (List.mem_append_left _ hc)) hbelow (fun _ _ => List.not_mem_nil)
    obtain ⟨hn, hp, hi⟩ := hlevels c (by simp)
    obtain ⟨flat, f, hflat, hunique, hf, -⟩ := hstack.level hn hp hi (by
      simp only [List.append_nil, List.mem_reverse]
      exact fun hmem => hapart _ hmem _ List.mem_cons_self rfl)
    exact ⟨m', flat, f, hm', analyze_eq_ok_iff.mpr hstack.wellFormed, hflat, hunique, hf,
      compileAll_concat_eq_ok_iff.mpr ⟨m', hm', compile_eq_ok_iff.mpr ⟨flat, hflat, hf⟩⟩⟩

theorem plain_exchange : (∀ q ∈ exchange.stateNames, ∀ c ∈ q.toList, c ∉ ['[', ']', ':', '!']) ∧
    ∀ x ∈ exchange.symbols, ∀ c ∈ x.text.toList, c ∉ ['[', ']'] := by
  simp [stateNames, symbols, exchange, Rule.symbols, Symbol.boundary, Symbol.blank,
    Symbol.returnMark, Symbol.tapeEnd]

/-- A tower over reserved symbols, with iterations that do not grow and one level without
extensions. -/
def exchangeLevels : List Config :=
  [{ iteration := 12 }, { safety := ⟨false, false⟩ }, { iteration := 2 }]

theorem compileAll_exchange :
    exchange.analyze = .ok () ∧ (exchangeLevels.map Config.iteration).Nodup ∧
    (∃ f, exchange.compileAll exchangeLevels = .ok f ∧ f.analyze = .ok ()) ∧
    ∃ m' flat, exchange.compileAll [{ iteration := 12 }] = .ok m' ∧
      m'.flatten { safety := ⟨false, false⟩ } = .ok flat ∧
      Functional State.name (flat.states ++ flat.accept) := by
  obtain ⟨htop, hlevel⟩ := compileAll_of_fresh exchange exchangeLevels analyze_exchange
    plain_exchange.1 plain_exchange.2 (by decide) (by decide)
  obtain ⟨m', flat, -, hm', -, hflat, hunique, -, -⟩ := hlevel [{ iteration := 12 }] _ _ rfl
  exact ⟨analyze_exchange, by decide, htop, m', flat, hm', hflat, hunique⟩

end Machine
end OneTape
