import OneTape.Proofs.Simulation.Halting
import OneTape.Proofs.Tower

/-!
# Runs at the top of a tower

An input is laid out once for each level of a tower of compilations. The machine at the top then
halts on the last layout if and only if the machine at the bottom halts on the input, and gives the
same verdict.

Results:
* `sameVerdict_of_level`: one level, whose layout is an input for the machine of the next.
* `compileAll_sameVerdict`: towers, by induction on their levels.
-/

namespace OneTape

namespace Tapes

/-- Lays tapes out for a level of a tower, on a tape with its head at the left end. -/
def layOut (t : Tapes) (c : Config) : Except LayoutError Tapes := do
  let cells ← (t.map (·.escape c.iteration)).encode c.iteration
  return ⟨[cells], [0]⟩

/-- Lays tapes out for a whole tower. -/
def layOutAll (t : Tapes) (levels : List Config) : Except LayoutError Tapes :=
  levels.foldlM layOut t

theorem layOutAll_cons {t t' : Tapes} {c : Config} {levels : List Config}
    (h : t.layOut c = .ok t') :
    t.layOutAll (c :: levels) = t'.layOutAll levels := by
  rw [layOutAll, List.foldlM_cons, h]
  rfl

end Tapes

namespace Simulation

variable {m m' m'' f : Machine} {t t' t'' input : Tapes} {c : Config} {k : Nat}

/-- Two machines on their tapes halt both or run on both, and if they halt, both accept or neither
does. -/
structure SameVerdict (m : Machine) (t : Tapes) (m' : Machine) (t' : Tapes) : Prop where
  halts : (∃ n, ((Configuration.start m' t').run m'.index n).1 = .halted) ↔
    ∃ n, ((Configuration.start m t).run m.index n).1 = .halted
  accepts : ∀ n e j d, (Configuration.start m' t').run m'.index n = (.halted, e) →
    (Configuration.start m t).run m.index j = (.halted, d) →
    m'.isAccepting e.state = m.isAccepting d.state

namespace SameVerdict

theorem refl (m : Machine) (t : Tapes) : SameVerdict m t m t where
  halts := Iff.rfl
  accepts n e j d he hd := by rw [Configuration.eq_of_run_halted he hd]

/-- If the outer machines halt, so does the one between them, and its verdict is that of both. -/
theorem trans (h : SameVerdict m t m' t') (h' : SameVerdict m' t' m'' t'') :
    SameVerdict m t m'' t'' where
  halts := h'.halts.trans h.halts
  accepts n e j d he hd := by
    obtain ⟨i, hi⟩ := h'.halts.mp ⟨n, by rw [he]⟩
    have hbetween : (Configuration.start m' t').run m'.index i =
        (.halted, ((Configuration.start m' t').run m'.index i).2) := Prod.ext hi rfl
    exact (h'.accepts n e i _ he hbetween).trans (h.accepts i _ j d hbetween hd)

end SameVerdict

/-! ## One level -/

/-- An encoded tape holds symbols of the alphabet, their markers, boundaries and the tape end. -/
theorem Enters.mem_cells {iteration : Nat} {d : Configuration} {x : Table.Instant}
    (h : Enters m iteration k d x) :
    ∀ s ∈ x.cells, s ∈ (m.alphabet iteration).library ∨ s = Symbol.tapeEnd := by
  obtain ⟨strips, hshown, hentered⟩ := h
  intro s hs
  rw [hentered.cells, Strip.layout, List.mem_cons, List.mem_append, List.mem_singleton] at hs
  rcases hs with rfl | hs | rfl
  · exact .inl (Alphabet.mem_library_of_mem_unmarked Alphabet.boundary_mem_unmarked)
  · exact .inl (Strip.flatMap_cells_mem hshown.symbols s hs)
  · exact .inr rfl

theorem fitting_layout {flat : FlatMachine} {iteration : Nat} {cells : List Symbol}
    (hc : Compiled m iteration k flat) (hn : flat.Named f) (hinput : Fitting m k input)
    (hcode : (input.map (·.escape iteration)).encode iteration = .ok cells) :
    Fitting f 1 ⟨[cells], [0]⟩ := by
  obtain ⟨cells', hcode', henters⟩ := enters_start hc.wellFormed iteration hinput
  obtain rfl : cells = cells' := Except.ok.inj (hcode.symm.trans hcode')
  refine ⟨rfl, rfl, fun tape htape s hs => ?_⟩
  obtain rfl := List.mem_singleton.mp htape
  exact .inr (hc.mem_symbols_of_mem_library hn (henters.mem_cells s hs))

/-- Runs side by side from the start give one verdict. -/
theorem Follows.sameVerdict {flat : FlatMachine} {iteration : Nat}
    (hc : Compiled m iteration k flat) (hn : flat.Named f)
    (h : Follows m iteration true k flat input 0 (Configuration.start m input)
      (Configuration.start f t)) : SameVerdict m input f t where
  halts := by
    constructor
    · rintro ⟨n, hrun⟩
      obtain ⟨j, d, hj, -⟩ := h.source_halts hc hn (Prod.ext hrun rfl)
      exact ⟨j, by rw [hj]⟩
    · rintro ⟨n, hrun⟩
      obtain ⟨j, e, hj⟩ := h.halts hc hn (Prod.ext hrun rfl)
      exact ⟨j, by rw [hj]⟩
  accepts n e j d he hd := by
    obtain ⟨j', d', hd', hstops⟩ := h.source_halts hc hn he
    obtain rfl := Configuration.eq_of_run_halted hd hd'
    exact hstops.isAccepting hc hn

/-- **One level of a tower.** The layout of an input is an input for the compiled machine, which
gives the verdict of the source machine. -/
theorem sameVerdict_of_level (hf : m.compile c = .ok f) (hp : c.placeholder = none)
    (hs : c.safety = ⟨true, true⟩) (hk : m.tapeCount? = some k) (hinput : Fitting m k input) :
    ∃ t, input.layOut c = .ok t ∧ f.tapeCount? = some 1 ∧ Fitting f 1 t ∧
      SameVerdict m input f t := by
  obtain ⟨flat, hflat, hf⟩ := Machine.compile_eq_ok_iff.mp hf
  obtain ⟨k', hc⟩ := Compiled.of_flatten hflat hp hs
  obtain rfl : k' = k := Option.some.inj (hc.wellFormed.tapeCount.symm.trans hk)
  have hn := FlatMachine.named_of_toMachine hc.nodup hf
  obtain ⟨cells, hcode, hfollows, -⟩ := follows_start hc hn hinput
  refine ⟨⟨[cells], [0]⟩, ?_, (hc.wellFormed_named hn).tapeCount,
    fitting_layout hc hn hinput hcode, hfollows.sameVerdict hc hn⟩
  rw [Tapes.layOut, hcode]
  rfl

/-! ## Towers -/

/-- **A tower keeps halting and acceptance.** Every layout on the way to its top succeeds, and there
the machine halts on the last layout if and only if the machine at the bottom halts on the input,
with the same verdict. -/
theorem compileAll_sameVerdict (m f : Machine) (levels : List Config) (k : Nat) (input : Tapes)
    (hk : m.tapeCount? = some k) (hinput : Fitting m k input)
    (hlevels : ∀ c ∈ levels, c.placeholder = none ∧ c.safety = ⟨true, true⟩)
    (hf : m.compileAll levels = .ok f) :
    ∃ t, input.layOutAll levels = .ok t ∧ SameVerdict m input f t := by
  induction levels generalizing m k input with
  | nil =>
    cases hf
    exact ⟨input, rfl, .refl _ input⟩
  | cons c levels ih =>
    obtain ⟨m', hm', hf⟩ := Machine.compileAll_cons_eq_ok_iff.mp hf
    obtain ⟨hp, hs⟩ := hlevels c List.mem_cons_self
    obtain ⟨t', ht', hk', hfitting, hverdict⟩ := sameVerdict_of_level hm' hp hs hk hinput
    obtain ⟨t, ht, htop⟩ := ih m' 1 t' hk' hfitting
      (fun c hc => hlevels c (List.mem_cons_of_mem _ hc)) hf
    exact ⟨t, (Tapes.layOutAll_cons ht').trans ht, hverdict.trans htop⟩

/-- The machine over reserved symbols is compiled twice, and accepts at the top. -/
theorem compileAll_accepts_exchange :
    ∃ f t, Machine.exchange.compileAll [{ iteration := 2 }, {}] = .ok f ∧
    Fitting Machine.exchange 2 exchangeInput ∧
    exchangeInput.layOutAll [{ iteration := 2 }, {}] = .ok t ∧
    ∃ n e, (Configuration.start f t).run f.index n = (.halted, e) ∧
      f.isAccepting e.state = true := by
  have hground := Machine.stackable_of_analyze Machine.analyze_exchange Machine.plain_exchange.1
    Machine.plain_exchange.2
  obtain ⟨f, hf, -⟩ := hground.compileAll
    (by decide : ∀ c ∈ ([{ iteration := 2 }, {}] : List Config),
      c.mode = .normal ∧ c.placeholder = none ∧ 1 ≤ c.iteration)
    (by decide) fun _ _ => List.not_mem_nil
  obtain ⟨t, ht, hverdict⟩ := compileAll_sameVerdict Machine.exchange f [{ iteration := 2 }, {}] 2
    exchangeInput rfl fitting_exchangeInput (by decide) hf
  obtain ⟨n, hn⟩ := hverdict.halts.mpr ⟨2, by rw [run_exchange_two]⟩
  have haccept := hverdict.accepts n _ 2 _ (Prod.ext hn rfl) run_exchange_two
  exact ⟨f, t, hf, fitting_exchangeInput, ht, n, _, Prod.ext hn rfl, haccept.trans (by decide)⟩

end Simulation
end OneTape
