import OneTape.Proofs.Simulation.Observation

/-!
# Runs without extensions at left ends

A one-tape machine that does not extend left ends simulates its source machine up to the first step
in which a head goes off the left end of its tape. It never shows a wrong configuration: during that
step it stops, in a state that does not accept.

Results:
* `Follows.exists_short`: the one-tape machine stops short.
* `watch_truncates_run`: what is observed is the run of the source machine, cut off before that
  step.
-/

namespace OneTape.Simulation

open Relation

variable {m f : Machine} {flat : FlatMachine} {iteration k n : Nat} {d e : Configuration}
  {input : Tapes}

/-- **The one-tape machine stops short** during a step in which a head goes off the left end of its
tape, and nothing is observed on the way. -/
theorem Follows.exists_short (hg : Generated m iteration ⟨false, true⟩ k flat) (hn : flat.Named f)
    (h : Follows m iteration false k flat input n d e) (hleaves : d.Leaves m) :
    ∃ t e', StopsShort flat d e' ∧ ∀ entries fuel observed, observed.length < entries →
      (setup m iteration f).continue entries (fuel + 1 + t) observed e =
        ⟨observed.reverse, .halted, e'⟩ := by
  obtain ⟨e₁, hpath, hsettles⟩ := h.settles hg hn
  obtain ⟨t, ht⟩ := Setup.continue_path hpath
  cases hsettles with
  | next _ _ h' _ =>
    have hinside := h'.inside.resolve_left Bool.false_ne_true
    exact absurd hleaves (hinside n d (Nat.lt_succ_self n) h.source)
  | stop hstep _ _ =>
    -- a step in which a head moves is no halt
    obtain ⟨r, hr, hstate, hread, -⟩ := hleaves
    rw [Configuration.step_of_rule hg.wellFormed.functional hr hstate hread] at hstep
    cases hstep
  | @off e' _ _ hhalt hshort =>
    refine ⟨t, e', hshort, fun entries fuel observed hlt => ?_⟩
    rw [ht entries _ observed hlt, Setup.continue_halted hhalt hlt]

theorem StopsShort.isAccepting {safety : Safety} (hg : Generated m iteration safety k flat)
    (hn : flat.Named f) (h : StopsShort flat d e) : f.isAccepting e.state = false := by
  obtain ⟨s, hs, hstate, -, i, hphase⟩ := h
  rw [hstate]
  exact hg.isAccepting_eq_false hn hs (by rw [hphase]; exact nofun)

/-- What is observed shows a run in which no head has gone off the left end of its tape. -/
theorem observed_inside (hg : Generated m iteration ⟨false, true⟩ k flat) (hn : flat.Named f)
    (h : Follows m iteration false k flat input 0 (Configuration.start m input) e)
    {o o' : Observation} (ho : o.Shows iteration (Configuration.start m input))
    {entries steps : Nat}
    (ho' : ((setup m iteration f).continue entries steps [o] e).observed[n]? = some o') :
    Inside m input n ∧
      ∃ d, (Configuration.start m input).run m.index n = (.running, d) ∧ o'.Shows iteration d := by
  have hnil : Faithful m iteration input [] := by simp [Faithful]
  have hone : Faithful m iteration input [o].reverse := hnil.concat rfl ho
  obtain ⟨hfaithful, i, d, e', hlen, hlast⟩ :=
    follows_continue hg hn entries steps h (Eq.refl 1) hone
  have hlt := (List.getElem?_eq_some_iff.mp ho').1
  exact ⟨(hlast.inside.resolve_left Bool.false_ne_true).mono (by omega), hfaithful n o' ho'⟩

/-- The step in which a head goes off the left end of its tape ends the run. -/
theorem exists_limit_short (hg : Generated m iteration ⟨false, true⟩ k flat) (hn : flat.Named f)
    (h : Follows m iteration false k flat input 0 (Configuration.start m input) e)
    (hd : (Configuration.start m input).run m.index n = (.running, d)) (hinside : Inside m input n)
    (hleaves : d.Leaves m) (o : Observation) :
    ∃ limit observed e', observed.length = n + 1 ∧ StopsShort flat d e' ∧
      ∀ entries steps, n + 1 < entries → limit ≤ steps →
        (setup m iteration f).continue entries steps [o] e = ⟨observed, .halted, e'⟩ := by
  obtain ⟨t, observed, e₁, hlen, hfollows, hcont⟩ := exists_follows hg hn h hd (.inr hinside) o
  obtain ⟨j, e', hshort, hhalt⟩ := hfollows.exists_short hg hn hleaves
  refine ⟨1 + j + t, observed.reverse, e', by rw [List.length_reverse, hlen], hshort,
    fun entries steps hlt hle => ?_⟩
  obtain ⟨fuel, rfl⟩ : ∃ fuel, steps = fuel + 1 + j + t := ⟨steps - (1 + j + t), by omega⟩
  rw [hcont entries _ (by omega), hhalt entries fuel observed (by omega)]

/-- What `watch` does from the start of a run. -/
theorem watch_eq_continue {c : Config} {safety : Safety}
    (hg : Generated m c.iteration safety k flat) (hn : flat.Named f)
    (hflat : m.flatten c = .ok flat) (hf : flat.toMachine = .ok f) {cells : List Symbol}
    (hcode : (input.map (·.escape c.iteration)).encode c.iteration = .ok cells)
    (entries steps : Nat) :
    watch m c input entries steps = .ok (f, (setup m c.iteration f).continue entries steps
      [(setup m c.iteration f).observe (Configuration.start f ⟨[cells], [0]⟩)]
      (Configuration.start f ⟨[cells], [0]⟩)) := by
  have hstart : (setup m c.iteration f).isSource f.initial = true := by
    change m.stateNames.contains f.initial = true
    rw [hn.initial, hg.initial, Compiled.name_source]
    simp [Machine.stateNames]
  rw [watch_eq hflat hf hcode, Setup.watch]
  simp only [Configuration.start, hstart, if_true, Nat.sub_zero]

/-- **Without extensions at left ends, runs are cut off and otherwise kept.** Whatever is observed
shows the configuration of that number, and no head has gone off the left end of its tape before it.
Every configuration that the source machine comes to before a head does is observed if the run is
watched for long enough. In the step in which a head does, the one-tape machine halts, in a state
that places a head and does not accept, and the configuration before that step is the last one
observed. -/
theorem watch_truncates_run (m : Machine) (c : Config) (flat : FlatMachine) (f : Machine) (k : Nat)
    (input : Tapes) (hflat : m.flatten c = .ok flat) (hf : flat.toMachine = .ok f)
    (hplaceholder : c.placeholder = none) (hsafety : c.safety = ⟨false, true⟩)
    (hk : m.tapeCount? = some k) (hinput : Fitting m k input) :
    (∀ entries steps, ∃ w, watch m c input entries steps = .ok (f, w) ∧
      ∀ n o, w.observed[n]? = some o → Inside m input n ∧
        ∃ d, (Configuration.start m input).run m.index n = (.running, d) ∧ o.Shows c.iteration d) ∧
    ∀ n d, (Configuration.start m input).run m.index n = (.running, d) → Inside m input n →
      (∃ limit, ∀ entries steps, n < entries → limit ≤ steps →
        ∃ w o, watch m c input entries steps = .ok (f, w) ∧ w.observed[n]? = some o ∧
          o.Shows c.iteration d) ∧
      (d.Leaves m → ∃ limit, ∀ entries steps, n + 1 < entries → limit ≤ steps →
        ∃ w, watch m c input entries steps = .ok (f, w) ∧ w.observed.length = n + 1 ∧
          w.outcome = .halted ∧ StopsShort flat d w.final ∧
            f.isAccepting w.final.state = false) := by
  obtain ⟨k', hg⟩ := Generated.of_flatten hflat hplaceholder
  rw [hsafety] at hg
  obtain rfl : k' = k := Option.some.inj (hg.wellFormed.tapeCount.symm.trans hk)
  have hn := FlatMachine.named_of_toMachine hg.nodup hf
  obtain ⟨cells, hcode, hfollows, hshows⟩ := follows_start hg hn hinput
  have hwatch := watch_eq_continue hg hn hflat hf hcode
  refine ⟨fun entries steps => ⟨_, hwatch entries steps,
      fun n o => observed_inside hg hn hfollows hshows⟩,
    fun n d hd hinside => ⟨?_, fun hleaves => ?_⟩⟩
  · obtain ⟨limit, hlimit⟩ := exists_limit_of_inside hg hn hfollows hd (.inr hinside)
      ((setup m c.iteration f).observe (Configuration.start f ⟨[cells], [0]⟩))
    refine ⟨limit, fun entries steps hlt hle => ?_⟩
    have hget := List.getElem?_eq_getElem (hlimit entries steps hlt hle)
    obtain ⟨-, d', hd', ho⟩ := observed_inside hg hn hfollows hshows hget
    obtain rfl : d = d' := congrArg Prod.snd (hd.symm.trans hd')
    exact ⟨_, _, hwatch entries steps, hget, ho⟩
  · obtain ⟨limit, observed, e, hlen, hshort, hend⟩ :=
      exists_limit_short hg hn hfollows hd hinside hleaves
        ((setup m c.iteration f).observe (Configuration.start f ⟨[cells], [0]⟩))
    refine ⟨limit, fun entries steps hlt hle => ⟨_, hwatch entries steps, ?_⟩⟩
    rw [hend entries steps hlt hle]
    exact ⟨hlen, rfl, hshort, hshort.isAccepting hg hn⟩

theorem leaves_exchange :
    (Configuration.start Machine.exchange exchangeInput).Leaves Machine.exchange :=
  ⟨_, List.mem_cons_self, rfl, by decide, 0, rfl, rfl⟩

/-- The first head of the machine over reserved symbols goes off the left end of its tape in the
first step. Without extensions at left ends its start is all that is observed, and it does not
accept. -/
theorem watch_truncates_exchange :
    ∃ flat f, Machine.exchange.flatten { safety := ⟨false, true⟩ } = .ok flat ∧
    flat.toMachine = .ok f ∧ Fitting Machine.exchange 2 exchangeInput ∧
    ∃ limit, ∀ entries steps, 1 < entries → limit ≤ steps →
      ∃ w, watch Machine.exchange { safety := ⟨false, true⟩ } exchangeInput entries steps =
          .ok (f, w) ∧
        w.observed.length = 1 ∧ w.outcome = .halted ∧ f.isAccepting w.final.state = false := by
  obtain ⟨flat, hflat⟩ := Machine.flatten_eq_ok_of_normal (c := { safety := ⟨false, true⟩ })
    Machine.wellFormed_exchange (Nat.le_refl 1) rfl rfl
  obtain ⟨k, hg⟩ := Generated.of_flatten hflat rfl
  obtain ⟨f, hf⟩ := hg.toMachine_eq_ok Compiled.legible_exchange
  obtain ⟨-, hrun⟩ := watch_truncates_run Machine.exchange { safety := ⟨false, true⟩ } flat f 2
    exchangeInput hflat hf rfl rfl rfl fitting_exchangeInput
  obtain ⟨limit, hlimit⟩ := (hrun 0 _ rfl nofun).2 leaves_exchange
  refine ⟨flat, f, hflat, hf, fitting_exchangeInput, limit, fun entries steps hlt hle => ?_⟩
  obtain ⟨w, hwatch, hlen, houtcome, -, haccept⟩ := hlimit entries steps hlt hle
  exact ⟨w, hwatch, hlen, houtcome, haccept⟩

end OneTape.Simulation
