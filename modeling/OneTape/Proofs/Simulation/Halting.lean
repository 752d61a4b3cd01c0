import OneTape.Proofs.Simulation.Follow

/-!
# Halting and acceptance

The one-tape machine halts if and only if its source machine does, in a state that says where the
source machine halted, and it accepts if and only if the source machine does.

Results:
* `Follows.source_halts`: where the one-tape machine halts, the source machine has halted.
* `Follows.halts`: where the source machine halts, the one-tape machine halts.
* `halts_iff_source_halts`: both together, with what the two machines have when they halt.
-/

namespace OneTape.Simulation

open Relation

variable {m f : Machine} {flat : FlatMachine} {iteration k i : Nat} {d d' e e' : Configuration}
  {input : Tapes}

/-- A silent path is part of the run. -/
theorem run_of_silent {s : Setup} (h : ReflTransGen s.Silent e e') :
    ∃ t, ∀ n, e.run s.index (n + t) = e'.run s.index n := by
  induction h using ReflTransGen.head_induction_on with
  | refl => exact ⟨0, fun _ => rfl⟩
  | head hstep _ ih =>
    obtain ⟨t, ht⟩ := ih
    exact ⟨t + 1, fun n => (Configuration.run_of_running hstep.step (n + t)).trans (ht n)⟩

namespace Follows

/-- **Where the one-tape machine halts, the source machine has halted**, by induction on the steps
of the one-tape machine. -/
theorem source_halts (hc : Compiled m iteration k flat) (hn : flat.Named f)
    (h : Follows m iteration true k flat input i d e) {n : Nat}
    (hrun : e.run f.index n = (.halted, e')) :
    ∃ j d', (Configuration.start m input).run m.index j = (.halted, d') ∧
      Stops flat iteration k d' e' := by
  induction n generalizing i d e with
  | zero => cases hrun
  | succ n ih =>
    rcases h.cases hc hn with ⟨e₁, hsilent, h₁⟩ | hsettles
    · exact ih h₁ ((Configuration.run_of_running hsilent.step n).symm.trans hrun)
    · cases hsettles with
      | next _ hentry h₁ _ =>
        exact ih h₁ ((Configuration.run_of_running hentry.step n).symm.trans hrun)
      | @stop d₁ e₁ hstep hhalt hstops =>
        rw [Configuration.run_of_halted hhalt] at hrun
        cases hrun
        exact ⟨i + 1, d₁, (Configuration.run_succ h.source).trans hstep, hstops⟩
      | off hleft => cases hleft

/-- **Where the source machine halts, the one-tape machine halts**, by induction on the steps of the
source machine. -/
theorem halts (hc : Compiled m iteration k flat) (hn : flat.Named f)
    (h : Follows m iteration true k flat input i d e) {n : Nat}
    (hrun : d.run m.index n = (.halted, d')) :
    ∃ j e', e.run f.index j = (.halted, e') := by
  induction n generalizing i d e with
  | zero => cases hrun
  | succ n ih =>
    obtain ⟨e₁, hpath, hsettles⟩ := h.settles hc hn
    obtain ⟨t, ht⟩ := run_of_silent hpath
    cases hsettles with
    | next hstep hentry h₁ _ =>
      rw [Configuration.run_of_running hstep] at hrun
      obtain ⟨j, e', hj⟩ := ih h₁ hrun
      exact ⟨j + 1 + t, e', (ht (j + 1)).trans
        ((Configuration.run_of_running hentry.step j).trans hj)⟩
    | @stop d₁ e₂ _ hhalt _ => exact ⟨1 + t, e₂, (ht 1).trans (Configuration.run_of_halted hhalt 0)⟩
    | off hleft => cases hleft

end Follows

theorem Stops.isAccepting (hc : Compiled m iteration k flat) (hn : flat.Named f)
    (h : Stops flat iteration k d e) : f.isAccepting e.state = m.isAccepting d.state := by
  obtain ⟨s, hs, hstate, hphase, hheads, hbase⟩ := h.state
  rw [hstate, hc.isAccepting hn hs hphase hheads, hbase]

/-- **The one-tape machine halts if and only if the source machine does.** Then the one-tape machine
is in a discovery state for the final state of the source machine that lacks some heads, its tape
shows the final tapes and heads, and it accepts exactly if the source machine does. -/
theorem halts_iff_source_halts (m : Machine) (c : Config) (flat : FlatMachine) (f : Machine)
    (k : Nat) (input : Tapes) (hflat : m.flatten c = .ok flat) (hf : flat.toMachine = .ok f)
    (hplaceholder : c.placeholder = none) (hsafety : c.safety = ⟨true, true⟩)
    (hk : m.tapeCount? = some k) (hinput : Fitting m k input) :
    ∃ cells, (input.map (·.escape c.iteration)).encode c.iteration = .ok cells ∧
      ((∃ n, ((Configuration.start f ⟨[cells], [0]⟩).run f.index n).1 = .halted) ↔
        ∃ n, ((Configuration.start m input).run m.index n).1 = .halted) ∧
      ∀ n e j d, (Configuration.start f ⟨[cells], [0]⟩).run f.index n = (.halted, e) →
        (Configuration.start m input).run m.index j = (.halted, d) →
        Stops flat c.iteration k d e ∧ f.isAccepting e.state = m.isAccepting d.state := by
  obtain ⟨k', hc⟩ := Compiled.of_flatten hflat hplaceholder hsafety
  obtain rfl : k' = k := Option.some.inj (hc.wellFormed.tapeCount.symm.trans hk)
  have hn := FlatMachine.named_of_toMachine hc.nodup hf
  obtain ⟨cells, hcode, hfollows, -⟩ := follows_start hc hn hinput
  refine ⟨cells, hcode, ⟨?_, ?_⟩, ?_⟩
  · rintro ⟨n, hrun⟩
    obtain ⟨j, d, hj, -⟩ := hfollows.source_halts hc hn (Prod.ext hrun rfl)
    exact ⟨j, by rw [hj]⟩
  · rintro ⟨n, hrun⟩
    obtain ⟨j, e, hj⟩ := hfollows.halts hc hn (Prod.ext hrun rfl)
    exact ⟨j, by rw [hj]⟩
  · intro n e j d he hd
    obtain ⟨j', d', hd', hstops⟩ := hfollows.source_halts hc hn he
    obtain rfl := Configuration.eq_of_run_halted hd hd'
    exact ⟨hstops, hstops.isAccepting hc hn⟩

/-- The machine over reserved symbols halts after one step, in its accept state, and so does the
one-tape machine. -/
theorem halts_exchange : ∃ flat f, Machine.exchange.flatten {} = .ok flat ∧ flat.toMachine = .ok f ∧
    Fitting Machine.exchange 2 exchangeInput ∧
    ∃ cells, (exchangeInput.map (·.escape 1)).encode 1 = .ok cells ∧
      ∃ n e, (Configuration.start f ⟨[cells], [0]⟩).run f.index n = (.halted, e) ∧
        Stops flat 1 2 ⟨"h", exchangeOutput, 1⟩ e ∧ f.isAccepting e.state = true := by
  obtain ⟨flat, f, hflat, hf⟩ := Compiled.toMachine_exchange
  obtain ⟨cells, hcode, hiff, hfinal⟩ :=
    halts_iff_source_halts Machine.exchange {} flat f 2 exchangeInput hflat hf rfl rfl rfl
      fitting_exchangeInput
  obtain ⟨n, hn⟩ := hiff.mpr ⟨2, by rw [run_exchange_two]⟩
  obtain ⟨hstops, haccept⟩ := hfinal n _ 2 _ (Prod.ext hn rfl) run_exchange_two
  exact ⟨flat, f, hflat, hf, fitting_exchangeInput, cells, hcode, n, _, Prod.ext hn rfl, hstops,
    haccept.trans (by decide)⟩

end OneTape.Simulation
