import OneTape.Proofs.Simulation.Follow

/-!
# What is observed in a run

`Simulation.watch` records the moments at which the one-tape machine enters a source state. These
moments are the configurations of the source machine, one after the other.

Results:
* `follows_continue`: what is observed shows the run of the source machine.
* `exists_follows`: the one-tape machine comes to follow each configuration of that run.
* `exists_limit`: each configuration of that run is observed in the end.
* `watch_shows_run`: both together.
-/

namespace OneTape

theorem Configuration.exists_of_run_succ {x : RuleIndex} {c d' : Configuration} {n : Nat}
    (h : c.run x (n + 1) = (.running, d')) :
    ∃ d, c.run x n = (.running, d) ∧ d.step x = (.running, d') := by
  rcases hr : c.run x n with ⟨_ | _, d⟩
  · exact ⟨d, rfl, (Configuration.run_succ hr).symm.trans h⟩
  · cases (Configuration.run_add_of_halted hr 1).symm.trans h

namespace Simulation

open Relation

/-! ## Watching step by step -/

namespace Setup

variable {s : Setup} {entries : Nat} {observed : List Observation} {e e' : Configuration}

theorem continue_silent (h : s.Silent e e') (hlt : observed.length < entries) (n : Nat) :
    s.continue entries (n + 1) observed e = s.continue entries n observed e' := by
  rw [Setup.continue, if_pos hlt, h.step]
  simp only [h.silent, Bool.false_eq_true, if_false]

theorem continue_entry (h : s.Entry e e') (hlt : observed.length < entries) (n : Nat) :
    s.continue entries (n + 1) observed e = s.continue entries n (s.observe e' :: observed) e' := by
  rw [Setup.continue, if_pos hlt, h.step]
  simp only [h.entry, if_true]

theorem continue_halted (h : e.step s.index = (.halted, e')) (hlt : observed.length < entries)
    (n : Nat) :
    s.continue entries (n + 1) observed e = ⟨observed.reverse, .halted, e'⟩ := by
  rw [Setup.continue, if_pos hlt, h]

theorem continue_full (h : ¬ observed.length < entries) (n : Nat) :
    s.continue entries n observed e = ⟨observed.reverse, .running, e⟩ := by
  cases n with
  | zero => rfl
  | succ n => rw [Setup.continue, if_neg h]

/-- Nothing is observed on a silent path. -/
theorem continue_path (h : ReflTransGen s.Silent e e') :
    ∃ t, ∀ entries n observed, observed.length < entries →
      s.continue entries (n + t) observed e = s.continue entries n observed e' := by
  induction h using ReflTransGen.head_induction_on with
  | refl => exact ⟨0, fun _ _ _ _ => rfl⟩
  | head hstep _ ih =>
    obtain ⟨t, ht⟩ := ih
    exact ⟨t + 1, fun entries n observed hlt =>
      (continue_silent hstep hlt (n + t)).trans (ht entries n observed hlt)⟩

/-- Observations are never taken back. -/
theorem length_le_continue (s : Setup) (entries n : Nat) (observed : List Observation)
    (e : Configuration) : observed.length ≤ (s.continue entries n observed e).observed.length := by
  induction n generalizing observed e with
  | zero => simp [Setup.continue]
  | succ n ih =>
    rw [Setup.continue]
    split_ifs with hlt
    · split
      · simp
      · split_ifs
        · exact Nat.le_trans (Nat.le_succ _) (ih (s.observe _ :: observed) _)
        · exact ih observed _
    · simp

end Setup

/-! ## Observations against the source run -/

/-- Observations show the first configurations of a run of the source machine, in order. -/
def Faithful (m : Machine) (iteration : Nat) (input : Tapes) (observed : List Observation) : Prop :=
  ∀ n o, observed[n]? = some o →
    ∃ d, (Configuration.start m input).run m.index n = (.running, d) ∧ o.Shows iteration d

variable {m f : Machine} {flat : FlatMachine} {iteration k i : Nat} {left : Bool}
  {d e : Configuration} {input : Tapes} {observed : List Observation} {o : Observation}

theorem Faithful.concat (h : Faithful m iteration input observed)
    (hd : (Configuration.start m input).run m.index observed.length = (.running, d))
    (ho : o.Shows iteration d) : Faithful m iteration input (observed ++ [o]) := by
  intro n o' hn
  rcases Nat.lt_or_ge n observed.length with hlt | hge
  · rw [List.getElem?_append_left hlt] at hn
    exact h n o' hn
  · rw [List.getElem?_append_right hge] at hn
    obtain ⟨hzero, rfl⟩ : n - observed.length = 0 ∧ o = o' := by
      rw [List.getElem?_singleton] at hn
      simpa using hn
    obtain rfl : n = observed.length := by omega
    exact ⟨d, hd, ho⟩

/-- **What is observed shows the run of the source machine**, as far as the one-tape machine follows
it. The invariant is that the one-tape machine follows the configuration observed last. -/
theorem follows_continue (hc : Generated m iteration ⟨left, true⟩ k flat) (hn : flat.Named f)
    (entries n : Nat) (h : Follows m iteration left k flat input i d e)
    (hlen : observed.length = i + 1) (hobs : Faithful m iteration input observed.reverse) :
    Faithful m iteration input ((setup m iteration f).continue entries n observed e).observed ∧
      ∃ i' d' e', ((setup m iteration f).continue entries n observed e).observed.length = i' + 1 ∧
        Follows m iteration left k flat input i' d' e' := by
  induction n generalizing i d e observed with
  | zero => exact ⟨hobs, i, d, e, by rw [Setup.continue, List.length_reverse, hlen], h⟩
  | succ n ih =>
    have hend : observed.reverse.length = i + 1 := by rw [List.length_reverse, hlen]
    by_cases hlt : observed.length < entries
    · rcases h.cases hc hn with ⟨e', hsilent, h'⟩ | hsettles
      · rw [Setup.continue_silent hsilent hlt]
        exact ih h' hlen hobs
      · cases hsettles with
        | next _ hentry h' hshows =>
          rw [Setup.continue_entry hentry hlt]
          refine ih h' (by rw [List.length_cons, hlen]) ?_
          rw [List.reverse_cons]
          refine hobs.concat ?_ hshows
          rw [hend]
          exact h'.source
        | stop _ hhalt _ | off _ _ hhalt _ =>
          rw [Setup.continue_halted hhalt hlt]
          exact ⟨hobs, i, d, e, hend, h⟩
    · rw [Setup.continue_full hlt]
      exact ⟨hobs, i, d, e, hend, h⟩

theorem faithful_continue (hc : Generated m iteration ⟨left, true⟩ k flat) (hn : flat.Named f)
    (entries n : Nat) (h : Follows m iteration left k flat input i d e)
    (hlen : observed.length = i + 1) (hobs : Faithful m iteration input observed.reverse) :
    Faithful m iteration input ((setup m iteration f).continue entries n observed e).observed :=
  (follows_continue hc hn entries n h hlen hobs).1

/-- The one-tape machine comes to follow any configuration of the source run, with an observation
for each configuration up to it. If it does not extend left ends, no head may go off the left end of
its tape on the way there. -/
theorem exists_follows (hc : Generated m iteration ⟨left, true⟩ k flat) (hn : flat.Named f)
    (h : Follows m iteration left k flat input 0 (Configuration.start m input) e) {n : Nat}
    (hd : (Configuration.start m input).run m.index n = (.running, d))
    (hinside : left = true ∨ Inside m input n) (o : Observation) :
    ∃ t observed e', observed.length = n + 1 ∧ Follows m iteration left k flat input n d e' ∧
      ∀ entries fuel, n < entries →
        (setup m iteration f).continue entries (fuel + t) [o] e =
          (setup m iteration f).continue entries fuel observed e' := by
  induction n generalizing d with
  | zero =>
    cases hd
    exact ⟨0, [o], e, rfl, h, fun _ _ _ => rfl⟩
  | succ n ih =>
    obtain ⟨d₁, hd₁, hstep⟩ := Configuration.exists_of_run_succ hd
    have hbefore := hinside.imp_right fun h => h.mono (Nat.le_succ n)
    obtain ⟨t, observed, e₁, hlen, h₁, hcont⟩ := ih hd₁ hbefore
    obtain ⟨e₂, hpath, hsettles⟩ := h₁.settles hc hn
    cases hsettles with
    | @next d' e' hstep' hentry h' _ =>
      obtain rfl : d = d' := congrArg Prod.snd (hstep.symm.trans hstep')
      obtain ⟨j, hj⟩ := Setup.continue_path hpath
      refine ⟨1 + j + t, (setup m iteration f).observe e' :: observed, e',
        by rw [List.length_cons, hlen], h', fun entries fuel hlt => ?_⟩
      have hlt' : observed.length < entries := by omega
      rw [← Nat.add_assoc, ← Nat.add_assoc, hcont entries _ (by omega), hj entries _ observed hlt',
        Setup.continue_entry hentry hlt']
    | stop hstep' _ _ => cases hstep.symm.trans hstep'
    | off hleft hleaves =>
      rcases hinside with htrue | hinside
      · cases hleft.symm.trans htrue
      · exact absurd hleaves (hinside n d₁ (Nat.lt_succ_self n) hd₁)

/-- Each configuration that the one-tape machine comes to follow is observed in the end. -/
theorem exists_limit_of_inside (hc : Generated m iteration ⟨left, true⟩ k flat) (hn : flat.Named f)
    (h : Follows m iteration left k flat input 0 (Configuration.start m input) e) {n : Nat}
    (hd : (Configuration.start m input).run m.index n = (.running, d))
    (hinside : left = true ∨ Inside m input n) (o : Observation) :
    ∃ limit, ∀ entries steps, n < entries → limit ≤ steps →
      n < ((setup m iteration f).continue entries steps [o] e).observed.length := by
  obtain ⟨t, observed, e', hlen, -, hcont⟩ := exists_follows hc hn h hd hinside o
  refine ⟨t, fun entries steps hlt hle => ?_⟩
  have hmono := (setup m iteration f).length_le_continue entries (steps - t) observed e'
  rw [← hcont entries _ hlt, Nat.sub_add_cancel hle] at hmono
  omega

/-- **Each configuration of the source run is observed in the end**, if left ends are extended. -/
theorem exists_limit (hc : Compiled m iteration k flat) (hn : flat.Named f)
    (h : Follows m iteration true k flat input 0 (Configuration.start m input) e) {n : Nat}
    (hd : (Configuration.start m input).run m.index n = (.running, d)) (o : Observation) :
    ∃ limit, ∀ entries steps, n < entries → limit ≤ steps →
      n < ((setup m iteration f).continue entries steps [o] e).observed.length :=
  exists_limit_of_inside hc hn h hd (.inl rfl) o

/-! ## Watching a compiled machine -/

/-- What `watch` does when the machine is compiled and named. -/
theorem watch_eq {c : Config} (hflat : m.flatten c = .ok flat) (hf : flat.toMachine = .ok f)
    {cells : List Symbol}
    (hcode : (input.map (·.escape c.iteration)).encode c.iteration = .ok cells)
    (entries steps : Nat) :
    watch m c input entries steps = .ok (f, (setup m c.iteration f).watch entries steps
      (Configuration.start f ⟨[cells], [0]⟩)) := by
  obtain ⟨p, hp, hflat⟩ := except_bind_eq_ok_iff.mp hflat
  obtain ⟨k, -, -, rfl, -⟩ := Plan.prepare_eq_ok hp
  have hescape : (Plan.ofMachine m c k).escape = (·.escape c.iteration) := rfl
  simp only [watch, prepare, hp, except_ok_bind, hflat, hf, hescape, hcode]
  rfl

/-- **The moments at which the one-tape machine enters source states are the configurations of the
source machine**, one to one and in order. Whatever is observed shows the configuration of that
number, and every configuration that the source machine comes to is observed if the run is watched
for long enough. -/
theorem watch_shows_run (m : Machine) (c : Config) (flat : FlatMachine) (f : Machine) (k : Nat)
    (input : Tapes) (hflat : m.flatten c = .ok flat) (hf : flat.toMachine = .ok f)
    (hplaceholder : c.placeholder = none) (hsafety : c.safety = ⟨true, true⟩)
    (hk : m.tapeCount? = some k) (hinput : Fitting m k input) :
    (∀ entries steps, ∃ w, watch m c input entries steps = .ok (f, w) ∧
      ∀ n o, w.observed[n]? = some o →
        ∃ d, (Configuration.start m input).run m.index n = (.running, d) ∧ o.Shows c.iteration d) ∧
    ∀ n d, (Configuration.start m input).run m.index n = (.running, d) →
      ∃ limit, ∀ entries steps, n < entries → limit ≤ steps →
        ∃ w o, watch m c input entries steps = .ok (f, w) ∧ w.observed[n]? = some o ∧
          o.Shows c.iteration d := by
  obtain ⟨k', hc⟩ := Compiled.of_flatten hflat hplaceholder hsafety
  obtain rfl : k' = k := Option.some.inj (hc.wellFormed.tapeCount.symm.trans hk)
  have hn := FlatMachine.named_of_toMachine hc.nodup hf
  obtain ⟨cells, hcode, hfollows, hshows⟩ := follows_start hc hn hinput
  have hstart : (setup m c.iteration f).isSource f.initial = true := by
    change m.stateNames.contains f.initial = true
    rw [hn.initial, hc.initial, Compiled.name_source]
    simp [Machine.stateNames]
  have hwatch : ∀ entries steps, watch m c input entries steps = .ok (f,
      (setup m c.iteration f).continue entries steps
        [(setup m c.iteration f).observe (Configuration.start f ⟨[cells], [0]⟩)]
        (Configuration.start f ⟨[cells], [0]⟩)) := by
    intro entries steps
    rw [watch_eq hflat hf hcode, Setup.watch]
    simp only [Configuration.start, hstart, if_true, Nat.sub_zero]
  have hfaithful : ∀ entries steps, Faithful m c.iteration input
      ((setup m c.iteration f).continue entries steps
        [(setup m c.iteration f).observe (Configuration.start f ⟨[cells], [0]⟩)]
        (Configuration.start f ⟨[cells], [0]⟩)).observed := by
    intro entries steps
    have hnil : Faithful m c.iteration input [] := by simp [Faithful]
    exact faithful_continue hc hn entries steps hfollows rfl (hnil.concat rfl hshows)
  refine ⟨fun entries steps => ⟨_, hwatch entries steps, hfaithful entries steps⟩, fun n d hd => ?_⟩
  obtain ⟨limit, hlimit⟩ := exists_limit hc hn hfollows hd
    ((setup m c.iteration f).observe (Configuration.start f ⟨[cells], [0]⟩))
  refine ⟨limit, fun entries steps hlt hle => ⟨_, _, hwatch entries steps,
    List.getElem?_eq_getElem (hlimit entries steps hlt hle), ?_⟩⟩
  obtain ⟨d', hd', ho⟩ := hfaithful entries steps n _
    (List.getElem?_eq_getElem (hlimit entries steps hlt hle))
  obtain rfl : d = d' := congrArg Prod.snd (hd.symm.trans hd')
  exact ho

/-- The machine over reserved symbols makes one step, and its two configurations are observed: the
second one with a cell in front of the first tape and new cells behind the second. -/
theorem watch_shows_exchange :
    ∃ flat f, Machine.exchange.flatten {} = .ok flat ∧ flat.toMachine = .ok f ∧
    Fitting Machine.exchange 2 exchangeInput ∧
    ∃ limit, ∀ entries steps, 1 < entries → limit ≤ steps →
      ∃ w o, watch Machine.exchange {} exchangeInput entries steps = .ok (f, w) ∧
        w.observed[1]? = some o ∧ o.Shows 1 ⟨"h", exchangeOutput, 1⟩ := by
  obtain ⟨flat, f, hflat, hf⟩ := Compiled.toMachine_exchange
  obtain ⟨-, hobserved⟩ := watch_shows_run Machine.exchange {} flat f 2 exchangeInput hflat hf
    rfl rfl rfl fitting_exchangeInput
  exact ⟨flat, f, hflat, hf, fitting_exchangeInput, hobserved 1 _ run_exchange_one⟩

end Simulation
end OneTape
