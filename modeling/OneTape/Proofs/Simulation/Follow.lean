import OneTape.Proofs.Simulation.Refinement
import OneTape.Simulation

/-!
# The two runs side by side

A one-tape machine, its states given by name, follows the run of its source machine: it is always on
its way through one simulated step. A step of it is silent, or enters the state of the next
configuration, or halts where the source machine halts. A machine that does not extend left ends
follows it as far as no head goes off the left end of its tape.

Results:
* `Follows.cases`: one step of the one-tape machine.
* `Follows.settles`: each simulated step ends.
-/

namespace OneTape

/-! ## Runs -/

namespace Configuration

variable {x : RuleIndex} {c d e : Configuration} {n j : Nat}

theorem run_of_running (h : c.step x = (.running, d)) (n : Nat) : c.run x (n + 1) = d.run x n := by
  rw [run, h]

theorem run_of_halted (h : c.step x = (.halted, d)) (n : Nat) : c.run x (n + 1) = (.halted, d) := by
  rw [run, h]

/-- A run that has made all of its steps makes one more. -/
theorem run_succ (h : c.run x n = (.running, d)) : c.run x (n + 1) = d.step x := by
  induction n generalizing c with
  | zero =>
    cases h
    rcases hs : d.step x with ⟨_ | _, d'⟩
    · rw [run_of_running hs, run]
    · rw [run_of_halted hs]
  | succ n ih =>
    rcases hs : c.step x with ⟨_ | _, c'⟩
    · rw [run_of_running hs] at h ⊢
      exact ih h
    · rw [run_of_halted hs] at h
      cases h

theorem run_add_of_halted (h : c.run x n = (.halted, d)) (j : Nat) :
    c.run x (n + j) = (.halted, d) := by
  induction n generalizing c with
  | zero => cases h
  | succ n ih =>
    rw [Nat.add_right_comm]
    rcases hs : c.step x with ⟨_ | _, c'⟩
    · rw [run_of_running hs] at h ⊢
      exact ih h
    · rw [run_of_halted hs] at h ⊢
      exact h

/-- A run halts in one configuration only. -/
theorem eq_of_run_halted (h : c.run x n = (.halted, d))
    (h' : c.run x j = (.halted, e)) : d = e := by
  have h := run_add_of_halted h j
  rw [Nat.add_comm, run_add_of_halted h' n] at h
  exact (congrArg Prod.snd h).symm

end Configuration

namespace Simulation

open Table Relation

/-! ## What is watched -/

/-- What is watched in the run of a one-tape machine made from a source machine. -/
def setup (m : Machine) (iteration : Nat) (f : Machine) : Setup :=
  ⟨f.index, m.stateNames.contains, iteration⟩

namespace Setup

/-- A step after which nothing is observed. -/
structure Silent (s : Setup) (e e' : Configuration) : Prop where
  step : e.step s.index = (.running, e')
  silent : (!s.isSource e.state && s.isSource e'.state) = false

/-- A step into a source state from outside. -/
structure Entry (s : Setup) (e e' : Configuration) : Prop where
  step : e.step s.index = (.running, e')
  entry : (!s.isSource e.state && s.isSource e'.state) = true

end Setup

/-- An observation shows a configuration of the source machine: its state, and its tapes and heads
with escaped symbols, up to blanks at the right ends. -/
structure Observation.Shows (iteration : Nat) (o : Observation) (d : Configuration) : Prop where
  state : o.state = d.state
  tapes : ∃ t, o.shown = .ok t ∧ t.normalized = (d.tapes.map (·.escape iteration)).normalized

/-- A one-tape machine has stopped where its source machine with `k` tapes has halted: in a
discovery state for the final state that lacks some heads, with the final tapes on the single
tape. -/
structure Stops (flat : FlatMachine) (iteration k : Nat) (d e : Configuration) : Prop where
  state : ∃ s ∈ flat.states, e.state = s.name ∧ s.phase = .discover ∧ s.heads.length < k ∧
    s.base = d.state
  tapes : ∃ t, Tapes.decode (cells e) iteration = .ok t ∧
    t.normalized = (d.tapes.map (·.escape iteration)).normalized

/-- A one-tape machine has stopped during the step from a configuration, in a state that places a
head. -/
def StopsShort (flat : FlatMachine) (d e : Configuration) : Prop :=
  ∃ s ∈ flat.states, e.state = s.name ∧ s.base = d.state ∧ ∃ i, s.phase = .active i

/-- In the first `n` steps of a run no head goes off the left end of its tape. -/
def Inside (m : Machine) (input : Tapes) (n : Nat) : Prop :=
  ∀ j d, j < n → (Configuration.start m input).run m.index j = (.running, d) → ¬ d.Leaves m

variable {m f : Machine} {flat : FlatMachine} {iteration k i : Nat} {left : Bool}
  {d e : Configuration} {x y : Instant} {strips : List Strip} {input : Tapes}

theorem Inside.mono {n n' : Nat} (h : Inside m input n) (hle : n' ≤ n) : Inside m input n' :=
  fun j d hj => h j d (Nat.lt_of_lt_of_le hj hle)

theorem Inside.succ {n : Nat} (h : Inside m input n)
    (hd : (Configuration.start m input).run m.index n = (.running, d)) (hno : ¬ d.Leaves m) :
    Inside m input (n + 1) := by
  intro j d' hj hd'
  rcases Nat.lt_succ_iff_lt_or_eq.mp hj with hlt | rfl
  · exact h j d' hlt hd'
  · obtain rfl : d = d' := congrArg Prod.snd (hd.symm.trans hd')
    exact hno

/-- What the layout of strips shows, also with blanks behind it. -/
theorem Shown.decode (h : Shown m iteration k d strips) (junk : List Symbol) :
    ∃ t, Tapes.decode (Strip.layout (m.alphabet iteration) strips ++ junk) iteration = .ok t ∧
      t.normalized = (d.tapes.map (·.escape iteration)).normalized := by
  have hproper : (m.alphabet iteration).Proper := Alphabet.proper_ofMachine_escape m iteration
  exact ⟨_, Strip.decode_layout hproper h.symbols junk, h.shows.normalized⟩

theorem Enters.shows (h : Enters m iteration k d x) (he : flat.Depicts e x) :
    ((setup m iteration f).observe e).Shows iteration d := by
  obtain ⟨strips, hshown, hx⟩ := h
  have hcells : cells e = Strip.layout (m.alphabet iteration) strips := by
    rw [cells, he.tapes]
    exact hx.cells
  refine ⟨?_, ?_⟩
  · change e.state = d.state
    rw [he.state, hx.state, Compiled.name_source]
  · obtain ⟨t, ht, hnormal⟩ := hshown.decode []
    rw [List.append_nil, ← hcells] at ht
    exact ⟨t, ht, hnormal⟩

/-! ## One step -/

/-- The source machine has come to a configuration after some steps, and the one-tape machine is on
its way through the simulated step from there. -/
structure Follows (m : Machine) (iteration : Nat) (left : Bool) (k : Nat) (flat : FlatMachine)
    (input : Tapes) (i : Nat) (d e : Configuration) : Prop where
  source : (Configuration.start m input).run m.index i = (.running, d)
  inside : left = true ∨ Inside m input i
  way : ∃ x, flat.Depicts e x ∧ OnTheWay m iteration left k d x

/-- The one-tape machine is at the end of a simulated step: it enters the next configuration, or
both machines halt, or the one-tape machine stops short. -/
inductive Settles (m : Machine) (iteration : Nat) (left : Bool) (k : Nat) (flat : FlatMachine)
    (f : Machine) (input : Tapes) (i : Nat) (d e : Configuration) : Prop
  | next {d' e' : Configuration} : d.step m.index = (.running, d') →
      (setup m iteration f).Entry e e' → Follows m iteration left k flat input (i + 1) d' e' →
      ((setup m iteration f).observe e').Shows iteration d' →
      Settles m iteration left k flat f input i d e
  | stop {d' e' : Configuration} : d.step m.index = (.halted, d') → e.step f.index = (.halted, e') →
      Stops flat iteration k d' e' → Settles m iteration left k flat f input i d e
  | off {e' : Configuration} : left = false → d.Leaves m → e.step f.index = (.halted, e') →
      StopsShort flat d e' → Settles m iteration left k flat f input i d e

/-- The machine with named states makes the steps of its table, and sees from the names whether a
source state is entered. -/
theorem step_of_walk (hc : Generated m iteration ⟨left, true⟩ k flat) (hn : flat.Named f)
    (he : flat.Depicts e x) {T : Nat → Row → Prop} (hT : ∀ n r, T n r → r ∈ flat.rows)
    (h : Walks T x y) :
    ∃ e' r, e.step f.index = (.running, e') ∧ flat.Depicts e' y ∧ T x.position r ∧
      (!m.stateNames.contains e.state && m.stateNames.contains e'.state) =
        (!r.state.isSource && r.next.isSource) := by
  obtain ⟨e', hstep, he'⟩ := hn.step_of_some he (h.step_eq (functional_of_nodup hc.nodup) hT)
  obtain ⟨r, hr, hdomain, rfl⟩ := h
  have hstate : r.state = x.state := congrArg Prod.fst hdomain
  refine ⟨e', r, hstep, he', hr, ?_⟩
  rw [he.state, he'.state, hc.contains_stateNames hn he.mem, hc.contains_stateNames hn he'.mem,
    hstate]
  rfl

/-- A step of the table between the ends of simulated steps is silent. -/
theorem silent_of_quiet (hc : Generated m iteration ⟨left, true⟩ k flat) (hn : flat.Named f)
    (he : flat.Depicts e x)
    (h : Walks (Quiet (m.alphabet iteration) left (m.escape iteration).rules) x y) :
    ∃ e', (setup m iteration f).Silent e e' ∧ flat.Depicts e' y := by
  obtain ⟨e', r, hstep, he', ⟨⟨rule, -, hemit⟩, hphase, -⟩, hentry⟩ :=
    step_of_walk hc hn he (fun _ r hr => (hc.mem_rows r).mpr hr.1) h
  refine ⟨e', ⟨hstep, hentry.trans ?_⟩, he'⟩
  cases hnext : r.next.isSource with
  | false => exact Bool.and_false _
  | true => rw [hemit.isSource_state hphase hnext]; rfl

/-- The step that ends a simulated step enters a source state. -/
theorem entry_of_turn (hc : Generated m iteration ⟨left, true⟩ k flat) (hn : flat.Named f)
    (he : flat.Depicts e x)
    (h : Walks (Turns (m.alphabet iteration) left (m.escape iteration).rules) x y) :
    ∃ e', (setup m iteration f).Entry e e' ∧ flat.Depicts e' y := by
  obtain ⟨e', r, hstep, he', ⟨⟨rule, -, hemit⟩, hphase, -⟩, hentry⟩ :=
    step_of_walk hc hn he (fun _ r hr => (hc.mem_rows r).mpr hr.1) h
  refine ⟨e', ⟨hstep, hentry.trans ?_⟩, he'⟩
  obtain ⟨c, -, rfl⟩ := hemit.of_complete hphase
  rfl

/-- Where no row applies the one-tape machine halts. -/
theorem step_of_stuck (hc : Generated m iteration ⟨left, true⟩ k flat) (hn : flat.Named f)
    (he : flat.Depicts e x) (h : Stuck (m.alphabet iteration) left (m.escape iteration).rules x) :
    e.step f.index =
      (.halted, ⟨e.state, ⟨[Tapes.padTo (x.position + 1) x.cells], [x.position]⟩, e.steps⟩) := by
  refine hn.step_of_none he (Option.map_eq_none_iff.mpr ?_)
  cases hrow : rowFor? flat.rows x.state x.symbol with
  | none => rfl
  | some r =>
    obtain ⟨hmem, hstate, hread⟩ := (rowFor?_eq_some hc.nodup).mp hrow
    obtain ⟨rule, hrule, hemit⟩ := (hc.mem_rows r).mp hmem
    exact absurd (Prod.ext hstate hread) (h rule hrule r hemit)

/-- What happens at the end of a simulated step. -/
theorem settles_of_ends (hc : Generated m iteration ⟨left, true⟩ k flat) (hn : flat.Named f)
    (hd : (Configuration.start m input).run m.index i = (.running, d))
    (hinside : left = true ∨ Inside m input i) (he : flat.Depicts e x)
    (h : Ends m iteration left k d x) : Settles m iteration left k flat f input i d e := by
  cases h with
  | next hroom hstep hturn henters =>
    obtain ⟨e', hentry, he'⟩ := entry_of_turn hc hn he hturn
    refine .next hstep hentry ⟨?_, ?_, _, he', henters.ends hc.wellFormed⟩ (henters.shows he')
    · rw [Configuration.run_succ hd, hstep]
    · exact hroom.elim .inl fun hno => hinside.imp_right fun h => h.succ hd hno
  | stop hstep hstuck hshown hcells hbase hphase hheads =>
    refine .stop hstep (step_of_stuck hc hn he hstuck)
      ⟨⟨_, he.mem, he.state, hphase, hheads, hbase⟩, ?_⟩
    obtain ⟨t, ht, hnormal⟩ :=
      hshown.decode (List.replicate (x.position + 1 - x.cells.length) Symbol.blank)
    rw [← hcells] at ht
    exact ⟨t, ht, hnormal⟩
  | off hleft hleaves hstuck hbase hphase =>
    exact .off hleft hleaves (step_of_stuck hc hn he hstuck) ⟨_, he.mem, he.state, hbase, _, hphase⟩

namespace Follows

/-- **One step of the one-tape machine** is silent, or ends a simulated step. -/
theorem cases (hc : Generated m iteration ⟨left, true⟩ k flat) (hn : flat.Named f)
    (h : Follows m iteration left k flat input i d e) :
    (∃ e', (setup m iteration f).Silent e e' ∧ Follows m iteration left k flat input i d e') ∨
      Settles m iteration left k flat f input i d e := by
  obtain ⟨x, he, hway⟩ := h.way
  rcases hway.cases with hends | ⟨y, hquiet, hway⟩
  · exact .inr (settles_of_ends hc hn h.source h.inside he hends)
  · obtain ⟨e', hsilent, he'⟩ := silent_of_quiet hc hn he hquiet
    exact .inl ⟨e', hsilent, h.source, h.inside, y, he', hway⟩

/-- **Each simulated step ends**, after silent steps. -/
theorem settles (hc : Generated m iteration ⟨left, true⟩ k flat) (hn : flat.Named f)
    (h : Follows m iteration left k flat input i d e) :
    ∃ e', ReflTransGen (setup m iteration f).Silent e e' ∧
      Settles m iteration left k flat f input i d e' := by
  obtain ⟨hd, hinside, x, he, z, hz, hends⟩ := h
  induction hz using ReflTransGen.head_induction_on generalizing e with
  | refl => exact ⟨e, .refl, settles_of_ends hc hn hd hinside he hends⟩
  | head hquiet _ ih =>
    obtain ⟨e₁, hsilent, he₁⟩ := silent_of_quiet hc hn he hquiet
    obtain ⟨e', hpath, hsettles⟩ := ih he₁
    exact ⟨e', .head hsilent hpath, hsettles⟩

end Follows

/-- The two runs start side by side. -/
theorem follows_start (hc : Generated m iteration ⟨left, true⟩ k flat) (hn : flat.Named f)
    (hi : Fitting m k input) :
    ∃ cells, (input.map (·.escape iteration)).encode iteration = .ok cells ∧
      Follows m iteration left k flat input 0 (Configuration.start m input)
        (Configuration.start f ⟨[cells], [0]⟩) ∧
      ((setup m iteration f).observe (Configuration.start f ⟨[cells], [0]⟩)).Shows iteration
        (Configuration.start m input) := by
  obtain ⟨cells, hcode, henters⟩ := enters_start hc.wellFormed iteration hi
  have he := hn.depicts_start cells
  rw [hc.initial] at he
  exact ⟨cells, hcode, ⟨rfl, .inr nofun, _, he, henters.ends hc.wellFormed⟩, henters.shows he⟩

/-! ## A short run -/

/-- What the machine over reserved symbols makes of its input. -/
def exchangeOutput : Tapes :=
  ⟨[[Symbol.blank, Symbol.returnMark], [Symbol.blank, Symbol.blank, Symbol.tapeEnd, Symbol.blank]],
    [0, 3]⟩

theorem run_exchange_one :
    (Configuration.start Machine.exchange exchangeInput).run Machine.exchange.index 1 =
      (.running, ⟨"h", exchangeOutput, 1⟩) := by
  rw [Configuration.run_succ rfl,
    Configuration.step_of_rule Machine.wellFormed_exchange.functional List.mem_cons_self rfl
      (by decide)]
  rfl

theorem run_exchange_two :
    (Configuration.start Machine.exchange exchangeInput).run Machine.exchange.index 2 =
      (.halted, ⟨"h", exchangeOutput, 1⟩) := by
  rw [Configuration.run_succ run_exchange_one,
    Configuration.step_of_no_rule Machine.wellFormed_exchange.functional (by decide)]
  rfl

end Simulation
end OneTape
