import OneTape.Proofs.Compiled
import OneTape.Proofs.Simulation.Step

/-!
# Source configurations on the single tape

A configuration of a source machine is shown by strips on the single tape. When the one-tape machine
enters the state of a configuration with its strips on the tape, it goes through one simulated step:
it comes to the end of the round and enters the next configuration, or it stops where the source
machine halts. A table without extensions at left ends also stops where a head of the source machine
goes off the left end of its tape.

Results:
* `Enters.ends`: one simulated step, from `Enters.next`, `Enters.stop` and `Enters.off`.
* `enters_start`: the layout of an input shows the start of a run.
-/

namespace OneTape

namespace Strip

variable {iteration : Nat} {a : Alphabet} {strips : List Strip} {tapes : List (List Symbol)}
  {heads : List Nat}

/-- Strips that show tapes show them with the cells under the heads materialised. -/
theorem ShowsAll.settle (h : ShowsAll iteration strips tapes heads) :
    ShowsAll iteration strips (Tapes.settleCells tapes heads) heads := by
  induction h with
  | nil => exact .nil
  | cons hs _ ih =>
    refine .cons ⟨hs.head, fun j => ?_⟩ ih
    rw [Tapes.cellAt_padTo, hs.cellAt]

/-- A head at the left end of its tape is shown at the left end of its strip. -/
theorem ShowsAll.leaving_iff (h : ShowsAll iteration strips tapes heads) {moves : List Direction} :
    Table.Leaving moves strips ↔ ∃ i : Nat, heads[i]? = some 0 ∧ moves[i]? = some .left := by
  have hheads : heads = strips.map Strip.head := by
    induction h with
    | nil => rfl
    | cons hs _ ih => rw [List.map_cons, ← ih, hs.head]
  subst hheads
  simp only [List.getElem?_map, Option.map_eq_some_iff]
  constructor
  · rintro ⟨i, s, d, hs, hd, rfl, hbefore⟩
    exact ⟨i, ⟨s, hs, List.length_eq_zero_iff.mpr hbefore⟩, hd⟩
  · rintro ⟨i, ⟨s, hs, hzero⟩, hd⟩
    exact ⟨i, s, .left, hs, hd, rfl, List.length_eq_zero_iff.mp hzero⟩

theorem length_actAll {actions : List (Symbol × Direction)} (h : actions.length = strips.length) :
    (actAll actions strips).length = strips.length := by
  simp [actAll, h]

theorem over_actAll (ha : a.Proper) {actions : List (Symbol × Direction)}
    (hw : ∀ p ∈ actions, p.1 ∈ a.symbols) (hs : ∀ s ∈ strips, s.Over a) :
    ∀ s ∈ actAll actions strips, s.Over a := by
  induction strips generalizing actions with
  | nil => simp [actAll_nil]
  | cons s strips ih =>
    cases actions with
    | nil => simp [actAll]
    | cons p actions =>
      intro t ht
      rcases List.mem_cons.mp ht with rfl | ht
      · exact (hs s (by simp)).act ha (hw p (by simp)) p.2
      · exact ih (fun p hp => hw p (List.mem_cons_of_mem _ hp))
          (fun s hs' => hs s (List.mem_cons_of_mem _ hs')) t ht

/-- The actions of a rule with escaped symbols. -/
theorem actAll_escape (writes : List Symbol) (moves : List Direction) (strips : List Strip) :
    actAll ((writes.map (·.escape iteration)).zip moves) strips =
      List.zipWith (fun p s => s.act (p.1.escape iteration) p.2) (writes.zip moves) strips := by
  simp [actAll, List.zip_map_left, List.zipWith_map_left]

end Strip

/-- The source machine makes a step in which a head at the left end of its tape goes left. -/
def Configuration.Leaves (m : Machine) (d : Configuration) : Prop :=
  ∃ r ∈ m.rules, r.state = d.state ∧ r.read = d.tapes.settle.underHeads ∧
    ∃ i : Nat, d.tapes.heads[i]? = some 0 ∧ r.moves[i]? = some .left

namespace Simulation

open Table Instant Relation

variable {m : Machine} {iteration k : Nat} {left : Bool} {d : Configuration} {x z : Instant}
  {strips : List Strip}

/-- Strips show the tapes of a configuration. -/
structure Shown (m : Machine) (iteration k : Nat) (d : Configuration)
    (strips : List Strip) : Prop where
  length : strips.length = k
  symbols : ∀ s ∈ strips, s.Over (m.alphabet iteration)
  shows : Strip.ShowsAll iteration strips d.tapes.tapes d.tapes.heads

/-- The one-tape machine enters the state of a configuration, with its tapes on the single tape. -/
def Enters (m : Machine) (iteration k : Nat) (d : Configuration) (x : Instant) : Prop :=
  ∃ strips, Shown m iteration k d strips ∧ Entered (m.alphabet iteration) d.state strips x

/-- The rows of some rules that end a simulated step. -/
def Turns (a : Alphabet) (left : Bool) (rules : List Rule) (n : Nat) (r : Row) : Prop :=
  (∃ rule ∈ rules, Emits a ⟨left, true⟩ rule r) ∧ r.state.phase = .complete ∧
    (n = 0 → r.write = Symbol.boundary ∧ r.move ≠ .left)

/-- The one-tape machine is at the end of a simulated step: it is about to enter the configuration
that follows, or has stopped since the source machine halts, or has stopped on an edge since it does
not extend left ends. -/
inductive Ends (m : Machine) (iteration : Nat) (left : Bool) (k : Nat) (d : Configuration)
    (z : Instant) : Prop
  | next {d' : Configuration} {y : Instant} : left = true ∨ ¬ d.Leaves m →
      d.step m.index = (.running, d') →
      Walks (Turns (m.alphabet iteration) left (m.escape iteration).rules) z y →
      Enters m iteration k d' y → Ends m iteration left k d z
  | stop {d' : Configuration} {strips : List Strip} : d.step m.index = (.halted, d') →
      Stuck (m.alphabet iteration) left (m.escape iteration).rules z →
      Shown m iteration k d' strips → z.cells = Strip.layout (m.alphabet iteration) strips →
      z.state.base = d'.state → z.state.phase = .discover → z.state.heads.length < k →
      Ends m iteration left k d z
  | off {i : Nat} : left = false → d.Leaves m →
      Stuck (m.alphabet iteration) left (m.escape iteration).rules z →
      z.state.base = d.state → z.state.phase = .active i → Ends m iteration left k d z

/-- The one-tape machine is on its way through the simulated step from a configuration. -/
def OnTheWay (m : Machine) (iteration : Nat) (left : Bool) (k : Nat) (d : Configuration)
    (x : Instant) : Prop :=
  ∃ z, ReflTransGen (Walks (Quiet (m.alphabet iteration) left (m.escape iteration).rules)) x z ∧
    Ends m iteration left k d z

theorem OnTheWay.cases (h : OnTheWay m iteration left k d x) : Ends m iteration left k d x ∨
    ∃ y, Walks (Quiet (m.alphabet iteration) left (m.escape iteration).rules) x y ∧
      OnTheWay m iteration left k d y := by
  obtain ⟨z, hz, hend⟩ := h
  rcases hz.cases_head with rfl | ⟨y, hxy, hyz⟩
  · exact .inl hend
  · exact .inr ⟨y, hxy, z, hyz, hend⟩

/-! ## One simulated step -/

/-- When all heads are served, the machine enters the next state. -/
theorem turn_of_completed {a : Alphabet} {rules : List Rule} {rule : Rule} (hrule : rule ∈ rules)
    (h : Completed a rule strips [Symbol.tapeEnd] z) :
    ∃ y, Walks (Turns a left rules) z y ∧ Entered a rule.next strips y := by
  obtain ⟨u, c, v, rfl, hc, hcells, s, rest, hs, hlen⟩ := h
  refine ⟨ahead (State.source rule.next) u (c :: v), Walks.stay ?_, rfl, hcells, s, rest, hs, hlen⟩
  refine ⟨⟨rule, hrule, .execute (.cycle hc) fun _ => overwritesEdge_of_write_eq rfl⟩, rfl,
    fun hu => ?_⟩
  obtain rfl := List.length_eq_zero_iff.mp hu
  obtain ⟨rfl, -⟩ := List.cons.inj hcells
  exact ⟨rfl, nofun⟩

/-- A step with a rule is simulated, unless it leads a head off the left end of its tape and left
ends are not extended. -/
theorem Enters.next (hm : m.WellFormed k) (h : Enters m iteration k d x) {r : Rule}
    (hr : r ∈ m.rules) (hstate : r.state = d.state) (hunder : r.read = d.tapes.settle.underHeads)
    (hroom : left = true ∨ ¬ d.Leaves m) : OnTheWay m iteration left k d x := by
  obtain ⟨strips, ⟨hlength, hover, hshows⟩, hx⟩ := h
  have hf : Fits (m.alphabet iteration) (m.escape iteration).rules k :=
    Plan.fits_of_wellFormed hm iteration
  have hmem : r.escape iteration ∈ (m.escape iteration).rules := List.mem_map_of_mem hr
  have hread : strips.map Strip.read = (r.escape iteration).read := by
    rw [hshows.read, Rule.escape, hunder]
  have hinside : left = true ∨ ¬ Leaving (r.escape iteration).moves strips :=
    hroom.imp_right fun h hleaving => h ⟨r, hr, hstate, hunder, hshows.leaving_iff.mp hleaving⟩
  obtain ⟨z, hz, hdone⟩ := round_of_rule hf hx hmem hstate hover hread hinside
  obtain ⟨y, hy, hentered⟩ := turn_of_completed hmem hdone
  obtain ⟨-, hwrite, hmoves⟩ := hm.lengths r hr
  have hactions : (r.write.zip r.moves).length = strips.length := by
    rw [List.length_zip]
    omega
  have hstep := Configuration.step_of_rule hm.functional hr hstate hunder
  refine ⟨z, hz, .next hroom hstep hy ⟨_, ⟨?_, ?_, ?_⟩, hentered⟩⟩
  · rw [Strip.length_actAll (by simpa [Rule.escape] using hactions), hlength]
  · refine Strip.over_actAll hf.proper (fun p hp => ?_) hover
    exact hf.symbols _ hmem _ (List.mem_append_right _ (List.of_mem_zip hp).1)
  · have := hshows.act hactions
    rwa [← Strip.actAll_escape] at this

/-- Where the source machine has no rule, the one-tape machine stops. -/
theorem Enters.stop (hm : m.WellFormed k) (h : Enters m iteration k d x)
    (hno : ∀ r ∈ m.rules, r.state = d.state → r.read ≠ d.tapes.settle.underHeads) :
    OnTheWay m iteration left k d x := by
  obtain ⟨strips, ⟨hlength, hover, hshows⟩, hx⟩ := h
  have hf : Fits (m.alphabet iteration) (m.escape iteration).rules k :=
    Plan.fits_of_wellFormed hm iteration
  have hread : strips.map Strip.read = d.tapes.settle.underHeads.map (·.escape iteration) :=
    hshows.read
  obtain ⟨z, hz, hstuck, hcells, hbase, hphase, hheads⟩ := stop_of_no_rule hf hx hlength hover (by
    intro rule hrule hstate hrd
    obtain ⟨r, hr, rfl⟩ := List.mem_map.mp hrule
    exact hno r hr hstate (Machine.map_escape_injective (hrd.trans hread)))
  exact ⟨z, hz, .stop (Configuration.step_of_no_rule hm.functional hno) hstuck
    ⟨hlength, hover, hshows.settle⟩ (hcells.trans hx.cells) hbase hphase hheads⟩

/-- Where a head goes off the left end of its tape, a machine that does not extend left ends
stops. -/
theorem Enters.off (hm : m.WellFormed k) (h : Enters m iteration k d x) (hleaves : d.Leaves m) :
    OnTheWay m iteration false k d x := by
  obtain ⟨strips, ⟨-, hover, hshows⟩, hx⟩ := h
  have hf : Fits (m.alphabet iteration) (m.escape iteration).rules k :=
    Plan.fits_of_wellFormed hm iteration
  obtain ⟨r, hr, hstate, hunder, hmoves⟩ := id hleaves
  have hmem : r.escape iteration ∈ (m.escape iteration).rules := List.mem_map_of_mem hr
  have hread : strips.map Strip.read = (r.escape iteration).read := by
    rw [hshows.read, Rule.escape, hunder]
  obtain ⟨z, hz, hblocked⟩ :=
    leave_of_rule hf hx hmem hstate hover hread (hshows.leaving_iff.mpr hmoves)
  have hstuck := stuck_of_blocked hf hmem hblocked
  obtain ⟨i, _, _, -, hactive, -⟩ := hblocked
  refine ⟨z, hz, .off rfl hleaves hstuck ?_ (congrArg State.phase hactive)⟩
  rw [hactive]
  exact hstate

/-- **One simulated step.** A machine that enters the state of a configuration comes to the end of
the step that the source machine makes there. -/
theorem Enters.ends (hm : m.WellFormed k) (h : Enters m iteration k d x) :
    OnTheWay m iteration left k d x := by
  by_cases hrule : ∃ r ∈ m.rules, r.state = d.state ∧ r.read = d.tapes.settle.underHeads
  · obtain ⟨r, hr, hstate, hunder⟩ := hrule
    by_cases hroom : left = true ∨ ¬ d.Leaves m
    · exact h.next hm hr hstate hunder hroom
    · obtain ⟨hleft, hleaves⟩ := not_or.mp hroom
      rw [Bool.eq_false_iff.mpr hleft]
      exact h.off hm (not_not.mp hleaves)
  · exact h.stop hm fun r hr hstate hunder => hrule ⟨r, hr, hstate, hunder⟩

/-! ## The start of a run -/

/-- An input for a machine: a tape and a head for each tape of its rules, over its symbols and the
blank. -/
structure Fitting (m : Machine) (k : Nat) (input : Tapes) : Prop where
  tapes : input.tapes.length = k
  heads : input.heads.length = k
  symbols : ∀ tape ∈ input.tapes, ∀ s ∈ tape, s = Symbol.blank ∨ s ∈ m.symbols

/-- **The layout of an input shows the start of a run.** -/
theorem enters_start (hm : m.WellFormed k) (iteration : Nat) {input : Tapes}
    (hi : Fitting m k input) :
    ∃ cells, (input.map (·.escape iteration)).encode iteration = .ok cells ∧
      Enters m iteration k (Configuration.start m input) ⟨State.source m.initial, cells, 0⟩ := by
  obtain ⟨tapes, heads⟩ := input
  obtain ⟨htapes, hheads, hsymbols⟩ := hi
  dsimp only at htapes hheads hsymbols
  have hne : tapes ≠ [] := by
    rintro rfl
    exact absurd htapes.symm (Nat.ne_of_gt hm.tapes_pos)
  have hcode := Strip.encode_eq_layout (a := m.alphabet iteration) hne (htapes.trans hheads.symm)
  have hlength :
      (List.zipWith Strip.ofTape (tapes.map (List.map (·.escape iteration))) heads).length = k := by
    simp [htapes, hheads]
  have hproper : (m.alphabet iteration).Proper := Alphabet.proper_ofMachine_escape m iteration
  refine ⟨_, hcode, _, ⟨hlength, ?_, Strip.showsAll_ofTape (htapes.trans hheads.symm)⟩, rfl,
    rfl, ?_⟩
  · intro s hs
    rw [← List.map_uncurry_zip_eq_zipWith] at hs
    obtain ⟨⟨tape, head⟩, hzip, rfl⟩ := List.mem_map.mp hs
    obtain ⟨t, ht, rfl⟩ := List.mem_map.mp (List.of_mem_zip hzip).1
    refine Strip.over_ofTape hproper (fun c hc => ?_) head
    obtain ⟨x, hx, rfl⟩ := List.mem_map.mp hc
    refine Alphabet.mem_symbols_ofMachine.mpr ?_
    rcases hsymbols t ht x hx with rfl | hx
    · exact .inl (Symbol.escape_blank iteration)
    · exact .inr (Alphabet.mem_symbols_escape.mpr ⟨x, hx, rfl⟩)
  · obtain ⟨s, rest, hs⟩ := List.exists_cons_of_length_pos (hlength ▸ hm.tapes_pos)
    exact ⟨s, rest, hs, Nat.zero_le _⟩

/-- An input for the machine over reserved symbols, with a head past the end of its tape. -/
def exchangeInput : Tapes := ⟨[[Symbol.boundary], []], [0, 2]⟩

theorem fitting_exchangeInput : Fitting Machine.exchange 2 exchangeInput where
  tapes := rfl
  heads := rfl
  symbols := by decide

end Simulation
end OneTape
