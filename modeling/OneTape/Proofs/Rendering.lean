import OneTape.Proofs.Lockstep

/-!
# Rendering a table

A table is rendered by giving each of its states a name. Names of different states can agree, since
source states may be called anything; rendering then fails, and otherwise it is faithful.

Results:
* `FlatMachine.toMachine_eq_error`, `FlatMachine.exists_toMachine_iff`: when rendering fails, and
  with what.
* `FlatMachine.Named.proceed`: a run of the rendered machine against a run of the table.
* `FlatMachine.toMachine_faithful`: rendering is faithful and its error exact.
-/

namespace OneTape

namespace Table.Instant

/-- Materialises the cell under the head. -/
def settle (x : Instant) : Instant := { x with cells := Tapes.padTo (x.position + 1) x.cells }

/-- Makes steps until the table has no row to apply, at most a given number. The cell under the head
has been materialised when it stops. -/
def proceed (rows : List Row) : Nat → Instant → Outcome × Instant
  | 0, x => (.running, x)
  | n + 1, x =>
    match x.step rows with
    | none => (.halted, x.settle)
    | some y => proceed rows n y

end Table.Instant

namespace FlatMachine

open Table

/-- The states that need a name: those of the table, the initial state and the accept states. -/
def Uses (flat : FlatMachine) (s : State) : Prop :=
  s ∈ Table.states flat.rows ∨ s = flat.initial ∨ s ∈ flat.accept

/-- Two different states that need a name have the same one. -/
def Clash (flat : FlatMachine) (s t : State) : Prop :=
  flat.Uses s ∧ flat.Uses t ∧ s ≠ t ∧ s.name = t.name

variable {flat : FlatMachine} {f : Machine} {c : Configuration} {x : Instant} {s : State}

theorem uses_iff : flat.Uses s ↔ s ∈ flat.states ++ flat.accept := by
  simp only [Uses, states, List.mem_append, mem_sortedSet, List.mem_singleton, or_assoc]

/-! ## When rendering fails -/

/-- An error of rendering is the name that two different states have. -/
theorem toMachine_eq_error {e : Error} (h : flat.toMachine = .error e) :
    ∃ s t, flat.Clash s t ∧ e = .nameClash s.name := by
  unfold toMachine at h
  cases hc : consolidate State.name (flat.states ++ flat.accept) with
  | ok kept => rw [hc] at h; cases h
  | error refused =>
    rw [hc] at h
    cases h
    obtain ⟨hmem, kept, hkept, hne, hname⟩ := consolidate_eq_error hc
    exact ⟨refused, kept, ⟨uses_iff.mpr hmem, uses_iff.mpr hkept, hne.symm, hname.symm⟩, rfl⟩

/-- A table is rendered if no two different states have the same name. -/
theorem exists_toMachine_iff : (∃ f, flat.toMachine = .ok f) ↔ ¬∃ s t, flat.Clash s t := by
  constructor
  · rintro ⟨f, h⟩ ⟨s, t, hs, ht, hne, hname⟩
    unfold toMachine at h
    cases hc : consolidate State.name (flat.states ++ flat.accept) with
    | error refused => rw [hc] at h; cases h
    | ok kept =>
      exact hne (functional_of_consolidate hc s (uses_iff.mp hs) t (uses_iff.mp ht) hname)
  · intro h
    refine toMachine_eq_ok fun s hs t ht hname => ?_
    by_contra hne
    exact h ⟨s, t, uses_iff.mpr hs, uses_iff.mpr ht, hne, hname⟩

/-! ## Runs in lockstep -/

namespace Named

/-- **The rendered machine and its table run in lockstep.** -/
theorem proceed (hn : flat.Named f) (hc : flat.Depicts c x) (n : Nat) :
    (c.run f.index n).1 = (x.proceed flat.rows n).1 ∧
      flat.Depicts (c.run f.index n).2 (x.proceed flat.rows n).2 := by
  induction n generalizing c x with
  | zero => exact ⟨rfl, hc⟩
  | succ n ih =>
    rw [Configuration.run, Instant.proceed]
    cases hx : x.step flat.rows with
    | none =>
      rw [hn.step_of_none hc hx]
      exact ⟨rfl, hc.mem, hc.state, rfl⟩
    | some y =>
      obtain ⟨d, hstep, hd⟩ := hn.step_of_some hc hx
      rw [hstep]
      exact ih hd

end Named

/-- **Rendering is faithful and its error exact.** It fails with a clash of names if and only if two
different states of the table, its initial state included and its accept states, have the same name,
which is the one that the error names. Otherwise the rendered machine and the table run in lockstep
from every tape and position: after any number of steps both have halted or neither has, the tapes,
the positions and the states agree, and the machine accepts where the table does. -/
theorem toMachine_faithful (flat : FlatMachine) (hd : (flat.rows.map Row.domain).Nodup) :
    ((∃ name, flat.toMachine = .error (.nameClash name)) ↔ ∃ s t, flat.Clash s t) ∧
    (∀ e, flat.toMachine = .error e → ∃ s t, flat.Clash s t ∧ e = .nameClash s.name) ∧
    ∀ f, flat.toMachine = .ok f → ∀ cells position n outcome c outcome' x,
      (Configuration.start f ⟨[cells], [position]⟩).run f.index n = (outcome, c) →
      Instant.proceed flat.rows n ⟨flat.initial, cells, position⟩ = (outcome', x) →
      outcome = outcome' ∧ c.tapes = ⟨[x.cells], [x.position]⟩ ∧ c.state = x.state.name ∧
        (f.isAccepting c.state = true ↔ x.state ∈ flat.accept) := by
  refine ⟨?_, fun e => toMachine_eq_error, ?_⟩
  · constructor
    · rintro ⟨name, h⟩
      obtain ⟨s, t, hclash, -⟩ := toMachine_eq_error h
      exact ⟨s, t, hclash⟩
    · intro hclash
      cases h : flat.toMachine with
      | ok f => exact absurd hclash (exists_toMachine_iff.mp ⟨f, h⟩)
      | error e =>
        obtain ⟨s, -, -, rfl⟩ := toMachine_eq_error h
        exact ⟨s.name, rfl⟩
  · intro f h cells position n outcome c outcome' x hrun hproceed
    have hn := named_of_toMachine hd h
    have hstart : flat.Depicts (Configuration.start f ⟨[cells], [position]⟩)
        ⟨flat.initial, cells, position⟩ := ⟨flat.initial_mem_states, hn.initial, rfl⟩
    obtain ⟨houtcome, hdepicts⟩ := hn.proceed hstart n
    rw [hrun, hproceed] at houtcome hdepicts
    refine ⟨houtcome, hdepicts.tapes, hdepicts.state, ?_⟩
    rw [hdepicts.state]
    exact hn.isAccepting_iff hdepicts.mem

/-- A table with one row, which leads to a state whose name is that of a source state with
brackets. -/
def bracketed (accept : List State) : FlatMachine :=
  ⟨"Bracketed", State.source "q", accept,
    [⟨State.source "q", ⟨"a"⟩, (State.source "q").advance ⟨"a.1"⟩, ⟨"b"⟩, .left⟩], []⟩

/-- The row leads to the only accept state, or to a state with the name of the accept state. -/
theorem toMachine_faithful_bracketed :
    (∃ name, (bracketed [State.source "q[a.1]"]).toMachine = .error (.nameClash name)) ∧
    ∃ f c, (bracketed [(State.source "q").advance ⟨"a.1"⟩]).toMachine = .ok f ∧
      (Configuration.start f ⟨[[⟨"a"⟩]], [0]⟩).run f.index 2 = (.halted, c) ∧
      c.tapes = ⟨[[Symbol.blank, ⟨"b"⟩]], [0]⟩ ∧ c.state = "q[a.1]" ∧
        f.isAccepting c.state = true := by
  have hnodup : ∀ accept, ((bracketed accept).rows.map Row.domain).Nodup :=
    fun _ => List.nodup_singleton _
  have hclash : (bracketed [State.source "q[a.1]"]).Clash ((State.source "q").advance ⟨"a.1"⟩)
      (State.source "q[a.1]") :=
    ⟨.inl (by decide), .inr (.inr (by decide)), by decide, by decide⟩
  refine ⟨(toMachine_faithful _ (hnodup _)).1.mpr ⟨_, _, hclash⟩, ?_⟩
  obtain ⟨f, hf⟩ : ∃ f, (bracketed [(State.source "q").advance ⟨"a.1"⟩]).toMachine = .ok f := by
    refine exists_toMachine_iff.mpr ?_
    rintro ⟨s, t, hs, ht, hne, hname⟩
    have huses : ∀ s, (bracketed [(State.source "q").advance ⟨"a.1"⟩]).Uses s →
        s = State.source "q" ∨ s = (State.source "q").advance ⟨"a.1"⟩ := by
      simp [Uses, bracketed, Table.states]
    have hnames : (State.source "q").name ≠ ((State.source "q").advance ⟨"a.1"⟩).name := by decide
    rcases huses s hs with rfl | rfl <;> rcases huses t ht with rfl | rfl
    · exact hne rfl
    · exact hnames hname
    · exact hnames hname.symm
    · exact hne rfl
  obtain ⟨houtcome, htapes, hstate, haccept⟩ :=
    (toMachine_faithful _ (hnodup _)).2.2 f hf [⟨"a"⟩] 0 2 _ _ _ _ rfl rfl
  exact ⟨f, _, hf, Prod.ext houtcome rfl, htapes, hstate, haccept.mpr (by decide)⟩

end FlatMachine
end OneTape
