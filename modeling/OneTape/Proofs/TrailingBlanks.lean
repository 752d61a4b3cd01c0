import OneTape.Proofs.Simulation.Follow

/-!
# Blanks at the ends of tapes

How many blanks are written out at the right end of a tape makes no difference to a run. A step
materialises the cells under the heads before it reads, so that it reads and writes inside the
tapes, wherever the heads of the input were. What it reads, writes and adds then depends on the
cells alone.

That accesses stay inside is said by a second form of the step, `Configuration.checkedStep`, in
which every access can fail.

Results:
* `Tapes.normalized_eq_iff`: tapes are equal up to blanks at their ends if and only if they have the
  same cells.
* `Configuration.Alike.step`, `Configuration.Alike.run`: steps and runs keep this.
* `Configuration.checkedStep_eq`, `Configuration.checkedRun_eq`: no access of a step or run fails.
* `Configuration.headsInside_of_step`, `Configuration.headsInside_of_run`: where the heads are after
  a step.
* `run_hides_trailing_blanks`: all of this for the runs of a machine that passes the analysis.
-/

namespace OneTape

/-! ## Tapes with the same cells -/

namespace Tapes

variable {a b : List Symbol} {w : Symbol} {d : Direction} {head : Nat}

/-- The tapes have the same cells. -/
def SameTape (a b : List Symbol) : Prop := ∀ j, cellAt a j = cellAt b j

theorem dropBlanks_eq_iff : dropBlanks a = dropBlanks b ↔ SameTape a b := by
  refine ⟨fun h j => ?_, dropBlanks_eq_of_cellAt⟩
  rw [← cellAt_dropBlanks a, h, cellAt_dropBlanks]

/-- The tapes have the same cells, and the heads stand in the same places. -/
structure SameCells (s t : Tapes) : Prop where
  heads : s.heads = t.heads
  tapes : List.Forall₂ SameTape s.tapes t.tapes

/-- **Tapes are equal up to blanks at their ends if and only if they have the same cells.** -/
theorem normalized_eq_iff {s t : Tapes} : s.normalized = t.normalized ↔ s.SameCells t := by
  have htapes : s.tapes.map dropBlanks = t.tapes.map dropBlanks ↔
      List.Forall₂ SameTape s.tapes t.tapes := by
    rw [← List.forall₂_eq_eq_eq, List.forall₂_map_left_iff, List.forall₂_map_right_iff]
    simp only [dropBlanks_eq_iff]
  simp only [normalized, mk.injEq, htapes]
  exact ⟨fun h => ⟨h.2, h.1⟩, fun h => ⟨h.tapes, h.heads⟩⟩

/-! ## Heads inside their tapes -/

/-- Every head that has a tape stands on a cell of it. -/
def HeadsInside (t : Tapes) : Prop := ∀ p ∈ t.tapes.zip t.heads, p.2 < p.1.length

theorem headsInside_cons {tapes : List (List Symbol)} {heads : List Nat} :
    HeadsInside ⟨a :: tapes, head :: heads⟩ ↔ head < a.length ∧ HeadsInside ⟨tapes, heads⟩ := by
  simp [HeadsInside]

theorem headsInside_settleCells (tapes : List (List Symbol)) (heads : List Nat) :
    HeadsInside ⟨settleCells tapes heads, heads⟩ := by
  fun_induction settleCells tapes heads with
  | case1 tape tapes head heads ih =>
    refine headsInside_cons.mpr ⟨?_, ih⟩
    rw [length_padTo]
    omega
  | case2 tapes heads hnone =>
    cases tapes with
    | nil => simp [HeadsInside]
    | cons tape tapes =>
      cases heads with
      | nil => simp [HeadsInside]
      | cons head heads => exact (hnone tape tapes head heads rfl rfl).elim

/-- The cells under the heads have been materialised. -/
theorem headsInside_settle (t : Tapes) : t.settle.HeadsInside :=
  headsInside_settleCells t.tapes t.heads

theorem act_snd_lt_length (h : head < a.length) :
    (act w d a head).2 < (act w d a head).1.length := by
  cases d with
  | stay => simpa [act] using h
  | left =>
    simp only [act]
    split_ifs
    · simp
    · simp only [List.length_set]
      omega
  | right =>
    simp only [act, length_padTo, List.length_set]
    omega

theorem HeadsInside.actAll {tapes : List (List Symbol)} {heads : List Nat}
    (h : HeadsInside ⟨tapes, heads⟩) (actions : List (Symbol × Direction)) :
    HeadsInside ⟨(actAll actions tapes heads).1, (actAll actions tapes heads).2⟩ := by
  fun_induction Tapes.actAll actions tapes heads with
  | case1 write move actions tape tapes head heads tape' head' hact tapes' heads' hrest ih =>
    obtain ⟨hhead, htapes⟩ := headsInside_cons.mp h
    have hmoved := act_snd_lt_length (w := write) (d := move) hhead
    rw [hact] at hmoved
    rw [hrest] at ih
    exact headsInside_cons.mpr ⟨hmoved, ih htapes⟩
  | case2 => exact h

/-- A rule leaves the heads inside. -/
theorem HeadsInside.apply {t : Tapes} (h : t.HeadsInside) (r : Rule) : (t.apply r).HeadsInside :=
  h.actAll (r.write.zip r.moves)

/-! ## Numbers of tapes and heads -/

/-- There are as many tapes, and as many heads. -/
structure SameShape (s t : Tapes) : Prop where
  tapes : s.tapes.length = t.tapes.length
  heads : s.heads.length = t.heads.length

theorem SameShape.trans {s t u : Tapes} (h : s.SameShape t) (h' : t.SameShape u) : s.SameShape u :=
  ⟨h.tapes.trans h'.tapes, h.heads.trans h'.heads⟩

theorem sameShape_settle (t : Tapes) : t.settle.SameShape t := by
  refine ⟨?_, rfl⟩
  show (settleCells t.tapes t.heads).length = t.tapes.length
  fun_induction settleCells t.tapes t.heads with
  | case1 tape tapes head heads ih => rw [List.length_cons, List.length_cons, ih]
  | case2 => rfl

theorem sameShape_actAll (actions : List (Symbol × Direction)) (tapes : List (List Symbol))
    (heads : List Nat) :
    SameShape ⟨(actAll actions tapes heads).1, (actAll actions tapes heads).2⟩ ⟨tapes, heads⟩ := by
  fun_induction actAll actions tapes heads with
  | case1 write move actions tape tapes head heads tape' head' hact tapes' heads' hrest ih =>
    rw [hrest] at ih
    exact ⟨congrArg (· + 1) ih.tapes, congrArg (· + 1) ih.heads⟩
  | case2 => exact ⟨rfl, rfl⟩

theorem sameShape_apply (t : Tapes) (r : Rule) : (t.apply r).SameShape t :=
  sameShape_actAll (r.write.zip r.moves) t.tapes t.heads

/-! ## A step on the same cells -/

section SameTapes

variable {tapes tapes' : List (List Symbol)}

theorem settleCells_congr (h : List.Forall₂ SameTape tapes tapes') (heads : List Nat) :
    List.Forall₂ SameTape (settleCells tapes heads) (settleCells tapes' heads) := by
  induction h generalizing heads with
  | nil => exact .nil
  | cons htape htapes ih =>
    cases heads with
    | nil => exact .cons htape htapes
    | cons head heads =>
      refine .cons (fun j => ?_) (ih heads)
      rw [cellAt_padTo, cellAt_padTo, htape j]

theorem zipWith_cellAt_congr (h : List.Forall₂ SameTape tapes tapes') (heads : List Nat) :
    List.zipWith cellAt tapes heads = List.zipWith cellAt tapes' heads := by
  induction h generalizing heads with
  | nil => rfl
  | cons htape htapes ih =>
    cases heads with
    | nil => rfl
    | cons head heads => rw [List.zipWith_cons_cons, List.zipWith_cons_cons, htape head, ih heads]

/-- A write inside the tapes, and the move after it. -/
theorem act_congr (ha : head < a.length) (hb : head < b.length) (h : SameTape a b) :
    (act w d a head).2 = (act w d b head).2 ∧ SameTape (act w d a head).1 (act w d b head).1 := by
  have hset : SameTape (a.set head w) (b.set head w) := by
    intro j
    rw [cellAt_set ha, cellAt_set hb, h j]
  cases d with
  | stay => exact ⟨rfl, hset⟩
  | left =>
    simp only [act]
    split_ifs
    · refine ⟨rfl, fun j => ?_⟩
      cases j with
      | zero => rfl
      | succ j => rw [cellAt_cons_succ, cellAt_cons_succ, hset j]
    · exact ⟨rfl, hset⟩
  | right =>
    refine ⟨rfl, fun j => ?_⟩
    simp only [act, cellAt_padTo, hset j]

theorem actAll_congr (h : List.Forall₂ SameTape tapes tapes') {heads : List Nat}
    (ht : HeadsInside ⟨tapes, heads⟩) (ht' : HeadsInside ⟨tapes', heads⟩)
    (actions : List (Symbol × Direction)) :
    SameCells ⟨(actAll actions tapes heads).1, (actAll actions tapes heads).2⟩
      ⟨(actAll actions tapes' heads).1, (actAll actions tapes' heads).2⟩ := by
  induction h generalizing actions heads with
  | nil => cases actions <;> exact ⟨rfl, .nil⟩
  | cons htape htapes ih =>
    cases actions with
    | nil => exact ⟨rfl, .cons htape htapes⟩
    | cons action actions =>
      cases heads with
      | nil => exact ⟨rfl, .cons htape htapes⟩
      | cons head heads =>
        obtain ⟨hhead, ht⟩ := headsInside_cons.mp ht
        obtain ⟨hhead', ht'⟩ := headsInside_cons.mp ht'
        obtain ⟨hmove, hact⟩ := act_congr (w := action.1) (d := action.2) hhead hhead' htape
        obtain ⟨hmoves, hacts⟩ := ih ht ht' actions
        exact ⟨congrArg₂ List.cons hmove hmoves, .cons hact hacts⟩

end SameTapes

namespace SameCells

variable {s t : Tapes}

theorem settle (h : s.SameCells t) : s.settle.SameCells t.settle := by
  refine ⟨h.heads, ?_⟩
  simp only [Tapes.settle, h.heads]
  exact settleCells_congr h.tapes t.heads

theorem underHeads (h : s.SameCells t) : s.underHeads = t.underHeads := by
  show List.zipWith cellAt s.tapes s.heads = List.zipWith cellAt t.tapes t.heads
  rw [h.heads]
  exact zipWith_cellAt_congr h.tapes t.heads

theorem apply (h : s.SameCells t) (hs : s.HeadsInside) (ht : t.HeadsInside) (r : Rule) :
    (s.apply r).SameCells (t.apply r) := by
  obtain ⟨tapes, heads⟩ := s
  obtain ⟨tapes', heads'⟩ := t
  obtain rfl : heads = heads' := h.heads
  exact actAll_congr h.tapes hs ht (r.write.zip r.moves)

end SameCells

/-! ## Accesses that can fail -/

/-- The symbols under the heads, unless a head stands outside its tape. -/
def checkedRead : List (List Symbol) → List Nat → Option (List Symbol)
  | tape :: tapes, head :: heads => do
    let s ← tape[head]?
    let rest ← checkedRead tapes heads
    return s :: rest
  | _, _ => some []

/-- Writes under a head and moves it, unless the head stands outside its tape. One blank is added
where a move leaves the tape. -/
def checkedAct (write : Symbol) (move : Direction) (tape : List Symbol) (head : Nat) :
    Option (List Symbol × Nat) :=
  if head < tape.length then
    let tape := tape.set head write
    match move with
    | .stay => some (tape, head)
    | .left => if head = 0 then some (Symbol.blank :: tape, head) else some (tape, head - 1)
    | .right =>
      if tape.length ≤ head + 1 then some (tape ++ [Symbol.blank], head + 1)
      else some (tape, head + 1)
  else
    none

/-- Carries out actions on one tape after the other, unless an action has no tape or no head. -/
def checkedActAll : List (Symbol × Direction) → List (List Symbol) → List Nat →
    Option (List (List Symbol) × List Nat)
  | [], tapes, heads => some (tapes, heads)
  | (write, move) :: actions, tape :: tapes, head :: heads => do
    let (tape, head) ← checkedAct write move tape head
    let (tapes, heads) ← checkedActAll actions tapes heads
    return (tape :: tapes, head :: heads)
  | _ :: _, _, _ => none

theorem checkedRead_eq {t : Tapes} (h : t.HeadsInside) :
    checkedRead t.tapes t.heads = some t.underHeads := by
  obtain ⟨tapes, heads⟩ := t
  show checkedRead tapes heads = some (List.zipWith cellAt tapes heads)
  induction tapes generalizing heads with
  | nil => rfl
  | cons tape tapes ih =>
    cases heads with
    | nil => rfl
    | cons head heads =>
      obtain ⟨hhead, hrest⟩ := headsInside_cons.mp h
      have hcell : tape[head]? = some (cellAt tape head) := by simp [cellAt, hhead]
      simp [checkedRead, hcell, ih heads hrest]

theorem checkedAct_eq (h : head < a.length) : checkedAct w d a head = some (act w d a head) := by
  rw [checkedAct, if_pos h]
  cases d with
  | stay => rfl
  | left =>
    simp only [act]
    split_ifs with hzero
    · rw [hzero]
    · rfl
  | right =>
    simp only [act, padTo, List.length_set]
    split_ifs with hend
    -- the head is inside, so padding behind it adds one blank or none
    · rw [show head + 2 - a.length = 1 by omega]
      rfl
    · rw [show head + 2 - a.length = 0 by omega]
      simp

theorem checkedActAll_eq {t : Tapes} {actions : List (Symbol × Direction)} (h : t.HeadsInside)
    (hlen : actions.length ≤ (t.tapes.zip t.heads).length) :
    checkedActAll actions t.tapes t.heads = some (actAll actions t.tapes t.heads) := by
  obtain ⟨tapes, heads⟩ := t
  induction actions generalizing tapes heads with
  | nil => simp [checkedActAll, actAll]
  | cons action actions ih =>
    cases tapes with
    | nil => simp at hlen
    | cons tape tapes =>
      cases heads with
      | nil => simp at hlen
      | cons head heads =>
        obtain ⟨hhead, hrest⟩ := headsInside_cons.mp h
        have hacts := ih tapes heads hrest (by simpa using hlen)
        simp only at hacts
        simp [checkedActAll, actAll, checkedAct_eq hhead, hacts]

end Tapes

/-! ## Steps and runs -/

namespace Configuration

variable {x : RuleIndex} {m : Machine} {c d : Configuration}

/-- The configurations differ at most in blanks at the ends of tapes. -/
structure Alike (c d : Configuration) : Prop where
  state : c.state = d.state
  steps : c.steps = d.steps
  tapes : c.tapes.SameCells d.tapes

/-- **One step keeps configurations alike.** -/
theorem Alike.step (h : c.Alike d) (x : RuleIndex) :
    (c.step x).1 = (d.step x).1 ∧ (c.step x).2.Alike (d.step x).2 := by
  have hsettle := h.tapes.settle
  have hfind : x.find? c.state c.tapes.settle.underHeads =
      x.find? d.state d.tapes.settle.underHeads := by
    rw [h.state, hsettle.underHeads]
  rw [Configuration.step, Configuration.step, hfind]
  cases x.find? d.state d.tapes.settle.underHeads with
  | none => exact ⟨rfl, h.state, h.steps, hsettle⟩
  | some r =>
    refine ⟨rfl, rfl, congrArg (· + 1) h.steps, ?_⟩
    exact hsettle.apply (Tapes.headsInside_settle _) (Tapes.headsInside_settle _) r

/-- **Runs stay alike**, and halt at the same step. -/
theorem Alike.run (h : c.Alike d) (x : RuleIndex) (n : Nat) :
    (c.run x n).1 = (d.run x n).1 ∧ (c.run x n).2.Alike (d.run x n).2 := by
  induction n generalizing c d with
  | zero => exact ⟨rfl, h⟩
  | succ n ih =>
    obtain ⟨houtcome, hnext⟩ := h.step x
    rcases hc : c.step x with ⟨_ | _, c'⟩ <;> rcases hd : d.step x with ⟨_ | _, d'⟩
    · rw [hc, hd] at hnext
      rw [run_of_running hc, run_of_running hd]
      exact ih hnext
    -- the outcomes agree, so one run does not halt alone
    · simp [hc, hd] at houtcome
    · simp [hc, hd] at houtcome
    · rw [hc, hd] at hnext
      rw [run_of_halted hc, run_of_halted hd]
      exact ⟨rfl, hnext⟩

/-- What a step does to the tapes: it materialises the cells under the heads, and applies a rule if
there is one. -/
theorem tapes_of_step (x : RuleIndex) (c : Configuration) :
    (c.step x).2.tapes = c.tapes.settle ∨ ∃ r, (c.step x).2.tapes = c.tapes.settle.apply r := by
  cases hfind : x.find? c.state c.tapes.settle.underHeads with
  | none => exact .inl (by rw [step, hfind])
  | some r => exact .inr ⟨r, by rw [step, hfind]⟩

/-- A step keeps the numbers of tapes and heads. -/
theorem sameShape_of_step (x : RuleIndex) (c : Configuration) :
    (c.step x).2.tapes.SameShape c.tapes := by
  have hsettle := Tapes.sameShape_settle c.tapes
  rcases tapes_of_step x c with h | ⟨r, h⟩ <;> rw [h]
  · exact hsettle
  · exact (Tapes.sameShape_apply _ r).trans hsettle

theorem sameShape_of_run (x : RuleIndex) (c : Configuration) (n : Nat) :
    (c.run x n).2.tapes.SameShape c.tapes :=
  run_invariant (P := fun d => d.tapes.SameShape c.tapes)
    (fun d hd => (sameShape_of_step x d).trans hd) ⟨rfl, rfl⟩ n

/-- After a step all heads are inside their tapes. -/
theorem headsInside_of_step (x : RuleIndex) (c : Configuration) :
    (c.step x).2.tapes.HeadsInside := by
  have hsettle := Tapes.headsInside_settle c.tapes
  rcases tapes_of_step x c with h | ⟨r, h⟩ <;> rw [h]
  · exact hsettle
  · exact hsettle.apply r

/-- After one step or more all heads are inside their tapes. -/
theorem headsInside_of_run (x : RuleIndex) (c : Configuration) {n : Nat} (hn : 0 < n) :
    (c.run x n).2.tapes.HeadsInside := by
  obtain ⟨n, rfl⟩ := Nat.exists_eq_succ_of_ne_zero (Nat.ne_of_gt hn)
  have hstep := headsInside_of_step x c
  rcases hc : c.step x with ⟨_ | _, d⟩ <;> rw [hc] at hstep
  · rw [run_of_running hc]
    exact run_invariant (P := fun d => d.tapes.HeadsInside) (fun d _ => headsInside_of_step x d)
      hstep n
  · rw [run_of_halted hc]
    exact hstep

/-- A step in which every access is checked. -/
def checkedStep (x : RuleIndex) (c : Configuration) : Option (Outcome × Configuration) := do
  let settled := c.tapes.settle
  let read ← Tapes.checkedRead settled.tapes settled.heads
  match x.find? c.state read with
  | none => return (.halted, { c with tapes := settled })
  | some r =>
    let (tapes, heads) ← Tapes.checkedActAll (r.write.zip r.moves) settled.tapes settled.heads
    return (.running, ⟨r.next, ⟨tapes, heads⟩, c.steps + 1⟩)

/-- A run in which every access is checked. -/
def checkedRun (x : RuleIndex) : Nat → Configuration → Option (Outcome × Configuration)
  | 0, c => some (.running, c)
  | n + 1, c => do
    match ← c.checkedStep x with
    | (.halted, c) => return (.halted, c)
    | (.running, c) => checkedRun x n c

/-- **No access of a step fails.** A rule applies only to as many symbols as it reads, so it has a
tape and a head for each of its actions. -/
theorem checkedStep_eq (hm : ∀ r ∈ m.rules, r.write.length ≤ r.read.length) (c : Configuration) :
    c.checkedStep m.index = some (c.step m.index) := by
  have hsettle := Tapes.headsInside_settle c.tapes
  rw [checkedStep, Tapes.checkedRead_eq hsettle, step]
  cases hfind : m.index.find? c.state c.tapes.settle.underHeads with
  | none => simp [hfind]
  | some r =>
    obtain ⟨hr, -, hread⟩ := RuleIndex.mem_of_find? hfind
    have hlen : (r.write.zip r.moves).length ≤
        (c.tapes.settle.tapes.zip c.tapes.settle.heads).length := by
      have hwrite := hm r hr
      rw [hread, Tapes.underHeads, List.length_zipWith] at hwrite
      rw [List.length_zip, List.length_zip]
      omega
    simp [hfind, Tapes.checkedActAll_eq hsettle hlen, Tapes.apply]

/-- **No access of a run fails.** -/
theorem checkedRun_eq (hm : ∀ r ∈ m.rules, r.write.length ≤ r.read.length) (n : Nat)
    (c : Configuration) :
    c.checkedRun m.index n = some (c.run m.index n) := by
  induction n generalizing c with
  | zero => rfl
  | succ n ih =>
    rw [checkedRun, checkedStep_eq hm c]
    rcases hc : c.step m.index with ⟨_ | _, d⟩
    · rw [run_of_running hc]
      exact ih d
    · rw [run_of_halted hc]
      rfl

end Configuration

/-- **Blanks at the ends of tapes do not show in a run.** Take a machine that passes the analysis
and two inputs with the same heads, wherever they stand, and with tapes that are equal up to blanks
at their ends. For every number of steps the two runs have both halted or both not, after as many
steps, in the same state, with the same heads and with tapes that are equal up to blanks at their
ends. No access of either run is outside a tape, the numbers of tapes and heads stay those of the
input, and after one step or more every head stands on a cell of its tape. -/
theorem run_hides_trailing_blanks (m : Machine) (hm : m.analyze = .ok ()) (s t : Tapes)
    (h : s.normalized = t.normalized) (n : Nat) :
    let c := (Configuration.start m s).run m.index n
    let d := (Configuration.start m t).run m.index n
    c.1 = d.1 ∧ c.2.steps = d.2.steps ∧ c.2.state = d.2.state ∧ c.2.tapes.heads = d.2.tapes.heads ∧
    c.2.tapes.normalized = d.2.tapes.normalized ∧
    (Configuration.start m s).checkedRun m.index n = some c ∧
    (Configuration.start m t).checkedRun m.index n = some d ∧
    c.2.tapes.SameShape s ∧ d.2.tapes.SameShape t ∧
    (0 < n → c.2.tapes.HeadsInside ∧ d.2.tapes.HeadsInside) := by
  intro c d
  obtain ⟨k, hk⟩ := Machine.analyze_eq_ok_iff.mp hm
  have hlengths : ∀ r ∈ m.rules, r.write.length ≤ r.read.length := by
    intro r hr
    obtain ⟨hread, hwrite, -⟩ := hk.lengths r hr
    omega
  have hstart : (Configuration.start m s).Alike (Configuration.start m t) :=
    ⟨rfl, rfl, Tapes.normalized_eq_iff.mp h⟩
  obtain ⟨houtcome, halike⟩ := hstart.run m.index n
  refine ⟨houtcome, halike.steps, halike.state, halike.tapes.heads,
    Tapes.normalized_eq_iff.mpr halike.tapes,
    Configuration.checkedRun_eq hlengths n _, Configuration.checkedRun_eq hlengths n _,
    Configuration.sameShape_of_run m.index _ n, Configuration.sameShape_of_run m.index _ n,
    fun hn => ?_⟩
  exact ⟨Configuration.headsInside_of_run m.index _ hn,
    Configuration.headsInside_of_run m.index _ hn⟩

/-- The machine over reserved symbols, on an input with a head past the end of its tape, told from a
run on the same input without the blanks that are written out. -/
theorem run_hides_blanks_exchange :
    let d := (Configuration.start Machine.exchange
      ⟨[[Symbol.boundary, Symbol.blank, Symbol.blank], [Symbol.blank]], [0, 2]⟩).run
        Machine.exchange.index 2
    d.1 = .halted ∧ d.2.steps = 1 ∧ d.2.state = "h" ∧ d.2.tapes.heads = [0, 3] ∧
    d.2.tapes.normalized = Simulation.exchangeOutput.normalized ∧ d.2.tapes.HeadsInside := by
  intro d
  obtain ⟨houtcome, hsteps, hstate, hheads, hnormalized, -, -, -, -, hinside⟩ :=
    run_hides_trailing_blanks Machine.exchange Machine.analyze_exchange Simulation.exchangeInput
      ⟨[[Symbol.boundary, Symbol.blank, Symbol.blank], [Symbol.blank]], [0, 2]⟩ (by decide) 2
  rw [Simulation.run_exchange_two] at houtcome hsteps hstate hheads hnormalized
  exact ⟨houtcome.symm, hsteps.symm, hstate.symm, hheads.symm, hnormalized.symm,
    (hinside (by decide)).2⟩

end OneTape
