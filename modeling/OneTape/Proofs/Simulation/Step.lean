import OneTape.Proofs.Layout
import OneTape.Proofs.Table.Execution

/-!
# One simulated step

A machine that enters the state of a source machine, with the strips of its tapes on the single
tape, simulates one step of it: it comes to the end of a round, with the strips that the rule makes,
or stops during discovery if there is no rule. Without extensions at left ends it also stops with a
head that goes off the left end of its strip.

Results:
* `round_of_rule`: a rule that reads the strips is carried out.
* `leave_of_rule`: a rule that leads a head off the left end of its strip is not.
* `stop_of_no_rule`: without such a rule the machine stops in a state that lacks some heads.
-/

namespace OneTape.Table

open Instant Relation

/-- The rows of some rules, without those that end a simulated step. There are extensions at right
ends and, if `left` says so, at left ends. At the left end of the tape the rows keep the boundary
and do not leave the tape. -/
def Quiet (a : Alphabet) (left : Bool) (rules : List Rule) (n : Nat) (r : Row) : Prop :=
  (∃ rule ∈ rules, Emits a ⟨left, true⟩ rule r) ∧ r.state.phase ≠ .complete ∧
    (n = 0 → r.write = Symbol.boundary ∧ r.move ≠ .left)

/-- The machine has entered a source state: the single tape holds the layout of strips, and the
machine is at the mark of the first head or left of it. -/
structure Entered (a : Alphabet) (q : String) (strips : List Strip) (x : Instant) : Prop where
  state : x.state = State.source q
  cells : x.cells = Strip.layout a strips
  position : ∃ s rest, strips = s :: rest ∧ x.position ≤ s.before.length + 1

variable {a : Alphabet} {rule : Rule} {rules : List Rule} {k : Nat} {q : String} {s : Strip}
  {strips rest : List Strip} {x : Instant} {left : Bool}

theorem allows_quiet (hrule : rule ∈ rules) : Allows a left rule (Quiet a left rules) :=
  fun _ _ hr hp hzero => ⟨⟨rule, hrule, hr⟩, hp, hzero⟩

/-! ## Discovery from the entry -/

/-- The strip without some of its first cells. -/
def shortened (n : Nat) (s : Strip) : Strip := ⟨s.before.drop n, s.after⟩

theorem take_append_shortened (n : Nat) (s : Strip) :
    s.before.take n ++ (shortened n s).cells a = s.cells a := by
  simp only [Strip.cells, shortened, ← List.append_assoc, List.take_append_drop]
  rfl

theorem over_shortened (hs : s.Over a) (n : Nat) : (shortened n s).Over a := by
  intro c hc
  rcases List.mem_append.mp hc with hc | hc
  · exact hs.before_mem c (List.mem_of_mem_drop hc)
  · exact hs.after_mem c hc

/-- The layout, cut inside the first strip. -/
theorem layout_eq_append_shortened (n : Nat) (s : Strip) (strips : List Strip) :
    Strip.layout a (s :: strips) = Symbol.boundary :: s.before.take n ++
      ((shortened n s).cells a ++ (strips.flatMap (Strip.cells a) ++ [Symbol.tapeEnd])) := by
  simp only [Strip.layout, List.flatMap_cons, List.cons_append, ← List.append_assoc,
    take_append_shortened]

/-- Away from the left end, discovery reaches a head if a rule agrees with the strips in front of
it. -/
theorem reach_head_inside {T : Nat → Row → Prop} {s₀ : Strip} {rest₀ : List Strip} (n : Nat)
    (hT : AllowsDiscovery a rule T) (hover : ∀ y ∈ strips ++ s :: rest, y.Over a)
    (hread : strips.map Strip.read <+: rule.read) (hlen : strips.length < rule.read.length)
    (hcons : strips ++ s :: rest = s₀ :: rest₀) :
    ReflTransGen (Walks T)
      (ahead (State.source rule.state) (Symbol.boundary :: s₀.before.take n)
        ((shortened n s₀).cells a ++ (rest₀.flatMap (Strip.cells a) ++ [Symbol.tapeEnd])))
      (ahead (prefixState a rule strips.length)
        (Symbol.boundary :: strips.flatMap (Strip.cells a) ++ s.before)
        (a.marker s.under :: (s.rest ++ (rest.flatMap (Strip.cells a) ++ [Symbol.tapeEnd])))) := by
  have hs := hover s (by simp)
  have hne : Symbol.boundary :: s₀.before.take n ≠ [] := by simp
  rw [← prefixState_zero (a := a)]
  cases strips with
  | nil =>
    obtain ⟨rfl, rfl⟩ : s = s₀ ∧ rest = rest₀ := by simpa using hcons
    have hwalk := reach_head (n := 0) (t := []) [] (shortened n s)
      (rest.flatMap (Strip.cells a) ++ [Symbol.tapeEnd]) hT hne (by simp) (over_shortened hs n)
      (by simp) (by simp) (by simpa using hlen)
    simpa [shortened, Strip.under, Strip.rest] using hwalk
  | cons y strips =>
    obtain ⟨rfl, rfl⟩ : y = s₀ ∧ strips ++ s :: rest = rest₀ := by simpa using hcons
    have hy := over_shortened (hover y (by simp)) n
    have hwalk := reach_head (n := 0) (t := []) (shortened n y :: strips) s
      (rest.flatMap (Strip.cells a) ++ [Symbol.tapeEnd]) hT hne (by simp) hs
      (by
        intro z hz
        rcases List.mem_cons.mp hz with rfl | hz
        · exact hy
        · exact hover z (by simp [hz]))
      (by simpa [shortened, Strip.read] using hread) (by simpa using hlen)
    simpa [← take_append_shortened (a := a) n y] using hwalk

/-- **Discovery reaches a head** from the entry, if a rule agrees with the strips in front of it. -/
theorem Entered.reach_head {T : Nat → Row → Prop} (hx : Entered a q (strips ++ s :: rest) x)
    (hT : AllowsDiscovery a rule T) (hq : rule.state = q)
    (hover : ∀ y ∈ strips ++ s :: rest, y.Over a) (hread : strips.map Strip.read <+: rule.read)
    (hlen : strips.length < rule.read.length) :
    ReflTransGen (Walks T) x
      (ahead (prefixState a rule strips.length)
        (Symbol.boundary :: strips.flatMap (Strip.cells a) ++ s.before)
        (a.marker s.under :: (s.rest ++ (rest.flatMap (Strip.cells a) ++ [Symbol.tapeEnd])))) := by
  obtain ⟨state, cells, position⟩ := x
  obtain ⟨rfl, rfl, s₀, rest₀, hcons, hpos⟩ := hx
  subst hq
  rw [hcons]
  cases position with
  | zero =>
    -- the first step leaves the boundary at the left end
    have hstep : Walks T (ahead (State.source rule.state) [] (Strip.layout a (s₀ :: rest₀)))
        (ahead (State.source rule.state) [Symbol.boundary]
          ((s₀ :: rest₀).flatMap (Strip.cells a) ++ [Symbol.tapeEnd])) := by
      refine Walks.right (u := []) (by simp) (hT 0 _ ?_ rfl fun _ => rfl)
      rw [← prefixState_zero (a := a)]
      exact .scan (by omega) Alphabet.boundary_mem_unmarked
    have hwalk := reach_head_inside 0 hT hover hread hlen hcons
    exact .head hstep (by simpa [shortened] using hwalk)
  | succ n =>
    have hn : n ≤ s₀.before.length := by simpa using hpos
    have hwalk := reach_head_inside n hT hover hread hlen hcons
    have hat : ahead (State.source rule.state) (Symbol.boundary :: s₀.before.take n)
        ((shortened n s₀).cells a ++ (rest₀.flatMap (Strip.cells a) ++ [Symbol.tapeEnd])) =
        ⟨State.source rule.state, Strip.layout a (s₀ :: rest₀), n + 1⟩ := by
      simp [ahead, layout_eq_append_shortened n, Nat.min_eq_left hn]
    rwa [hat] at hwalk

/-! ## A step with a rule -/

/-- The machine discovers all heads and goes back to the mark of the last one. -/
theorem Entered.reach_last (hf : Fits a rules k) {front : List Strip}
    (hx : Entered a q (front ++ [s]) x) (hrule : rule ∈ rules) (hq : rule.state = q)
    (hover : ∀ y ∈ front ++ [s], y.Over a) (hread : (front ++ [s]).map Strip.read = rule.read) :
    ReflTransGen (Walks (Quiet a left rules)) x
      (ahead (ruleState a rule (.actor (front.length + 1)))
        (Symbol.boundary :: front.flatMap (Strip.cells a) ++ s.before)
        (a.marker s.under :: (s.rest ++ [Symbol.tapeEnd]))) := by
  have hA : Allows a left rule (Quiet a left rules) := allows_quiet hrule
  have hlen : rule.read.length = front.length + 1 := by
    rw [← hread]
    simp
  have hpre : (front ++ [s]).map Strip.read <+: rule.read := hread ▸ List.prefix_rfl
  obtain ⟨w, d, hi, -⟩ := hf.actsAt_of_prefix hrule hpre
  have hfront : front.map Strip.read <+: rule.read := by
    rw [← hread, List.map_append]
    exact List.prefix_append ..
  have hrecord := record_walk (n := front.length) (s := s)
    (u := Symbol.boundary :: front.flatMap (Strip.cells a) ++ s.before)
    (v := s.rest ++ [Symbol.tapeEnd]) hA.discovery hi.read (by simp) (by simp)
  rw [← hlen, prefixState_length] at hrecord
  have hback := hand_over (u := Symbol.boundary :: front.flatMap (Strip.cells a) ++ s.before)
    hf.proper hA hi hlen (hover s (by simp))
  exact (hx.reach_head hA.discovery hq hover hfront (by omega)).trans (.head hrecord hback)

theorem Entered.exists_last (hx : Entered a q strips x) : ∃ front s, strips = front ++ [s] := by
  obtain ⟨s₀, rest₀, rfl, -⟩ := hx.position
  simpa using (List.eq_nil_or_concat (s₀ :: rest₀)).resolve_left (by simp)

/-- **A rule that reads the strips is carried out** if all heads have room or get it. -/
theorem round_of_rule (hf : Fits a rules k) (hx : Entered a q strips x) (hrule : rule ∈ rules)
    (hq : rule.state = q) (hover : ∀ y ∈ strips, y.Over a)
    (hread : strips.map Strip.read = rule.read)
    (hroom : left = true ∨ ¬ Leaving rule.moves strips) :
    ∃ z, ReflTransGen (Walks (Quiet a left rules)) x z ∧
      Completed a rule (Strip.actAll (rule.write.zip rule.moves) strips) [Symbol.tapeEnd] z := by
  obtain ⟨front, s, rfl⟩ := hx.exists_last
  have hpre : (front ++ [s]).map Strip.read <+: rule.read := hread ▸ List.prefix_rfl
  obtain ⟨z, hz, hdone⟩ :=
    execute_strips (y := []) hf hrule (allows_quiet hrule) hover hpre hroom closes_nil
  exact ⟨z, (hx.reach_last hf hrule hq hover hread).trans hz, hdone⟩

/-- **A rule that leads a head off the left end of its strip brings the machine to an edge**, where
it stops unless the strip is extended. -/
theorem leave_of_rule (hf : Fits a rules k) (hx : Entered a q strips x) (hrule : rule ∈ rules)
    (hq : rule.state = q) (hover : ∀ y ∈ strips, y.Over a)
    (hread : strips.map Strip.read = rule.read) (hleaving : Leaving rule.moves strips) :
    ∃ z, ReflTransGen (Walks (Quiet a left rules)) x z ∧ Blocked a rule z := by
  obtain ⟨front, s, rfl⟩ := hx.exists_last
  have hpre : (front ++ [s]).map Strip.read <+: rule.read := hread ▸ List.prefix_rfl
  have hA : Allows a left rule (Quiet a left rules) := allows_quiet hrule
  obtain ⟨z, hz, hblocked⟩ := execute_leaving (y := []) hf hrule hA hover hpre hleaving closes_nil
  exact ⟨z, (hx.reach_last hf hrule hq hover hread).trans hz, hblocked⟩

/-! ## A step without a rule -/

/-- A rule of a state agrees with some strips. -/
def Agrees (rules : List Rule) (q : String) (strips : List Strip) : Prop :=
  ∃ rule ∈ rules, rule.state = q ∧ strips.map Strip.read <+: rule.read

/-- If no rule agrees with all strips but one agrees with the first of them, there is a last one up
to which some rule agrees. -/
theorem exists_last_agreement (strips rest : List Strip) (hno : ¬ Agrees rules q (strips ++ rest))
    (h : Agrees rules q strips) :
    ∃ front s back, strips ++ rest = front ++ s :: back ∧ Agrees rules q front ∧
      ¬ Agrees rules q (front ++ [s]) := by
  induction rest generalizing strips with
  | nil => exact absurd h (by simpa using hno)
  | cons s rest ih =>
    by_cases hs : Agrees rules q (strips ++ [s])
    · simpa using ih (strips ++ [s]) (by simpa using hno) hs
    · exact ⟨strips, s, rest, rfl, h, hs⟩

/-- A row of discovery for the next head extends the agreement. -/
theorem stuck_of_not_agrees (hf : Fits a rules k) (hrule : rule ∈ rules) (hq : rule.state = q)
    (hs : s.Over a) (hread : strips.map Strip.read <+: rule.read) (hlen : strips.length < k)
    (hno : ¬ Agrees rules q (strips ++ [s])) (u v : List Symbol) :
    Stuck a left rules (ahead (prefixState a rule strips.length) u (a.marker s.under :: v)) := by
  intro rule' hrule' r hr hdom
  rw [symbol_ahead] at hdom
  have hstate : r.state = prefixState a rule strips.length := congrArg Prod.fst hdom
  have hsym : r.read = a.marker s.under := congrArg Prod.snd hdom
  have hd : Discovers a rule' r := by
    rcases hr.cases with hd | ⟨-, -, hp⟩
    · exact hd
    · rw [hstate] at hp
      exact absurd rfl hp
  obtain ⟨hlen₁, -⟩ := hf.lengths rule hrule
  obtain ⟨hlen₂, -⟩ := hf.lengths rule' hrule'
  -- a rule that reads the next symbol after the same prefix would agree with one strip more
  have hext : ∀ n, prefixState a rule' n = prefixState a rule strips.length →
      rule'.read[n]? ≠ some s.read := by
    intro n hn hget
    have hlt := (List.getElem?_eq_some_iff.mp hget).1
    obtain ⟨hst, rfl, htake⟩ := prefixState_inj (by omega) (by omega) hn
    refine hno ⟨rule', hrule', hst.trans hq, ?_⟩
    have hfront : strips.map Strip.read = rule.read.take strips.length := by
      simpa using List.prefix_iff_eq_take.mp hread
    rw [List.map_append, hfront, ← htake]
    simpa [take_succ_of_getElem? hget] using List.take_prefix (strips.length + 1) rule'.read
  cases hd with
  | scan hn hc => exact hf.proper.marker_ne_of_mem_unmarked hc hsym.symm
  | record hx =>
    have hu : _ = s.under := Alphabet.marker_injective hsym
    have hmem : s.under ∈ a.symbols :=
      hu ▸ hf.symbols rule' hrule' _ (List.mem_append_left _ (List.mem_of_getElem? hx))
    refine hext _ hstate ?_
    rw [Strip.Over.read_eq_under hf.proper hmem, ← hu]
    exact hx
  | recordEdge hx =>
    have hu : s.under = Symbol.boundary := (Alphabet.marker_injective hsym).symm
    refine hext _ hstate ?_
    rw [hs.read_eq_blank hf.proper hu]
    exact hx
  | handOver | handOverEnd =>
    have := congrArg (fun s : State => s.heads.length) hstate
    simp only [ruleState, prefixState, discovered, List.length_map, List.length_take] at this
    omega

/-- **Without a rule for the strips the machine stops** during discovery, in a state that lacks some
heads, with the tape as it was. -/
theorem stop_of_no_rule (hf : Fits a rules k) (hx : Entered a q strips x) (hk : strips.length = k)
    (hover : ∀ y ∈ strips, y.Over a)
    (hno : ∀ rule ∈ rules, rule.state = q → rule.read ≠ strips.map Strip.read) :
    ∃ z, ReflTransGen (Walks (Quiet a left rules)) x z ∧ Stuck a left rules z ∧ z.cells = x.cells ∧
      z.state.base = q ∧ z.state.phase = .discover ∧ z.state.heads.length < k := by
  have hpos : 0 < k := by
    obtain ⟨s, rest, rfl, -⟩ := hx.position
    rw [← hk]
    simp
  have hall : ¬ Agrees rules q strips := by
    rintro ⟨rule, hrule, hq, hpre⟩
    refine hno rule hrule hq (hpre.eq_of_length ?_).symm
    rw [List.length_map, hk, (hf.lengths rule hrule).1]
  by_cases hnil : Agrees rules q []
  · obtain ⟨front, s, back, hsplit, ⟨rule, hrule, hq, hpre⟩, hstop⟩ :=
      exists_last_agreement [] strips hall hnil
    rw [List.nil_append] at hsplit
    subst hsplit
    have hlen : front.length < k := by
      rw [← hk]
      simp
    have hread := (hf.lengths rule hrule).1
    refine ⟨_, hx.reach_head (allows_quiet hrule).discovery hq hover hpre (by omega),
      stuck_of_not_agrees hf hrule hq (hover s (by simp)) hpre hlen hstop _ _, ?_, ?_⟩
    · rw [hx.cells]
      simp [ahead, Strip.layout, Strip.cells]
    · refine ⟨hq, rfl, ?_⟩
      simp only [ahead, prefixState, discovered, List.length_map, List.length_take]
      omega
  · -- the state has no rules at all
    refine ⟨x, .refl, fun rule hrule r hr hdom => ?_, rfl, ?_⟩
    · have hstate : r.state = State.source q := (congrArg Prod.fst hdom).trans hx.state
      refine hnil ⟨rule, hrule, ?_, List.nil_prefix⟩
      rcases hr.cases with hd | ⟨-, -, hp⟩
      · have hbase : r.state.base = rule.state := by cases hd <;> rfl
        rw [← hbase, hstate]
        rfl
      · rw [hstate] at hp
        exact absurd rfl hp
    · rw [hx.state]
      exact ⟨rfl, rfl, hpos⟩

end OneTape.Table
