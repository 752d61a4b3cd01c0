import OneTape.Proofs.Compiled
import OneTape.Proofs.Simulation.Step

/-!
# The parts of a simulated step on their own

The rows of discovery for a state, and the rows of the shift subroutine for an owner, are run here
as tables of their own. No rule has to be deterministic for that: rules that read the same symbols
share all rows of discovery.

Results:
* `run_rightwards`: a walk to the right over cells that are left as they are, as a run.
* `functional_discoveryRows`, `functional_shiftRows`: the rows of the two parts do not conflict.
* `discovery_finds_rule`: discovery finds a rule for the symbols under the heads, or halts at the
  first head at which no rule is left.
* `shift_inserts_cell`: a shift inserts one cell and loses nothing.
-/

namespace OneTape

open Relation

/-! ## Cells of heads -/

/-- The cell of the single tape on which a head stands when tapes are laid out. Heads count from
zero. -/
def Tapes.headCell (t : Tapes) (i : Nat) : Nat :=
  1 + ((t.tapes.zip t.heads).take i).foldr (fun p n => max p.1.length p.2 + 1 + n) 0 +
    t.heads[i]?.getD 0

namespace Strip

variable {a : Alphabet} {s : Strip} {front back : List Strip}

theorem length_cells (a : Alphabet) (s : Strip) : (s.cells a).length = s.tape.length + 1 := by
  have h := congrArg List.length s.under_cons_rest
  simp only [List.length_cons, List.length_append, List.length_nil] at h
  simp only [cells, tape, List.length_append, List.length_cons]
  omega

theorem map_read_ofTape (t : Tapes) :
    (List.zipWith ofTape t.tapes t.heads).map read = t.underHeads := by
  rw [List.map_zipWith]
  show List.zipWith _ t.tapes t.heads = List.zipWith Tapes.cellAt t.tapes t.heads
  congr 1
  funext tape head
  rw [read_eq_cellAt, tape_ofTape, head_ofTape, Tapes.cellAt_padTo]

/-- The cells in front of a head, counted. -/
theorem headCell_eq {t : Tapes} (h : List.zipWith ofTape t.tapes t.heads = front ++ s :: back) :
    t.headCell front.length = (Symbol.boundary :: front.flatMap (cells a) ++ s.before).length := by
  obtain ⟨tapes, heads⟩ := t
  induction front generalizing tapes heads with
  | nil =>
    obtain ⟨tape, tapes, head, heads, rfl, rfl, rfl, -⟩ := List.zipWith_eq_cons_iff.mp h
    have hhead : (ofTape tape head).before.length = head := head_ofTape tape head
    simp [Tapes.headCell, hhead]
    omega
  | cons y front ih =>
    obtain ⟨tape, tapes, head, heads, rfl, rfl, rfl, hrest⟩ := List.zipWith_eq_cons_iff.mp h
    have hlen : ((ofTape tape head).cells a).length = max tape.length head + 1 := by
      rw [length_cells, tape_ofTape, Tapes.length_padTo]
    have := ih tapes heads hrest.symm
    simp only [Tapes.headCell, List.length_cons, List.zip_cons_cons, List.take_succ_cons,
      List.foldr_cons, List.getElem?_cons_succ, List.flatMap_cons, List.length_append, hlen]
      at this ⊢
    omega

end Strip

namespace Table

open Instant

variable {a : Alphabet} {rows : List Row} {T : Nat → Row → Prop} {x y : Instant} {r : Row}

/-! ## Runs to the right -/

/-- The table leads from one instant to another by moves to the right only, and leaves the tape as
it is. -/
def SweepsRight (rows : List Row) (x y : Instant) : Prop :=
  ∃ n, x.run rows n = some y ∧ ∀ j ≤ n, ∃ s, x.run rows j = some ⟨s, x.cells, x.position + j⟩

/-- The row keeps the symbol that it reads and goes right. -/
def Passes (r : Row) : Prop := r.write = r.read ∧ r.move = .right

theorem position_apply_of_passes (hr : Passes r) : (x.apply r).position = x.position + 1 := by
  simp only [Instant.apply, hr.2, Tapes.act]

theorem apply_of_passes (hr : Passes r) (hd : r.domain = (x.state, x.symbol))
    (hlt : x.position + 1 < x.cells.length) : x.apply r = ⟨r.next, x.cells, x.position + 1⟩ := by
  have hwrite : r.write = x.symbol := hr.1.trans (congrArg Prod.snd hd)
  have hsymbol : x.cells.set x.position x.symbol = x.cells := by
    have hlt' : x.position < x.cells.length := by omega
    simp [symbol, hlt']
  have hpad : Tapes.padTo (x.position + 1) x.cells = x.cells := Tapes.padTo_eq_self (by omega)
  have hpad' : Tapes.padTo (x.position + 2) x.cells = x.cells := Tapes.padTo_eq_self (by omega)
  simp only [Instant.apply, hr.2, Tapes.act, hwrite, hpad, hsymbol, hpad']

theorem position_le_of_passes (hT : ∀ n r, T n r → Passes r) (h : ReflTransGen (Walks T) x y) :
    x.position ≤ y.position := by
  induction h with
  | refl => omega
  | @tail y z _ hstep ih =>
    obtain ⟨r, hr, -, rfl⟩ := hstep
    rw [position_apply_of_passes (hT _ r hr)]
    omega

/-- **A walk to the right that leaves the cells as they are is a run of this kind.** -/
theorem run_rightwards (hf : Functional Row.domain rows) (hT : ∀ n r, T n r → r ∈ rows ∧ Passes r)
    (h : ReflTransGen (Walks T) x y) (hy : y.position < x.cells.length) : SweepsRight rows x y := by
  induction h using ReflTransGen.head_induction_on with
  | refl =>
    refine ⟨0, rfl, fun j hj => ⟨y.state, ?_⟩⟩
    obtain rfl : j = 0 := by omega
    rfl
  | @head x z hstep hrest ih =>
    have hnext : x.step rows = some z := hstep.step_eq hf fun n r hr => (hT n r hr).1
    obtain ⟨r, hr, hd, rfl⟩ := hstep
    have hpass : Passes r := (hT _ r hr).2
    -- the walk does not turn, so that it ends right of every cell that it leaves
    have hle := position_le_of_passes (fun n r hr => (hT n r hr).2) hrest
    rw [position_apply_of_passes hpass] at hle
    have happly := apply_of_passes hpass hd (by omega)
    obtain ⟨n, hrun, hall⟩ := ih (by rw [happly]; exact hy)
    have hsucc : ∀ j, x.run rows (j + 1) = (x.apply r).run rows j := by
      intro j
      rw [Instant.run, hnext]
      rfl
    refine ⟨n + 1, (hsucc n).trans hrun, fun j hj => ?_⟩
    cases j with
    | zero => exact ⟨x.state, rfl⟩
    | succ j =>
      obtain ⟨s, hs⟩ := hall j (by omega)
      refine ⟨s, (hsucc j).trans (hs.trans ?_)⟩
      rw [happly, Nat.add_assoc, Nat.add_comm 1 j]

/-! ## Discovery -/

/-- The rule that reads in a state what another rule reads, and changes nothing. Discovery has the
same rows for both. -/
def probe (q : String) (rule : Rule) : Rule :=
  ⟨q, rule.read, q, rule.read, List.replicate rule.read.length .stay⟩

variable {q : String} {rules : List Rule} {k : Nat}

theorem discoveryRows_probe (a : Alphabet) (q : String) (rules : List Rule) (k : Nat) :
    discoveryRows a q (rules.map (probe q)) k = discoveryRows a q rules k := by
  have hcandidates : ∀ s, candidates a (rules.map (probe q)) s = candidates a rules s := by
    intro s
    have hagrees : agrees a s ∘ probe q = agrees a s := rfl
    simp only [candidates, List.filter_map, List.filterMap_map, hagrees]
    rfl
  have hundetermined : ∀ n, undetermined a q (rules.map (probe q)) n =
      undetermined a q rules n := by
    intro n
    simp only [undetermined, List.map_map]
    rfl
  have hdetermined : (determined a q (rules.map (probe q))).flatMap (handOverRows a) =
      (determined a q rules).flatMap (handOverRows a) := by
    simp only [determined, List.map_map, List.flatMap_map]
    rfl
  simp only [discoveryRows, advanceRows, hcandidates, hundetermined, hdetermined]

theorem fits_probe (ha : a.Proper) (hlen : ∀ rule ∈ rules, rule.read.length = k)
    (hreads : ∀ rule ∈ rules, ∀ c ∈ rule.read, c ∈ a.symbols) : Fits a (rules.map (probe q)) k where
  proper := ha
  functional := by
    intro r hr r' hr' h
    obtain ⟨rule, -, rfl⟩ := List.mem_map.mp hr
    obtain ⟨rule', -, rfl⟩ := List.mem_map.mp hr'
    have hread : rule.read = rule'.read := congrArg Prod.snd h
    simp only [probe, hread]
  lengths := by
    intro r hr
    obtain ⟨rule, hrule, rfl⟩ := List.mem_map.mp hr
    simp [probe, hlen rule hrule]
  symbols := by
    intro r hr c hc
    obtain ⟨rule, hrule, rfl⟩ := List.mem_map.mp hr
    exact hreads rule hrule c (by simpa [Rule.symbols, probe] using hc)

theorem mem_discoveryRows_probe (hlen : ∀ rule ∈ rules, rule.read.length = k) :
    r ∈ discoveryRows a q rules k ↔ ∃ rule ∈ rules.map (probe q), Discovers a rule r := by
  rw [← discoveryRows_probe]
  refine mem_discoveryRows (fun rule hr => ?_) fun rule hr => ?_
  · obtain ⟨rule', -, rfl⟩ := List.mem_map.mp hr
    rfl
  · obtain ⟨rule', hrule', rfl⟩ := List.mem_map.mp hr
    exact hlen rule' hrule'

/-- **The rows of discovery do not conflict**, whatever the rules do. -/
theorem functional_discoveryRows (ha : a.Proper) (hlen : ∀ rule ∈ rules, rule.read.length = k)
    (hreads : ∀ rule ∈ rules, ∀ c ∈ rule.read, c ∈ a.symbols) :
    Functional Row.domain (discoveryRows a q rules k) := by
  intro r hr r' hr' h
  obtain ⟨rule, hrule, hd⟩ := (mem_discoveryRows_probe hlen).mp hr
  obtain ⟨rule', hrule', hd'⟩ := (mem_discoveryRows_probe hlen).mp hr'
  exact hd.unique (fits_probe (q := q) ha hlen hreads) hrule hrule' hd' (congrArg Prod.fst h)
    (congrArg Prod.snd h)

/-- Discovery walks by rows that pass. -/
theorem allows_passes {rule : Rule} (hrule : rule ∈ rules) :
    AllowsDiscovery a rule fun _ r => (∃ rule ∈ rules, Discovers a rule r) ∧ Passes r :=
  fun _ _ hr hmove _ => ⟨⟨rule, hrule, hr⟩, hr.write_eq, hmove⟩

section Search

variable {strips front back : List Strip} {s : Strip} {rule : Rule}

/-- The single tape, cut at the mark of a head. -/
theorem Entered.cells_eq (hx : Entered a q (front ++ s :: back) x) :
    x.cells = (Symbol.boundary :: front.flatMap (Strip.cells a) ++ s.before) ++
      a.marker s.under :: (s.rest ++ (back.flatMap (Strip.cells a) ++ [Symbol.tapeEnd])) := by
  rw [hx.cells]
  simp [Strip.layout, Strip.cells]

theorem prefixState_of_prefix {reads : List Symbol} (hq : rule.state = q)
    (h : reads <+: rule.read) :
    prefixState a rule reads.length = discovered a q reads := by
  rw [prefixState, hq, ← List.prefix_iff_eq_take.mp h]

/-- Discovery reaches a head if a rule reads the symbols under the heads in front of it. -/
theorem sweep_to_head (hf : Functional Row.domain rows)
    (hrows : ∀ r, (∃ rule ∈ rules, Discovers a rule r) → r ∈ rows) (hrule : rule ∈ rules)
    (hq : rule.state = q) (hx : Entered a q (front ++ s :: back) x)
    (hover : ∀ y ∈ front ++ s :: back, y.Over a) (hread : front.map Strip.read <+: rule.read)
    (hlen : front.length < rule.read.length) :
    SweepsRight rows x ⟨discovered a q (front.map Strip.read), x.cells,
      (Symbol.boundary :: front.flatMap (Strip.cells a) ++ s.before).length⟩ := by
  have hwalk := hx.reach_head (allows_passes hrule) hq hover hread hlen
  have hstate := prefixState_of_prefix (a := a) hq hread
  rw [List.length_map] at hstate
  rw [ahead, ← hx.cells_eq, hstate] at hwalk
  refine run_rightwards hf (fun _ r hr => ⟨hrows r hr.1, hr.2⟩) hwalk ?_
  rw [hx.cells_eq]
  simp

/-- Discovery passes the last head if a rule reads the symbols under all heads. -/
theorem sweep_past_last (hf : Functional Row.domain rows)
    (hrows : ∀ r, (∃ rule ∈ rules, Discovers a rule r) → r ∈ rows) (hrule : rule ∈ rules)
    (hq : rule.state = q) (hx : Entered a q (front ++ [s]) x) (hover : ∀ y ∈ front ++ [s], y.Over a)
    (hread : (front ++ [s]).map Strip.read = rule.read) :
    SweepsRight rows x ⟨discovered a q rule.read, x.cells,
      (Symbol.boundary :: front.flatMap (Strip.cells a) ++ s.before).length + 1⟩ := by
  have hlen : rule.read.length = front.length + 1 := by
    rw [← hread]
    simp
  have hget : rule.read[front.length]? = some s.read := by
    rw [← hread]
    simp
  have hfront : front.map Strip.read <+: rule.read := by
    rw [← hread, List.map_append]
    exact List.prefix_append ..
  have hwalk := hx.reach_head (allows_passes hrule) hq hover hfront (by omega)
  have hrecord := record_walk (a := a)
    (u := Symbol.boundary :: front.flatMap (Strip.cells a) ++ s.before)
    (v := s.rest ++ ([].flatMap (Strip.cells a) ++ [Symbol.tapeEnd]))
    (allows_passes hrule) hget (by simp) (by simp)
  have hend : ahead (prefixState a rule (front.length + 1))
      (Symbol.boundary :: front.flatMap (Strip.cells a) ++ s.before ++ [a.marker s.under])
      (s.rest ++ ([].flatMap (Strip.cells a) ++ [Symbol.tapeEnd])) =
      ⟨discovered a q rule.read, x.cells,
        (Symbol.boundary :: front.flatMap (Strip.cells a) ++ s.before).length + 1⟩ := by
    rw [← hlen, prefixState_of_prefix hq List.prefix_rfl, hx.cells_eq, ahead]
    simp [Nat.add_assoc]
  rw [hend] at hrecord
  refine run_rightwards hf (fun _ r hr => ⟨hrows r hr.1, hr.2⟩) (hwalk.tail hrecord) ?_
  simp only [hx.cells_eq, List.length_append, List.length_cons, List.length_nil]
  omega

/-- Discovery halts at a head if no rule reads the symbols up to it. -/
theorem step_of_not_agrees (hfits : Fits a rules k) (hf : Functional Row.domain rows)
    (hrows : ∀ r, r ∈ rows → ∃ rule ∈ rules, Discovers a rule r) (hrule : rule ∈ rules)
    (hq : rule.state = q) (hx : Entered a q (front ++ s :: back) x) (hs : s.Over a)
    (hread : front.map Strip.read <+: rule.read) (hlen : front.length < k)
    (hno : ¬ Agrees rules q (front ++ [s])) :
    Instant.step rows ⟨discovered a q (front.map Strip.read), x.cells,
      (Symbol.boundary :: front.flatMap (Strip.cells a) ++ s.before).length⟩ = none := by
  have hstuck : Stuck a true rules (ahead (prefixState a rule front.length)
      (Symbol.boundary :: front.flatMap (Strip.cells a) ++ s.before)
      (a.marker s.under :: (s.rest ++ (back.flatMap (Strip.cells a) ++ [Symbol.tapeEnd])))) :=
    stuck_of_not_agrees hfits hrule hq hs hread hlen hno _ _
  have hstate := prefixState_of_prefix (a := a) hq hread
  rw [List.length_map] at hstate
  rw [ahead, ← hx.cells_eq, hstate] at hstuck
  refine Option.map_eq_none_iff.mpr (Option.eq_none_iff_forall_ne_some.mpr fun r hr => ?_)
  obtain ⟨hmem, hst, hrd⟩ := (rowFor?_of_functional hf).mp hr
  obtain ⟨rule', hrule', hd⟩ := hrows r hmem
  exact hstuck rule' hrule' r (.discover hd) (Prod.ext hst hrd)

theorem agrees_probe : Agrees (rules.map (probe q)) q strips ↔
    ∃ rule ∈ rules, strips.map Strip.read <+: rule.read := by
  simp [Agrees, probe]

/-- If no rule reads the symbols under all heads, there is a last head up to which some rule
does. -/
theorem exists_stopping_head (hne : rules ≠ [])
    (hlen : ∀ rule ∈ rules, rule.read.length = strips.length)
    (hno : ∀ rule ∈ rules, rule.read ≠ strips.map Strip.read) :
    ∃ front s back, strips = front ++ s :: back ∧ Agrees (rules.map (probe q)) q front ∧
      ¬ Agrees (rules.map (probe q)) q (front ++ [s]) := by
  refine exists_last_agreement [] strips ?_ ?_
  · rw [List.nil_append, agrees_probe]
    rintro ⟨rule, hrule, hpre⟩
    exact hno rule hrule (hpre.eq_of_length (by simp [hlen rule hrule])).symm
  · obtain ⟨rule, hrule⟩ := List.exists_mem_of_ne_nil rules hne
    exact agrees_probe.mpr ⟨rule, hrule, List.nil_prefix⟩

/-! ### On encoded tapes -/

variable {t : Tapes}

/-- A cell at or left of the first head is a start for discovery. -/
theorem entered_of_le_headCell {start : Nat}
    (hstrips : List.zipWith Strip.ofTape t.tapes t.heads = strips) (hne : strips ≠ [])
    (hstart : start ≤ t.headCell 0) :
    Entered a q strips ⟨State.source q, Strip.layout a strips, start⟩ := by
  obtain ⟨s, rest, rfl⟩ := List.exists_cons_of_ne_nil hne
  have hsplit : List.zipWith Strip.ofTape t.tapes t.heads = [] ++ s :: rest := hstrips
  have hfirst := Strip.headCell_eq (a := a) hsplit
  simp only [List.length_nil, List.flatMap_nil, List.nil_append, List.length_cons,
    List.cons_append] at hfirst
  refine ⟨rfl, rfl, s, rest, rfl, ?_⟩
  show start ≤ s.before.length + 1
  omega

/-- If a rule reads the symbols under the heads, discovery comes to the cell right of the last head
and knows these symbols there. -/
theorem sweep_of_match (ha : a.Proper) (hlen : ∀ rule ∈ rules, rule.read.length = k)
    (hreads : ∀ rule ∈ rules, ∀ c ∈ rule.read, c ∈ a.symbols)
    (hstrips : List.zipWith Strip.ofTape t.tapes t.heads = strips)
    (hover : ∀ y ∈ strips, y.Over a) (hx : Entered a q strips x) (hrule : rule ∈ rules)
    (hread : rule.read = t.underHeads) :
    SweepsRight (discoveryRows a q rules k) x
      ⟨discovered a q t.underHeads, x.cells, t.headCell (k - 1) + 1⟩ := by
  have hunder : strips.map Strip.read = t.underHeads := hstrips ▸ Strip.map_read_ofTape t
  obtain ⟨front, s, rfl⟩ := hx.exists_last
  have hlast : k - 1 = front.length := by
    rw [← hlen rule hrule, hread, ← hunder]
    simp
  have hprobe : probe q rule ∈ rules.map (probe q) := List.mem_map_of_mem hrule
  rw [hlast, Strip.headCell_eq (a := a) hstrips, ← hread]
  show SweepsRight _ x ⟨discovered a q (probe q rule).read, x.cells, _⟩
  exact sweep_past_last (functional_discoveryRows ha hlen hreads)
    (fun r => (mem_discoveryRows_probe hlen).mpr) hprobe rfl hx hover (hunder.trans hread.symm)

/-- If no rule reads the symbols under the heads, discovery halts on a head, where it knows the
symbols in front of it. Some rule begins with these, and none with any more of them. -/
theorem halt_of_no_match (ha : a.Proper) (hne : rules ≠ [])
    (hlen : ∀ rule ∈ rules, rule.read.length = k)
    (hreads : ∀ rule ∈ rules, ∀ c ∈ rule.read, c ∈ a.symbols)
    (hstrips : List.zipWith Strip.ofTape t.tapes t.heads = strips) (hcount : strips.length = k)
    (hover : ∀ y ∈ strips, y.Over a) (hx : Entered a q strips x)
    (hno : ∀ rule ∈ rules, rule.read ≠ t.underHeads) :
    ∃ j < k,
      SweepsRight (discoveryRows a q rules k) x
        ⟨discovered a q (t.underHeads.take j), x.cells, t.headCell j⟩ ∧
      Instant.step (discoveryRows a q rules k)
        ⟨discovered a q (t.underHeads.take j), x.cells, t.headCell j⟩ = none ∧
      (∃ rule ∈ rules, t.underHeads.take j <+: rule.read) ∧
      ∀ i, j < i → ∀ rule ∈ rules, ¬ t.underHeads.take i <+: rule.read := by
  have hfits : Fits a (rules.map (probe q)) k := fits_probe ha hlen hreads
  have hf := functional_discoveryRows (q := q) ha hlen hreads
  have hunder : strips.map Strip.read = t.underHeads := hstrips ▸ Strip.map_read_ofTape t
  rw [← hunder] at hno
  obtain ⟨front, s, back, rfl, hfront, hstop⟩ := exists_stopping_head (q := q) hne
    (fun rule hr => (hlen rule hr).trans hcount.symm) hno
  have hlt : front.length < k := by
    rw [← hcount]
    simp
  have htake : t.underHeads.take front.length = front.map Strip.read := by
    rw [← hunder]
    simp
  obtain ⟨rule, hrule, hq, hpre⟩ := id hfront
  refine ⟨front.length, hlt, ?_, ?_, ?_, ?_⟩
  · rw [htake, Strip.headCell_eq (a := a) hstrips]
    exact sweep_to_head hf (fun r => (mem_discoveryRows_probe hlen).mpr) hrule hq hx hover hpre
      (hlt.trans_eq (hfits.lengths rule hrule).1.symm)
  · rw [htake, Strip.headCell_eq (a := a) hstrips]
    exact step_of_not_agrees hfits hf (fun r => (mem_discoveryRows_probe hlen).mp) hrule hq hx
      (hover s (by simp)) hpre hlt hstop
  · rw [htake]
    exact agrees_probe.mp hfront
  · -- a rule that begins with more symbols agrees up to this head as well
    intro i hi rule hrule hlonger
    have hsucc : t.underHeads.take (front.length + 1) = (front ++ [s]).map Strip.read := by
      have hlist : front ++ s :: back = (front ++ [s]) ++ back := by simp
      rw [← hunder, hlist, List.map_append]
      exact List.take_left' (by simp)
    refine hstop (agrees_probe.mpr ⟨rule, hrule, ?_⟩)
    rw [← hsucc]
    exact (List.take_prefix_take_left hi).trans hlonger

end Search

/-- **Discovery finds a rule for the symbols under the heads, or halts at the longest match.** The
rows of discovery for a state and some rules are run on encoded tapes, from a cell at or left of the
first head. They lead right and leave the tape as it is. If a rule reads the symbols under the
heads, a head past the end of its tape reading a blank, the machine comes to the cell right of the
last head in the state that knows these symbols, and a rule that reads them is determined there.
Otherwise it halts on a head, in the state that knows the symbols under the heads in front of it;
some rule begins with these, and none with any more of them. -/
theorem discovery_finds_rule (m : Machine) (iteration k : Nat) (q : String) (rules : List Rule)
    (t : Tapes) (start : Nat) (hne : rules ≠ []) (hk : 0 < k)
    (hlen : ∀ rule ∈ rules, rule.read.length = k)
    (hreads : ∀ rule ∈ rules, ∀ c ∈ rule.read, c ∈ (m.alphabet iteration).symbols)
    (htapes : t.tapes.length = k) (hheads : t.heads.length = k)
    (hsymbols : ∀ tape ∈ t.tapes, ∀ c ∈ tape, c ∈ (m.alphabet iteration).symbols)
    (hstart : start ≤ t.headCell 0) :
    ∃ cells, t.encode iteration = .ok cells ∧
      ((∃ rule ∈ rules, rule.read = t.underHeads) →
        SweepsRight (discoveryRows (m.alphabet iteration) q rules k) ⟨State.source q, cells, start⟩
          ⟨discovered (m.alphabet iteration) q t.underHeads, cells, t.headCell (k - 1) + 1⟩ ∧
        ∃ d ∈ determined (m.alphabet iteration) q rules,
          d.state = discovered (m.alphabet iteration) q t.underHeads ∧ d.rule.read = t.underHeads) ∧
      ((∀ rule ∈ rules, rule.read ≠ t.underHeads) → ∃ j < k,
        SweepsRight (discoveryRows (m.alphabet iteration) q rules k) ⟨State.source q, cells, start⟩
          ⟨discovered (m.alphabet iteration) q (t.underHeads.take j), cells, t.headCell j⟩ ∧
        Instant.step (discoveryRows (m.alphabet iteration) q rules k)
          ⟨discovered (m.alphabet iteration) q (t.underHeads.take j), cells, t.headCell j⟩ = none ∧
        (∃ rule ∈ rules, t.underHeads.take j <+: rule.read) ∧
        ∀ i, j < i → ∀ rule ∈ rules, ¬ t.underHeads.take i <+: rule.read) := by
  have ha : (m.alphabet iteration).Proper := Alphabet.proper_ofMachine_escape m iteration
  have hencode := Strip.encode_of_symbols ha (List.ne_nil_of_length_pos (by omega)) (by omega)
    hsymbols
  have hover := Strip.over_zipWith_ofTape ha hsymbols
  have hcount : (List.zipWith Strip.ofTape t.tapes t.heads).length = k := by
    rw [List.length_zipWith, htapes, hheads, Nat.min_self]
  have hx := entered_of_le_headCell (a := m.alphabet iteration) (q := q) rfl
    (List.ne_nil_of_length_pos (hcount ▸ hk)) hstart
  refine ⟨_, hencode, ?_, halt_of_no_match ha hne hlen hreads rfl hcount hover hx⟩
  rintro ⟨rule, hrule, hread⟩
  exact ⟨sweep_of_match ha hlen hreads rfl hover hx hrule hread, ⟨_, rule⟩,
    List.mem_map_of_mem hrule, congrArg (discovered _ q) hread, hread⟩

/-- Tapes on which the machine over reserved symbols has a rule; the second head is past the end of
its tape. -/
def matchedInput : Tapes := ⟨[[⟨"\\#\\"⟩], []], [0, 2]⟩

/-- Tapes on which it has none: the second head is not on a blank. -/
def unmatchedInput : Tapes := ⟨[[⟨"\\#\\"⟩], [⟨"\\$\\"⟩]], [0, 0]⟩

theorem discovery_exchange :
    SweepsRight
      (discoveryRows (Machine.exchange.alphabet 1) "q" (Machine.exchange.escape 1).rules 2)
      ⟨State.source "q", ["#", "\\#\\.1", "#", "_", "_", "#.1", "$"].map Symbol.mk, 0⟩
      ⟨⟨"q", [⟨"\\#\\.1"⟩, ⟨"_.1"⟩], .discover⟩,
        ["#", "\\#\\.1", "#", "_", "_", "#.1", "$"].map Symbol.mk, 6⟩ ∧
    SweepsRight
      (discoveryRows (Machine.exchange.alphabet 1) "q" (Machine.exchange.escape 1).rules 2)
      ⟨State.source "q", ["#", "\\#\\.1", "#", "\\$\\.1", "#", "$"].map Symbol.mk, 1⟩
      ⟨⟨"q", [⟨"\\#\\.1"⟩], .discover⟩,
        ["#", "\\#\\.1", "#", "\\$\\.1", "#", "$"].map Symbol.mk, 3⟩ ∧
    Instant.step
      (discoveryRows (Machine.exchange.alphabet 1) "q" (Machine.exchange.escape 1).rules 2)
      ⟨⟨"q", [⟨"\\#\\.1"⟩], .discover⟩,
        ["#", "\\#\\.1", "#", "\\$\\.1", "#", "$"].map Symbol.mk, 3⟩ = none := by
  have hmem : ∀ x ∈ (Machine.exchange.escape 1).symbols,
      x ∈ (Machine.exchange.alphabet 1).symbols :=
    fun x hx => Alphabet.mem_symbols_ofMachine.mpr (.inr hx)
  have hlen : ∀ rule ∈ (Machine.exchange.escape 1).rules, rule.read.length = 2 := by decide
  have hreads : ∀ rule ∈ (Machine.exchange.escape 1).rules, ∀ x ∈ rule.read,
      x ∈ (Machine.exchange.alphabet 1).symbols :=
    fun rule hr x hx => hmem x (List.mem_flatMap.mpr ⟨rule, hr, List.mem_append_left _ hx⟩)
  have hmatched : ∀ tape ∈ matchedInput.tapes, ∀ x ∈ tape,
      x ∈ (Machine.exchange.escape 1).symbols := by decide
  have hunmatched : ∀ tape ∈ unmatchedInput.tapes, ∀ x ∈ tape,
      x ∈ (Machine.exchange.escape 1).symbols := by decide
  constructor
  · obtain ⟨cells, hcells, hfound, -⟩ := discovery_finds_rule Machine.exchange 1 2 "q"
      (Machine.exchange.escape 1).rules matchedInput 0 (by decide) (by decide) hlen hreads rfl rfl
      (fun tape ht x hx => hmem x (hmatched tape ht x hx)) (by decide)
    have hcode : matchedInput.encode 1 =
        .ok (["#", "\\#\\.1", "#", "_", "_", "#.1", "$"].map Symbol.mk) := by
      decide
    have hstate : discovered (Machine.exchange.alphabet 1) "q" matchedInput.underHeads =
        ⟨"q", [⟨"\\#\\.1"⟩, ⟨"_.1"⟩], .discover⟩ := by decide
    obtain rfl := Except.ok.inj (hcode.symm.trans hcells)
    have hsweep := (hfound (by decide)).1
    rw [hstate] at hsweep
    exact hsweep
  · obtain ⟨cells, hcells, -, hhalts⟩ := discovery_finds_rule Machine.exchange 1 2 "q"
      (Machine.exchange.escape 1).rules unmatchedInput 1 (by decide) (by decide) hlen hreads rfl rfl
      (fun tape ht x hx => hmem x (hunmatched tape ht x hx)) (by decide)
    have hcode : unmatchedInput.encode 1 =
        .ok (["#", "\\#\\.1", "#", "\\$\\.1", "#", "$"].map Symbol.mk) := by decide
    have hstate : discovered (Machine.exchange.alphabet 1) "q" (unmatchedInput.underHeads.take 1) =
        ⟨"q", [⟨"\\#\\.1"⟩], .discover⟩ := by decide
    obtain rfl := Except.ok.inj (hcode.symm.trans hcells)
    obtain ⟨j, hj, hsweep, hstop, -, hlongest⟩ := hhalts (by decide)
    obtain rfl : j = 1 := by
      by_contra hne
      exact hlongest 1 (by omega) _ List.mem_cons_self (by decide)
    rw [hstate] at hsweep hstop
    exact ⟨hsweep, hstop⟩

/-! ## Shifts -/

variable {owner s s' : State} {side : Side} {resume : Resume} {u v : List Symbol} {c w : Symbol}

/-- **The rows of a shift do not conflict**, whatever it resumes with. -/
theorem functional_shiftRows (ha : a.Proper) :
    Functional Row.domain (shiftRows a owner side resume) :=
  fun _ hr _ hr' h => (mem_shiftRows.mp hr).unique ha (mem_shiftRows.mp hr') (congrArg Prod.fst h)
    (congrArg Prod.snd h)

theorem Shifts.exists_extension (h : Shifts a owner side resume r) :
    ∃ step, r.state = owner.extension side step := by
  cases h with
  | relay | moveEnd | turn => exact ⟨.shift _, rfl⟩
  | comeBack | resume => exact ⟨.comeBack, rfl⟩

/-- An instant with the head one cell further in a direction. Left of the first cell stands a
blank. -/
def Instant.moved (x : Instant) : Direction → Instant
  | .stay => x
  | .right => ⟨x.state, x.cells, x.position + 1⟩
  | .left =>
    if x.position = 0 then ⟨x.state, Symbol.blank :: x.cells, 0⟩
    else ⟨x.state, x.cells, x.position - 1⟩

theorem Instant.apply_eq_moved (d : Direction) (hv : v ≠ []) :
    (ahead s u (c :: v)).apply ⟨s, c, s', w, d⟩ = (ahead s' u (w :: v)).moved d := by
  cases d with
  | stay => exact apply_stay s s' u v c w
  | right =>
    rw [apply_right s s' u c w hv]
    simp [ahead, moved]
  | left =>
    by_cases hu : u = []
    · subst hu
      simp [apply, ahead, moved, Tapes.act, Tapes.padTo]
    · rw [apply_left s s' v c w hu]
      simp [ahead, behind, moved, hu]

/-- **A shift inserts one cell, loses nothing and goes on at the return mark.** It starts right of a
return mark with a symbol to carry, on a tape that ends in a tape end and some blanks; the last cell
in front of the tape end, or the carried symbol if there is none, is an edge. The machine comes to
the resume state with the resume symbol in place of the return mark, the carried symbol and all that
followed one cell further right, and the head one move away from where the return mark was. Until
then it is in extension states of the owner. -/
theorem shift_inserts_cell (m : Machine) (iteration : Nat) (owner : State) (side : Side)
    (resume : Resume) (u v : List Symbol) (c : Symbol) (blanks : Nat)
    (hc : c ∈ (m.alphabet iteration).library) (hv : ∀ x ∈ v, x ∈ (m.alphabet iteration).library)
    (hlast : (m.alphabet iteration).IsEdge ((c :: v).getLast (List.cons_ne_nil c v))) :
    ∃ n, Instant.run (shiftRows (m.alphabet iteration) owner side resume) n
        ⟨shifting owner side c, u ++ Symbol.returnMark :: v ++ Symbol.tapeEnd ::
          List.replicate blanks Symbol.blank, u.length + 1⟩ =
        some (Instant.moved ⟨resume.state, u ++ resume.write :: c :: v ++ Symbol.tapeEnd ::
          List.replicate (blanks - 1) Symbol.blank, u.length⟩ resume.move) ∧
      ∀ j < n, ∃ x step, Instant.run (shiftRows (m.alphabet iteration) owner side resume) j
        ⟨shifting owner side c, u ++ Symbol.returnMark :: v ++ Symbol.tapeEnd ::
          List.replicate blanks Symbol.blank, u.length + 1⟩ = some x ∧
        x.state = owner.extension side step := by
  have ha : (m.alphabet iteration).Proper := Alphabet.proper_ofMachine_escape m iteration
  have hshift := shift_walk (u := u) (n := blanks)
    (T := fun _ => Shifts (m.alphabet iteration) owner side resume) hc hv hlast fun _ _ _ hr => hr
  have hresume : Walks (fun _ => Shifts (m.alphabet iteration) owner side resume)
      (ahead (comingBack owner side) u (Symbol.returnMark :: c :: (v ++ Symbol.tapeEnd ::
        List.replicate (blanks - 1) Symbol.blank)))
      ((ahead resume.state u (resume.write :: c :: (v ++ Symbol.tapeEnd ::
        List.replicate (blanks - 1) Symbol.blank))).moved resume.move) :=
    ⟨_, .resume, Prod.ext rfl (symbol_ahead ..).symm, (apply_eq_moved _ (by simp)).symm⟩
  obtain ⟨n, hrun, hvisit⟩ := run_of_walks (functional_shiftRows ha) (fun _ _ => mem_shiftRows.mpr)
    (hshift.tail hresume)
  simp only [ahead, List.append_assoc, List.cons_append, List.nil_append, List.length_append,
    List.length_singleton] at hrun hvisit ⊢
  refine ⟨n, hrun, fun j hj => ?_⟩
  obtain ⟨x, r, hx, hr, hstate⟩ := hvisit j hj
  obtain ⟨step, hstep⟩ := hr.exists_extension
  exact ⟨x, step, hx, hstate ▸ hstep⟩

/-- A shift on an otherwise empty tape, which resumes with a move off its left end. -/
theorem shift_inserts_cell_leftmost : ∃ n,
    Instant.run
      (shiftRows (Machine.exchange.alphabet 1) (State.source "q") .left
        ⟨State.source "h", ⟨"_.1"⟩, .left⟩)
      n ⟨shifting (State.source "q") .left ⟨"\\#\\"⟩, ["R", "#.1", "$", "_"].map Symbol.mk, 1⟩ =
      some ⟨State.source "h", ["_", "_.1", "\\#\\", "#.1", "$"].map Symbol.mk, 0⟩ := by
  have hsymbol : (⟨"\\#\\"⟩ : Symbol) ∈ (Machine.exchange.alphabet 1).library := by
    refine Alphabet.mem_library_of_mem_unmarked (List.mem_append_left _ ?_)
    exact Alphabet.mem_symbols_ofMachine.mpr (.inr (by decide))
  have hedge : (Machine.exchange.alphabet 1).IsEdge ⟨"#.1"⟩ := .inr rfl
  obtain ⟨n, hrun, -⟩ := shift_inserts_cell Machine.exchange 1 (State.source "q") .left
    ⟨State.source "h", ⟨"_.1"⟩, .left⟩ [] [⟨"#.1"⟩] ⟨"\\#\\"⟩ 1 hsymbol
    (by simpa using hedge.mem_library) hedge
  exact ⟨n, hrun⟩

end Table
end OneTape
