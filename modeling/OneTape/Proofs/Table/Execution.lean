import OneTape.Proofs.Table.Determinism
import OneTape.Proofs.Table.Discovery
import OneTape.Proofs.Table.Emission
import OneTape.Proofs.Table.Shift

/-!
# The sweep to the left at work

A determined state serves the heads from the last to the first. To serve a head is to act on its
strip and to mark its new place, and takes an extension where the strip has no room. A table may
lack the extension at left ends. A head that goes off the left end of its strip is then not served.

Results:
* `extendLeft_walk`, `extendRight_walk`: the extensions at the two ends of a strip.
* `serve`, `leave`: one head is served, or comes to a halt at the left end of its strip.
* `hand_over`, `execute_strips`: a determined state goes back to the last head, and then serves all
  heads.
* `execute_leaving`, `stuck_of_blocked`: without left extensions it halts at the first head that has
  no room.
-/

namespace OneTape.Table

open Instant Relation

variable {a : Alphabet} {rule : Rule} {rules : List Rule} {T : Nat → Row → Prop} {k n i : Nat}
  {x w c e : Symbol} {d : Direction} {u v t : List Symbol} {s : Strip} {strips : List Strip}
  {left : Bool}

/-- The rows of a rule are allowed with extensions at right ends and, if `left` says so, at left
ends, save those that end the simulated step. At the left end of the tape a row has to keep the
boundary and must not leave the tape. -/
def Allows (a : Alphabet) (left : Bool) (rule : Rule) (T : Nat → Row → Prop) : Prop :=
  ∀ n r, Emits a ⟨left, true⟩ rule r → r.state.phase ≠ .complete →
    (n = 0 → r.write = Symbol.boundary ∧ r.move ≠ .left) → T n r

namespace Allows

theorem inside (hA : Allows a left rule T) (hu : u ≠ []) {r : Row}
    (hr : Emits a ⟨left, true⟩ rule r) (hp : r.state.phase ≠ .complete) : T u.length r :=
  hA _ r hr hp fun h => absurd h (by simpa using hu)

theorem discovery (hA : Allows a left rule T) : AllowsDiscovery a rule T := by
  intro m r hr hmove hzero
  refine hA m r (.discover hr) ?_ fun h => ⟨hzero h, by simp [hmove]⟩
  cases hr <;> exact nofun

theorem shifts (hA : Allows a left rule T) {owner : State} {side : Side} {resume : Resume}
    (hu : u ≠ []) (h : ∀ r, Shifts a owner side resume r → Emits a ⟨left, true⟩ rule r) :
    ∀ m, u.length ≤ m → ∀ r, Shifts a owner side resume r → T m r := by
  intro m hm r hr
  have hpos : 0 < u.length := List.length_pos_iff.mpr hu
  refine hA m r (h r hr) ?_ fun h => by omega
  cases hr <;> exact nofun

end Allows

/-- The head is on the new place of its mark, or one cell left of it. -/
def Served (a : Alphabet) (rule : Rule) (i : Nat) (u v : List Symbol) (z : Instant) : Prop :=
  z = behind (ruleState a rule (afterPhase i)) u v ∨
    i = 0 ∧ z = ahead (ruleState a rule (afterPhase i)) u v

/-- A row that marks the new place of a head ends its service. -/
theorem served_of_row {st : State} (hu : u ≠ [])
    (h : T u.length ⟨st, c, ruleState a rule (afterPhase i), x, placeMove i⟩) :
    ∃ z, Walks T (ahead st u (c :: v)) z ∧ Served a rule i u (x :: v) z := by
  by_cases hi : i = 0
  · subst hi
    exact ⟨_, Walks.stay h, .inr ⟨rfl, rfl⟩⟩
  · rw [placeMove, if_neg hi] at h
    exact ⟨_, Walks.left hu h, .inl rfl⟩

/-! ## Extensions -/

/-- The cells from a boundary on end in an edge. -/
theorem isEdge_getLast {y l : List Symbol} (hy : ∀ e ∈ y.getLast?, a.IsEdge e)
    (h : l ++ Symbol.boundary :: y ≠ []) : a.IsEdge ((l ++ Symbol.boundary :: y).getLast h) := by
  rw [List.getLast_append_of_ne_nil _ (List.cons_ne_nil _ _)]
  rcases List.eq_nil_or_concat y with rfl | ⟨y', e, rfl⟩
  · exact .inl rfl
  · simpa using hy e (by simp)

/-- A head past the left end of its strip gets a blank cell there. -/
theorem extendLeft_walk (hA : Allows a true rule T) (hi : ActsAt rule i x w .left) (he : a.IsEdge e)
    (hfirst : u = [] → e = Symbol.boundary) (hc : c ∈ a.unmarked) (ht : ∀ y ∈ t, y ∈ a.library)
    (hlast : a.IsEdge ((c :: t).getLast (List.cons_ne_nil c t))) :
    ∃ z, ReflTransGen (Walks T)
        (behind (ruleState a rule (.active (i + 1))) (u ++ [e]) (c :: (t ++ [Symbol.tapeEnd]))) z ∧
      Served a rule i (u ++ [e]) (a.blankMarker :: c :: (t ++ [Symbol.tapeEnd])) z := by
  have hne : u ++ [e] ≠ [] := by simp
  have hrow : ∀ r, ExtendsLeft a (ruleState a rule (.active (i + 1)))
      ⟨ruleState a rule (afterPhase i), a.blankMarker, placeMove i⟩ r →
      Emits a ⟨true, true⟩ rule r :=
    fun r hr => .extendLeft rfl hi hr
  -- back onto the cell that the head left, which gives its place to the return mark
  have hedge : Walks T (ahead (ruleState a rule (.active (i + 1))) u
      (e :: c :: (t ++ [Symbol.tapeEnd])))
      (ahead ((ruleState a rule (.active (i + 1))).extension .left .realign) (u ++ [e])
        (c :: (t ++ [Symbol.tapeEnd]))) := by
    refine Walks.right (by simp) (hA _ _ (hrow _ (.edge he)) nofun fun h => ?_)
    exact ⟨hfirst (List.length_eq_zero_iff.mp h), nofun⟩
  have hrealign : Walks T
      (ahead ((ruleState a rule (.active (i + 1))).extension .left .realign) (u ++ [e])
        (c :: (t ++ [Symbol.tapeEnd])))
      (ahead (shifting (ruleState a rule (.active (i + 1))) .left c)
        (u ++ [e] ++ [Symbol.returnMark]) (t ++ [Symbol.tapeEnd])) :=
    Walks.right (by simp) (hA.inside hne (hrow _ (.realign hc)) nofun)
  have hshift := shift_walk (n := 0) (Alphabet.mem_library_of_mem_unmarked hc) ht hlast
    (hA.shifts hne fun r hr => hrow r (.shift hr))
  obtain ⟨z, hz, hserved⟩ := served_of_row (v := c :: (t ++ [Symbol.tapeEnd])) hne
    (hA.inside hne (hrow _ (.shift .resume)) nofun)
  rw [behind_concat]
  exact ⟨z, .head hedge (.head hrealign (hshift.trans (.single hz))), hserved⟩

/-- A head past the right end of its strip gets a blank cell there. -/
theorem extendRight_walk (hA : Allows a left rule T) (hi : ActsAt rule i Symbol.blank w d)
    (ho : overwritesEdge a (edgeResolution a rule i w d) = true) (hu : u ≠ [])
    (ht : ∀ y ∈ t, y ∈ a.library) (hlast : ∀ e ∈ t.getLast?, a.IsEdge e) :
    ReflTransGen (Walks T)
      (ahead (ruleState a rule (.actor (i + 1))) u (a.boundaryMarker :: (t ++ [Symbol.tapeEnd])))
      (ahead (ruleState a rule (.actor (i + 1))) u
        (a.blankMarker :: Symbol.boundary :: (t ++ [Symbol.tapeEnd]))) := by
  have hrow : ∀ r, ExtendsRight a (ruleState a rule (.actor (i + 1))) r →
      Emits a ⟨left, true⟩ rule r := fun r hr => .extendRight rfl hi ho hr
  have hanchor : Walks T
      (ahead (ruleState a rule (.actor (i + 1))) u (a.boundaryMarker :: (t ++ [Symbol.tapeEnd])))
      (ahead (shifting (ruleState a rule (.actor (i + 1))) .right Symbol.boundary)
        (u ++ [Symbol.returnMark]) (t ++ [Symbol.tapeEnd])) :=
    Walks.right (by simp) (hA.inside hu (hrow _ .anchor) nofun)
  have hshift := shift_walk (n := 0) (u := u)
    (Alphabet.mem_library_of_mem_unmarked Alphabet.boundary_mem_unmarked) ht
    (isEdge_getLast (l := []) hlast (by simp)) (hA.shifts hu fun r hr => hrow r (.shift hr))
  have hresume : Walks T
      (ahead (comingBack (ruleState a rule (.actor (i + 1))) .right) u
        (Symbol.returnMark :: Symbol.boundary :: (t ++ [Symbol.tapeEnd])))
      (ahead (ruleState a rule (.actor (i + 1))) u
        (a.blankMarker :: Symbol.boundary :: (t ++ [Symbol.tapeEnd]))) :=
    Walks.stay (hA.inside hu (hrow _ (.shift .resume)) nofun)
  exact .head hanchor (hshift.trans (.single hresume))

/-! ## Serving a head -/

/-- The cells in front of a strip: they end in an edge, and the first of them is the plain
boundary. -/
def Opens (a : Alphabet) (q : List Symbol) : Prop :=
  ∃ q' e, q = q' ++ [e] ∧ a.IsEdge e ∧ (q' = [] → e = Symbol.boundary)

theorem Opens.ne_nil {q : List Symbol} (h : Opens a q) : q ≠ [] := by
  obtain ⟨q', e, rfl, -⟩ := h
  simp

/-- The cells behind a strip, in front of the tape end: if there are any, they end in an edge. -/
structure Closes (a : Alphabet) (y : List Symbol) : Prop where
  mem : ∀ c ∈ y, c ∈ a.library
  last : ∀ e ∈ y.getLast?, a.IsEdge e

theorem overwritesEdge_of_read_ne {r : Row} (h : r.read ≠ a.boundaryMarker) :
    overwritesEdge a r = false := by
  rw [Bool.eq_false_iff, ne_eq, overwritesEdge_iff]
  exact fun ho => h ho.2.1

section Serve

variable {q y : List Symbol}

theorem place_walk (ha : a.Proper) (hA : Allows a left rule T) (hi : ActsAt rule i x w d)
    (hd : d ≠ .stay) (hc : c ∈ a.unmarked) (hcd : ¬(c = Symbol.boundary ∧ d = .left))
    (hu : u ≠ []) :
    ∃ z, Walks T (ahead (ruleState a rule (.active (i + 1))) u (c :: v)) z ∧
      Served a rule i u (a.marker c :: v) z :=
  served_of_row hu (hA.inside hu (.execute (.place hi hd hc hcd) fun _ =>
    overwritesEdge_of_read_ne (ha.marker_ne_of_mem_unmarked hc).symm) nofun)

/-- A head that has written and gone right marks the cell it came to. -/
theorem place_right (ha : a.Proper) (hA : Allows a left rule T) (hi : ActsAt rule i x w .right)
    (hs : s.Over a) (hafter : s.after = c :: t) :
    ∃ z, Walks T (ahead (ruleState a rule (.active (i + 1))) (q ++ s.before ++ [c])
        (t ++ Symbol.boundary :: y)) z ∧
      Served a rule i (q ++ (s.move .right).before)
        (a.marker (s.move .right).under :: ((s.move .right).rest ++ y)) z := by
  have hsplit : t ++ Symbol.boundary :: y =
      (s.move .right).under :: ((s.move .right).rest ++ y) := by
    rw [← List.cons_append, Strip.under_cons_rest]
    simp [Strip.move, hafter]
  obtain ⟨z, hz, hserved⟩ := place_walk (v := (s.move .right).rest ++ y)
    (u := q ++ s.before ++ [c]) ha hA hi (by decide) (hs.move ha .right).under_mem
    (fun h => absurd h.2 (by decide)) (by simp)
  refine ⟨z, hsplit ▸ hz, ?_⟩
  simpa [Strip.move, hafter] using hserved

/-- A head that has written and gone left marks the cell it came to, or gets one there. -/
theorem place_left (ha : a.Proper) (hA : Allows a left rule T) (hi : ActsAt rule i x w .left)
    (hs : s.Over a) (hroom : left = true ∨ s.before ≠ []) (hq : Opens a q) (hy : Closes a y) :
    ∃ z, ReflTransGen (Walks T) (behind (ruleState a rule (.active (i + 1))) (q ++ s.before)
        (s.under :: (s.rest ++ (y ++ [Symbol.tapeEnd])))) z ∧
      Served a rule i (q ++ (s.move .left).before)
        (a.marker (s.move .left).under :: ((s.move .left).rest ++ (y ++ [Symbol.tapeEnd]))) z := by
  have hright : s.under :: (s.rest ++ y) = s.after ++ Symbol.boundary :: y := by
    rw [← List.cons_append, Strip.under_cons_rest]
    simp
  rcases List.eq_nil_or_concat s.before with hb | ⟨b, c, hb⟩
  · obtain rfl := hroom.resolve_right (not_not_intro hb)
    obtain ⟨q', e, rfl, he, hfirst⟩ := hq
    have hlib : ∀ c ∈ s.rest ++ y, c ∈ a.library := by
      intro c hc
      rcases List.mem_append.mp hc with hc | hc
      · exact Alphabet.mem_library_of_mem_unmarked (hs.rest_mem c hc)
      · exact hy.mem c hc
    have hlast : a.IsEdge ((s.under :: (s.rest ++ y)).getLast (List.cons_ne_nil _ _)) := by
      simp only [hright]
      exact isEdge_getLast hy.last _
    obtain ⟨z, hz, hserved⟩ := extendLeft_walk hA hi he hfirst hs.under_mem hlib hlast
    rw [Strip.rest_move_left, Strip.under_move_left, Strip.before_move_left, hb]
    exact ⟨z, by simpa using hz, by simpa [Alphabet.blankMarker] using hserved⟩
  · have hc := hs.before_mem c (by simp [hb])
    obtain ⟨z, hz, hserved⟩ := place_walk (u := q ++ b)
      (v := s.under :: (s.rest ++ (y ++ [Symbol.tapeEnd]))) ha hA hi (by decide)
      (Alphabet.mem_unmarked_of_mem_symbols hc) (fun h => (ha.plain c hc).ne_boundary h.1)
      (by simp [hq.ne_nil])
    rw [Strip.rest_move_left, Strip.under_move_left, Strip.before_move_left, hb,
      List.concat_eq_append, ← List.append_assoc, behind_concat]
    exact ⟨z, .single hz, by simpa using hserved⟩

theorem resolution_allowed (hf : Fits a rules k) (hrule : rule ∈ rules) (hA : Allows a left rule T)
    (hi : ActsAt rule i x w d) (hu : u ≠ []) : T u.length (resolution a rule i x w d) := by
  refine hA.inside hu (.execute (.resolve hi) fun _ => overwritesEdge_of_read_ne ?_) ?_
  · rw [read_resolution]
    exact hf.proper.marker_ne_boundaryMarker (hf.read_mem hrule hi)
  · rw [state_resolution]
    exact nofun

/-- The boundary that closes a strip is kept by writing a blank there, unless the head goes
right. -/
theorem edgeResolution_allowed (hf : Fits a rules k) (hrule : rule ∈ rules)
    (hA : Allows a left rule T) (hi : ActsAt rule i Symbol.blank w d)
    (hkeep : w = Symbol.blank ∧ d ≠ .right) (hu : u ≠ []) :
    T u.length (edgeResolution a rule i w d) := by
  refine hA.inside hu (.execute (.resolveEdge hi) fun _ => ?_) ?_
  · rw [Bool.eq_false_iff, ne_eq, overwritesEdge_edgeResolution hf.proper (hf.write_mem hrule hi)]
    exact not_not_intro hkeep
  · rw [state_edgeResolution]
    exact nofun

/-- A head past the end of its strip gets a cell there if it does not leave the boundary as it
is. -/
theorem make_cell (hf : Fits a rules k) (hrule : rule ∈ rules) (hA : Allows a left rule T)
    (hi : ActsAt rule i Symbol.blank w d) (hkeep : ¬(w = Symbol.blank ∧ d ≠ .right)) (hu : u ≠ [])
    (hy : Closes a y) :
    ReflTransGen (Walks T)
      (ahead (ruleState a rule (.actor (i + 1))) u (a.boundaryMarker :: (y ++ [Symbol.tapeEnd])))
      (ahead (ruleState a rule (.actor (i + 1))) u
        (a.blankMarker :: Symbol.boundary :: (y ++ [Symbol.tapeEnd]))) :=
  extendRight_walk hA hi
    ((overwritesEdge_edgeResolution hf.proper (hf.write_mem hrule hi)).mpr hkeep) hu hy.mem hy.last

/-- A head on a cell of its strip is served if it does not go left. -/
theorem serve_cell (hf : Fits a rules k) (hrule : rule ∈ rules) (hA : Allows a left rule T)
    (hi : ActsAt rule i x w d) (hd : d ≠ .left) (hs : s.Over a) (hafter : s.after = x :: t)
    (hq : Opens a q) :
    ∃ z, ReflTransGen (Walks T) (ahead (ruleState a rule (.actor (i + 1))) (q ++ s.before)
        (a.marker x :: (t ++ Symbol.boundary :: (y ++ [Symbol.tapeEnd])))) z ∧
      Served a rule i (q ++ (s.act w d).before)
        (a.marker (s.act w d).under :: ((s.act w d).rest ++ (y ++ [Symbol.tapeEnd]))) z := by
  have hne : q ++ s.before ≠ [] := by simp [hq.ne_nil]
  have hwrite : s.write w d = ⟨s.before, w :: t⟩ := by simp [Strip.write, hafter]
  have hover : (⟨s.before, w :: t⟩ : Strip).Over a := hwrite ▸ hs.write (hf.write_mem hrule hi) d
  have hrow := resolution_allowed hf hrule hA hi hne
  rw [Strip.act, hwrite]
  cases d with
  | stay =>
    rw [resolution_stay] at hrow
    refine ⟨_, .single (Walks.left hne hrow), .inl ?_⟩
    simp [Strip.move, Strip.under, Strip.rest]
  | right =>
    rw [resolution_move (d := .right) (by decide)] at hrow
    obtain ⟨z, hz, hserved⟩ :=
      place_right (y := y ++ [Symbol.tapeEnd]) (q := q) hf.proper hA hi hover rfl
    exact ⟨z, .head (Walks.right (by simp) hrow) (.single hz), hserved⟩
  | left => exact absurd rfl hd

/-- A head past the end of its strip is served if it does not go left. It stays there without a
trace if it writes a blank, and gets a cell otherwise. -/
theorem serve_edge (hf : Fits a rules k) (hrule : rule ∈ rules) (hA : Allows a left rule T)
    (hi : ActsAt rule i Symbol.blank w d) (hd : d ≠ .left) (hs : s.Over a) (hafter : s.after = [])
    (hq : Opens a q) (hy : Closes a y) :
    ∃ z, ReflTransGen (Walks T) (ahead (ruleState a rule (.actor (i + 1))) (q ++ s.before)
        (a.boundaryMarker :: (y ++ [Symbol.tapeEnd]))) z ∧
      Served a rule i (q ++ (s.act w d).before)
        (a.marker (s.act w d).under :: ((s.act w d).rest ++ (y ++ [Symbol.tapeEnd]))) z := by
  have hne : q ++ s.before ≠ [] := by simp [hq.ne_nil]
  by_cases hkeep : w = Symbol.blank ∧ d ≠ .right
  · have hwrite : s.write w d = s := by simp [Strip.write, hafter, hkeep]
    have hrow := edgeResolution_allowed hf hrule hA hi hkeep hne
    obtain ⟨rfl, hright⟩ := hkeep
    rw [Strip.act, hwrite]
    cases d with
    | stay =>
      rw [edgeResolution_stay] at hrow
      refine ⟨_, .single (Walks.left hne hrow), .inl ?_⟩
      simp [Strip.move, Strip.under, Strip.rest, hafter, Alphabet.boundaryMarker]
    | right => exact absurd rfl hright
    | left => exact absurd rfl hd
  · -- a blank cell is made first, and the head is then on a cell of its strip
    have hover : (⟨s.before, [Symbol.blank]⟩ : Strip).Over a := by
      intro c hc
      rcases List.mem_append.mp hc with hc | hc
      · exact hs.before_mem c hc
      · rw [List.mem_singleton.mp hc]
        exact hf.proper.blank_mem
    have hwrite : s.write w d = (⟨s.before, [Symbol.blank]⟩ : Strip).write w d := by
      simp only [Strip.write, hafter, if_neg hkeep]
    obtain ⟨z, hz, hserved⟩ := serve_cell (y := y) hf hrule hA hi hd hover rfl hq
    rw [Strip.act, hwrite]
    exact ⟨z, (make_cell hf hrule hA hi hkeep hne hy).trans hz, hserved⟩

/-- A head that goes left writes and steps to the cell in front of it, whatever stands there. -/
theorem depart (hf : Fits a rules k) (hrule : rule ∈ rules) (hA : Allows a left rule T)
    (hi : ActsAt rule i s.read w .left) (hq : Opens a q) (hy : Closes a y) :
    ReflTransGen (Walks T) (ahead (ruleState a rule (.actor (i + 1))) (q ++ s.before)
        (a.marker s.under :: (s.rest ++ (y ++ [Symbol.tapeEnd]))))
      (behind (ruleState a rule (.active (i + 1))) (q ++ s.before)
        ((s.write w .left).under :: ((s.write w .left).rest ++ (y ++ [Symbol.tapeEnd])))) := by
  have hne : q ++ s.before ≠ [] := by simp [hq.ne_nil]
  have hrow := resolution_allowed hf hrule hA hi hne
  rw [resolution_move (d := .left) (by decide)] at hrow
  cases hafter : s.after with
  | cons x t =>
    have hread : s.read = x := by simp [Strip.read, hafter]
    rw [hread] at hrow
    have hstep := Walks.left (v := t ++ Symbol.boundary :: (y ++ [Symbol.tapeEnd])) hne hrow
    exact .single (by simpa [Strip.write, Strip.under, Strip.rest, hafter] using hstep)
  | nil =>
    have hread : s.read = Symbol.blank := by simp [Strip.read, hafter]
    rw [hread] at hi hrow
    by_cases hkeep : w = Symbol.blank ∧ Direction.left ≠ .right
    · have hrow := edgeResolution_allowed hf hrule hA hi hkeep hne
      obtain ⟨rfl, -⟩ := hkeep
      rw [edgeResolution_left] at hrow
      have hstep := Walks.left (v := y ++ [Symbol.tapeEnd]) hne hrow
      refine .single ?_
      simpa [Strip.write, Strip.under, Strip.rest, hafter, Alphabet.boundaryMarker] using hstep
    · have hstep := Walks.left (v := Symbol.boundary :: (y ++ [Symbol.tapeEnd])) hne hrow
      have hwrite : s.write w .left = ⟨s.before, [w]⟩ := by
        simp only [Strip.write, hafter, if_neg hkeep]
      rw [hwrite]
      have hcell := (make_cell hf hrule hA hi hkeep hne hy).trans (.single hstep)
      simpa [Strip.under, Strip.rest, hafter, Alphabet.boundaryMarker] using hcell

/-- **A head is served** if it has room or gets it: its strip becomes what the rule makes of it,
with everything else in place. -/
theorem serve (hf : Fits a rules k) (hrule : rule ∈ rules) (hA : Allows a left rule T)
    (hi : ActsAt rule i s.read w d) (hs : s.Over a) (hroom : left = true ∨ ¬ s.Leaves d)
    (hq : Opens a q) (hy : Closes a y) :
    ∃ z, ReflTransGen (Walks T) (ahead (ruleState a rule (.actor (i + 1))) (q ++ s.before)
        (a.marker s.under :: (s.rest ++ (y ++ [Symbol.tapeEnd])))) z ∧
      Served a rule i (q ++ (s.act w d).before)
        (a.marker (s.act w d).under :: ((s.act w d).rest ++ (y ++ [Symbol.tapeEnd]))) z := by
  by_cases hd : d = .left
  · subst hd
    have hbefore : left = true ∨ (s.write w .left).before ≠ [] := by
      rw [Strip.before_write]
      exact hroom.imp_right fun h hb => h ⟨rfl, hb⟩
    obtain ⟨z, hz, hserved⟩ :=
      place_left hf.proper hA hi (hs.write (hf.write_mem hrule hi) .left) hbefore hq hy
    rw [Strip.before_write] at hz
    exact ⟨z, (depart hf hrule hA hi hq hy).trans hz, hserved⟩
  · cases hafter : s.after with
    | nil =>
      have hread : s.read = Symbol.blank := by simp [Strip.read, hafter]
      obtain ⟨z, hz, hserved⟩ := serve_edge hf hrule hA (hread ▸ hi) hd hs hafter hq hy
      refine ⟨z, ?_, hserved⟩
      simpa [Strip.under, Strip.rest, hafter, Alphabet.boundaryMarker] using hz
    | cons x t =>
      have hread : s.read = x := by simp [Strip.read, hafter]
      obtain ⟨z, hz, hserved⟩ := serve_cell (y := y) hf hrule hA (hread ▸ hi) hd hs hafter hq
      refine ⟨z, ?_, hserved⟩
      simpa [Strip.under, Strip.rest, hafter] using hz

/-- A head that goes left has come to an edge. -/
def Blocked (a : Alphabet) (rule : Rule) (z : Instant) : Prop :=
  ∃ i x w, ActsAt rule i x w .left ∧ z.state = ruleState a rule (.active (i + 1)) ∧
    a.IsEdge z.symbol

/-- **A head that goes off the left end of its strip comes to the edge in front of it.** -/
theorem leave (hf : Fits a rules k) (hrule : rule ∈ rules) (hA : Allows a left rule T)
    (hi : ActsAt rule i s.read w d) (hleaves : s.Leaves d) (hq : Opens a q) (hy : Closes a y) :
    ∃ z, ReflTransGen (Walks T) (ahead (ruleState a rule (.actor (i + 1))) (q ++ s.before)
        (a.marker s.under :: (s.rest ++ (y ++ [Symbol.tapeEnd])))) z ∧ Blocked a rule z := by
  obtain ⟨rfl, hbefore⟩ := hleaves
  refine ⟨_, depart hf hrule hA hi hq hy, i, s.read, w, hi, rfl, ?_⟩
  obtain ⟨q', e, rfl, he, -⟩ := hq
  rw [hbefore, List.append_nil, behind_concat, symbol_ahead]
  exact he

end Serve

theorem Served.eq_behind {z : Instant} (h : Served a rule i u v z) (hi : 0 < i) :
    z = behind (ruleState a rule (.actor i)) u v := by
  rcases h with h | ⟨h, -⟩
  · rw [afterPhase, if_neg (by omega)] at h
    exact h
  · omega

/-! ## Serving all heads -/

/-- What a rule does at the last of some heads, if it reads what they read. -/
theorem Fits.actsAt_of_prefix (hf : Fits a rules k) (hrule : rule ∈ rules)
    (hread : (strips ++ [s]).map Strip.read <+: rule.read) :
    ∃ w d, ActsAt rule strips.length s.read w d ∧
      (rule.write.zip rule.moves)[strips.length]? = some (w, d) := by
  have hget : rule.read[strips.length]? = some s.read := by
    obtain ⟨more, hmore⟩ := hread
    rw [← hmore]
    simp
  have hlt : strips.length < k := by
    rw [← (hf.lengths rule hrule).1]
    exact (List.getElem?_eq_some_iff.mp hget).1
  obtain ⟨x, w, d, hi⟩ := hf.actsAt hrule hlt
  obtain rfl : x = s.read := Option.some.inj (hi.read.symm.trans hget)
  exact ⟨w, d, hi, List.getElem?_zip_eq_some.mpr ⟨hi.write, hi.move⟩⟩

theorem opens_strips (a : Alphabet) (strips : List Strip) :
    Opens a (Symbol.boundary :: strips.flatMap (Strip.cells a)) := by
  rcases List.eq_nil_or_concat strips with rfl | ⟨strips, s, rfl⟩
  · exact ⟨[], Symbol.boundary, rfl, .inl rfl, fun _ => rfl⟩
  · obtain ⟨l, e, hl, he⟩ := s.cells_eq_concat a
    refine ⟨Symbol.boundary :: (strips.flatMap (Strip.cells a) ++ l), e, ?_, he, nofun⟩
    simp [hl]

theorem Closes.strip_append {y : List Symbol} (hy : Closes a y) (hs : s.Over a) :
    Closes a (s.cells a ++ y) where
  mem c hc := by
    rcases List.mem_append.mp hc with hc | hc
    · exact hs.cells_mem c hc
    · exact hy.mem c hc
  last e he := by
    rcases List.eq_nil_or_concat y with rfl | ⟨y', e', rfl⟩
    · obtain ⟨l, e', hl, hedge⟩ := s.cells_eq_concat a
      simp only [hl, List.append_nil, List.getLast?_append, List.getLast?_singleton] at he
      cases he
      exact hedge
    · refine hy.last e ?_
      simpa using he

theorem closes_nil : Closes a [] := ⟨nofun, nofun⟩

/-- All heads are served: the strips are what the rule makes of them, and the machine is on the
place of the first head's mark or left of it, about to end the simulated step. -/
def Completed (a : Alphabet) (rule : Rule) (strips : List Strip) (y : List Symbol)
    (z : Instant) : Prop :=
  ∃ u c v, z = ahead (ruleState a rule .complete) u (c :: v) ∧ c ∈ a.library ∧
    u ++ c :: v = Symbol.boundary :: (strips.flatMap (Strip.cells a) ++ y) ∧
    ∃ s rest, strips = s :: rest ∧ u.length ≤ s.before.length + 1

theorem retreat_walk (ha : a.Proper) (hA : Allows a left rule T) (hi : ActsAt rule i x w d)
    (hu : u ≠ []) (ht : ∀ c ∈ t, c ∈ a.unmarked) :
    ReflTransGen (Walks T) (behind (ruleState a rule (.actor (i + 1))) (u ++ t) v)
      (behind (ruleState a rule (.actor (i + 1))) u (t ++ v)) := by
  have hpos : 0 < u.length := List.length_pos_iff.mpr hu
  refine walks_back hu fun n hn c hc => hA n _ (.execute (.retreat hi (ht c hc)) fun _ => ?_)
    nofun ?_
  · exact overwritesEdge_of_read_ne (ha.marker_ne_of_mem_unmarked (ht c hc)).symm
  · intro h
    omega

theorem Served.completed {y : List Symbol} {z : Instant} (hs : s.Over a)
    (h : Served a rule 0 (Symbol.boundary :: s.before) (a.marker s.under :: (s.rest ++ y)) z) :
    Completed a rule [s] y z := by
  have hlib : ∀ c ∈ Symbol.boundary :: s.before, c ∈ a.library := by
    intro c hc
    refine Alphabet.mem_library_of_mem_unmarked (Alphabet.mem_unmarked.mpr ?_)
    rcases List.mem_cons.mp hc with rfl | hc
    · exact .inr rfl
    · exact .inl (hs.before_mem c hc)
  rcases h with rfl | ⟨-, rfl⟩
  · obtain ⟨u, c, hu⟩ := (List.eq_nil_or_concat (Symbol.boundary :: s.before)).resolve_left nofun
    rw [List.concat_eq_append] at hu
    have hlen := congrArg List.length hu
    simp only [List.length_cons, List.length_append, List.length_nil] at hlen
    refine ⟨u, c, a.marker s.under :: (s.rest ++ y), ?_, hlib c (by rw [hu]; simp), ?_, s, [],
      rfl, ?_⟩
    · rw [hu, behind_concat]
      rfl
    · have : u ++ c :: a.marker s.under :: (s.rest ++ y) =
          (u ++ [c]) ++ a.marker s.under :: (s.rest ++ y) := by simp
      rw [this, ← hu]
      simp [Strip.cells]
    · omega
  · exact ⟨Symbol.boundary :: s.before, a.marker s.under, s.rest ++ y, rfl,
      Alphabet.marker_mem_library hs.under_mem, by simp [Strip.cells], s, [], rfl, by simp⟩

/-- A determined state goes back to the mark of the last head. -/
theorem hand_over (ha : a.Proper) (hA : Allows a left rule T) (hi : ActsAt rule i x w d)
    (hlen : rule.read.length = i + 1) (hs : s.Over a) :
    ReflTransGen (Walks T)
      (ahead (ruleState a rule .discover) (u ++ [a.marker s.under]) (s.rest ++ [Symbol.tapeEnd]))
      (ahead (ruleState a rule (.actor (i + 1))) u
        (a.marker s.under :: (s.rest ++ [Symbol.tapeEnd]))) := by
  have hne : u ++ [a.marker s.under] ≠ [] := by simp
  cases hr : s.rest with
  | nil =>
    have hrow := hA.inside hne (.discover .handOverEnd) nofun
    rw [hlen] at hrow
    rw [← behind_concat]
    exact .single (Walks.left hne hrow)
  | cons c rest =>
    have hc : c ∈ a.unmarked := hs.rest_mem c (by simp [hr])
    have hrow := hA.inside hne (.discover (.handOver hc)) nofun
    rw [hlen] at hrow
    have hback := retreat_walk (u := u ++ [a.marker s.under]) (t := [c])
      (v := rest ++ [Symbol.tapeEnd]) ha hA hi hne (by simpa using hc)
    rw [behind_concat, behind_concat] at hback
    exact .head (Walks.stay hrow) hback

/-- Some head goes off the left end of its strip. -/
def Leaving (moves : List Direction) (strips : List Strip) : Prop :=
  ∃ (i : Nat) (s : Strip) (d : Direction), strips[i]? = some s ∧ moves[i]? = some d ∧ s.Leaves d

theorem leaving_concat {moves : List Direction} (hd : moves[strips.length]? = some d) :
    Leaving moves (strips ++ [s]) ↔ Leaving moves strips ∨ s.Leaves d := by
  constructor
  · rintro ⟨i, s', d', hs', hd', hleaves⟩
    rcases Nat.lt_trichotomy i strips.length with hi | rfl | hi
    · rw [List.getElem?_append_left hi] at hs'
      exact .inl ⟨i, s', d', hs', hd', hleaves⟩
    · obtain rfl : d' = d := Option.some.inj (hd'.symm.trans hd)
      obtain rfl : s = s' := by simpa using hs'
      exact .inr hleaves
    · rw [List.getElem?_eq_none (by simp; omega)] at hs'
      cases hs'
  · rintro (⟨i, s', d', hs', hd', hleaves⟩ | hleaves)
    · have hi := (List.getElem?_eq_some_iff.mp hs').1
      exact ⟨i, s', d', by rwa [List.getElem?_append_left hi], hd', hleaves⟩
    · exact ⟨strips.length, s, d, by simp, hd, hleaves⟩

/-- The last head is served, and the machine goes back to the mark of the head in front of it. -/
theorem serve_last (hf : Fits a rules k) (hrule : rule ∈ rules) (hA : Allows a left rule T)
    {s' : Strip} {d' : Direction} {y : List Symbol} (hs : s.Over a) (hs' : s'.Over a)
    (hi : ActsAt rule (strips.length + 1) s.read w d) (hi' : ActsAt rule strips.length x c d')
    (hroom : left = true ∨ ¬ s.Leaves d) (hy : Closes a y) :
    ReflTransGen (Walks T)
      (ahead (ruleState a rule (.actor (strips.length + 1 + 1)))
        (Symbol.boundary :: (strips ++ [s']).flatMap (Strip.cells a) ++ s.before)
        (a.marker s.under :: (s.rest ++ (y ++ [Symbol.tapeEnd]))))
      (ahead (ruleState a rule (.actor (strips.length + 1)))
        (Symbol.boundary :: strips.flatMap (Strip.cells a) ++ s'.before)
        (a.marker s'.under :: (s'.rest ++ ((s.act w d).cells a ++ y ++ [Symbol.tapeEnd])))) := by
  have hacted := hs.act hf.proper (hf.write_mem hrule hi) d
  obtain ⟨z, hz, hserved⟩ := serve hf hrule hA hi hs hroom (opens_strips a (strips ++ [s'])) hy
  obtain rfl := hserved.eq_behind (Nat.succ_pos _)
  have hback := retreat_walk
    (v := a.marker (s.act w d).under :: ((s.act w d).rest ++ (y ++ [Symbol.tapeEnd])))
    (t := s'.rest ++ (s.act w d).before)
    (u := Symbol.boundary :: strips.flatMap (Strip.cells a) ++ s'.before ++ [a.marker s'.under])
    hf.proper hA hi' (by simp) fun c hc => by
      rcases List.mem_append.mp hc with hc | hc
      · exact hs'.rest_mem c hc
      · exact Alphabet.mem_unmarked_of_mem_symbols (hacted.before_mem c hc)
  rw [behind_concat _ (Symbol.boundary :: strips.flatMap (Strip.cells a) ++ s'.before)] at hback
  exact hz.trans (by simpa [Strip.cells] using hback)

/-- **All heads are served**, from the last to the first, if they have room or get it. The machine
starts on the mark of the last head; the cells `y` stand behind its strip. -/
theorem execute_strips (hf : Fits a rules k) (hrule : rule ∈ rules) (hA : Allows a left rule T)
    {y : List Symbol} (hover : ∀ x ∈ strips ++ [s], x.Over a)
    (hread : (strips ++ [s]).map Strip.read <+: rule.read)
    (hroom : left = true ∨ ¬ Leaving rule.moves (strips ++ [s])) (hy : Closes a y) :
    ∃ z, ReflTransGen (Walks T)
        (ahead (ruleState a rule (.actor (strips.length + 1)))
          (Symbol.boundary :: strips.flatMap (Strip.cells a) ++ s.before)
          (a.marker s.under :: (s.rest ++ (y ++ [Symbol.tapeEnd])))) z ∧
      Completed a rule (Strip.actAll (rule.write.zip rule.moves) (strips ++ [s]))
        (y ++ [Symbol.tapeEnd]) z := by
  induction strips using List.reverseRecOn generalizing s y with
  | nil =>
    obtain ⟨w, d, hi, hact⟩ := hf.actsAt_of_prefix hrule hread
    have hs := hover s (by simp)
    rw [leaving_concat hi.move, not_or] at hroom
    obtain ⟨z, hz, hserved⟩ :=
      serve hf hrule hA hi hs (hroom.imp_right And.right) (opens_strips a []) hy
    refine ⟨z, hz, ?_⟩
    rw [Strip.actAll_concat hact, Strip.actAll_nil]
    exact Served.completed (hs.act hf.proper (hf.write_mem hrule hi) d) hserved
  | append_singleton strips s' ih =>
    obtain ⟨w, d, hi, hact⟩ := hf.actsAt_of_prefix hrule hread
    have hread' : (strips ++ [s']).map Strip.read <+: rule.read :=
      (List.prefix_append _ _).trans (by simpa using hread)
    obtain ⟨w', d', hi', -⟩ := hf.actsAt_of_prefix hrule hread'
    rw [leaving_concat hi.move, not_or] at hroom
    rw [List.length_append, List.length_singleton] at hi ⊢
    have hs := hover s (by simp)
    have hfirst := serve_last hf hrule hA hs (hover s' (by simp)) hi hi' (hroom.imp_right And.right)
      hy
    obtain ⟨z, hrest, u, c, v, hz, hc, hcells, s₀, rest, hcons, hlen⟩ :=
      ih (y := (s.act w d).cells a ++ y) (fun x hx => hover x (by simp at hx ⊢; tauto)) hread'
        (hroom.imp_right And.left) (hy.strip_append (hs.act hf.proper (hf.write_mem hrule hi) d))
    refine ⟨z, hfirst.trans hrest, u, c, v, hz, hc, ?_, ?_⟩
    · rw [hcells, Strip.actAll_concat hact]
      simp
    · rw [Strip.actAll_concat hact]
      exact ⟨s₀, rest ++ [s.act w d], by simp [hcons], hlen⟩

/-! ## Heads that leave -/

/-- **If some head goes off the left end of its strip, the machine comes to an edge** with the last
one that does. The heads behind it are served before. -/
theorem execute_leaving (hf : Fits a rules k) (hrule : rule ∈ rules) (hA : Allows a left rule T)
    {y : List Symbol} (hover : ∀ x ∈ strips ++ [s], x.Over a)
    (hread : (strips ++ [s]).map Strip.read <+: rule.read)
    (hleaving : Leaving rule.moves (strips ++ [s])) (hy : Closes a y) :
    ∃ z, ReflTransGen (Walks T)
        (ahead (ruleState a rule (.actor (strips.length + 1)))
          (Symbol.boundary :: strips.flatMap (Strip.cells a) ++ s.before)
          (a.marker s.under :: (s.rest ++ (y ++ [Symbol.tapeEnd])))) z ∧ Blocked a rule z := by
  induction strips using List.reverseRecOn generalizing s y with
  | nil =>
    obtain ⟨w, d, hi, -⟩ := hf.actsAt_of_prefix hrule hread
    have hleaves : s.Leaves d := by
      rcases (leaving_concat hi.move).mp hleaving with ⟨i, _, _, hnil, -⟩ | hleaves
      · cases hnil
      · exact hleaves
    exact leave hf hrule hA hi hleaves (opens_strips a []) hy
  | append_singleton strips s' ih =>
    obtain ⟨w, d, hi, -⟩ := hf.actsAt_of_prefix hrule hread
    by_cases hleaves : s.Leaves d
    · exact leave hf hrule hA hi hleaves (opens_strips a _) hy
    · have hread' : (strips ++ [s']).map Strip.read <+: rule.read :=
        (List.prefix_append _ _).trans (by simpa using hread)
      obtain ⟨w', d', hi', -⟩ := hf.actsAt_of_prefix hrule hread'
      have hfront := ((leaving_concat hi.move).mp hleaving).resolve_right hleaves
      rw [List.length_append, List.length_singleton] at hi ⊢
      have hs := hover s (by simp)
      have hfirst := serve_last hf hrule hA hs (hover s' (by simp)) hi hi' (.inr hleaves) hy
      obtain ⟨z, hrest, hblocked⟩ := ih (y := (s.act w d).cells a ++ y)
        (fun x hx => hover x (by simp at hx ⊢; tauto)) hread' hfront
        (hy.strip_append (hs.act hf.proper (hf.write_mem hrule hi) d))
      exact ⟨z, hfirst.trans hrest, hblocked⟩

/-- No row applies. -/
def Stuck (a : Alphabet) (left : Bool) (rules : List Rule) (z : Instant) : Prop :=
  ∀ rule ∈ rules, ∀ r, Emits a ⟨left, true⟩ rule r → r.domain ≠ (z.state, z.symbol)

/-- **Without left extensions, no row applies on an edge that a head must not pass.** The rows that
would are those of the extension. -/
theorem stuck_of_blocked {z : Instant} (hf : Fits a rules k) (hrule : rule ∈ rules)
    (h : Blocked a rule z) :
    Stuck a false rules z := by
  obtain ⟨i, x, w, hi, hstate, hedge⟩ := h
  intro rule' hrule' r hr hdom
  have hrow : r.state = ruleState a rule (.active (i + 1)) := (congrArg Prod.fst hdom).trans hstate
  have hread : r.read = z.symbol := congrArg Prod.snd hdom
  have hphase : r.state.phase = .active (i + 1) := congrArg State.phase hrow
  obtain rfl : rule' = rule := by
    rcases hr.cases with hd | ⟨hb, hh, -⟩
    · cases hd.phase.symm.trans hphase
    · exact hf.eq_of_heads hrule' hrule (by rw [← hb, hrow]; rfl) (by rw [← hh, hrow]; rfl)
  cases hr with
  | discover h => cases h.phase.symm.trans hphase
  | execute h _ =>
    have hext : ExtendsLeft a (ruleState a rule' (.active (i + 1)))
        ⟨ruleState a rule' (afterPhase i), a.blankMarker, placeMove i⟩ _ := .edge hedge
    exact hext.disjoint_executes hf hi h hrow.symm hread.symm
  | extendLeft hl _ _ => cases hl
  | extendRight _ _ _ h => rcases h.phase with hp | ⟨_, hp⟩ <;> cases hp.symm.trans hphase

end OneTape.Table
