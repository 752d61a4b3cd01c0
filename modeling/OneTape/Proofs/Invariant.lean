import OneTape.Proofs.Simulation.Refinement
import OneTape.Proofs.Table.Effect

/-!
# The invariant of the single tape

At every step of a one-tape machine, also in the middle of a simulated step, the single tape is
closed at both ends, and no boundary and no head is lost: what is missing on the tape is carried by
a shift or about to be placed.

Results:
* `Intact.apply`: a row keeps the tape intact.
* `intact_run`: a run keeps the tape intact.
* `run_keeps_tape`: what follows for every configuration that the table comes to.
-/

namespace OneTape

/-! ## Counting cells -/

namespace Tapes

variable {p : Symbol → Bool} {t : List Symbol} {n : Nat}

theorem countP_padTo (hp : p Symbol.blank = false) (n : Nat) (t : List Symbol) :
    (padTo n t).countP p = t.countP p := by
  simp [padTo, List.countP_append, List.countP_replicate, hp]

theorem countP_set (h : n < t.length) (w : Symbol) :
    (t.set n w).countP p + [cellAt t n].countP p = t.countP p + [w].countP p := by
  induction t generalizing n with
  | nil => cases h
  | cons c t ih =>
    cases n with
    | zero =>
      simp only [List.set_cons_zero, cellAt_cons_zero, List.countP_cons, List.countP_nil]
      omega
    | succ n =>
      have := ih (n := n) (by simpa using h)
      simp only [List.set_cons_succ, cellAt_cons_succ, List.countP_cons, List.countP_nil] at this ⊢
      omega

end Tapes

namespace Table

open Instant Relation

variable {a : Alphabet} {k : Nat} {x y : Instant} {r : Row}

namespace Instant

/-- What a row changes on the tape: it adds the symbol written and takes away the one read. -/
theorem countP_apply {p : Symbol → Bool} (hp : p Symbol.blank = false) (x : Instant) (r : Row) :
    (x.apply r).cells.countP p + [x.symbol].countP p = x.cells.countP p + [r.write].countP p := by
  have hlt : x.position < (Tapes.padTo (x.position + 1) x.cells).length := by
    rw [Tapes.length_padTo]
    omega
  have hset := Tapes.countP_set (p := p) hlt r.write
  rw [Tapes.cellAt_padTo, Tapes.countP_padTo hp] at hset
  have hcells : (x.apply r).cells.countP p =
      ((Tapes.padTo (x.position + 1) x.cells).set x.position r.write).countP p := by
    unfold apply Tapes.act
    cases r.move with
    | stay => rfl
    | left =>
      dsimp only
      split_ifs
      · simp [hp]
      · rfl
    | right => exact Tapes.countP_padTo hp _ _
  rw [hcells]
  exact hset

/-- A row changes the cell under the head, unless it leaves the tape. -/
theorem cellAt_apply (h : x.position = 0 → r.move ≠ .left) (j : Nat) :
    Tapes.cellAt (x.apply r).cells j =
      if j = x.position then r.write else Tapes.cellAt x.cells j := by
  have hlt : x.position < (Tapes.padTo (x.position + 1) x.cells).length := by
    rw [Tapes.length_padTo]
    omega
  rw [← Tapes.cellAt_padTo (x.position + 1) x.cells j, ← Tapes.cellAt_set hlt]
  unfold apply Tapes.act
  cases hmove : r.move with
  | stay => rfl
  | left => simp only [if_neg fun hzero => h hzero hmove]
  | right => exact Tapes.cellAt_padTo ..

theorem position_apply_left (h : r.move = .left) : (x.apply r).position = x.position - 1 := by
  unfold apply Tapes.act
  rw [h]
  dsimp only
  split_ifs with hzero
  · rw [hzero]
  · rfl

theorem position_apply_right (h : r.move = .right) : (x.apply r).position = x.position + 1 := by
  unfold apply Tapes.act
  rw [h]

theorem position_apply_le (x : Instant) (r : Row) : (x.apply r).position ≤ x.position + 1 := by
  cases h : r.move with
  | stay =>
    unfold apply Tapes.act
    rw [h]
    exact Nat.le_succ _
  | left =>
    rw [position_apply_left h]
    omega
  | right => rw [position_apply_right h]

end Instant

/-! ## The tape end -/

/-- The tape end closes the tape and the machine is not behind it, unless a shift carries it. -/
inductive Closed (x : Instant) : Prop
  | moving : x.state.stage = .carry Symbol.tapeEnd →
      (∀ j, j < x.position → Tapes.cellAt x.cells j ≠ Symbol.tapeEnd) →
      (∀ j, x.position ≤ j → Tapes.cellAt x.cells j = Symbol.blank) → Closed x
  | closed {n : Nat} : x.state.stage ≠ .carry Symbol.tapeEnd → x.position ≤ n →
      Tapes.cellAt x.cells n = Symbol.tapeEnd →
      (∀ j, j < n → Tapes.cellAt x.cells j ≠ Symbol.tapeEnd) →
      (∀ j, n < j → Tapes.cellAt x.cells j = Symbol.blank) → Closed x

/-- A row that leaves the tape end under the head and steps back closes the tape there. -/
theorem closed_apply_of_write_end (hnext : r.next.stage ≠ .carry Symbol.tapeEnd)
    (hwrite : r.write = Symbol.tapeEnd) (hmove : r.move = .left)
    (hleft : x.position = 0 → r.move ≠ .left)
    (hbefore : ∀ j, j < x.position → Tapes.cellAt x.cells j ≠ Symbol.tapeEnd)
    (hbehind : ∀ j, x.position < j → Tapes.cellAt x.cells j = Symbol.blank) :
    Closed (x.apply r) := by
  have hcell := cellAt_apply hleft
  refine .closed (n := x.position) hnext ?_ ?_ (fun j hj => ?_) fun j hj => ?_
  · rw [position_apply_left hmove]
    omega
  · rw [hcell, if_pos rfl, hwrite]
  · rw [hcell, if_neg (Nat.ne_of_lt hj)]
    exact hbefore j hj
  · rw [hcell, if_neg (Nat.ne_of_gt hj)]
    exact hbehind j hj

theorem Closed.apply (ha : a.Proper) (h : Closed x)
    (he : Effect a x.state.stage x.symbol r.next.stage r.write r.move)
    (hleft : x.position = 0 → r.move ≠ .left) : Closed (x.apply r) := by
  have hcell := cellAt_apply hleft
  cases h with
  | moving hcarry hbefore hbehind =>
    obtain ⟨hnext, hwrite, hmove⟩ := he.of_carry_end ha hcarry
    refine closed_apply_of_write_end ?_ hwrite hmove hleft hbefore
      fun j hj => hbehind j (Nat.le_of_lt hj)
    rw [hnext]
    exact Stage.noConfusion
  | @closed n hcarry hle hend hbefore hbehind =>
    rcases Nat.eq_or_lt_of_le hle with heq | hlt
    · -- the machine is on the tape end
      subst heq
      rcases he.of_read_end ha hend with ⟨hnext, hwrite, hmove⟩ | ⟨hnext, hwrite, hmove⟩
      · refine closed_apply_of_write_end ?_ hwrite hmove hleft hbefore hbehind
        rw [hnext]
        exact Stage.noConfusion
      · refine .moving hnext (fun j hj => ?_) fun j hj => ?_
        · rw [position_apply_right hmove] at hj
          rw [hcell]
          split_ifs
          · exact hwrite
          · exact hbefore j (by omega)
        · rw [position_apply_right hmove] at hj
          rw [hcell, if_neg (by omega)]
          exact hbehind j (by omega)
    · obtain ⟨hnext, hwrite⟩ := he.of_inside ha hcarry (hbefore x.position hlt)
      refine .closed (n := n) hnext ?_ ?_ (fun j hj => ?_) fun j hj => ?_
      · have := position_apply_le x r
        omega
      · rw [hcell, if_neg (Nat.ne_of_gt hlt)]
        exact hend
      · rw [hcell]
        split_ifs
        · exact hwrite
        · exact hbefore j hj
      · rw [hcell, if_neg (by omega)]
        exact hbehind j hj

/-! ## The whole tape -/

/-- The tape of a machine that simulates `k` tapes is intact. Boundaries, return marks and head
markers are counted together with what the state has taken off the tape. -/
structure Intact (a : Alphabet) (k : Nat) (x : Instant) : Prop where
  first : Tapes.cellAt x.cells 0 = Symbol.boundary
  closed : Closed x
  edges : x.cells.countP (isBoundaryCell a.iteration) +
    x.state.carried.countP (isBoundaryCell a.iteration) = k + 1
  anchors : x.cells.count Symbol.returnMark = anchored x.state.stage
  marks : x.cells.countP (·.isMarkerLike a.iteration) +
    x.state.carried.countP (·.isMarkerLike a.iteration) + inTransit x.state.stage = k

/-- **A row keeps the tape intact**, provided that it keeps the boundary at the left end. -/
theorem Intact.apply (ha : a.Proper) (h : Intact a k x)
    (he : Effect a x.state.stage x.symbol r.next.stage r.write r.move)
    (hzero : x.position = 0 → r.write = Symbol.boundary ∧ r.move ≠ .left) :
    Intact a k (x.apply r) where
  first := by
    rw [cellAt_apply fun hp => (hzero hp).2]
    split_ifs with hp
    · exact (hzero hp.symm).1
    · exact h.first
  closed := h.closed.apply ha he fun hp => (hzero hp).2
  edges := by
    have hblank := (isBoundaryCell_of_mem ha ha.blank_mem).1
    have hcount := countP_apply hblank x r
    have hbalance := he.balanced_edges ha
    have hold := h.edges
    change _ + r.next.stage.carried.countP _ = k + 1
    unfold State.carried at hold
    omega
  anchors := by
    have hcount := countP_apply (p := (· == Symbol.returnMark)) (by decide) x r
    have hbalance := he.balanced_anchors ha
    have hold := h.anchors
    change _ = anchored r.next.stage
    unfold List.count at hbalance hold ⊢
    omega
  marks := by
    have hcount := countP_apply (p := (·.isMarkerLike a.iteration)) Symbol.isMarkerLike_blank x r
    have hbalance := he.balanced_marks ha
    have hold := h.marks
    change _ + r.next.stage.carried.countP _ + inTransit r.next.stage = k
    unfold State.carried at hold
    omega

/-! ## The start -/

end Table

namespace Strip

variable {a : Alphabet} {s : Strip} {strips : List Strip}

theorem countP_eq_zero {p : Symbol → Bool} {t : List Symbol} (h : ∀ c ∈ t, p c = false) :
    t.countP p = 0 :=
  List.countP_eq_zero.mpr fun c hc => by simp [h c hc]

/-- A strip has one boundary. -/
theorem countP_edges_cells (ha : a.Proper) (hs : s.Over a) :
    (s.cells a).countP (Table.isBoundaryCell a.iteration) = 1 := by
  have hbefore := countP_eq_zero fun c hc => (Table.isBoundaryCell_of_mem ha (hs.before_mem c hc)).1
  have hedge := Table.isBoundaryCell_boundary a.iteration
  rw [cells, List.countP_append, hbefore, Nat.zero_add, List.countP_cons]
  rw [Table.isBoundaryCell_marker ha hs.under_mem, ← List.countP_cons, under_cons_rest,
    List.countP_append]
  rw [countP_eq_zero fun c hc => (Table.isBoundaryCell_of_mem ha (hs.after_mem c hc)).1]
  simp [hedge]

/-- A strip has one head. -/
theorem countP_marks_cells (ha : a.Proper) (hs : s.Over a) :
    (s.cells a).countP (·.isMarkerLike a.iteration) = 1 := by
  have hplain : ∀ c ∈ a.unmarked, c.isMarkerLike a.iteration = false := fun c hc =>
    ha.isMarkerLike_of_mem_unmarked hc
  rw [cells, List.countP_append, List.countP_cons,
    countP_eq_zero fun c hc => hplain c (Alphabet.mem_unmarked_of_mem_symbols (hs.before_mem c hc)),
    countP_eq_zero fun c hc => hplain c (hs.rest_mem c hc)]
  simp

theorem countP_flatMap_cells {p : Symbol → Bool} (h : ∀ s ∈ strips, (s.cells a).countP p = 1) :
    (strips.flatMap (cells a)).countP p = strips.length := by
  induction strips with
  | nil => rfl
  | cons s strips ih =>
    rw [List.flatMap_cons, List.countP_append, h s (by simp), ih fun t ht => h t (by simp [ht]),
      List.length_cons, Nat.add_comm]

/-- The layout of strips is closed by the tape end. -/
theorem closed_layout (ha : a.Proper) (hs : ∀ s ∈ strips, s.Over a) (q : String) :
    Table.Closed ⟨State.source q, layout a strips, 0⟩ := by
  have hlen : (layout a strips).length = (strips.flatMap (cells a)).length + 2 := by simp [layout]
  have hlib : ∀ c ∈ Symbol.boundary :: strips.flatMap (cells a), c ≠ Symbol.tapeEnd := by
    intro c hc
    rcases List.mem_cons.mp hc with rfl | hc
    · decide
    · exact ha.ne_tapeEnd (flatMap_cells_mem hs c hc)
  refine .closed (n := (strips.flatMap (cells a)).length + 1) Stage.noConfusion (Nat.zero_le _)
    ?_ ?_ ?_
  · simp [layout, Tapes.cellAt]
  · intro j hj
    have hget : (layout a strips)[j]? = (Symbol.boundary :: strips.flatMap (cells a))[j]? := by
      rw [layout, ← List.cons_append, List.getElem?_append_left (by simpa using hj)]
    change (layout a strips)[j]?.getD Symbol.blank ≠ Symbol.tapeEnd
    rw [hget, List.getElem?_eq_getElem (by simpa using hj)]
    exact hlib _ (List.getElem_mem _)
  · intro j hj
    exact Tapes.cellAt_of_length_le (by rw [hlen]; omega)

/-- The layout of strips is an intact tape. -/
theorem intact_layout (ha : a.Proper) (hs : ∀ s ∈ strips, s.Over a) (q : String) :
    Table.Intact a strips.length ⟨State.source q, layout a strips, 0⟩ where
  first := rfl
  closed := closed_layout ha hs q
  edges := by
    change (layout a strips).countP (Table.isBoundaryCell a.iteration) = strips.length + 1
    rw [layout, List.countP_cons, List.countP_append,
      countP_flatMap_cells fun s h => countP_edges_cells ha (hs s h)]
    simp [Table.isBoundaryCell_tapeEnd, Table.isBoundaryCell_boundary]
  anchors := by
    refine List.count_eq_zero.mpr fun hmem => ?_
    rcases List.mem_cons.mp hmem with h | h
    · exact absurd h (by decide)
    · rcases List.mem_append.mp h with h | h
      · exact ha.ne_returnMark (flatMap_cells_mem hs _ h) rfl
      · exact absurd (List.mem_singleton.mp h) (by decide)
  marks := by
    change (layout a strips).countP (·.isMarkerLike a.iteration) = strips.length
    rw [layout, List.countP_cons, List.countP_append,
      countP_flatMap_cells fun s h => countP_marks_cells ha (hs s h)]
    simp

end Strip

/-! ## Runs of the table -/

namespace Simulation

open Table Relation

variable {m : Machine} {flat : FlatMachine} {iteration k : Nat} {d : Configuration} {x y : Instant}
  {r : Row}

/-- The row that the table takes is one of a rule, it keeps the boundary at the left end, and the
machine stays on its way through the source run. -/
theorem OnTheWay.row (hc : Compiled m iteration k flat) (h : OnTheWay m iteration true k d x)
    (hr : rowFor? flat.rows x.state x.symbol = some r) :
    (x.position = 0 → r.write = Symbol.boundary ∧ r.move ≠ .left) ∧
      ∃ d', OnTheWay m iteration true k d' (x.apply r) := by
  have hwalk : ∀ {T : Nat → Row → Prop} {y}, (∀ n r, T n r → r ∈ flat.rows) → Walks T x y →
      T x.position r ∧ y = x.apply r := by
    rintro T y hT ⟨r', hr', hdomain, rfl⟩
    have hfind := (rowFor?_eq_some hc.nodup).mpr
      ⟨hT _ r' hr', congrArg Prod.fst hdomain, congrArg Prod.snd hdomain⟩
    obtain rfl := Option.some.inj (hr.symm.trans hfind)
    exact ⟨hr', rfl⟩
  rcases h.cases with hends | ⟨y, hquiet, hway⟩
  · cases hends with
    | next _ _ hturn henters =>
      obtain ⟨⟨-, -, hzero⟩, rfl⟩ := hwalk (fun _ r hr => (hc.mem_rows r).mpr hr.1) hturn
      exact ⟨hzero, _, henters.ends hc.wellFormed⟩
    | stop _ hstuck | off _ _ hstuck =>
      obtain ⟨hmem, hstate, hread⟩ := (rowFor?_eq_some hc.nodup).mp hr
      obtain ⟨rule, hrule, hemit⟩ := (hc.mem_rows r).mp hmem
      exact absurd (Prod.ext hstate hread) (hstuck rule hrule r hemit)
  · obtain ⟨⟨-, -, hzero⟩, rfl⟩ := hwalk (fun _ r hr => (hc.mem_rows r).mpr hr.1) hquiet
    exact ⟨hzero, d, hway⟩

/-- **A run keeps the tape intact.** -/
theorem intact_run (hc : Compiled m iteration k flat) {n : Nat}
    (h : OnTheWay m iteration true k d x) (hx : Intact (m.alphabet iteration) k x)
    (hrun : x.run flat.rows n = some y) :
    (∃ d', OnTheWay m iteration true k d' y) ∧ Intact (m.alphabet iteration) k y := by
  induction n generalizing d x with
  | zero =>
    cases hrun
    exact ⟨⟨d, h⟩, hx⟩
  | succ n ih =>
    obtain ⟨x', hstep, hrun⟩ := Option.bind_eq_some_iff.mp hrun
    obtain ⟨r, hr, rfl⟩ := Option.map_eq_some_iff.mp hstep
    obtain ⟨hzero, d', hway⟩ := h.row hc hr
    obtain ⟨hmem, hstate, hread⟩ := (rowFor?_eq_some hc.nodup).mp hr
    obtain ⟨rule, hrule, hemit⟩ := (hc.mem_rows r).mp hmem
    have heffect := hemit.effect hc.fits hrule
    rw [hstate, hread] at heffect
    exact ih hway (hx.apply hc.fits.proper heffect hzero) hrun

/-- What holds of the single tape of a machine that simulates `k` tapes. -/
structure TapeInvariant (rows : List Row) (iteration k : Nat) (x : Instant) : Prop where
  /-- The first cell holds the plain boundary. -/
  opening : x.cells.head? = some Symbol.boundary
  /-- The machine does not leave the tape at its left end. -/
  left_end : x.position = 0 → ∀ r ∈ rows, r.domain = (x.state, x.symbol) → r.move ≠ .left
  /-- There is one tape end, with blanks behind it only. -/
  closing : x.state.carried ≠ [Symbol.tapeEnd] →
    ∃ u v, x.cells = u ++ Symbol.tapeEnd :: v ∧ Symbol.tapeEnd ∉ u ∧ ∀ c ∈ v, c = Symbol.blank
  /-- A shift that carries the tape end is behind all cells that are not blank. -/
  moving : x.state.carried = [Symbol.tapeEnd] →
    Symbol.tapeEnd ∉ x.cells ∧ ∀ c ∈ x.cells.drop x.position, c = Symbol.blank
  /-- There is at most one return mark, during an extension only. -/
  return_mark : x.cells.count Symbol.returnMark ≤ 1 ∧
    (Symbol.returnMark ∈ x.cells → x.state.isExtension = true)
  /-- There are `k + 1` boundaries, with the one that a shift carries. -/
  boundaries : (x.state.carried ++ x.cells).countP (isBoundaryCell iteration) = k + 1
  /-- There are `k` head markers, with the one that a shift carries, or one less. -/
  heads : (x.state.carried ++ x.cells).countP (·.isMarkerLike iteration) = k ∨
    (x.state.carried ++ x.cells).countP (·.isMarkerLike iteration) + 1 = k

theorem mem_iff_cellAt {t : List Symbol} {c : Symbol} (hc : c ≠ Symbol.blank) :
    c ∈ t ↔ ∃ j, Tapes.cellAt t j = c := by
  rw [List.mem_iff_getElem?]
  constructor
  · rintro ⟨j, hj⟩
    exact ⟨j, by rw [Tapes.cellAt, hj]; rfl⟩
  · rintro ⟨j, hj⟩
    refine ⟨j, ?_⟩
    unfold Tapes.cellAt at hj
    cases hget : t[j]? with
    | none => exact absurd (by simpa [hget] using hj.symm) hc
    | some c' => simpa [hget] using hj

theorem eq_blank_of_mem_drop {t : List Symbol} {n : Nat}
    (h : ∀ j, n ≤ j → Tapes.cellAt t j = Symbol.blank) :
    ∀ c ∈ t.drop n, c = Symbol.blank := by
  intro c hc
  by_contra hne
  obtain ⟨j, hj⟩ := (mem_iff_cellAt hne).mp hc
  refine hne (hj.symm.trans ?_)
  rw [← h (n + j) (Nat.le_add_right n j), Tapes.cellAt, Tapes.cellAt, List.getElem?_drop]

theorem closing_of_closed (h : Closed x) (hcarried : x.state.stage ≠ .carry Symbol.tapeEnd) :
    ∃ u v, x.cells = u ++ Symbol.tapeEnd :: v ∧ Symbol.tapeEnd ∉ u ∧ ∀ c ∈ v, c = Symbol.blank := by
  cases h with
  | moving hcarry => exact absurd hcarry hcarried
  | @closed n _ _ hend hbefore hbehind =>
    have hget : x.cells[n]? = some Symbol.tapeEnd := by
      unfold Tapes.cellAt at hend
      cases hget : x.cells[n]? with
      | none => exact absurd (by simpa [hget] using hend) (by decide)
      | some c => simpa [hget] using hend
    obtain ⟨hlt, hn⟩ := List.getElem?_eq_some_iff.mp hget
    refine ⟨x.cells.take n, x.cells.drop (n + 1), ?_, fun hmem => ?_, eq_blank_of_mem_drop hbehind⟩
    · rw [← hn, List.getElem_cons_drop, List.take_append_drop]
    · obtain ⟨j, hj, hget⟩ := List.mem_take_iff_getElem.mp hmem
      refine hbefore j (by omega) ?_
      rw [Tapes.cellAt, List.getElem?_eq_getElem (by omega), hget]
      rfl

theorem moving_of_closed (h : Closed x) (hcarried : x.state.stage = .carry Symbol.tapeEnd) :
    Symbol.tapeEnd ∉ x.cells ∧ ∀ c ∈ x.cells.drop x.position, c = Symbol.blank := by
  cases h with
  | moving _ hbefore hbehind =>
    refine ⟨fun hmem => ?_, eq_blank_of_mem_drop hbehind⟩
    obtain ⟨j, hj⟩ := (mem_iff_cellAt (by decide)).mp hmem
    rcases Nat.lt_or_ge j x.position with hlt | hge
    · exact hbefore j hlt hj
    · exact absurd (hj.symm.trans (hbehind j hge)) (by decide)
  | closed hcarry => exact absurd hcarried hcarry

theorem carried_eq_tapeEnd_iff {s : State} :
    s.carried = [Symbol.tapeEnd] ↔ s.stage = .carry Symbol.tapeEnd := by
  unfold State.carried Stage.carried
  cases s.stage <;> simp

theorem isExtension_of_anchored {s : State} (h : anchored s.stage ≠ 0) : s.isExtension = true := by
  unfold State.stage at h
  unfold State.isExtension
  split at h <;> simp_all [anchored]

/-- What an intact tape looks like. -/
theorem tapeInvariant_of_intact (hc : Compiled m iteration k flat)
    (h : Intact (m.alphabet iteration) k x) (hway : OnTheWay m iteration true k d x) :
    TapeInvariant flat.rows iteration k x where
  opening := by
    have hfirst := h.first
    cases hcells : x.cells with
    | nil => exact absurd (by simpa [hcells, Tapes.cellAt] using hfirst) (by decide)
    | cons s rest => simpa [hcells, Tapes.cellAt] using hfirst
  left_end := by
    intro hzero r hr hdomain
    have hrow := (rowFor?_eq_some hc.nodup).mpr
      ⟨hr, congrArg Prod.fst hdomain, congrArg Prod.snd hdomain⟩
    exact ((hway.row hc hrow).1 hzero).2
  closing hcarried := closing_of_closed h.closed (mt carried_eq_tapeEnd_iff.mpr hcarried)
  moving hcarried := moving_of_closed h.closed (carried_eq_tapeEnd_iff.mp hcarried)
  return_mark := by
    have hanchors := h.anchors
    refine ⟨?_, fun hmem => isExtension_of_anchored ?_⟩
    · have : anchored x.state.stage ≤ 1 := by cases x.state.stage <;> simp [anchored]
      omega
    · have := List.count_pos_iff.mpr hmem
      omega
  boundaries := by
    rw [List.countP_append, Nat.add_comm]
    exact h.edges
  heads := by
    have hmarks := h.marks
    have hle : inTransit x.state.stage ≤ 1 := by cases x.state.stage <;> simp [inTransit]
    have hiteration : (m.alphabet iteration).iteration = iteration := rfl
    rw [hiteration] at hmarks
    rw [List.countP_append]
    omega

/-- **At every step the single tape is closed at both ends and keeps its boundaries and heads**, in
the run of the table and in that of the machine with named states. -/
theorem run_keeps_tape (m : Machine) (c : Config) (flat : FlatMachine) (k : Nat) (input : Tapes)
    (hflat : m.flatten c = .ok flat) (hplaceholder : c.placeholder = none)
    (hsafety : c.safety = ⟨true, true⟩) (hk : m.tapeCount? = some k) (hinput : Fitting m k input) :
    ∃ cells, (input.map (·.escape c.iteration)).encode c.iteration = .ok cells ∧
      (∀ n x, Instant.run flat.rows n ⟨flat.initial, cells, 0⟩ = some x →
        TapeInvariant flat.rows c.iteration k x) ∧
      ∀ f n e, flat.toMachine = .ok f →
        (Configuration.start f ⟨[cells], [0]⟩).run f.index n = (.running, e) →
        ∃ x, flat.Depicts e x ∧ TapeInvariant flat.rows c.iteration k x := by
  obtain ⟨k', hc⟩ := Compiled.of_flatten hflat hplaceholder hsafety
  obtain rfl : k' = k := Option.some.inj (hc.wellFormed.tapeCount.symm.trans hk)
  obtain ⟨cells, hcode, henters⟩ := enters_start hc.wellFormed c.iteration hinput
  have hstart : Intact (m.alphabet c.iteration) k' ⟨flat.initial, cells, 0⟩ := by
    obtain ⟨strips, ⟨rfl, hover, -⟩, -, rfl, -⟩ := henters
    rw [hc.initial]
    exact Strip.intact_layout hc.fits.proper hover m.initial
  have htable : ∀ n x, Instant.run flat.rows n ⟨flat.initial, cells, 0⟩ = some x →
      TapeInvariant flat.rows c.iteration k' x := by
    intro n x hrun
    rw [hc.initial] at hrun hstart
    obtain ⟨⟨d, hway⟩, hintact⟩ := intact_run hc (henters.ends hc.wellFormed) hstart hrun
    exact tapeInvariant_of_intact hc hintact hway
  refine ⟨cells, hcode, htable, fun f n e hf hrun => ?_⟩
  have hn := FlatMachine.named_of_toMachine hc.nodup hf
  obtain ⟨x, hx, he⟩ := hn.run_of_running (hn.depicts_start cells) hrun
  exact ⟨x, he, htable n x hx⟩

/-- The tape of the machine over reserved symbols, whose heads need new cells at both ends. -/
theorem run_keeps_tape_exchange : ∃ flat, Machine.exchange.flatten {} = .ok flat ∧
    Fitting Machine.exchange 2 exchangeInput ∧
    ∃ cells, (exchangeInput.map (·.escape 1)).encode 1 = .ok cells ∧
      ∀ n x, Instant.run flat.rows n ⟨flat.initial, cells, 0⟩ = some x →
        TapeInvariant flat.rows 1 2 x := by
  obtain ⟨flat, -, hflat, -⟩ := Compiled.toMachine_exchange
  obtain ⟨cells, hcode, htable, -⟩ :=
    run_keeps_tape Machine.exchange {} flat 2 exchangeInput hflat rfl rfl rfl fitting_exchangeInput
  exact ⟨flat, hflat, fitting_exchangeInput, cells, hcode, htable⟩

end Simulation
end OneTape
