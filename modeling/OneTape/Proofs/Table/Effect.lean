import OneTape.Proofs.Table.Determinism

/-!
# What rows do to the single tape

For the contents of the single tape most of a state does not matter. A *stage* keeps what does:
whether a head has been lifted off the tape, and what a shift carries. `Effect` lists what a row can
do, by the stages between which it leads.

Results:
* `Emits.effect`: every row of a rule has one of these effects.
* `Effect.balanced_edges`, `Effect.balanced_anchors`, `Effect.balanced_marks`: boundaries, return
  marks and head markers are conserved, if one counts what is carried or lifted.
* `Effect.of_carry_end`, `Effect.of_read_end`, `Effect.of_inside`: how the tape end is moved.
-/

namespace OneTape

/-- What a state has taken off the single tape. -/
inductive Stage
  /-- Nothing: the state sweeps over the tape. -/
  | sweep
  /-- A head marker, which the state is about to place. -/
  | lifted
  /-- A head marker, and the state makes room for it. -/
  | realign
  /-- A head marker and a symbol, carried by a shift. -/
  | carry (carried : Symbol)
  /-- A head marker, and the state comes back from a shift. -/
  | comeBack
deriving DecidableEq

/-- The symbol that a stage carries, as a list of at most one. -/
def Stage.carried : Stage → List Symbol
  | .carry c => [c]
  | _ => []

namespace State

/-- The stage of a state. -/
def stage (s : State) : Stage :=
  match s.phase with
  | .active _ => .lifted
  | .extend _ _ .realign => .realign
  | .extend _ _ (.shift carried) => .carry carried
  | .extend _ _ .comeBack => .comeBack
  | _ => .sweep

/-- The symbol that a state of a shift carries, as a list of at most one. -/
def carried (s : State) : List Symbol := s.stage.carried

end State

namespace Table

/-- What a row does: its stage, the symbol read, the next stage, the symbol written and the move. -/
inductive Effect (a : Alphabet) : Stage → Symbol → Stage → Symbol → Direction → Prop
  /-- The machine sweeps over the tape. -/
  | sweep {c : Symbol} {d : Direction} : c ∈ a.library → Effect a .sweep c .sweep c d
  /-- The sweep to the left begins at the tape end. -/
  | sweepEnd : Effect a .sweep Symbol.tapeEnd .sweep Symbol.tapeEnd .left
  /-- A head writes and stays. -/
  | rewrite {x w : Symbol} {d : Direction} : x ∈ a.symbols → w ∈ a.symbols →
      Effect a .sweep (a.marker x) .sweep (a.marker w) d
  /-- A head writes and leaves its cell. -/
  | lift {x w : Symbol} {d : Direction} : x ∈ a.symbols → w ∈ a.symbols →
      Effect a .sweep (a.marker x) .lifted w d
  /-- A head leaves the edge of its tape. -/
  | liftEdge {d : Direction} : Effect a .sweep a.boundaryMarker .lifted Symbol.boundary d
  /-- A head is placed. -/
  | place {c : Symbol} {d : Direction} : c ∈ a.unmarked → Effect a .lifted c .sweep (a.marker c) d
  /-- A head has left its tape on the left side. -/
  | stepBack {e : Symbol} : a.IsEdge e → Effect a .lifted e .realign e .right
  /-- A shift begins at the left end of a tape. -/
  | anchor {c : Symbol} : c ∈ a.unmarked → Effect a .realign c (.carry c) Symbol.returnMark .right
  /-- A shift begins at the right end of a tape. -/
  | anchorEdge :
      Effect a .sweep a.boundaryMarker (.carry Symbol.boundary) Symbol.returnMark .right
  /-- A shift exchanges what it carries. -/
  | relay {carried found : Symbol} : carried ∈ a.library → found ∈ a.library →
      Effect a (.carry carried) found (.carry found) carried .right
  /-- A shift takes the tape end. -/
  | takeEnd {e : Symbol} : a.IsEdge e →
      Effect a (.carry e) Symbol.tapeEnd (.carry Symbol.tapeEnd) e .right
  /-- A shift puts the tape end down. -/
  | putEnd : Effect a (.carry Symbol.tapeEnd) Symbol.blank .comeBack Symbol.tapeEnd .left
  /-- The machine comes back from a shift. -/
  | comeBack {c : Symbol} : c ∈ a.library → Effect a .comeBack c .comeBack c .left
  /-- The place of the return mark becomes a new cell with a head. -/
  | resume {d : Direction} : Effect a .comeBack Symbol.returnMark .sweep a.blankMarker d

variable {a : Alphabet} {rule : Rule} {rules : List Rule} {k : Nat} {r : Row}

/-! ## The effects of rows -/

theorem stage_afterPhase (i : Nat) : (ruleState a rule (afterPhase i)).stage = .sweep := by
  unfold afterPhase
  split_ifs <;> rfl

theorem Discovers.effect (hf : Fits a rules k) (hrule : rule ∈ rules) (h : Discovers a rule r) :
    Effect a r.state.stage r.read r.next.stage r.write r.move := by
  cases h with
  | scan _ hc => exact .sweep (Alphabet.mem_library_of_mem_unmarked hc)
  | record hx =>
    have hmem := hf.symbols rule hrule _ (List.mem_append_left _ (List.mem_of_getElem? hx))
    exact .sweep (Alphabet.marker_mem_library (Alphabet.mem_unmarked_of_mem_symbols hmem))
  | recordEdge => exact .sweep (Alphabet.marker_mem_library Alphabet.boundary_mem_unmarked)
  | handOver hc => exact .sweep (Alphabet.mem_library_of_mem_unmarked hc)
  | handOverEnd => exact .sweepEnd

theorem Executes.effect (hf : Fits a rules k) (hrule : rule ∈ rules) (h : Executes a rule r)
    (hk : overwritesEdge a r = false) :
    Effect a r.state.stage r.read r.next.stage r.write r.move := by
  cases h with
  | retreat _ hc => exact .sweep (Alphabet.mem_library_of_mem_unmarked hc)
  | @resolve i x w d hi =>
    have hx := hf.read_mem hrule hi
    have hw := hf.write_mem hrule hi
    by_cases hd : d = .stay
    · subst hd
      rw [resolution_stay]
      dsimp only
      rw [stage_afterPhase]
      exact .rewrite hx hw
    · rw [resolution_move hd]
      exact .lift hx hw
  | @resolveEdge i w d hi =>
    have hno := mt (overwritesEdge_edgeResolution hf.proper (hf.write_mem hrule hi)).mpr
      (by rw [hk]; exact Bool.false_ne_true)
    obtain ⟨rfl, hd⟩ := not_not.mp hno
    cases d with
    | right => exact absurd rfl hd
    | stay =>
      rw [edgeResolution_stay]
      dsimp only
      rw [stage_afterPhase]
      exact .sweep (Alphabet.marker_mem_library Alphabet.boundary_mem_unmarked)
    | left =>
      rw [edgeResolution_left]
      exact .liftEdge
  | place _ _ hc _ =>
    dsimp only
    rw [stage_afterPhase]
    exact .place hc
  | cycle hc => exact .sweep hc

theorem Shifts.effect {owner : State} {side : Side} {resume : Resume}
    (hstage : resume.state.stage = .sweep) (hwrite : resume.write = a.blankMarker)
    (h : Shifts a owner side resume r) :
    Effect a r.state.stage r.read r.next.stage r.write r.move := by
  cases h with
  | relay hc hf => exact .relay hc hf
  | moveEnd hc => exact .takeEnd hc
  | turn => exact .putEnd
  | comeBack hc => exact .comeBack hc
  | resume =>
    dsimp only
    rw [hstage, hwrite]
    exact .resume

/-- **Every row of a rule has one of the effects.** -/
theorem Emits.effect (hf : Fits a rules k) (hrule : rule ∈ rules)
    (h : Emits a ⟨true, true⟩ rule r) :
    Effect a r.state.stage r.read r.next.stage r.write r.move := by
  cases h with
  | discover h => exact h.effect hf hrule
  | execute h hk => exact h.effect hf hrule (hk rfl)
  | @extendLeft i _ _ _ _ _ h =>
    cases h with
    | edge he => exact .stepBack he
    | realign hc => exact .anchor hc
    | shift h => exact h.effect (stage_afterPhase i) rfl
  | extendRight _ _ _ h =>
    cases h with
    | anchor => exact .anchorEdge
    | shift h => exact h.effect rfl rfl

/-! ## What is conserved -/

/-- Whether a cell closes a virtual tape or opens the first one. -/
def isBoundaryCell (iteration : Nat) (c : Symbol) : Bool :=
  c == Symbol.boundary || c == Symbol.boundary.marker iteration

/-- The number of return marks on the tape. -/
def anchored : Stage → Nat
  | .carry _ | .comeBack => 1
  | _ => 0

/-- The number of heads off the tape. -/
def inTransit : Stage → Nat
  | .sweep => 0
  | _ => 1

variable {s s' : Stage} {c w : Symbol} {d : Direction}

theorem isBoundaryCell_eq_false {iteration : Nat} (hmark : c.isMarkerLike iteration = false)
    (hc : c ≠ Symbol.boundary) : isBoundaryCell iteration c = false := by
  have hne : c ≠ Symbol.boundary.marker iteration := (Symbol.marker_ne_of_isMarkerLike hmark).symm
  simp [isBoundaryCell, hc, hne]

theorem isBoundaryCell_of_mem (ha : a.Proper) (hc : c ∈ a.symbols) :
    isBoundaryCell a.iteration c = false ∧ isBoundaryCell a.iteration (a.marker c) = false := by
  have hplain := ha.plain c hc
  have hcell : a.marker c ≠ Symbol.boundary :=
    ha.marker_ne_of_mem_unmarked Alphabet.boundary_mem_unmarked
  have hmark : a.marker c ≠ Symbol.boundary.marker a.iteration := ha.marker_ne_boundaryMarker hc
  exact ⟨isBoundaryCell_eq_false hplain.2 hplain.ne_boundary,
    by simp [isBoundaryCell, hcell, hmark]⟩

theorem isBoundaryCell_boundary (iteration : Nat) :
    isBoundaryCell iteration Symbol.boundary = true := by
  simp [isBoundaryCell]

theorem isBoundaryCell_boundaryMarker (a : Alphabet) :
    isBoundaryCell a.iteration a.boundaryMarker = true := by
  simp [isBoundaryCell, Alphabet.boundaryMarker, Alphabet.marker]

theorem isBoundaryCell_marker (ha : a.Proper) (hc : c ∈ a.unmarked) :
    isBoundaryCell a.iteration (a.marker c) = isBoundaryCell a.iteration c := by
  rcases Alphabet.mem_unmarked.mp hc with hc | rfl
  · rw [(isBoundaryCell_of_mem ha hc).1, (isBoundaryCell_of_mem ha hc).2]
  · rw [isBoundaryCell_boundary]
    exact isBoundaryCell_boundaryMarker a

theorem isBoundaryCell_returnMark (iteration : Nat) :
    isBoundaryCell iteration Symbol.returnMark = false :=
  isBoundaryCell_eq_false Symbol.isMarkerLike_returnMark (by decide)

theorem isBoundaryCell_tapeEnd (iteration : Nat) :
    isBoundaryCell iteration Symbol.tapeEnd = false :=
  isBoundaryCell_eq_false Symbol.isMarkerLike_tapeEnd (by decide)

namespace Effect

/-- **No row makes or loses a boundary**, if the one carried counts. -/
theorem balanced_edges (ha : a.Proper) (h : Effect a s c s' w d) :
    [w].countP (isBoundaryCell a.iteration) + s'.carried.countP (isBoundaryCell a.iteration) =
      [c].countP (isBoundaryCell a.iteration) + s.carried.countP (isBoundaryCell a.iteration) := by
  have hblank := isBoundaryCell_of_mem ha ha.blank_mem
  have hmark := isBoundaryCell_returnMark a.iteration
  cases h with
  | sweep | sweepEnd | stepBack | comeBack => rfl
  | rewrite hx hw => simp [Stage.carried, isBoundaryCell_of_mem ha hx, isBoundaryCell_of_mem ha hw]
  | lift hx hw => simp [Stage.carried, isBoundaryCell_of_mem ha hx, isBoundaryCell_of_mem ha hw]
  | liftEdge => simp [Stage.carried, isBoundaryCell_boundary, isBoundaryCell_boundaryMarker]
  | place hc => simp [Stage.carried, isBoundaryCell_marker ha hc]
  | anchor => simp [Stage.carried, hmark]
  | anchorEdge =>
    simp [Stage.carried, hmark, isBoundaryCell_boundary, isBoundaryCell_boundaryMarker]
  | relay | takeEnd => exact Nat.add_comm ..
  | putEnd => simp [Stage.carried, hblank]
  | resume => simp [Stage.carried, hmark, Alphabet.blankMarker, hblank]

/-- **The return mark stands on the tape from the beginning of a shift to the end of the way
back.** -/
theorem balanced_anchors (ha : a.Proper) (h : Effect a s c s' w d) :
    [w].count Symbol.returnMark + anchored s = [c].count Symbol.returnMark + anchored s' := by
  have hlib : ∀ {c}, c ∈ a.library → [c].count Symbol.returnMark = 0 := fun hc =>
    List.count_eq_zero.mpr (by simpa using (ha.ne_returnMark hc).symm)
  have hsym : ∀ {c}, c ∈ a.symbols → [c].count Symbol.returnMark = 0 := fun hc =>
    hlib (Alphabet.mem_library_of_mem_unmarked (Alphabet.mem_unmarked_of_mem_symbols hc))
  have hmarker : ∀ {c}, c ∈ a.unmarked → [a.marker c].count Symbol.returnMark = 0 := fun hc =>
    hlib (Alphabet.marker_mem_library hc)
  have hedge : [a.boundaryMarker].count Symbol.returnMark = 0 :=
    hmarker Alphabet.boundary_mem_unmarked
  have hend : [Symbol.tapeEnd].count Symbol.returnMark = 0 := by decide
  cases h with
  | sweep | sweepEnd | stepBack | comeBack => rfl
  | rewrite hx hw =>
    rw [hmarker (Alphabet.mem_unmarked_of_mem_symbols hx),
      hmarker (Alphabet.mem_unmarked_of_mem_symbols hw)]
  | lift hx hw =>
    rw [hsym hw, hmarker (Alphabet.mem_unmarked_of_mem_symbols hx)]
    rfl
  | liftEdge =>
    rw [hedge]
    rfl
  | place hc =>
    rw [hmarker hc, hlib (Alphabet.mem_library_of_mem_unmarked hc)]
    rfl
  | anchor hc =>
    rw [hlib (Alphabet.mem_library_of_mem_unmarked hc)]
    rfl
  | anchorEdge =>
    rw [hedge]
    rfl
  | relay hc hf =>
    rw [hlib hc, hlib hf]
    rfl
  | takeEnd he =>
    rw [hlib he.mem_library, hend]
    rfl
  | putEnd => rfl
  | resume =>
    rw [Alphabet.blankMarker, hmarker (Alphabet.mem_unmarked_of_mem_symbols ha.blank_mem)]
    rfl

/-- **No row makes or loses a head**, if the one carried and the one lifted count. -/
theorem balanced_marks (ha : a.Proper) (h : Effect a s c s' w d) :
    [w].countP (·.isMarkerLike a.iteration) + s'.carried.countP (·.isMarkerLike a.iteration) +
        inTransit s' =
      [c].countP (·.isMarkerLike a.iteration) + s.carried.countP (·.isMarkerLike a.iteration) +
        inTransit s := by
  have hplain : ∀ {c}, c ∈ a.unmarked → c.isMarkerLike a.iteration = false := fun hc =>
    ha.isMarkerLike_of_mem_unmarked hc
  cases h with
  | sweep | sweepEnd | stepBack | comeBack => rfl
  | rewrite => simp [Stage.carried, inTransit]
  | lift hx hw => simp [Stage.carried, inTransit, hplain (Alphabet.mem_unmarked_of_mem_symbols hw)]
  | liftEdge => simp [Stage.carried, inTransit, Alphabet.boundaryMarker]
  | place hc => simp [Stage.carried, inTransit, hplain hc]
  | anchor => simp [Stage.carried, inTransit]
  | anchorEdge => simp [Stage.carried, inTransit, Alphabet.boundaryMarker]
  | relay | takeEnd => simp only [Stage.carried, inTransit, Nat.add_comm]
  | putEnd => simp [Stage.carried, inTransit]
  | resume => simp [Stage.carried, inTransit, Alphabet.blankMarker]

/-! ## How the tape end is moved -/

/-- A shift that carries the tape end puts it down. -/
theorem of_carry_end (ha : a.Proper) (h : Effect a s c s' w d) (hs : s = .carry Symbol.tapeEnd) :
    s' = .comeBack ∧ w = Symbol.tapeEnd ∧ d = .left := by
  cases h with
  | relay hc => exact absurd (Stage.carry.inj hs) (ha.ne_tapeEnd hc)
  | takeEnd he => exact absurd (Stage.carry.inj hs) (ha.ne_tapeEnd he.mem_library)
  | putEnd => exact ⟨rfl, rfl, rfl⟩
  | _ => cases hs

/-- The machine turns back at the tape end, or a shift takes it. -/
theorem of_read_end (ha : a.Proper) (h : Effect a s c s' w d) (hc : c = Symbol.tapeEnd) :
    (s' = .sweep ∧ w = Symbol.tapeEnd ∧ d = .left) ∨
      (s' = .carry Symbol.tapeEnd ∧ w ≠ Symbol.tapeEnd ∧ d = .right) := by
  have hlib : ∀ {c}, c ∈ a.library → c ≠ Symbol.tapeEnd := ha.ne_tapeEnd
  cases h with
  | sweepEnd => exact .inl ⟨rfl, rfl, rfl⟩
  | takeEnd he => exact .inr ⟨rfl, hlib he.mem_library, rfl⟩
  | sweep hmem | comeBack hmem => exact absurd hc (hlib hmem)
  | rewrite hx | lift hx =>
    exact absurd hc (hlib (Alphabet.marker_mem_library (Alphabet.mem_unmarked_of_mem_symbols hx)))
  | liftEdge | anchorEdge =>
    exact absurd hc (hlib (Alphabet.marker_mem_library Alphabet.boundary_mem_unmarked))
  | place hmem | anchor hmem => exact absurd hc (hlib (Alphabet.mem_library_of_mem_unmarked hmem))
  | stepBack he => exact absurd hc (hlib he.mem_library)
  | relay _ hmem => exact absurd hc (hlib hmem)
  | putEnd | resume => exact absurd hc (by decide)

/-- Elsewhere the tape end is neither written nor taken. -/
theorem of_inside (ha : a.Proper) (h : Effect a s c s' w d) (hs : s ≠ .carry Symbol.tapeEnd)
    (hc : c ≠ Symbol.tapeEnd) : s' ≠ .carry Symbol.tapeEnd ∧ w ≠ Symbol.tapeEnd := by
  have hlib : ∀ {c}, c ∈ a.library → c ≠ Symbol.tapeEnd := ha.ne_tapeEnd
  have hmark : ∀ {c}, c ∈ a.unmarked → a.marker c ≠ Symbol.tapeEnd := fun hc =>
    hlib (Alphabet.marker_mem_library hc)
  have hcarry : ∀ {c}, c ≠ Symbol.tapeEnd → Stage.carry c ≠ .carry Symbol.tapeEnd := fun h he =>
    h (Stage.carry.inj he)
  cases h with
  | sweep hmem | comeBack hmem => exact ⟨nofun, hlib hmem⟩
  | sweepEnd | takeEnd => exact absurd rfl hc
  | rewrite _ hw => exact ⟨nofun, hmark (Alphabet.mem_unmarked_of_mem_symbols hw)⟩
  | lift _ hw =>
    exact ⟨nofun, hlib (Alphabet.mem_library_of_mem_unmarked
      (Alphabet.mem_unmarked_of_mem_symbols hw))⟩
  | liftEdge => exact ⟨nofun, by decide⟩
  | place hmem => exact ⟨nofun, hmark hmem⟩
  | stepBack he => exact ⟨nofun, hlib he.mem_library⟩
  | anchor hmem => exact ⟨hcarry (hlib (Alphabet.mem_library_of_mem_unmarked hmem)), by decide⟩
  | anchorEdge => exact ⟨hcarry (by decide), by decide⟩
  | relay hmem hmem' => exact ⟨hcarry (hlib hmem'), hlib hmem⟩
  | putEnd => exact absurd rfl hs
  | resume => exact ⟨nofun, hmark (Alphabet.mem_unmarked_of_mem_symbols ha.blank_mem)⟩

end Effect
end Table
end OneTape
