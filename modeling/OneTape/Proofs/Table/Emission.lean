import OneTape.Proofs.Consolidate
import OneTape.Proofs.Table.Extension

/-!
# The rows that a rule emits

A table is made of the rows that each rule of the source machine emits: those of its two sweeps,
except the ones that an extension replaces, and those of its extensions.

Results:
* `overwritesEdge_edgeResolution`: which rows an extension replaces.
* `mem_extended_iff`: the extended rows of a machine are those that its rules emit.
-/

namespace OneTape.Table

/-- The rules and the alphabet that a table is made from: rules for `k` tapes over the symbols of a
proper alphabet, at most one for each state and tuple of symbols. -/
structure Fits (a : Alphabet) (rules : List Rule) (k : Nat) : Prop where
  proper : a.Proper
  functional : Functional (fun r : Rule => (r.state, r.read)) rules
  lengths : ∀ rule ∈ rules, rule.read.length = k ∧ rule.write.length = k ∧ rule.moves.length = k
  symbols : ∀ rule ∈ rules, ∀ x ∈ rule.symbols, x ∈ a.symbols

/-- The rows of a table that are due to a rule. -/
inductive Emits (a : Alphabet) (safety : Safety) (rule : Rule) : Row → Prop
  | discover {r : Row} : Discovers a rule r → Emits a safety rule r
  | execute {r : Row} : Executes a rule r → (safety.right = true → overwritesEdge a r = false) →
      Emits a safety rule r
  | extendLeft {i : Nat} {x w : Symbol} {r : Row} : safety.left = true → ActsAt rule i x w .left →
      ExtendsLeft a (ruleState a rule (.active (i + 1)))
        ⟨ruleState a rule (afterPhase i), a.blankMarker, placeMove i⟩ r → Emits a safety rule r
  | extendRight {i : Nat} {w : Symbol} {d : Direction} {r : Row} : safety.right = true →
      ActsAt rule i Symbol.blank w d → overwritesEdge a (edgeResolution a rule i w d) = true →
      ExtendsRight a (ruleState a rule (.actor (i + 1))) r → Emits a safety rule r

variable {a : Alphabet} {rule rule' : Rule} {rules : List Rule} {k i : Nat} {x w : Symbol}
  {d : Direction} {r : Row} {safety : Safety}

/-! ## Rules at their heads -/

theorem ActsAt.unique {x' w' : Symbol} {d' : Direction} (h : ActsAt rule i x w d)
    (h' : ActsAt rule i x' w' d') : x = x' ∧ w = w' ∧ d = d' :=
  ⟨Option.some.inj (h.read.symm.trans h'.read), Option.some.inj (h.write.symm.trans h'.write),
    Option.some.inj (h.move.symm.trans h'.move)⟩

namespace Fits

theorem read_mem (hf : Fits a rules k) (hr : rule ∈ rules) (h : ActsAt rule i x w d) :
    x ∈ a.symbols :=
  hf.symbols rule hr x (List.mem_append_left _ (List.mem_of_getElem? h.read))

theorem write_mem (hf : Fits a rules k) (hr : rule ∈ rules) (h : ActsAt rule i x w d) :
    w ∈ a.symbols :=
  hf.symbols rule hr w (List.mem_append_right _ (List.mem_of_getElem? h.write))

/-- A rule acts at each of its heads. -/
theorem actsAt (hf : Fits a rules k) (hr : rule ∈ rules) (hi : i < k) :
    ∃ x w d, ActsAt rule i x w d := by
  obtain ⟨h1, h2, h3⟩ := hf.lengths rule hr
  exact ⟨rule.read.get ⟨i, by omega⟩, rule.write.get ⟨i, by omega⟩, rule.moves.get ⟨i, by omega⟩,
    by simp, by simp, by simp⟩

/-- The source state and the markers of a determined state tell its rule. -/
theorem eq_of_heads (hf : Fits a rules k) (hr : rule ∈ rules) (hr' : rule' ∈ rules)
    (hb : rule.state = rule'.state) (hh : rule.read.map a.marker = rule'.read.map a.marker) :
    rule = rule' :=
  hf.functional rule hr rule' hr' (Prod.ext hb (Alphabet.map_marker_injective hh))

end Fits

/-! ## The forms of a resolution -/

theorem resolution_stay : resolution a rule i x w .stay = ⟨ruleState a rule (.actor (i + 1)),
    a.marker x, ruleState a rule (afterPhase i), a.marker w, .left⟩ := by
  simp only [resolution, resolveRow, if_true, after_eq]
  rfl

theorem resolution_move (h : d ≠ .stay) : resolution a rule i x w d =
    ⟨ruleState a rule (.actor (i + 1)), a.marker x, ruleState a rule (.active (i + 1)), w, d⟩ := by
  simp only [resolution, resolveRow, if_neg h]
  rfl

theorem state_resolveRow (s : State) (h : HeadAction) (read plain marked : Symbol) :
    (resolveRow s h read plain marked).state = s.actor h.head := by
  unfold resolveRow
  split_ifs <;> rfl

theorem read_resolveRow (s : State) (h : HeadAction) (read plain marked : Symbol) :
    (resolveRow s h read plain marked).read = read := by
  unfold resolveRow
  split_ifs <;> rfl

@[simp] theorem state_resolution :
    (resolution a rule i x w d).state = ruleState a rule (.actor (i + 1)) :=
  state_resolveRow ..

@[simp] theorem read_resolution : (resolution a rule i x w d).read = a.marker x :=
  read_resolveRow ..

@[simp] theorem state_edgeResolution :
    (edgeResolution a rule i w d).state = ruleState a rule (.actor (i + 1)) := by
  unfold edgeResolution
  split_ifs <;> exact state_resolveRow ..

@[simp] theorem read_edgeResolution : (edgeResolution a rule i w d).read = a.boundaryMarker := by
  unfold edgeResolution
  split_ifs <;> exact read_resolveRow ..

/-- A head that stays on the edge of its tape and writes a blank stays there. -/
theorem edgeResolution_stay : edgeResolution a rule i Symbol.blank .stay =
    ⟨ruleState a rule (.actor (i + 1)), a.boundaryMarker, ruleState a rule (afterPhase i),
      a.boundaryMarker, .left⟩ := by
  simp only [edgeResolution, resolveRow, if_true, after_eq]
  rfl

/-- A head that leaves the edge of its tape to the left and writes a blank leaves the boundary. -/
theorem edgeResolution_left : edgeResolution a rule i Symbol.blank .left =
    ⟨ruleState a rule (.actor (i + 1)), a.boundaryMarker, ruleState a rule (.active (i + 1)),
      Symbol.boundary, .left⟩ := by
  simp only [edgeResolution, resolveRow, if_true]
  rfl

/-- The boundary under a head is overwritten unless a blank is written and the head does not go
right. -/
theorem overwritesEdge_edgeResolution (ha : a.Proper) (hw : w ∈ a.symbols) :
    overwritesEdge a (edgeResolution a rule i w d) = true ↔ ¬(w = Symbol.blank ∧ d ≠ .right) := by
  have hplain := ha.plain w hw
  have hu := Alphabet.mem_unmarked_of_mem_symbols hw
  have hmark : ∀ c : Symbol, c.isMarkerLike a.iteration = false → a.marker w ≠ c := fun c hc =>
    Symbol.marker_ne_of_isMarkerLike hc
  rw [overwritesEdge_iff]
  by_cases hb : w = Symbol.blank
  · subst hb
    cases d with
    | left => simp [edgeResolution_left]
    | stay => simp [edgeResolution_stay]
    | right =>
      have hm : Symbol.blank ≠ a.boundaryMarker := (ha.marker_ne_of_mem_unmarked hu).symm
      simp only [ne_eq, not_true_eq_false, and_false, not_false_eq_true, iff_true]
      exact ⟨rfl, rfl, hplain.ne_boundary, hm, hplain.ne_returnMark⟩
  · simp only [hb, false_and, not_false_eq_true, iff_true]
    refine ⟨by rw [state_edgeResolution]; rfl, read_edgeResolution, ?_⟩
    rw [edgeResolution, if_neg hb, resolveRow]
    split_ifs
    · exact ⟨hmark _ Symbol.isMarkerLike_boundary, ha.marker_ne_boundaryMarker hw,
        hmark _ Symbol.isMarkerLike_returnMark⟩
    · exact ⟨hplain.ne_boundary, (ha.marker_ne_of_mem_unmarked hu).symm, hplain.ne_returnMark⟩

/-! ## What the extensions of the sweeps depend on -/

theorem overwritesEdge_of_write_eq (h : r.write = r.read) : overwritesEdge a r = false := by
  rw [Bool.eq_false_iff, ne_eq, overwritesEdge_iff]
  rintro ⟨-, hread, -, hwrite, -⟩
  exact hwrite (h.trans hread)

theorem Discovers.write_eq (h : Discovers a rule r) : r.write = r.read := by
  cases h <;> rfl

theorem Discovers.isActive (h : Discovers a rule r) :
    r.state.isActive = false ∧ r.next.isActive = false := by
  cases h <;> exact ⟨rfl, rfl⟩

theorem isActive_afterPhase : (ruleState a rule (afterPhase i)).isActive = false := by
  cases i <;> rfl

/-- Only the rows for a head on the edge of its tape overwrite an edge. -/
theorem Executes.of_overwritesEdge (hf : Fits a rules k) (hr : rule ∈ rules) (h : Executes a rule r)
    (ho : overwritesEdge a r = true) :
    ∃ i w d, ActsAt rule i Symbol.blank w d ∧ r = edgeResolution a rule i w d := by
  have hread := (overwritesEdge_iff.mp ho).2.1
  cases h with
  | retreat hi hc => exact absurd hread.symm (hf.proper.marker_ne_of_mem_unmarked hc)
  | resolve hi =>
    rw [read_resolution] at hread
    exact absurd hread (hf.proper.marker_ne_boundaryMarker (hf.read_mem hr hi))
  | resolveEdge hi => exact ⟨_, _, _, hi, rfl⟩
  | place hi hd hc hcd => exact absurd hread.symm (hf.proper.marker_ne_of_mem_unmarked hc)
  | cycle hc =>
    rw [overwritesEdge_of_write_eq rfl] at ho
    cases ho

theorem resolveRow_of_isActive {s : State} {h : HeadAction} {read plain marked : Symbol}
    (ha : (resolveRow s h read plain marked).next.isActive = true) :
    (resolveRow s h read plain marked).next = s.active h.head ∧
      (resolveRow s h read plain marked).move = h.move := by
  unfold resolveRow at ha ⊢
  split_ifs at ha ⊢
  · unfold State.after at ha
    split_ifs at ha <;> cases ha
  · exact ⟨rfl, rfl⟩

/-- A state that places a head is entered by a left move only for a head that moves left. -/
theorem Executes.of_entersLeftwards (h : Executes a rule r) (hm : r.move = .left)
    (hact : r.next.isActive = true) :
    ∃ i x w, ActsAt rule i x w .left ∧ r.next = ruleState a rule (.active (i + 1)) := by
  cases h with
  | retreat hi hc => cases hact
  | resolve hi =>
    obtain ⟨hnext, hmove⟩ := resolveRow_of_isActive hact
    obtain rfl := hmove.symm.trans hm
    exact ⟨_, _, _, hi, hnext⟩
  | @resolveEdge i w d hi =>
    have hedge : (edgeResolution a rule i w d).next = ruleState a rule (.active (i + 1)) ∧
        (edgeResolution a rule i w d).move = d := by
      unfold edgeResolution at hact ⊢
      split_ifs at hact ⊢ <;> exact resolveRow_of_isActive hact
    obtain rfl := hedge.2.symm.trans hm
    exact ⟨i, _, w, hi, hedge.1⟩
  | place hi hd hc hcd =>
    rw [isActive_afterPhase] at hact
    cases hact
  | cycle hc => cases hact

/-- The rows of a state that places a head. -/
theorem Executes.of_isActive (h : Executes a rule r) (hact : r.state.isActive = true) :
    ∃ i x w d c, ActsAt rule i x w d ∧ c ∈ a.unmarked ∧ ¬(c = Symbol.boundary ∧ d = .left) ∧
      r = ⟨ruleState a rule (.active (i + 1)), c, ruleState a rule (afterPhase i), a.marker c,
        placeMove i⟩ := by
  cases h with
  | retreat hi hc => cases hact
  | resolve hi =>
    rw [state_resolution] at hact
    cases hact
  | resolveEdge hi =>
    rw [state_edgeResolution] at hact
    cases hact
  | place hi hd hc hcd => exact ⟨_, _, _, _, _, hi, hc, hcd, rfl⟩
  | cycle hc => cases hact

theorem mem_enteredLeftwards {rows : List Row} {s : State} : s ∈ enteredLeftwards rows ↔
    ∃ r ∈ rows, r.move = .left ∧ r.next = s ∧ s.isActive = true := by
  simp only [enteredLeftwards, mem_sortedSet, List.mem_filter, List.mem_map, beq_iff_eq]
  constructor
  · rintro ⟨⟨r, ⟨hr, hm⟩, rfl⟩, hs⟩
    exact ⟨r, hr, hm, rfl, hs⟩
  · rintro ⟨r, hr, hm, rfl, hs⟩
    exact ⟨⟨r, ⟨hr, hm⟩, rfl⟩, hs⟩

/-! ## The extended rows of a machine -/

/-- A row that no extension concerns. -/
structure Inert (a : Alphabet) (r : Row) : Prop where
  overwritesEdge : overwritesEdge a r = false
  state : r.state.isActive = false
  next : r.next.isActive = false

section Extended

variable {others sweeps : List Row}

/-- Some rows in front of the sweeps are inert, and the sweeps are those of the rules. -/
structure Extensible (a : Alphabet) (rules : List Rule) (others sweeps : List Row) : Prop where
  inert : ∀ r ∈ others, Inert a r
  mem_sweeps : ∀ r, r ∈ sweeps ↔ ∃ rule ∈ rules, Discovers a rule r ∨ Executes a rule r

namespace Extensible

theorem executes_of_isActive (he : Extensible a rules others sweeps) (h : r ∈ others ++ sweeps)
    (hact : r.state.isActive = true ∨ r.next.isActive = true) :
    ∃ rule ∈ rules, Executes a rule r := by
  rcases List.mem_append.mp h with h | h
  · have hi := he.inert r h
    simp [hi.state, hi.next] at hact
  · obtain ⟨rule, hr, h | h⟩ := (he.mem_sweeps r).mp h
    · simp [h.isActive] at hact
    · exact ⟨rule, hr, h⟩

theorem mem_enteredLeftwards (he : Extensible a rules others sweeps) {s : State} :
    s ∈ enteredLeftwards (others ++ sweeps) ↔
      ∃ rule ∈ rules, ∃ i x w, ActsAt rule i x w .left ∧
        s = ruleState a rule (.active (i + 1)) := by
  rw [Table.mem_enteredLeftwards]
  constructor
  · rintro ⟨r, hr, hm, rfl, hs⟩
    obtain ⟨rule, hrule, h⟩ := he.executes_of_isActive hr (.inr hs)
    obtain ⟨i, x, w, hi, hnext⟩ := h.of_entersLeftwards hm hs
    exact ⟨rule, hrule, i, x, w, hi, hnext⟩
  · rintro ⟨rule, hrule, i, x, w, hi, rfl⟩
    refine ⟨resolution a rule i x w .left, ?_, ?_⟩
    · exact List.mem_append_right _ ((he.mem_sweeps _).mpr ⟨rule, hrule, .inr (.resolve hi)⟩)
    · rw [resolution_move (by decide)]
      exact ⟨rfl, rfl, rfl⟩

/-- A state that places a head which moves left has rows for the symbols of the virtual tapes only,
and all of them go on in the same way. -/
theorem row_of_state (he : Extensible a rules others sweeps) (hf : Fits a rules k)
    (hrule : rule ∈ rules) (hi : ActsAt rule i x w .left) (hr : r ∈ others ++ sweeps)
    (hs : r.state = ruleState a rule (.active (i + 1))) :
    ¬ a.IsEdge r.read ∧ r.next = ruleState a rule (afterPhase i) ∧ r.move = placeMove i := by
  obtain ⟨rule', hrule', h⟩ := he.executes_of_isActive hr (.inl (by rw [hs]; rfl))
  obtain ⟨j, x', w', d', c, hj, hc, hcd, rfl⟩ := h.of_isActive (by rw [hs]; rfl)
  simp only [ruleState, State.mk.injEq, Phase.active.injEq, Nat.add_right_cancel_iff] at hs
  obtain ⟨hb, hh, rfl⟩ := hs
  obtain rfl := hf.eq_of_heads hrule' hrule hb hh
  obtain ⟨rfl, rfl, rfl⟩ := hj.unique hi
  refine ⟨?_, rfl, rfl⟩
  rintro (rfl | rfl)
  · exact hcd ⟨rfl, rfl⟩
  · exact hf.proper.marker_notMem_unmarked hc

theorem mem_leftExtensions (he : Extensible a rules others sweeps) (hf : Fits a rules k) :
    r ∈ leftExtensions a (others ++ sweeps) ↔ ∃ rule ∈ rules, ∃ i x w, ActsAt rule i x w .left ∧
      ExtendsLeft a (ruleState a rule (.active (i + 1)))
        ⟨ruleState a rule (afterPhase i), a.blankMarker, placeMove i⟩ r := by
  have hmem : ∀ {rule i x w}, rule ∈ rules → ActsAt rule i x w .left →
      (r ∈ leftExtensionOf a (others ++ sweeps) (ruleState a rule (.active (i + 1))) ↔
        ExtendsLeft a (ruleState a rule (.active (i + 1)))
          ⟨ruleState a rule (afterPhase i), a.blankMarker, placeMove i⟩ r) := by
    intro rule i x w hrule hi
    refine mem_leftExtensionOf_of_agree ?_ fun y hy hys => he.row_of_state hf hrule hi hy hys
    have hplace : Executes a rule ⟨ruleState a rule (.active (i + 1)), Symbol.blank,
        ruleState a rule (afterPhase i), a.marker Symbol.blank, placeMove i⟩ :=
      .place hi (by decide) (Alphabet.mem_unmarked_of_mem_symbols hf.proper.blank_mem)
        fun h => absurd h.1 (by decide)
    exact ⟨_, List.mem_append_right _ ((he.mem_sweeps _).mpr ⟨rule, hrule, .inr hplace⟩), rfl⟩
  simp only [leftExtensions, List.mem_flatMap, he.mem_enteredLeftwards]
  constructor
  · rintro ⟨s, ⟨rule, hrule, i, x, w, hi, rfl⟩, h⟩
    exact ⟨rule, hrule, i, x, w, hi, (hmem hrule hi).mp h⟩
  · rintro ⟨rule, hrule, i, x, w, hi, h⟩
    exact ⟨_, ⟨rule, hrule, i, x, w, hi, rfl⟩, (hmem hrule hi).mpr h⟩

/-- **The extended rows of a machine are those that its rules emit.** -/
theorem mem_extended_iff (he : Extensible a rules others sweeps) (hf : Fits a rules k) :
    r ∈ extended a safety (others ++ sweeps) ↔
      r ∈ others ∨ ∃ rule ∈ rules, Emits a safety rule r := by
  simp only [extended, List.mem_append, List.mem_flatMap, mem_kept, mem_addedLeft, mem_replaced,
    he.mem_leftExtensions hf, he.mem_sweeps]
  constructor
  · rintro ((⟨h | ⟨rule, hrule, h | h⟩, hk⟩ | ⟨hs, rule, hrule, i, x, w, hi, h⟩) |
      ⟨row, ⟨hs, hrow | ⟨rule, hrule, hrow | hrow⟩, ho⟩, h⟩)
    · exact .inl h
    · exact .inr ⟨rule, hrule, .discover h⟩
    · exact .inr ⟨rule, hrule, .execute h hk⟩
    · exact .inr ⟨rule, hrule, .extendLeft hs hi h⟩
    · rw [(he.inert row hrow).overwritesEdge] at ho
      cases ho
    · rw [overwritesEdge_of_write_eq hrow.write_eq] at ho
      cases ho
    · obtain ⟨i, w, d, hi, rfl⟩ := hrow.of_overwritesEdge hf hrule ho
      rw [mem_rightExtension read_edgeResolution, state_edgeResolution] at h
      exact .inr ⟨rule, hrule, .extendRight hs hi ho h⟩
  · rintro (h | ⟨rule, hrule, h⟩)
    · exact .inl (.inl ⟨.inl h, fun _ => (he.inert r h).overwritesEdge⟩)
    · cases h with
      | discover h =>
        exact .inl (.inl ⟨.inr ⟨rule, hrule, .inl h⟩,
          fun _ => overwritesEdge_of_write_eq h.write_eq⟩)
      | execute h hk => exact .inl (.inl ⟨.inr ⟨rule, hrule, .inr h⟩, hk⟩)
      | extendLeft hs hi h => exact .inl (.inr ⟨hs, rule, hrule, _, _, _, hi, h⟩)
      | @extendRight i w d _ hs hi ho h =>
        refine .inr ⟨edgeResolution a rule i w d,
          ⟨hs, .inr ⟨rule, hrule, .inr (.resolveEdge hi)⟩, ho⟩, ?_⟩
        rw [mem_rightExtension read_edgeResolution, state_edgeResolution]
        exact h

end Extensible

end Extended

end OneTape.Table
