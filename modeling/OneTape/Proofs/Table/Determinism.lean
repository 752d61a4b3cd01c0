import OneTape.Proofs.Table.Emission

/-!
# Tables are deterministic

No two different rows that the rules of a machine emit apply in the same state to the same symbol. A
determined state tells its rule, so there only rows of one rule compete; rows of an undetermined
state are shared by the rules with its prefix and are told by the state and the symbol alone.

Result: `Emits.unique`.
-/

namespace OneTape.Table

variable {a : Alphabet} {rule rule' : Rule} {rules : List Rule} {k i : Nat} {x w : Symbol}
  {d : Direction} {r r' : Row} {safety : Safety} {owner s : State} {side : Side} {resume : Resume}

/-! ## The subroutines of an extension -/

@[simp] theorem shifting_inj {c c' : Symbol} :
    shifting owner side c = shifting owner side c' ↔ c = c' := by
  simp [shifting, State.extension]

@[simp] theorem shifting_ne_comingBack {c : Symbol} :
    shifting owner side c ≠ comingBack owner side := by
  simp [shifting, comingBack, State.extension]

@[simp] theorem comingBack_ne_shifting {c : Symbol} :
    comingBack owner side ≠ shifting owner side c :=
  shifting_ne_comingBack.symm

theorem Shifts.unique (ha : a.Proper) (h : Shifts a owner side resume r)
    (h' : Shifts a owner side resume r') (hs : r.state = r'.state)
    (hr : r.read = r'.read) : r = r' := by
  -- the tape end and the return mark are in no row for a symbol of the library
  have hend : ∀ {c}, c ∈ a.library → c ≠ Symbol.tapeEnd := ha.ne_tapeEnd
  have hmark : ∀ {c}, c ∈ a.library → c ≠ Symbol.returnMark := ha.ne_returnMark
  have hblank : Symbol.tapeEnd ≠ Symbol.blank := by decide
  cases h with
  | relay hc hf =>
    cases h' with
    | relay hc' hf' => simp_all
    | moveEnd hc' => exact absurd hr (hend hf)
    | turn => exact absurd (shifting_inj.mp hs) (hend hc)
    | comeBack | resume => exact absurd hs shifting_ne_comingBack
  | moveEnd hc =>
    cases h' with
    | relay hc' hf' => exact absurd hr.symm (hend hf')
    | moveEnd hc' => simp_all
    | turn => exact absurd hr hblank
    | comeBack | resume => exact absurd hs shifting_ne_comingBack
  | turn =>
    cases h' with
    | relay hc' hf' => exact absurd (shifting_inj.mp hs).symm (hend hc')
    | moveEnd hc' => exact absurd hr.symm hblank
    | turn => rfl
    | comeBack | resume => exact absurd hs shifting_ne_comingBack
  | comeBack hc =>
    cases h' with
    | relay | moveEnd | turn => exact absurd hs comingBack_ne_shifting
    | comeBack hc' => simp_all
    | resume => exact absurd hr (hmark hc)
  | resume =>
    cases h' with
    | relay | moveEnd | turn => exact absurd hs comingBack_ne_shifting
    | comeBack hc' => exact absurd hr.symm (hmark hc')
    | resume => rfl

/-- The phase of a state of the shift subroutine. -/
theorem Shifts.phase (h : Shifts a owner side resume r) :
    ∃ step, step ≠ .realign ∧ r.state.phase = .extend owner.phase side step := by
  cases h <;> exact ⟨_, by simp, rfl⟩

theorem ExtendsLeft.phase (h : ExtendsLeft a s resume r) :
    r.state.phase = s.phase ∨ ∃ step, r.state.phase = .extend s.phase .left step := by
  cases h with
  | edge => exact .inl rfl
  | realign => exact .inr ⟨_, rfl⟩
  | shift h =>
    obtain ⟨step, -, h⟩ := h.phase
    exact .inr ⟨step, h⟩

theorem ExtendsRight.phase (h : ExtendsRight a s r) :
    r.state.phase = s.phase ∨ ∃ step, r.state.phase = .extend s.phase .right step := by
  cases h with
  | anchor => exact .inl rfl
  | shift h =>
    obtain ⟨step, -, h⟩ := h.phase
    exact .inr ⟨step, h⟩

/-- An extension at the left end is deterministic. -/
theorem ExtendsLeft.unique (ha : a.Proper) {i : Nat} (hi : s.phase = .active i)
    (h : ExtendsLeft a s resume r) (h' : ExtendsLeft a s resume r') (hs : r.state = r'.state)
    (hr : r.read = r'.read) : r = r' := by
  have hphase := congrArg State.phase hs
  cases h with
  | edge =>
    cases h' with
    | edge =>
      cases hr
      rfl
    | realign => simp [State.extension, hi] at hphase
    | shift h' =>
      obtain ⟨step, -, h'⟩ := h'.phase
      simp [h', hi] at hphase
  | realign =>
    cases h' with
    | edge => simp [State.extension, hi] at hphase
    | realign =>
      cases hr
      rfl
    | shift h' =>
      obtain ⟨step, hne, h'⟩ := h'.phase
      simp only [h', State.extension, Phase.extend.injEq, true_and] at hphase
      exact absurd hphase.symm hne
  | shift h =>
    cases h' with
    | edge =>
      obtain ⟨step, -, h⟩ := h.phase
      simp [h, hi] at hphase
    | realign =>
      obtain ⟨step, hne, h⟩ := h.phase
      simp only [h, State.extension, Phase.extend.injEq, true_and] at hphase
      exact absurd hphase hne
    | shift h' => exact h.unique ha h' hs hr

/-- An extension at the right end is deterministic. -/
theorem ExtendsRight.unique (ha : a.Proper) {i : Nat} (hi : s.phase = .actor i)
    (h : ExtendsRight a s r) (h' : ExtendsRight a s r') (hs : r.state = r'.state)
    (hr : r.read = r'.read) : r = r' := by
  have hphase := congrArg State.phase hs
  cases h with
  | anchor =>
    cases h' with
    | anchor => rfl
    | shift h' =>
      obtain ⟨step, -, h'⟩ := h'.phase
      simp [h', hi] at hphase
  | shift h =>
    cases h' with
    | anchor =>
      obtain ⟨step, -, h⟩ := h.phase
      simp [h, hi] at hphase
    | shift h' => exact h.unique ha h' hs hr

/-! ## Discovery -/

theorem prefixState_succ {n : Nat} (h : rule.read[n]? = some x) :
    prefixState a rule (n + 1) = (prefixState a rule n).advance (a.marker x) := by
  rw [prefixState, prefixState, discovered_advance, take_succ_of_getElem? h]

/-- What a row of an undetermined state does depends on the state and the symbol only. -/
inductive Explores (a : Alphabet) (s : State) : Row → Prop
  | scan {c : Symbol} : c ∈ a.unmarked → Explores a s ⟨s, c, s, c, .right⟩
  | record {x : Symbol} : x ∈ a.symbols →
      Explores a s ⟨s, a.marker x, s.advance (a.marker x), a.marker x, .right⟩
  | recordEdge :
      Explores a s ⟨s, a.boundaryMarker, s.advance a.blankMarker, a.boundaryMarker, .right⟩

theorem Explores.unique (ha : a.Proper) (h : Explores a s r) (h' : Explores a s r')
    (hr : r.read = r'.read) : r = r' := by
  cases h with
  | scan hc =>
    cases h' with
    | scan => cases hr; rfl
    | record | recordEdge => exact absurd hr.symm (ha.marker_ne_of_mem_unmarked hc)
  | record hx =>
    cases h' with
    | scan hc' => exact absurd hr (ha.marker_ne_of_mem_unmarked hc')
    | record hx' => cases Alphabet.marker_injective hr; rfl
    | recordEdge => exact absurd hr (ha.marker_ne_boundaryMarker hx)
  | recordEdge =>
    cases h' with
    | scan hc' => exact absurd hr (ha.marker_ne_of_mem_unmarked hc')
    | record hx' => exact absurd hr.symm (ha.marker_ne_boundaryMarker hx')
    | recordEdge => rfl

/-- The rows of a determined discovery state. -/
inductive HandsOver (a : Alphabet) (rule : Rule) : Row → Prop
  | cell {c : Symbol} : c ∈ a.unmarked →
      HandsOver a rule ⟨ruleState a rule .discover, c,
        ruleState a rule (.actor rule.read.length), c, .stay⟩
  | tapeEnd :
      HandsOver a rule ⟨ruleState a rule .discover, Symbol.tapeEnd,
        ruleState a rule (.actor rule.read.length), Symbol.tapeEnd, .left⟩

theorem HandsOver.unique (ha : a.Proper) (h : HandsOver a rule r) (h' : HandsOver a rule r')
    (hr : r.read = r'.read) : r = r' := by
  have hend : ∀ {c}, c ∈ a.unmarked → c ≠ Symbol.tapeEnd := fun hc =>
    ha.ne_tapeEnd (Alphabet.mem_library_of_mem_unmarked hc)
  cases h with
  | cell hc =>
    cases h' with
    | cell => cases hr; rfl
    | tapeEnd => exact absurd hr (hend hc)
  | tapeEnd =>
    cases h' with
    | cell hc' => exact absurd hr.symm (hend hc')
    | tapeEnd => rfl

/-- A row of discovery belongs to a state that lacks some heads, or hands over a determined
state. -/
theorem Discovers.cases (hf : Fits a rules k) (hrule : rule ∈ rules) (h : Discovers a rule r) :
    (r.state.heads.length < k ∧ Explores a r.state r) ∨
      (r.state = ruleState a rule .discover ∧ HandsOver a rule r) := by
  have hlen := (hf.lengths rule hrule).1
  have hheads : ∀ {n}, n < k → (prefixState a rule n).heads.length < k := by
    intro n hn
    simp only [prefixState, discovered, List.length_map, List.length_take]
    omega
  have hrec : ∀ {n x}, rule.read[n]? = some x → n < k ∧ x ∈ a.symbols := by
    intro n x hx
    have hn := (List.getElem?_eq_some_iff.mp hx).1
    exact ⟨hlen ▸ hn, hf.symbols rule hrule x (List.mem_append_left _ (List.mem_of_getElem? hx))⟩
  cases h with
  | scan hn hc => exact .inl ⟨hheads (hlen ▸ hn), .scan hc⟩
  | record hx =>
    rw [prefixState_succ hx]
    exact .inl ⟨hheads (hrec hx).1, .record (hrec hx).2⟩
  | recordEdge hx =>
    rw [prefixState_succ hx]
    exact .inl ⟨hheads (hrec hx).1, .recordEdge⟩
  | handOver hc => exact .inr ⟨rfl, .cell hc⟩
  | handOverEnd => exact .inr ⟨rfl, .tapeEnd⟩

theorem Discovers.phase (h : Discovers a rule r) : r.state.phase = .discover := by
  cases h <;> rfl

/-- Discovery is deterministic, also between rules. -/
theorem Discovers.unique (hf : Fits a rules k) (hrule : rule ∈ rules) (hrule' : rule' ∈ rules)
    (h : Discovers a rule r) (h' : Discovers a rule' r') (hs : r.state = r'.state)
    (hr : r.read = r'.read) : r = r' := by
  have hfull : ∀ {rule}, rule ∈ rules → (ruleState a rule .discover).heads.length = k := by
    intro rule hrule
    simp [ruleState, (hf.lengths rule hrule).1]
  rcases h.cases hf hrule with ⟨hlt, h⟩ | ⟨hst, h⟩
  · rcases h'.cases hf hrule' with ⟨-, h'⟩ | ⟨hst', -⟩
    · rw [← hs] at h'
      exact h.unique hf.proper h' hr
    · rw [hs, hst', hfull hrule'] at hlt
      omega
  · rcases h'.cases hf hrule' with ⟨hlt', -⟩ | ⟨hst', h'⟩
    · rw [← hs, hst, hfull hrule] at hlt'
      omega
    · rw [hst, hst'] at hs
      simp only [ruleState, State.mk.injEq] at hs
      obtain rfl := hf.eq_of_heads hrule hrule' hs.1 hs.2.1
      exact h.unique hf.proper h' hr

/-! ## Execution -/

/-- The phase of a state of the sweep to the left. -/
theorem Executes.state_eq (h : Executes a rule r) : ∃ phase, r.state = ruleState a rule phase ∧
    ((∃ i, phase = .actor (i + 1)) ∨ (∃ i, phase = .active (i + 1)) ∨ phase = .complete) := by
  cases h with
  | retreat => exact ⟨_, rfl, .inl ⟨_, rfl⟩⟩
  | resolve => exact ⟨_, state_resolution, .inl ⟨_, rfl⟩⟩
  | resolveEdge => exact ⟨_, state_edgeResolution, .inl ⟨_, rfl⟩⟩
  | place => exact ⟨_, rfl, .inr (.inl ⟨_, rfl⟩)⟩
  | cycle => exact ⟨_, rfl, .inr (.inr rfl)⟩

theorem ruleState_inj {p q : Phase} : ruleState a rule p = ruleState a rule q ↔ p = q := by
  simp [ruleState]

/-- The rows of a state that looks for a head. -/
theorem Executes.of_actor (h : Executes a rule r)
    (hs : r.state = ruleState a rule (.actor (i + 1))) :
    (∃ c ∈ a.unmarked, r =
      ⟨ruleState a rule (.actor (i + 1)), c, ruleState a rule (.actor (i + 1)), c, .left⟩) ∨
    (∃ x w d, ActsAt rule i x w d ∧ r = resolution a rule i x w d) ∨
    ∃ w d, ActsAt rule i Symbol.blank w d ∧ r = edgeResolution a rule i w d := by
  cases h with
  | retreat hi hc =>
    cases ruleState_inj.mp hs
    exact .inl ⟨_, hc, rfl⟩
  | resolve hi =>
    rw [state_resolution] at hs
    cases ruleState_inj.mp hs
    exact .inr (.inl ⟨_, _, _, hi, rfl⟩)
  | resolveEdge hi =>
    rw [state_edgeResolution] at hs
    cases ruleState_inj.mp hs
    exact .inr (.inr ⟨_, _, hi, rfl⟩)
  | place | cycle => cases ruleState_inj.mp hs

theorem Executes.of_complete (h : Executes a rule r) (hs : r.state = ruleState a rule .complete) :
    ∃ c ∈ a.library, r = ⟨ruleState a rule .complete, c, State.source rule.next, c, .stay⟩ := by
  cases h with
  | retreat | place => cases ruleState_inj.mp hs
  | resolve =>
    rw [state_resolution] at hs
    cases ruleState_inj.mp hs
  | resolveEdge =>
    rw [state_edgeResolution] at hs
    cases ruleState_inj.mp hs
  | cycle hc => exact ⟨_, hc, rfl⟩

/-- The execution of a rule is deterministic. -/
theorem Executes.unique (hf : Fits a rules k) (hrule : rule ∈ rules) (h : Executes a rule r)
    (h' : Executes a rule r') (hs : r.state = r'.state) (hr : r.read = r'.read) : r = r' := by
  obtain ⟨phase, hst, ⟨i, rfl⟩ | ⟨i, rfl⟩ | rfl⟩ := h.state_eq
  · have hplain : ∀ {c y}, c ∈ a.unmarked → c ≠ a.marker y := fun hc =>
      (hf.proper.marker_ne_of_mem_unmarked hc).symm
    have hedge : ∀ {y v e}, ActsAt rule i y v e → a.marker y ≠ a.boundaryMarker := fun hy =>
      hf.proper.marker_ne_boundaryMarker (hf.read_mem hrule hy)
    rcases h.of_actor hst with ⟨c, hc, rfl⟩ | ⟨x, w, d, hi, rfl⟩ | ⟨w, d, hi, rfl⟩ <;>
      rcases h'.of_actor (hs ▸ hst) with
        ⟨c', hc', rfl⟩ | ⟨x', w', d', hi', rfl⟩ | ⟨w', d', hi', rfl⟩
    · cases hr
      rfl
    · rw [read_resolution] at hr
      exact absurd hr (hplain hc)
    · rw [read_edgeResolution] at hr
      exact absurd hr (hplain hc)
    · rw [read_resolution] at hr
      exact absurd hr.symm (hplain hc')
    · obtain ⟨rfl, rfl, rfl⟩ := hi.unique hi'
      rfl
    · rw [read_resolution, read_edgeResolution] at hr
      exact absurd hr (hedge hi)
    · rw [read_edgeResolution] at hr
      exact absurd hr.symm (hplain hc')
    · rw [read_resolution, read_edgeResolution] at hr
      exact absurd hr.symm (hedge hi')
    · obtain ⟨-, rfl, rfl⟩ := hi.unique hi'
      rfl
  · obtain ⟨j, x, w, d, c, hj, -, -, rfl⟩ := h.of_isActive (by rw [hst]; rfl)
    obtain ⟨j', x', w', d', c', hj', -, -, rfl⟩ := h'.of_isActive (by rw [← hs]; rfl)
    cases hr
    cases ruleState_inj.mp hs
    rfl
  · obtain ⟨c, -, rfl⟩ := h.of_complete hst
    obtain ⟨c', -, rfl⟩ := h'.of_complete (hs ▸ hst)
    cases hr
    rfl

/-! ## The whole table -/

/-- Rows other than those of discovery belong to a determined state. -/
theorem Emits.cases (h : Emits a safety rule r) : Discovers a rule r ∨
    (r.state.base = rule.state ∧ r.state.heads = rule.read.map a.marker ∧
      r.state.phase ≠ .discover) := by
  cases h with
  | discover h => exact .inl h
  | execute h _ =>
    obtain ⟨phase, hst, hph⟩ := h.state_eq
    refine .inr ⟨by rw [hst]; rfl, by rw [hst]; rfl, ?_⟩
    rw [hst]
    rintro rfl
    simp at hph
  | extendLeft _ _ h =>
    refine .inr ?_
    cases h with
    | edge | realign => exact ⟨rfl, rfl, by simp [ruleState, State.extension]⟩
    | shift h => cases h <;> exact ⟨rfl, rfl, by simp [shifting, comingBack, State.extension]⟩
  | extendRight _ _ _ h =>
    refine .inr ?_
    cases h with
    | anchor => exact ⟨rfl, rfl, by simp [ruleState]⟩
    | shift h => cases h <;> exact ⟨rfl, rfl, by simp [shifting, comingBack, State.extension]⟩

/-- The extension at a left end has no row that the execution has: a head that moves left has no row
for a boundary. -/
theorem ExtendsLeft.disjoint_executes (hf : Fits a rules k) (hi : ActsAt rule i x w .left)
    (h : ExtendsLeft a (ruleState a rule (.active (i + 1))) resume r) (h' : Executes a rule r')
    (hs : r.state = r'.state) : r.read ≠ r'.read := by
  intro hr
  obtain ⟨phase, hst, hph⟩ := h'.state_eq
  have hext : ∀ step, r.state.phase ≠ .extend (.active (i + 1)) .left step := by
    intro step hstep
    rw [hs, hst] at hstep
    rcases hph with ⟨_, rfl⟩ | ⟨_, rfl⟩ | rfl <;> cases hstep
  cases h with
  | edge he =>
    obtain ⟨j, x', w', d', c, hj, hc, hcd, rfl⟩ := h'.of_isActive (by rw [← hs]; rfl)
    cases ruleState_inj.mp hs
    obtain ⟨-, -, rfl⟩ := hi.unique hj
    rcases he with rfl | rfl
    · exact hcd ⟨hr.symm, rfl⟩
    · exact hf.proper.marker_ne_of_mem_unmarked hc hr
  | realign => exact hext _ rfl
  | shift h =>
    obtain ⟨step, -, h⟩ := h.phase
    exact hext step h

/-- The extension at a right end has no row that stays in the execution: it replaces the only
one. -/
theorem ExtendsRight.disjoint_executes (hf : Fits a rules k) (hrule : rule ∈ rules)
    (hi : ActsAt rule i Symbol.blank w d)
    (ho : Table.overwritesEdge a (edgeResolution a rule i w d) = true)
    (h : ExtendsRight a (ruleState a rule (.actor (i + 1))) r) (h' : Executes a rule r')
    (hk : Table.overwritesEdge a r' = false) (hs : r.state = r'.state) : r.read ≠ r'.read := by
  intro hr
  obtain ⟨phase, hst, hph⟩ := h'.state_eq
  cases h with
  | anchor =>
    rcases h'.of_actor hs.symm with ⟨c, hc, rfl⟩ | ⟨x, w', d', hi', rfl⟩ | ⟨w', d', hi', rfl⟩
    · exact hf.proper.marker_ne_of_mem_unmarked hc hr
    · rw [read_resolution] at hr
      exact hf.proper.marker_ne_boundaryMarker (hf.read_mem hrule hi') hr.symm
    · obtain ⟨-, rfl, rfl⟩ := hi.unique hi'
      rw [ho] at hk
      cases hk
  | shift h =>
    obtain ⟨step, -, h⟩ := h.phase
    rw [hs, hst] at h
    rcases hph with ⟨_, rfl⟩ | ⟨_, rfl⟩ | rfl <;> cases h

/-- The rows that a rule emits for its determined states are deterministic. -/
theorem Emits.unique_of_phase (hf : Fits a rules k) (hrule : rule ∈ rules)
    (h : Emits a safety rule r) (h' : Emits a safety rule r') (hph : r.state.phase ≠ .discover)
    (hs : r.state = r'.state) (hr : r.read = r'.read) : r = r' := by
  have hphase := congrArg State.phase hs
  cases h with
  | discover h => exact absurd h.phase hph
  | execute h hk =>
    cases h' with
    | discover h' => exact absurd (hphase.trans h'.phase) hph
    | execute h' hk' => exact h.unique hf hrule h' hs hr
    | extendLeft hl hi h' => exact absurd hr.symm (h'.disjoint_executes hf hi h hs.symm)
    | extendRight hsr hi ho h' =>
      exact absurd hr.symm (h'.disjoint_executes hf hrule hi ho h (hk hsr) hs.symm)
  | extendLeft hl hi h =>
    cases h' with
    | discover h' => exact absurd (hphase.trans h'.phase) hph
    | execute h' hk' => exact absurd hr (h.disjoint_executes hf hi h' hs)
    | extendLeft hl' hi' h' =>
      -- the phase tells the head
      rcases h.phase with hp | ⟨_, hp⟩ <;> rcases h'.phase with hp' | ⟨_, hp'⟩ <;>
        cases hp.symm.trans (hphase.trans hp') <;> exact h.unique hf.proper rfl h' hs hr
    | extendRight hsr hi' ho h' =>
      rcases h.phase with hp | ⟨_, hp⟩ <;> rcases h'.phase with hp' | ⟨_, hp'⟩ <;>
        cases hp.symm.trans (hphase.trans hp')
  | extendRight hsr hi ho h =>
    cases h' with
    | discover h' => exact absurd (hphase.trans h'.phase) hph
    | execute h' hk' =>
      exact absurd hr (h.disjoint_executes hf hrule hi ho h' (hk' hsr) hs)
    | extendLeft hl hi' h' =>
      rcases h.phase with hp | ⟨_, hp⟩ <;> rcases h'.phase with hp' | ⟨_, hp'⟩ <;>
        cases hp.symm.trans (hphase.trans hp')
    | extendRight hsr' hi' ho' h' =>
      rcases h.phase with hp | ⟨_, hp⟩ <;> rcases h'.phase with hp' | ⟨_, hp'⟩ <;>
        cases hp.symm.trans (hphase.trans hp') <;> exact h.unique hf.proper rfl h' hs hr

/-- **No two different rows that rules emit apply in the same state to the same symbol.** -/
theorem Emits.unique (hf : Fits a rules k) (hrule : rule ∈ rules) (hrule' : rule' ∈ rules)
    (h : Emits a safety rule r) (h' : Emits a safety rule' r') (hs : r.state = r'.state)
    (hr : r.read = r'.read) : r = r' := by
  rcases h.cases with hd | ⟨hb, hh, hph⟩
  · rcases h'.cases with hd' | ⟨-, -, hph'⟩
    · exact hd.unique hf hrule hrule' hd' hs hr
    · exact absurd (hs ▸ hd.phase) hph'
  · rcases h'.cases with hd' | ⟨hb', hh', -⟩
    · exact absurd (hs ▸ hd'.phase) hph
    · obtain rfl := hf.eq_of_heads hrule hrule' (by rw [← hb, ← hb', hs]) (by rw [← hh, ← hh', hs])
      exact h.unique_of_phase hf hrule h' hph hs hr

end OneTape.Table
