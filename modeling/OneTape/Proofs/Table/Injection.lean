import OneTape.Proofs.Table.Emission

/-!
# The rows of the blank-injection pass

Results:
* `mem_injectionRows`: the kinds of row that the pass has.
* `Injects.unique`: the pass is deterministic, since its placeholder is neither a symbol of the
  alphabet nor one that has to be escaped.
* `Injects.inert`: no extension concerns the pass.
-/

namespace OneTape.Table

/-- The rows of the pass that replaces `q` by blanks in front of `start`. -/
inductive Injects (a : Alphabet) (start : State) (q : Symbol) : Row → Prop
  | enter : Injects a start q
      ⟨start.injection .start, Symbol.boundary, start.injection .scan, Symbol.returnMark, .right⟩
  | replace : Injects a start q
      ⟨start.injection .scan, q, start.injection .scan, Symbol.blank, .right⟩
  | replaceMarker : Injects a start q
      ⟨start.injection .scan, a.marker q, start.injection .scan, a.blankMarker, .right⟩
  | pass {c : Symbol} : c ∈ a.library → Injects a start q
      ⟨start.injection .scan, c, start.injection .scan, c, .right⟩
  | turn : Injects a start q
      ⟨start.injection .scan, Symbol.tapeEnd, start.injection .comeBack, Symbol.tapeEnd, .left⟩
  | comeBack {c : Symbol} : c ∈ a.library → Injects a start q
      ⟨start.injection .comeBack, c, start.injection .comeBack, c, .left⟩
  | leave : Injects a start q
      ⟨start.injection .comeBack, Symbol.returnMark, start, Symbol.boundary, .stay⟩

variable {a : Alphabet} {start : State} {q : Symbol} {r r' : Row}

theorem mem_injectionRows : r ∈ injectionRows a start q ↔ Injects a start q r := by
  simp only [injectionRows, replaceRows, injectionEntry, List.mem_append, List.mem_cons,
    List.not_mem_nil, or_false, List.mem_map]
  constructor
  · rintro ((((((rfl | rfl | rfl) | ⟨c, hc, rfl⟩) | rfl) | ⟨c, hc, rfl⟩) | rfl))
    · exact .enter
    · exact .replace
    · exact .replaceMarker
    · exact .pass hc
    · exact .turn
    · exact .comeBack hc
    · exact .leave
  · intro h
    cases h with
    | enter => simp
    | replace => simp
    | replaceMarker => simp
    | pass hc => exact .inl (.inl (.inl (.inr ⟨_, hc, rfl⟩)))
    | turn => simp
    | comeBack hc => exact .inl (.inr ⟨_, hc, rfl⟩)
    | leave => simp

/-! ## Placeholders -/

/-- What a placeholder without a clash is not. -/
theorem not_clashes_iff : Plan.clashes a q = false ↔
    q ∉ a.symbols ∧ q.IsPlain a.iteration ∧ q.text.toList.head? ≠ some Symbol.escapeChar := by
  simp [Plan.clashes, Symbol.needsEscape, Symbol.IsPlain, and_assoc]

theorem placeholder_notMem_library (h : Plan.clashes a q = false) : q ∉ a.library := by
  obtain ⟨hq, hplain, -⟩ := not_clashes_iff.mp h
  intro hl
  rcases Alphabet.mem_library.mp hl with hu | ⟨s, -, hs⟩
  · rcases Alphabet.mem_unmarked.mp hu with hm | rfl
    · exact hq hm
    · exact hplain.ne_boundary rfl
  · exact Symbol.marker_ne_of_isMarkerLike hplain.2 hs

theorem placeholderMarker_notMem_library (ha : a.Proper) (h : Plan.clashes a q = false) :
    a.marker q ∉ a.library := by
  intro hl
  rcases Alphabet.mem_library.mp hl with hu | ⟨s, hs, hm⟩
  · exact ha.marker_notMem_unmarked hu
  · rw [Alphabet.marker_injective hm] at hs
    exact placeholder_notMem_library h (Alphabet.mem_library_of_mem_unmarked hs)

/-! ## Determinism -/

theorem Injects.phase (h : Injects a start q r) : ∃ step, r.state = start.injection step := by
  cases h <;> exact ⟨_, rfl⟩

theorem injection_inj {s t : InjectionStep} : start.injection s = start.injection t ↔ s = t := by
  simp [State.injection]

/-- The pass is deterministic. -/
theorem Injects.unique (ha : a.Proper) (hq : Plan.clashes a q = false) (h : Injects a start q r)
    (h' : Injects a start q r') (hs : r.state = r'.state) (hr : r.read = r'.read) : r = r' := by
  obtain ⟨-, hplain, -⟩ := not_clashes_iff.mp hq
  have hlib : ∀ {c}, c ∈ a.library → c ≠ q ∧ c ≠ a.marker q ∧ c ≠ Symbol.tapeEnd := fun hc =>
    ⟨fun he => placeholder_notMem_library hq (he ▸ hc),
      fun he => placeholderMarker_notMem_library ha hq (he ▸ hc), ha.ne_tapeEnd hc⟩
  have hmark : a.marker q ≠ q := Symbol.marker_ne_of_isMarkerLike hplain.2
  have hend : a.marker q ≠ Symbol.tapeEnd :=
    Symbol.marker_ne_of_isMarkerLike Symbol.isMarkerLike_tapeEnd
  cases h with
  | enter =>
    cases h' with
    | enter => rfl
    | replace | replaceMarker | pass | turn | comeBack | leave => cases injection_inj.mp hs
  | replace =>
    cases h' with
    | replace => rfl
    | replaceMarker => exact absurd hr.symm hmark
    | pass hc => exact absurd hr.symm (hlib hc).1
    | turn => exact absurd hr hplain.ne_tapeEnd
    | enter | comeBack | leave => cases injection_inj.mp hs
  | replaceMarker =>
    cases h' with
    | replace => exact absurd hr hmark
    | replaceMarker => rfl
    | pass hc => exact absurd hr.symm (hlib hc).2.1
    | turn => exact absurd hr hend
    | enter | comeBack | leave => cases injection_inj.mp hs
  | pass hc =>
    cases h' with
    | replace => exact absurd hr (hlib hc).1
    | replaceMarker => exact absurd hr (hlib hc).2.1
    | pass => cases hr; rfl
    | turn => exact absurd hr (hlib hc).2.2
    | enter | comeBack | leave => cases injection_inj.mp hs
  | turn =>
    cases h' with
    | replace => exact absurd hr.symm hplain.ne_tapeEnd
    | replaceMarker => exact absurd hr.symm hend
    | pass hc => exact absurd hr.symm (hlib hc).2.2
    | turn => rfl
    | enter | comeBack | leave => cases injection_inj.mp hs
  | comeBack hc =>
    cases h' with
    | enter | replace | replaceMarker | pass | turn => cases injection_inj.mp hs
    | comeBack => cases hr; rfl
    | leave => exact absurd hr (ha.ne_returnMark hc)
  | leave =>
    cases h' with
    | enter | replace | replaceMarker | pass | turn => cases injection_inj.mp hs
    | comeBack hc => exact absurd hr.symm (ha.ne_returnMark hc)
    | leave => rfl

/-- No extension concerns the pass. -/
theorem Injects.inert (hq : Plan.clashes a q = false) (hstart : start.isActive = false)
    (h : Injects a start q r) : Inert a r := by
  obtain ⟨-, hplain, -⟩ := not_clashes_iff.mp hq
  have hedge : ∀ {c}, c.isMarkerLike a.iteration = false → c ≠ a.boundaryMarker := fun hc =>
    (Symbol.marker_ne_of_isMarkerLike hc).symm
  have hread : r.write = r.read ∨ r.read ≠ a.boundaryMarker := by
    cases h with
    | enter => exact .inr (hedge Symbol.isMarkerLike_boundary)
    | replace => exact .inr (hedge hplain.2)
    | replaceMarker => exact .inr fun he => hplain.ne_boundary (Alphabet.marker_injective he)
    | pass | turn | comeBack => exact .inl rfl
    | leave => exact .inr (hedge Symbol.isMarkerLike_returnMark)
  refine ⟨?_, ?_, ?_⟩
  · rcases hread with hread | hread
    · exact overwritesEdge_of_write_eq hread
    · rw [Bool.eq_false_iff, ne_eq, overwritesEdge_iff]
      exact fun ho => hread ho.2.1
  · cases h <;> rfl
  · cases h with
    | leave => exact hstart
    | enter | replace | replaceMarker | pass | turn | comeBack => rfl

end OneTape.Table
