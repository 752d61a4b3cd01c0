import OneTape.Proofs.Table.Emission

/-!
# Extended rows need no further extension

Extensions can be added to any list of rows, not only to those of a machine. The rows that overwrite
an edge give way to a branch into the shift subroutine, all others stay where they are, and the
result is *saturated*: to add extensions once more changes nothing.

The two ends of a tape interact. The left end looks at rows which the right end replaces, and the
extension of a state resumes as a row of that state does, which may be a left move into another
head-placing state. So it matters where a left move comes from: one that enters a head-placing state
is a row of the list, or goes on as one does.

Results:
* `Saturated.extended_eq`: saturated rows stay as they are.
* `saturated_extended`: extended rows are saturated.
* `extend_conservative`: adding extensions succeeds, keeps the other rows in front, leaves no edge
  write and is idempotent.
-/

namespace OneTape.Table

variable {a : Alphabet} {safety : Safety} {rows : List Row} {owner s : State} {side : Side}
  {resume : Resume} {r : Row}

/-- Nothing is left to extend: no row overwrites an edge, and a head-placing state with rows that is
entered by a left move has a row for a boundary. -/
structure Saturated (a : Alphabet) (safety : Safety) (rows : List Row) : Prop where
  right : safety.right = true → ∀ r ∈ rows, overwritesEdge a r = false
  left : safety.left = true → ∀ s ∈ enteredLeftwards rows, (∃ x ∈ rows, x.state = s) →
    ∃ x ∈ rows, x.state = s ∧ a.IsEdge x.read

/-- An extension to the left goes on as a row of its state does, and the state has no row for a
boundary. -/
theorem exists_goOn (h : r ∈ leftExtensionOf a rows s) : ∃ goOn ∈ rows, goOn.state = s ∧
    (∀ x ∈ rows, x.state = s → ¬ a.IsEdge x.read) ∧
      ExtendsLeft a s ⟨goOn.next, a.blankMarker, goOn.move⟩ r := by
  obtain ⟨goOn, rest, hown, hguard, hr⟩ := mem_leftExtensionOf.mp h
  have hmem : goOn ∈ rows.filter (·.state == s) := by
    rw [hown]
    exact List.mem_cons_self
  obtain ⟨hgoOn, hstate⟩ := List.mem_filter.mp hmem
  exact ⟨goOn, hgoOn, eq_of_beq hstate, hguard, hr⟩

/-! ## Saturated rows -/

namespace Saturated

theorem kept_eq (h : Saturated a safety rows) : kept a safety rows = rows := by
  unfold kept
  split_ifs with hr
  · exact List.filter_eq_self.mpr fun r hrow => by simp [h.right hr r hrow]
  · rfl

theorem replaced_eq (h : Saturated a safety rows) : replaced a safety rows = [] := by
  unfold replaced
  split_ifs with hr
  · exact List.filter_eq_nil_iff.mpr fun r hrow => by simp [h.right hr r hrow]
  · rfl

theorem addedLeft_eq (h : Saturated a safety rows) : addedLeft a safety rows = [] := by
  unfold addedLeft
  split_ifs with hl
  · refine List.eq_nil_iff_forall_not_mem.mpr fun r hr => ?_
    obtain ⟨s, hs, hr⟩ := List.mem_flatMap.mp hr
    obtain ⟨goOn, hgoOn, hstate, hguard, -⟩ := exists_goOn hr
    obtain ⟨x, hx, hxs, hedge⟩ := h.left hl s hs ⟨goOn, hgoOn, hstate⟩
    exact hguard x hx hxs hedge
  · rfl

/-- Saturated rows stay as they are. -/
theorem extended_eq (h : Saturated a safety rows) : extended a safety rows = rows := by
  simp [extended, h.kept_eq, h.addedLeft_eq, h.replaced_eq]

end Saturated

/-! ## Where extended rows come from -/

theorem mem_extended : r ∈ extended a safety rows ↔ r ∈ kept a safety rows ∨
    (safety.left = true ∧ ∃ s ∈ enteredLeftwards rows, r ∈ leftExtensionOf a rows s) ∨
      ∃ row ∈ replaced a safety rows, ExtendsRight a row.state r := by
  have hright : r ∈ (replaced a safety rows).flatMap (rightExtension a) ↔
      ∃ row ∈ replaced a safety rows, ExtendsRight a row.state r := by
    rw [List.mem_flatMap]
    refine exists_congr fun row => and_congr_right fun hrow => ?_
    exact mem_rightExtension (overwritesEdge_iff.mp (mem_replaced.mp hrow).2.2).2.1
  rw [extended, List.mem_append, List.mem_append, hright, mem_addedLeft, leftExtensions,
    List.mem_flatMap, or_assoc]

theorem isActive_of_isExtension (h : s.isExtension = true) : s.isActive = false := by
  unfold State.isExtension at h
  unfold State.isActive
  split at h
  · next hp => simp [hp]
  · cases h

/-- Only the last row of a shift can enter a head-placing state by a left move. -/
theorem Shifts.of_entersLeftwards (h : Shifts a owner side resume r) (hm : r.move = .left)
    (hn : r.next.isActive = true) : resume.move = .left ∧ resume.state = r.next := by
  cases h with
  | relay | moveEnd => cases hm
  | turn | comeBack => cases hn
  | resume => exact ⟨hm, rfl⟩

theorem ExtendsLeft.of_entersLeftwards (h : ExtendsLeft a s resume r) (hm : r.move = .left)
    (hn : r.next.isActive = true) : resume.move = .left ∧ resume.state = r.next := by
  cases h with
  | edge | realign => cases hm
  | shift h => exact h.of_entersLeftwards hm hn

theorem ExtendsRight.not_entersLeftwards (h : ExtendsRight a s r) (hm : r.move = .left)
    (hn : r.next.isActive = true) : False := by
  cases h with
  | anchor => cases hm
  | shift h => cases (h.of_entersLeftwards hm hn).1

theorem ExtendsLeft.state_of_isActive (h : ExtendsLeft a s resume r)
    (hact : r.state.isActive = true) :
    r.state = s := by
  cases h with
  | edge => rfl
  | realign => cases hact
  | shift h => rw [isActive_of_isExtension h.isExtension] at hact; cases hact

theorem ExtendsRight.state_of_isActive (h : ExtendsRight a s r) (hact : r.state.isActive = true) :
    r.state = s := by
  cases h with
  | anchor => rfl
  | shift h => rw [isActive_of_isExtension h.isExtension] at hact; cases hact

/-- Extensions enter no further head-placing state by a left move. -/
theorem enteredLeftwards_of_extended (h : s ∈ enteredLeftwards (extended a safety rows)) :
    s ∈ enteredLeftwards rows := by
  rw [mem_enteredLeftwards] at h ⊢
  obtain ⟨r, hr, hm, rfl, hact⟩ := h
  rcases mem_extended.mp hr with hr | ⟨-, t, -, hr⟩ | ⟨row, -, hr⟩
  · exact ⟨r, (mem_kept.mp hr).1, hm, rfl, hact⟩
  · obtain ⟨goOn, hgoOn, -, -, hext⟩ := exists_goOn hr
    obtain ⟨hmove, hnext⟩ := hext.of_entersLeftwards hm hact
    exact ⟨goOn, hgoOn, hmove, hnext, hact⟩
  · exact (hr.not_entersLeftwards hm hact).elim

/-- Extensions give no row to a head-placing state that has none. -/
theorem exists_row_of_extended (hact : s.isActive = true)
    (h : ∃ x ∈ extended a safety rows, x.state = s) :
    ∃ x ∈ rows, x.state = s := by
  obtain ⟨x, hx, rfl⟩ := h
  rcases mem_extended.mp hx with hx | ⟨-, t, -, hx⟩ | ⟨row, hrow, hx⟩
  · exact ⟨x, (mem_kept.mp hx).1, rfl⟩
  · obtain ⟨goOn, hgoOn, hstate, -, hext⟩ := exists_goOn hx
    exact ⟨goOn, hgoOn, hstate.trans (hext.state_of_isActive hact).symm⟩
  · exact ⟨row, (mem_replaced.mp hrow).2.1, (hx.state_of_isActive hact).symm⟩

/-! ## Extended rows are saturated -/

/-- No state loses a symbol it has a row for: a row that is replaced leaves its anchor. -/
theorem exists_domain_extended (a : Alphabet) (safety : Safety) (h : r ∈ rows) :
    ∃ x ∈ extended a safety rows, x.domain = r.domain := by
  by_cases hr : safety.right = true ∧ overwritesEdge a r = true
  · have hread : r.read = a.boundaryMarker := (overwritesEdge_iff.mp hr.2).2.1
    refine ⟨_, mem_extended.mpr (.inr (.inr ⟨r, mem_replaced.mpr ⟨hr.1, h, hr.2⟩, .anchor⟩)), ?_⟩
    rw [Row.domain, Row.domain, hread]
  · have hkept : r ∈ kept a safety rows := mem_kept.mpr ⟨h, fun hs => by simpa [hs] using hr⟩
    exact ⟨r, mem_extended.mpr (.inl hkept), rfl⟩

/-- A head-placing state that is entered by a left move has a row for a boundary once it is
extended. -/
theorem exists_edge_extended (hl : safety.left = true) (hs : s ∈ enteredLeftwards rows)
    (hown : ∃ x ∈ rows, x.state = s) :
    ∃ x ∈ extended a safety rows, x.state = s ∧ a.IsEdge x.read := by
  by_cases hguard : ∃ x ∈ rows, x.state = s ∧ a.IsEdge x.read
  · obtain ⟨x, hx, rfl, hedge⟩ := hguard
    obtain ⟨y, hy, hdomain⟩ := exists_domain_extended a safety hx
    obtain ⟨hstate, hread⟩ := Prod.mk.inj hdomain
    exact ⟨y, hy, hstate, hread ▸ hedge⟩
  · obtain ⟨x, hx, hxs⟩ := hown
    have hne : rows.filter (·.state == s) ≠ [] :=
      List.ne_nil_of_mem (List.mem_filter.mpr ⟨hx, by simpa using hxs⟩)
    obtain ⟨goOn, rest, hgoOn⟩ := List.exists_cons_of_ne_nil hne
    have hedge : ⟨s, Symbol.boundary, s.extension .left .realign, Symbol.boundary, .right⟩ ∈
        leftExtensionOf a rows s :=
      mem_leftExtensionOf.mpr
        ⟨goOn, rest, hgoOn, fun y hy hys he => hguard ⟨y, hy, hys, he⟩, .edge (.inl rfl)⟩
    exact ⟨_, mem_extended.mpr (.inr (.inl ⟨hl, s, hs, hedge⟩)), rfl, .inl rfl⟩

/-- **Extended rows are saturated.** -/
theorem saturated_extended (a : Alphabet) (safety : Safety) (rows : List Row) :
    Saturated a safety (extended a safety rows) where
  right hr _ h := overwritesEdge_of_mem_extended hr h
  left hl s hs hown := by
    obtain ⟨-, -, -, -, hact⟩ := mem_enteredLeftwards.mp hs
    exact exists_edge_extended hl (enteredLeftwards_of_extended hs)
      (exists_row_of_extended hact hown)

/-! ## The rows that are added -/

theorem ExtendsLeft.isExtension (h : ExtendsLeft a s resume r) :
    r.state.isExtension = true ∨ r.next.isExtension = true := by
  cases h with
  | edge => exact .inr rfl
  | realign => exact .inl rfl
  | shift h => exact .inl h.isExtension

theorem ExtendsRight.isExtension (h : ExtendsRight a s r) :
    r.state.isExtension = true ∨ r.next.isExtension = true := by
  cases h with
  | anchor => exact .inr rfl
  | shift h => exact .inl h.isExtension

theorem kept_eq_filter (a : Alphabet) (safety : Safety) (rows : List Row) :
    kept a safety rows = rows.filter fun r => !(safety.right && overwritesEdge a r) := by
  unfold kept
  cases safety.right <;> simp

/-- The rows added stand behind those that stay, and belong to an extension or enter one. -/
theorem exists_added (a : Alphabet) (safety : Safety) (rows : List Row) :
    ∃ added, extended a safety rows = kept a safety rows ++ added ∧
      ∀ r ∈ added, r.state.isExtension = true ∨ r.next.isExtension = true := by
  refine ⟨_, List.append_assoc _ _ _, fun r hr => ?_⟩
  rcases List.mem_append.mp hr with hr | hr
  · obtain ⟨s, -, hr⟩ := List.mem_flatMap.mp (mem_addedLeft.mp hr).2
    obtain ⟨goOn, -, -, -, hext⟩ := exists_goOn hr
    exact hext.isExtension
  · obtain ⟨row, hrow, hr⟩ := List.mem_flatMap.mp hr
    have hread : row.read = a.boundaryMarker :=
      (overwritesEdge_iff.mp (mem_replaced.mp hrow).2.2).2.1
    exact ((mem_rightExtension hread).mp hr).isExtension

/-- **Adding extensions is total, conservative and idempotent**, for any list of rows. The result
begins with the rows that do not overwrite an edge, all rows if right ends are not extended, in
order; what follows belongs to an extension or enters one, and no state loses a symbol it had a row
for. If right ends are extended, a row of the result that reads a head on a boundary, other than
those of extensions, writes the boundary, its marker or the return mark. To add extensions again
changes nothing. -/
theorem extend_conservative (a : Alphabet) (safety : Safety) (rows : List Row) :
    ∃ table added, extend a safety rows = .ok table ∧
      table = (rows.filter fun r => !(safety.right && overwritesEdge a r)) ++ added ∧
      (∀ r ∈ added, r.state.isExtension = true ∨ r.next.isExtension = true) ∧
      (∀ r ∈ rows, ∃ x ∈ table, x.domain = r.domain) ∧
      (safety.right = true → ∀ r ∈ table, r.state.isExtension = false → r.read = a.boundaryMarker →
        r.write = Symbol.boundary ∨ r.write = a.boundaryMarker ∨ r.write = Symbol.returnMark) ∧
      extend a safety table = .ok table := by
  obtain ⟨added, htable, hadded⟩ := exists_added a safety rows
  rw [kept_eq_filter] at htable
  refine ⟨extended a safety rows, added, extend_eq_ok a safety rows, htable, hadded,
    fun r => exists_domain_extended a safety, fun hr r hrow hstate hread => ?_, ?_⟩
  · by_contra hwrite
    simp only [not_or] at hwrite
    have hedge : overwritesEdge a r = true := overwritesEdge_iff.mpr ⟨hstate, hread, hwrite⟩
    rw [overwritesEdge_of_mem_extended hr hrow] at hedge
    cases hedge
  · rw [extend_eq_ok, (saturated_extended a safety rows).extended_eq]

end OneTape.Table
