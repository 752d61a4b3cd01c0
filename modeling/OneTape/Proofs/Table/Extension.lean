import OneTape.Proofs.Table.Sweeps

/-!
# The rows of tape extensions

`Shifts`, `ExtendsLeft` and `ExtendsRight` list the kinds of row that the shift subroutine and the
extensions at the two ends of a tape have.

Results:
* `mem_shiftRows`, `mem_leftExtension`, `mem_rightExtension`: these are the rows of the subroutines.
* `mem_leftExtensionOf`: which states are extended to the left, and how they go on.
* `extend_eq_ok`: adding extensions to any list of rows succeeds.
-/

namespace OneTape.Table

/-- The rows of the shift subroutine. -/
inductive Shifts (a : Alphabet) (owner : State) (side : Side) (resume : Resume) : Row → Prop
  | relay {carried found : Symbol} : carried ∈ a.library → found ∈ a.library →
      Shifts a owner side resume
        ⟨shifting owner side carried, found, shifting owner side found, carried, .right⟩
  | moveEnd {carried : Symbol} : a.IsEdge carried →
      Shifts a owner side resume ⟨shifting owner side carried, Symbol.tapeEnd,
        shifting owner side Symbol.tapeEnd, carried, .right⟩
  | turn :
      Shifts a owner side resume ⟨shifting owner side Symbol.tapeEnd, Symbol.blank,
        comingBack owner side, Symbol.tapeEnd, .left⟩
  | comeBack {c : Symbol} : c ∈ a.library →
      Shifts a owner side resume ⟨comingBack owner side, c, comingBack owner side, c, .left⟩
  | resume :
      Shifts a owner side resume
        ⟨comingBack owner side, Symbol.returnMark, resume.state, resume.write, resume.move⟩

/-- The rows of the extension of a state that walked off the left end of its tape. -/
inductive ExtendsLeft (a : Alphabet) (s : State) (resume : Resume) : Row → Prop
  | edge {e : Symbol} : a.IsEdge e →
      ExtendsLeft a s resume ⟨s, e, s.extension .left .realign, e, .right⟩
  | realign {c : Symbol} : c ∈ a.unmarked →
      ExtendsLeft a s resume
        ⟨s.extension .left .realign, c, shifting s .left c, Symbol.returnMark, .right⟩
  | shift {r : Row} : Shifts a s .left resume r → ExtendsLeft a s resume r

/-- The rows that stand in place of a row of `s` which overwrites an edge. -/
inductive ExtendsRight (a : Alphabet) (s : State) : Row → Prop
  | anchor :
      ExtendsRight a s
        ⟨s, a.boundaryMarker, shifting s .right Symbol.boundary, Symbol.returnMark, .right⟩
  | shift {r : Row} : Shifts a s .right ⟨s, a.blankMarker, .stay⟩ r → ExtendsRight a s r

variable {a : Alphabet} {owner s : State} {side : Side} {resume : Resume} {r : Row}
  {rows : List Row} {safety : Safety}

/-! ## Members of the subroutines -/

theorem mem_shiftRows : r ∈ shiftRows a owner side resume ↔ Shifts a owner side resume r := by
  simp only [shiftRows, relayRows, moveEndRows, comeBackRows, List.mem_append, List.mem_flatMap,
    List.mem_map, List.mem_cons, List.not_mem_nil, or_false]
  constructor
  · rintro ((⟨c, hc, f, hf, rfl⟩ | ⟨c, hc, rfl⟩ | rfl) | ⟨c, hc, rfl⟩ | rfl)
    · exact .relay hc hf
    · exact .moveEnd hc
    · exact .turn
    · exact .comeBack hc
    · exact .resume
  · intro h
    cases h with
    | relay hc hf => exact .inl (.inl ⟨_, hc, _, hf, rfl⟩)
    | moveEnd hc => exact .inl (.inr (.inl ⟨_, hc, rfl⟩))
    | turn => exact .inl (.inr (.inr rfl))
    | comeBack hc => exact .inr (.inl ⟨_, hc, rfl⟩)
    | resume => exact .inr (.inr rfl)

theorem mem_leftExtension {goOn : Row} :
    r ∈ leftExtension a s goOn ↔ ExtendsLeft a s ⟨goOn.next, a.blankMarker, goOn.move⟩ r := by
  simp only [leftExtension, List.mem_append, List.mem_map, List.mem_cons, List.not_mem_nil,
    or_false, mem_shiftRows]
  constructor
  · rintro ((⟨e, he, rfl⟩ | ⟨c, hc, rfl⟩) | h)
    · exact .edge he
    · exact .realign hc
    · exact .shift h
  · intro h
    cases h with
    | edge he => exact .inl (.inl ⟨_, he, rfl⟩)
    | realign hc => exact .inl (.inr ⟨_, hc, rfl⟩)
    | shift h => exact .inr h

theorem mem_rightExtension {row : Row} (h : row.read = a.boundaryMarker) :
    r ∈ rightExtension a row ↔ ExtendsRight a row.state r := by
  simp only [rightExtension, List.mem_cons, mem_shiftRows, h]
  constructor
  · rintro (rfl | h)
    · exact .anchor
    · exact .shift h
  · intro h
    cases h with
    | anchor => exact .inl rfl
    | shift h => exact .inr h

/-! ## Adding extensions succeeds -/

theorem Shifts.isExtension (h : Shifts a owner side resume r) : r.state.isExtension = true := by
  cases h <;> rfl

theorem Shifts.overwritesEdge (h : Shifts a owner side resume r) : overwritesEdge a r = false := by
  simp [Table.overwritesEdge, h.isExtension]

theorem ExtendsLeft.overwritesEdge (h : ExtendsLeft a s resume r) : overwritesEdge a r = false := by
  cases h with
  | edge he => rcases he with rfl | rfl <;> simp [Table.overwritesEdge]
  | realign => rfl
  | shift h => exact h.overwritesEdge

theorem ExtendsRight.overwritesEdge (h : ExtendsRight a s r) : overwritesEdge a r = false := by
  cases h with
  | anchor => simp [Table.overwritesEdge]
  | shift h => exact h.overwritesEdge

theorem overwritesEdge_iff : overwritesEdge a r = true ↔ r.state.isExtension = false ∧
    r.read = a.boundaryMarker ∧ r.write ≠ Symbol.boundary ∧ r.write ≠ a.boundaryMarker ∧
      r.write ≠ Symbol.returnMark := by
  simp [overwritesEdge, and_assoc]

/-- A list of rows with its extensions. -/
def extended (a : Alphabet) (safety : Safety) (rows : List Row) : List Row :=
  kept a safety rows ++ addedLeft a safety rows ++
  (replaced a safety rows).flatMap (rightExtension a)

/-- A state is extended to the left if it has rows and none of them is for a boundary; the extension
goes on as its first row does. -/
theorem mem_leftExtensionOf : r ∈ leftExtensionOf a rows s ↔
    ∃ goOn rest, rows.filter (·.state == s) = goOn :: rest ∧
      (∀ x ∈ rows, x.state = s → ¬ a.IsEdge x.read) ∧
        ExtendsLeft a s ⟨goOn.next, a.blankMarker, goOn.move⟩ r := by
  have hguard : ((rows.filter (·.state == s)).any fun x =>
      x.read == Symbol.boundary || x.read == a.boundaryMarker) = true ↔
      ¬ ∀ x ∈ rows, x.state = s → ¬ a.IsEdge x.read := by
    simp [Alphabet.IsEdge, ← or_iff_not_imp_left]
  unfold leftExtensionOf
  dsimp only
  generalize rows.filter (·.state == s) = own at hguard ⊢
  cases own with
  | nil => simp
  | cons goOn rest =>
    dsimp only
    split_ifs with h
    · rw [hguard] at h
      simp [h]
    · rw [hguard, not_not] at h
      rw [mem_leftExtension]
      constructor
      · exact fun hr => ⟨goOn, rest, rfl, h, hr⟩
      · rintro ⟨_, _, hcons, -, hr⟩
        cases hcons
        exact hr

/-- If all rows of a state go on in the same way, so does its extension. -/
theorem mem_leftExtensionOf_of_agree {next : State} {move : Direction}
    (hex : ∃ x ∈ rows, x.state = s)
    (hall : ∀ x ∈ rows, x.state = s → ¬ a.IsEdge x.read ∧ x.next = next ∧ x.move = move) :
    r ∈ leftExtensionOf a rows s ↔ ExtendsLeft a s ⟨next, a.blankMarker, move⟩ r := by
  have hown : ∀ x, x ∈ rows.filter (·.state == s) ↔ x ∈ rows ∧ x.state = s := by simp
  rw [mem_leftExtensionOf]
  constructor
  · rintro ⟨goOn, rest, hl, -, h⟩
    obtain ⟨hmem, hs⟩ := (hown goOn).mp (hl ▸ List.mem_cons_self)
    obtain ⟨-, hnext, hmove⟩ := hall goOn hmem hs
    rwa [hnext, hmove] at h
  · intro h
    obtain ⟨y, hy⟩ := hex
    obtain ⟨goOn, rest, hl⟩ := List.exists_cons_of_ne_nil (List.ne_nil_of_mem ((hown y).mpr hy))
    obtain ⟨hmem, hs⟩ := (hown goOn).mp (hl ▸ List.mem_cons_self)
    obtain ⟨-, hnext, hmove⟩ := hall goOn hmem hs
    refine ⟨goOn, rest, hl, fun x hx hxs => (hall x hx hxs).1, ?_⟩
    rwa [hnext, hmove]

theorem overwritesEdge_of_mem_leftExtensions (h : r ∈ leftExtensions a rows) :
    overwritesEdge a r = false := by
  simp only [leftExtensions, List.mem_flatMap, mem_leftExtensionOf] at h
  obtain ⟨s, -, goOn, rest, -, -, h⟩ := h
  exact h.overwritesEdge

theorem mem_kept : r ∈ kept a safety rows ↔
    r ∈ rows ∧ (safety.right = true → overwritesEdge a r = false) := by
  unfold kept
  split_ifs with h <;> simp [h]

theorem mem_replaced : r ∈ replaced a safety rows ↔
    safety.right = true ∧ r ∈ rows ∧ overwritesEdge a r = true := by
  unfold replaced
  split_ifs with h <;> simp [h]

theorem mem_addedLeft : r ∈ addedLeft a safety rows ↔
    safety.left = true ∧ r ∈ leftExtensions a rows := by
  unfold addedLeft
  split_ifs with h <;> simp [h]

/-- Where right ends are extended, no row that overwrites an edge is left. -/
theorem overwritesEdge_of_mem_extended (hr : safety.right = true) (h : r ∈ extended a safety rows) :
    overwritesEdge a r = false := by
  simp only [extended, List.mem_append, List.mem_flatMap] at h
  rcases h with (h | h) | ⟨row, hrow, h⟩
  · exact (mem_kept.mp h).2 hr
  · exact overwritesEdge_of_mem_leftExtensions (mem_addedLeft.mp h).2
  · obtain ⟨-, -, ho⟩ := mem_replaced.mp hrow
    rw [mem_rightExtension (overwritesEdge_iff.mp ho).2.1] at h
    exact h.overwritesEdge

/-- **Adding extensions to any list of rows succeeds.** -/
theorem extend_eq_ok (a : Alphabet) (safety : Safety) (rows : List Row) :
    extend a safety rows = .ok (extended a safety rows) := by
  unfold extend
  cases hr : safety.right with
  | false => simp [extended]
  | true =>
    have hnone : (extended a safety rows).find? (overwritesEdge a) = none := by
      rw [List.find?_eq_none]
      intro r h
      simp [overwritesEdge_of_mem_extended hr h]
    unfold extended at hnone ⊢
    simp only [if_true, hnone]

end OneTape.Table
