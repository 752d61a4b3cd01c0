import Mathlib.Data.List.Basic
import Mathlib.Tactic.Common
import OneTape.Symbol

/-!
# Markers and escaped symbols

A symbol is *plain* if it is neither reserved nor of the form of a marker. Escaping makes every
symbol plain without making two of them equal, and markers of different symbols are different. So
symbols of virtual tapes, their markers and the reserved symbols never mix.

Results:
* `marker_injective`, `unmark?_marker`: a marker determines its symbol.
* `escape_injective`, `isPlain_escape`: escaping is injective and its results are plain.
-/

namespace OneTape.Symbol

variable {iteration : Nat} {s t : Symbol}

theorem ext_toList (h : s.text.toList = t.text.toList) : s = t := by
  cases s; cases t
  exact congrArg Symbol.mk (String.toList_injective h)

/-! ## Markers -/

theorem toList_marker (s : Symbol) (iteration : Nat) :
    (s.marker iteration).text.toList = s.text.toList ++ markerSuffix iteration := by
  simp [marker]

theorem mem_marker {c : Char} (h : c ∈ (s.marker iteration).text.toList) :
    c ∈ s.text.toList ∨ c = '.' ∨ c.isDigit = true := by
  rw [toList_marker, List.mem_append, markerSuffix, List.mem_cons] at h
  exact h.imp_right (Or.imp_right (Nat.isDigit_of_mem_toDigits (by decide) (by decide)))

/-- A marker determines its symbol. -/
theorem marker_injective (h : s.marker iteration = t.marker iteration) : s = t := by
  have := congrArg (fun x : Symbol => x.text.toList) h
  simp only [toList_marker] at this
  exact ext_toList (List.append_cancel_right this)

@[simp] theorem marker_inj : s.marker iteration = t.marker iteration ↔ s = t :=
  ⟨marker_injective, fun h => h ▸ rfl⟩

theorem isMarkerLike_iff : s.isMarkerLike iteration ↔ markerSuffix iteration <:+ s.text.toList := by
  simp [isMarkerLike]

@[simp] theorem isMarkerLike_marker (s : Symbol) (iteration : Nat) :
    (s.marker iteration).isMarkerLike iteration = true := by
  rw [isMarkerLike_iff, toList_marker]
  exact List.suffix_append _ _

/-- A text without a dot is not of the form of a marker. -/
theorem isMarkerLike_eq_false (h : '.' ∉ s.text.toList) : s.isMarkerLike iteration = false := by
  rw [Bool.eq_false_iff, ne_eq, isMarkerLike_iff]
  intro hs
  exact h (hs.subset (by simp [markerSuffix]))

@[simp] theorem isMarkerLike_blank : blank.isMarkerLike iteration = false :=
  isMarkerLike_eq_false (by decide)

@[simp] theorem isMarkerLike_boundary : boundary.isMarkerLike iteration = false :=
  isMarkerLike_eq_false (by decide)

@[simp] theorem isMarkerLike_tapeEnd : tapeEnd.isMarkerLike iteration = false :=
  isMarkerLike_eq_false (by decide)

@[simp] theorem isMarkerLike_returnMark : returnMark.isMarkerLike iteration = false :=
  isMarkerLike_eq_false (by decide)

theorem marker_ne_of_isMarkerLike (h : t.isMarkerLike iteration = false) :
    s.marker iteration ≠ t := by
  rintro rfl
  simp at h

@[simp] theorem unmark?_marker (s : Symbol) (iteration : Nat) :
    (s.marker iteration).unmark? iteration = some s := by
  rw [unmark?, if_pos (isMarkerLike_marker s iteration), toList_marker]
  simp

theorem eq_marker_of_unmark? (h : s.unmark? iteration = some t) : s = t.marker iteration := by
  unfold unmark? at h
  split_ifs at h with hs
  cases h
  refine ext_toList ?_
  rw [toList_marker, String.toList_ofList]
  exact (List.suffix_iff_eq_append.mp (isMarkerLike_iff.mp hs)).symm

theorem unmark?_eq_none (h : s.isMarkerLike iteration = false) : s.unmark? iteration = none := by
  rw [unmark?, if_neg (by simp [h])]

/-! ## Plain symbols -/

/-- The symbol can stand on a virtual tape: it is not reserved and not of the form of a marker. -/
def IsPlain (iteration : Nat) (s : Symbol) : Prop :=
  s.isReserved = false ∧ s.isMarkerLike iteration = false

theorem isPlain_blank : IsPlain iteration blank := ⟨by decide, isMarkerLike_blank⟩

theorem IsPlain.ne_boundary (h : IsPlain iteration s) : s ≠ boundary := by
  rintro rfl
  exact absurd h.1 (by decide)

theorem IsPlain.ne_tapeEnd (h : IsPlain iteration s) : s ≠ tapeEnd := by
  rintro rfl
  exact absurd h.1 (by decide)

theorem IsPlain.ne_returnMark (h : IsPlain iteration s) : s ≠ returnMark := by
  rintro rfl
  exact absurd h.1 (by decide)

/-! ## Escaping -/

theorem escape_of_needsEscape (h : s.needsEscape iteration = true) :
    s.escape iteration = ⟨String.ofList (escapeChar :: s.text.toList ++ [escapeChar])⟩ := by
  rw [escape, escape?, if_pos h]; rfl

theorem escape_eq_self (h : s.needsEscape iteration = false) : s.escape iteration = s := by
  rw [escape, escape?, if_neg (by simp [h])]; rfl

theorem mem_escape {c : Char} (h : c ∈ (s.escape iteration).text.toList) :
    c ∈ s.text.toList ∨ c = escapeChar := by
  cases hs : s.needsEscape iteration with
  | false =>
    rw [escape_eq_self hs] at h
    exact .inl h
  | true =>
    rw [escape_of_needsEscape hs] at h
    simpa [or_comm, or_assoc] using h

@[simp] theorem escape_blank (iteration : Nat) : blank.escape iteration = blank := by
  apply escape_eq_self
  rw [needsEscape, isMarkerLike_blank]
  decide

/-- Escaped texts begin with the escape character; symbols that stay as they are do not. -/
theorem escape_injective (h : s.escape iteration = t.escape iteration) : s = t := by
  have begins : ∀ {u v : Symbol}, u.needsEscape iteration = true → v.needsEscape iteration = false →
      u.escape iteration ≠ v.escape iteration := by
    intro u v hu hv huv
    rw [escape_of_needsEscape hu, escape_eq_self hv] at huv
    have hhead : v.text.toList.head? = some escapeChar := by rw [← huv]; simp
    simp [needsEscape, hhead] at hv
  cases hs : s.needsEscape iteration <;> cases ht : t.needsEscape iteration
  · rwa [escape_eq_self hs, escape_eq_self ht] at h
  · exact absurd h.symm (begins ht hs)
  · exact absurd h (begins hs ht)
  · rw [escape_of_needsEscape hs, escape_of_needsEscape ht] at h
    have := congrArg (fun x : Symbol => x.text.toList) h
    simp only [String.toList_ofList, List.cons_append, List.cons.injEq, true_and] at this
    exact ext_toList (List.append_cancel_right this)

@[simp] theorem escape_inj : s.escape iteration = t.escape iteration ↔ s = t :=
  ⟨escape_injective, fun h => h ▸ rfl⟩

/-- A marker ends in a digit, so a text that ends in the escape character is not one. -/
theorem isMarkerLike_wrapped (cs : List Char) :
    (Symbol.mk (String.ofList (escapeChar :: cs ++ [escapeChar]))).isMarkerLike iteration =
      false := by
  rw [Bool.eq_false_iff, ne_eq, isMarkerLike_iff, String.toList_ofList]
  intro h
  have hlast := h.getLast (by simp [markerSuffix])
  have hdigit : (markerSuffix iteration).getLast (by simp [markerSuffix]) ∈
      Nat.toDigits 10 iteration := by
    simp only [markerSuffix]
    rw [List.getLast_cons Nat.toDigits_ne_nil]
    exact List.getLast_mem _
  have := Nat.isDigit_of_mem_toDigits (by decide) (by decide) hdigit
  rw [hlast] at this
  simp only [List.getLast_append_singleton] at this
  exact absurd this (by decide)

/-- **Escaped symbols are plain.** -/
theorem isPlain_escape (s : Symbol) (iteration : Nat) : IsPlain iteration (s.escape iteration) := by
  cases h : s.needsEscape iteration with
  | false =>
    rw [escape_eq_self h]
    simp only [needsEscape, Bool.or_eq_false_iff] at h
    exact ⟨h.1.1, h.1.2⟩
  | true =>
    rw [escape_of_needsEscape h]
    refine ⟨?_, isMarkerLike_wrapped _⟩
    have hlen : ∀ r : Symbol, r.text.toList.length = 1 →
        (Symbol.mk (String.ofList (escapeChar :: s.text.toList ++ [escapeChar])) == r) = false := by
      intro r hr
      rw [beq_eq_false_iff_ne]
      rintro rfl
      simp at hr
    rw [isReserved, hlen boundary (by decide), hlen tapeEnd (by decide),
      hlen returnMark (by decide)]
    rfl

end OneTape.Symbol
