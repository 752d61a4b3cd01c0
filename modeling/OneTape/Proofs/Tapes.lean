import Mathlib.Data.List.TakeWhile
import Mathlib.Tactic.Common
import OneTape.Run

/-!
# Tapes as their cells

A tape is blank past its end. So two tapes that differ in trailing blanks only have the same cells,
and what a step does to a tape is told by what it does to the cells.

Results:
* `dropBlanks_eq_of_cellAt`: tapes with the same cells have the same normal form.
* `cellAt_padTo`, `cellAt_set`: padding changes no cell, and writing changes one.
-/

namespace OneTape.Tapes

/-- A cell of a tape. -/
def cellAt (tape : List Symbol) (j : Nat) : Symbol := tape[j]?.getD Symbol.blank

variable {s t : List Symbol} {j n : Nat} {w : Symbol}

theorem cellAt_of_length_le (h : t.length ≤ j) : cellAt t j = Symbol.blank := by
  simp [cellAt, List.getElem?_eq_none h]

@[simp] theorem cellAt_cons_zero (t : List Symbol) (w : Symbol) : cellAt (w :: t) 0 = w := rfl

@[simp] theorem cellAt_cons_succ (t : List Symbol) (w : Symbol) (j : Nat) :
    cellAt (w :: t) (j + 1) = cellAt t j := by
  simp [cellAt]

theorem cellAt_append_blanks (t : List Symbol) (n j : Nat) :
    cellAt (t ++ List.replicate n Symbol.blank) j = cellAt t j := by
  unfold cellAt
  by_cases h : j < t.length
  · rw [List.getElem?_append_left h]
  · rw [List.getElem?_append_right (by omega), List.getElem?_replicate,
      List.getElem?_eq_none (by omega : t.length ≤ j)]
    split_ifs <;> rfl

/-- Padding changes no cell. -/
@[simp] theorem cellAt_padTo (n : Nat) (t : List Symbol) (j : Nat) :
    cellAt (padTo n t) j = cellAt t j :=
  cellAt_append_blanks t _ j

theorem padTo_eq_self (h : n ≤ t.length) : padTo n t = t := by
  simp [padTo, Nat.sub_eq_zero_of_le h]

theorem length_padTo (n : Nat) (t : List Symbol) : (padTo n t).length = max t.length n := by
  simp only [padTo, List.length_append, List.length_replicate]
  omega

/-- Writing changes one cell. -/
theorem cellAt_set (h : n < t.length) : cellAt (t.set n w) j = if j = n then w else cellAt t j := by
  unfold cellAt
  by_cases hj : j = n
  · subst hj
    simp [h]
  · rw [if_neg hj, List.getElem?_set_ne (Ne.symm hj)]

theorem cellAt_map (f : Symbol → Symbol) (hf : f Symbol.blank = Symbol.blank) (t : List Symbol)
    (j : Nat) : cellAt (t.map f) j = f (cellAt t j) := by
  unfold cellAt
  rw [List.getElem?_map]
  cases t[j]? <;> simp [hf]

/-! ## Normal forms -/

/-- A tape is its normal form with some blanks after it. -/
theorem eq_dropBlanks_append (t : List Symbol) :
    ∃ n, t = dropBlanks t ++ List.replicate n Symbol.blank := by
  refine ⟨(t.reverse.takeWhile (· == Symbol.blank)).length, ?_⟩
  have hall : t.reverse.takeWhile (· == Symbol.blank) =
      List.replicate (t.reverse.takeWhile (· == Symbol.blank)).length Symbol.blank :=
    List.eq_replicate_iff.mpr ⟨rfl, fun b hb => by simpa using List.mem_takeWhile_imp hb⟩
  conv_lhs => rw [← List.reverse_reverse t,
    ← List.takeWhile_append_dropWhile (p := (· == Symbol.blank)) (l := t.reverse),
    List.reverse_append, hall, List.reverse_replicate]
  rfl

theorem cellAt_dropBlanks (t : List Symbol) (j : Nat) : cellAt (dropBlanks t) j = cellAt t j := by
  obtain ⟨n, h⟩ := eq_dropBlanks_append t
  conv_rhs => rw [h, cellAt_append_blanks]

/-- The last cell of a normal form is not blank. -/
theorem cellAt_dropBlanks_last (h : 0 < (dropBlanks t).length) :
    cellAt (dropBlanks t) ((dropBlanks t).length - 1) ≠ Symbol.blank := by
  unfold dropBlanks at h ⊢
  cases hd : t.reverse.dropWhile (· == Symbol.blank) with
  | nil => simp [hd] at h
  | cons c rest =>
    have hc := List.head_dropWhile_not (p := (· == Symbol.blank)) (l := t.reverse) (by simp [hd])
    simp only [hd, List.head_cons, beq_eq_false_iff_ne] at hc
    simpa [cellAt] using hc

theorem length_dropBlanks_le (h : ∀ j, cellAt s j = cellAt t j) :
    (dropBlanks s).length ≤ (dropBlanks t).length := by
  by_contra hlt
  refine cellAt_dropBlanks_last (t := s) (by omega) ?_
  rw [cellAt_dropBlanks, h, ← cellAt_dropBlanks]
  exact cellAt_of_length_le (by omega)

/-- **Tapes with the same cells have the same normal form.** -/
theorem dropBlanks_eq_of_cellAt (h : ∀ j, cellAt s j = cellAt t j) :
    dropBlanks s = dropBlanks t := by
  have hlen : (dropBlanks s).length = (dropBlanks t).length :=
    Nat.le_antisymm (length_dropBlanks_le h) (length_dropBlanks_le fun j => (h j).symm)
  refine List.ext_getElem hlen fun j hs ht => ?_
  have hj := h j
  rw [← cellAt_dropBlanks, ← cellAt_dropBlanks t] at hj
  simpa [cellAt, hs, ht] using hj

end OneTape.Tapes
