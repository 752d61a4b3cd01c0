import OneTape.Proofs.Consolidate
import OneTape.Table

/-!
# Assembling a table

A list of rows is assembled if no two different rows have the same state and symbol, whatever the
order in which they stand. The table holds the first occurrence of each row.

Results:
* `assemble_eq_ok_iff`: which lists are assembled, and to what.
* `assemble_eq_error`: which row is refused.
* `assemble_exact`: assembling is deduplication in order, or the first conflict.
-/

namespace OneTape.Table

/-- A row contradicts the rows in front of it: one of them has its state and symbol and differs from
it. -/
def Contradicts (front : List Row) (r : Row) : Prop := ∃ x ∈ front, x.domain = r.domain ∧ x ≠ r

variable {rows table : List Row} {conflict : RowConflict}

theorem assemble_eq_ok_iff :
    assemble rows = .ok table ↔ Functional Row.domain rows ∧ table = rows.eraseDups := by
  rw [← consolidate_eq_ok_iff]
  unfold assemble
  cases consolidate Row.domain rows with
  | ok kept => simp [Except.mapError]
  | error r => simp [Except.mapError]

theorem exists_assemble_iff :
    (∃ table, assemble rows = .ok table) ↔ Functional Row.domain rows := by
  simp only [assemble_eq_ok_iff, exists_and_left, exists_eq, and_true]

theorem exists_assemble_error_iff :
    (∃ conflict, assemble rows = .error conflict) ↔ ¬ Functional Row.domain rows := by
  rw [← exists_assemble_iff]
  cases assemble rows with
  | ok table => simp
  | error conflict => simp

/-- In a list without conflicts no row contradicts those in front of it. -/
theorem not_contradicts_of_functional {front back : List Row} {r : Row}
    (h : Functional Row.domain (front ++ r :: back)) : ¬ Contradicts front r := by
  rintro ⟨x, hx, hdomain, hne⟩
  exact hne (h x (by simp [hx]) r (by simp) hdomain)

/-- The row refused contradicts those in front of it, and no row does before it. -/
theorem assemble_eq_error (h : assemble rows = .error conflict) :
    ∃ front r back, rows = front ++ r :: back ∧ Contradicts front r ∧ Functional Row.domain front ∧
      conflict = ⟨r.state, r.read⟩ := by
  unfold assemble at h
  cases hc : consolidate Row.domain rows with
  | ok kept => rw [hc] at h; cases h
  | error r =>
    rw [hc] at h
    cases h
    obtain ⟨front, back, hrows, hfun, x, hx, hne, hdomain⟩ := cut_of_consolidate_eq_error hc
    exact ⟨front, r, back, hrows, ⟨x, hx, hdomain, hne⟩, hfun, rfl⟩

theorem nodup_domain_of_assemble (h : assemble rows = .ok table) : (table.map Row.domain).Nodup :=
  nodup_of_consolidate (consolidate_eq_ok_iff.mpr (assemble_eq_ok_iff.mp h))

/-- A table is assembled to itself. -/
theorem assemble_table (h : assemble rows = .ok table) : assemble table = .ok table := by
  obtain ⟨hfun, rfl⟩ := assemble_eq_ok_iff.mp h
  refine assemble_eq_ok_iff.mpr ⟨hfun.mono fun r => List.mem_eraseDups.mp, ?_⟩
  rw [eraseDups_eq_self (nodup_eraseDups rows)]

/-- **Assembling is deduplication in order, or the first conflict.** It fails if and only if two
different rows have the same state and symbol; the conflict names the state and symbol of the
earliest row that differs from one in front of it. Otherwise the table is the list of first
occurrences, in order: it has the rows of the list, no two of them have the same state and symbol,
and it is assembled to itself. The order of the rows decides neither whether they are assembled nor
which rows the table has. -/
theorem assemble_exact (rows : List Row) :
    ((∃ conflict, assemble rows = .error conflict) ↔
      ∃ r ∈ rows, ∃ s ∈ rows, r.domain = s.domain ∧ r ≠ s) ∧
    (∀ conflict, assemble rows = .error conflict →
      ∃ front r back, rows = front ++ r :: back ∧ Contradicts front r ∧
        (∀ front' r' back', front = front' ++ r' :: back' → ¬ Contradicts front' r') ∧
          conflict = ⟨r.state, r.read⟩) ∧
    (∀ table, assemble rows = .ok table →
      table = rows.eraseDups ∧ table.Sublist rows ∧ (∀ r, r ∈ table ↔ r ∈ rows) ∧
        (table.map Row.domain).Nodup ∧ assemble table = .ok table) ∧
    ∀ rows', rows.Perm rows' →
      ((∃ table, assemble rows = .ok table) ↔ ∃ table', assemble rows' = .ok table') ∧
      ∀ table table', assemble rows = .ok table → assemble rows' = .ok table' →
        ∀ r, r ∈ table ↔ r ∈ table' := by
  refine ⟨?_, fun conflict h => ?_, fun table h => ?_, fun rows' hperm => ⟨?_, ?_⟩⟩
  · rw [exists_assemble_error_iff]
    simp only [Functional, not_forall, exists_prop]
  · obtain ⟨front, r, back, hrows, hcontra, hfun, hconflict⟩ := assemble_eq_error h
    refine ⟨front, r, back, hrows, hcontra, fun front' r' back' hfront => ?_, hconflict⟩
    exact not_contradicts_of_functional (hfront ▸ hfun)
  · have hnodup := nodup_domain_of_assemble h
    have hagain := assemble_table h
    obtain ⟨-, rfl⟩ := assemble_eq_ok_iff.mp h
    exact ⟨rfl, eraseDups_sublist rows, fun r => List.mem_eraseDups, hnodup, hagain⟩
  · rw [exists_assemble_iff, exists_assemble_iff]
    exact ⟨fun h => h.mono fun r => hperm.mem_iff.mpr, fun h => h.mono fun r => hperm.mem_iff.mp⟩
  · intro table table' h h' r
    obtain ⟨-, rfl⟩ := assemble_eq_ok_iff.mp h
    obtain ⟨-, rfl⟩ := assemble_eq_ok_iff.mp h'
    rw [List.mem_eraseDups, List.mem_eraseDups, hperm.mem_iff]

end OneTape.Table
