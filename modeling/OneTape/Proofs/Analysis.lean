import OneTape.Analysis
import OneTape.Machine.Escape
import OneTape.Proofs.Consolidate
import OneTape.Proofs.Symbol

/-!
# Well-formed machines

What `analyze` accepts, said without the order of its checks.

Results:
* `analyze_eq_ok_iff`: `analyze` accepts exactly the well-formed machines.
* `functional_rules_escape`: escaping the symbols of a machine keeps its rules free of conflicts.
-/

namespace OneTape

theorem except_ok_bind {ε α β : Type} (x : α) (f : α → Except ε β) : Except.ok x >>= f = f x := rfl

theorem except_bind_eq_ok_iff {ε α β : Type} {x : Except ε α} {f : α → Except ε β} {b : β} :
    x >>= f = .ok b ↔ ∃ a, x = .ok a ∧ f a = .ok b := by
  cases x with
  | error e => exact ⟨fun h => (by cases h), fun ⟨a, h, _⟩ => (by cases h)⟩
  | ok a => exact ⟨fun h => ⟨a, rfl, h⟩, fun ⟨_, h, hb⟩ => (by cases h; exact hb)⟩

theorem except_check_eq_ok_iff {ε β : Type} {x : Except ε Unit} {f : Unit → Except ε β} {b : β} :
    x >>= f = .ok b ↔ x = .ok () ∧ f () = .ok b := by
  rw [except_bind_eq_ok_iff]
  exact ⟨fun ⟨_, h⟩ => h, fun h => ⟨(), h⟩⟩

namespace Machine

/-- The machine can be compiled: all of its rules have the same positive number `k` of tapes, names
and symbols are words, the initial state has rules, and no two different rules apply in the same
state to the same symbols. -/
structure WellFormed (m : Machine) (k : Nat) : Prop where
  tapeCount : m.tapeCount? = some k
  tapes_pos : 0 < k
  lengths : ∀ r ∈ m.rules, r.read.length = k ∧ r.write.length = k ∧ r.moves.length = k
  names : ∀ name ∈ m.stateNames, isWord name = true
  words : ∀ s ∈ m.symbols, isWord s.text = true
  start : m.rulesFrom m.initial ≠ []
  functional : Functional (fun r : Rule => (r.state, r.read)) m.rules

variable {m : Machine} {k iteration : Nat}

theorem checkStructure_eq_ok_iff : m.checkStructure = .ok () ↔ ∃ k, m.tapeCount? = some k ∧ 0 < k ∧
    ∀ r ∈ m.rules, r.read.length = k ∧ r.write.length = k ∧ r.moves.length = k := by
  unfold checkStructure
  split
  · next h => simp [h]
  · next h => simp [h]
  · next k hk h =>
    have hpos : 0 < k := Nat.pos_of_ne_zero (by rintro rfl; exact hk rfl)
    split
    · next r hr =>
      have hmem := List.mem_of_find?_eq_some hr
      have hbad := List.find?_some hr
      simp only [h, Option.some.injEq, exists_eq_left', reduceCtorEq, false_iff]
      rintro ⟨-, hall⟩
      obtain ⟨h1, h2, h3⟩ := hall r hmem
      simp [h1, h2, h3] at hbad
    · next hr =>
      simp only [List.find?_eq_none, Bool.not_eq_true, Bool.or_eq_false_iff, bne_eq_false_iff_eq]
        at hr
      simp only [h, Option.some.injEq, exists_eq_left', true_iff]
      exact ⟨hpos, fun r hm => ⟨(hr r hm).1.1, (hr r hm).1.2, (hr r hm).2⟩⟩

theorem checkStateNames_eq_ok_iff :
    m.checkStateNames = .ok () ↔ ∀ name ∈ m.stateNames, isWord name = true := by
  unfold checkStateNames
  split
  · next name h =>
    have hbad := List.find?_some h
    simp only [reduceCtorEq, false_iff, not_forall]
    exact ⟨name, List.mem_of_find?_eq_some h, by simpa using hbad⟩
  · next h => simpa [List.find?_eq_none] using h

theorem checkSymbols_eq_ok_iff :
    m.checkSymbols = .ok () ↔ ∀ s ∈ m.symbols, isWord s.text = true := by
  unfold checkSymbols
  split
  · next s h =>
    have hbad := List.find?_some h
    simp only [reduceCtorEq, false_iff, not_forall]
    exact ⟨s, List.mem_of_find?_eq_some h, by simpa using hbad⟩
  · next h => simpa [List.find?_eq_none] using h

theorem checkStart_eq_ok_iff : m.checkStart = .ok () ↔ m.rulesFrom m.initial ≠ [] := by
  unfold checkStart
  split_ifs with h <;> simp_all

theorem checkDeterminism_eq_ok_iff : m.checkDeterminism = .ok () ↔
    Functional (fun r : Rule => (r.state, r.read)) m.rules := by
  unfold checkDeterminism
  split
  · next r h =>
    simp only [reduceCtorEq, false_iff]
    intro hf
    obtain ⟨kept, hk⟩ := consolidate_eq_ok hf
    rw [h] at hk
    cases hk
  · next kept h => simpa using functional_of_consolidate h

/-- **`analyze` accepts exactly the well-formed machines.** -/
theorem analyze_eq_ok_iff : m.analyze = .ok () ↔ ∃ k, m.WellFormed k := by
  unfold analyze
  simp only [except_check_eq_ok_iff, checkStructure_eq_ok_iff, checkStateNames_eq_ok_iff,
    checkSymbols_eq_ok_iff, checkStart_eq_ok_iff, checkDeterminism_eq_ok_iff]
  constructor
  · rintro ⟨⟨k, h1, h2, h3⟩, h4, h5, h6, h7⟩
    exact ⟨k, h1, h2, h3, h4, h5, h6, h7⟩
  · rintro ⟨k, h1, h2, h3, h4, h5, h6, h7⟩
    exact ⟨⟨k, h1, h2, h3⟩, h4, h5, h6, h7⟩

/-! ## Escaped rules -/

theorem map_escape_injective {xs ys : List Symbol}
    (h : xs.map (·.escape iteration) = ys.map (·.escape iteration)) : xs = ys :=
  List.map_injective_iff.mpr (fun _ _ => Symbol.escape_injective) h

theorem functional_rules_escape (h : Functional (fun r : Rule => (r.state, r.read)) m.rules) :
    Functional (fun r : Rule => (r.state, r.read)) (m.escape iteration).rules := by
  intro x hx y hy hxy
  obtain ⟨r, hr, rfl⟩ := List.mem_map.mp hx
  obtain ⟨s, hs, rfl⟩ := List.mem_map.mp hy
  simp only [Rule.escape, Prod.mk.injEq] at hxy
  rw [h r hr s hs (Prod.ext hxy.1 (map_escape_injective hxy.2))]

theorem lengths_escape
    (h : ∀ r ∈ m.rules, r.read.length = k ∧ r.write.length = k ∧ r.moves.length = k) :
    ∀ r ∈ (m.escape iteration).rules,
      r.read.length = k ∧ r.write.length = k ∧ r.moves.length = k := by
  intro x hx
  obtain ⟨r, hr, rfl⟩ := List.mem_map.mp hx
  simpa [Rule.escape] using h r hr

end Machine
end OneTape
