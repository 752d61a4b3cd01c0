import Mathlib.Data.List.Lex
import Mathlib.Data.List.Range
import Mathlib.Tactic.Common
import OneTape.Coverage

/-!
# Counting tuples

The search for a gap counts through the tuples of symbols like an odometer. It counts in
lexicographic order, every tuple once, and stops after the last one.

Results:
* `mem_tuples`, `length_tuples`, `pairwise_tuples`: all tuples of a length over a list, in
  lexicographic order.
* `iterate_next?`, `onwards_zeros`: counting from zeros goes through these tuples.
* `iterate_next?_eq_none_iff`: counting ends.
* `firstUncovered_eq_find?`: the search gives the first of them that is not covered.
-/

namespace OneTape.Coverage

/-! ## All tuples in order -/

/-- The tuples of `k` items of a list, in the order of the list; the first place counts most. -/
def tuples {α : Type} (xs : List α) : Nat → List (List α)
  | 0 => [[]]
  | k + 1 => xs.flatMap fun x => (tuples xs k).map (x :: ·)

section Tuples

variable {α β : Type} {xs : List α} {k : Nat}

theorem mem_tuples {t : List α} : t ∈ tuples xs k ↔ t.length = k ∧ ∀ x ∈ t, x ∈ xs := by
  induction k generalizing t with
  | zero =>
    rw [tuples, List.mem_singleton, List.length_eq_zero_iff]
    exact ⟨fun h => ⟨h, by simp [h]⟩, fun h => h.1⟩
  | succ k ih =>
    simp only [tuples, List.mem_flatMap, List.mem_map, ih]
    constructor
    · rintro ⟨x, hx, t, ⟨hlength, hmem⟩, rfl⟩
      exact ⟨by simp [hlength], List.forall_mem_cons.mpr ⟨hx, hmem⟩⟩
    · rintro ⟨hlength, hmem⟩
      cases t with
      | nil => cases hlength
      | cons x t =>
        obtain ⟨hx, hmem⟩ := List.forall_mem_cons.mp hmem
        exact ⟨x, hx, t, ⟨by simpa using hlength, hmem⟩, rfl⟩

theorem length_tuples (xs : List α) (k : Nat) : (tuples xs k).length = Nat.pow xs.length k := by
  induction k with
  | zero => rfl
  | succ k ih => simp [tuples, List.length_flatMap, ih, Nat.pow_succ, Nat.mul_comm]

theorem map_tuples (f : α → β) (xs : List α) (k : Nat) :
    (tuples xs k).map (List.map f) = tuples (xs.map f) k := by
  induction k with
  | zero => rfl
  | succ k ih =>
    simp only [tuples, List.map_flatMap, List.flatMap_map, ← ih, List.map_map]
    rfl

/-- Tuples are listed in the lexicographic order that the list gives. -/
theorem pairwise_tuples {r : α → α → Prop} (h : xs.Pairwise r) (k : Nat) :
    (tuples xs k).Pairwise (List.Lex r) := by
  induction k with
  | zero => exact List.pairwise_singleton _ _
  | succ k ih =>
    rw [tuples, List.pairwise_flatMap]
    constructor
    · intro x _
      exact ih.map (x :: ·) fun _ _ => List.Lex.cons
    · refine h.imp fun {x y} hxy s hs t ht => ?_
      obtain ⟨s, -, rfl⟩ := List.mem_map.mp hs
      obtain ⟨t, -, rfl⟩ := List.mem_map.mp ht
      exact List.Lex.rel hxy

end Tuples

/-! ## Counting -/

/-- The tuples of digits from a given one on, in the order in which they are counted. -/
def onwards (base : Nat) : List Nat → List (List Nat)
  | [] => [[]]
  | d :: ds => (onwards base ds).map (d :: ·)
      ++ (List.range' (d + 1) (base - (d + 1))).flatMap fun e =>
        (tuples (List.range base) ds.length).map (e :: ·)

variable {base : Nat} {digits digits' : List Nat}

/-- From zeros on there are all tuples. -/
theorem onwards_zeros (hbase : 0 < base) (k : Nat) :
    onwards base (List.replicate k 0) = tuples (List.range base) k := by
  have hrange : List.range base = 0 :: List.range' 1 (base - 1) := by
    obtain ⟨b, rfl⟩ : ∃ b, base = b + 1 := ⟨base - 1, by omega⟩
    rw [List.range_eq_range', List.range'_succ, Nat.add_sub_cancel]
  induction k with
  | zero => rfl
  | succ k ih =>
    rw [List.replicate_succ, onwards, ih, List.length_replicate, tuples]
    nth_rewrite 4 [hrange]
    rw [List.flatMap_cons]

theorem next?_cons_of_none {d : Nat} (h : next? base digits = none) : next? base (d :: digits) =
    if d + 1 < base then some ((d + 1) :: List.replicate digits.length 0) else none := by
  rw [next?, h, List.map_const']

theorem next?_cons_of_some {d : Nat} (h : next? base digits = some digits') :
    next? base (d :: digits) = some (d :: digits') := by
  rw [next?, h]

/-- No tuple comes after the last one. -/
theorem onwards_of_none (h : next? base digits = none) : onwards base digits = [digits] := by
  induction digits with
  | nil => rfl
  | cons d ds ih =>
    cases hds : next? base ds with
    | some es => rw [next?_cons_of_some hds] at h; cases h
    | none =>
      rw [next?_cons_of_none hds] at h
      split_ifs at h with hd
      have hlast : base - (d + 1) = 0 := by omega
      rw [onwards, ih hds, hlast]
      rfl

/-- A tuple comes first, then those from the next one on. -/
theorem onwards_of_some (h : next? base digits = some digits') :
    onwards base digits = digits :: onwards base digits' := by
  induction digits generalizing digits' with
  | nil => cases h
  | cons d ds ih =>
    cases hds : next? base ds with
    | some es =>
      rw [next?_cons_of_some hds] at h
      cases h
      rw [onwards, onwards, ih hds, length_of_next? hds]
      rfl
    | none =>
      -- the digit itself is counted up, and what follows it starts again from zeros
      rw [next?_cons_of_none hds] at h
      split_ifs at h with hd
      cases h
      have hrest : base - (d + 1) = base - (d + 1 + 1) + 1 := by omega
      rw [onwards, onwards_of_none hds, onwards, onwards_zeros (by omega), List.length_replicate,
        hrest, List.range'_succ, List.flatMap_cons]
      rfl

theorem exists_onwards_eq_cons (base : Nat) (digits : List Nat) :
    ∃ rest, onwards base digits = digits :: rest := by
  cases h : next? base digits with
  | some digits' => exact ⟨_, onwards_of_some h⟩
  | none => exact ⟨_, onwards_of_none h⟩

/-- **Counting from a tuple goes through those from it on**, and stops after the last one. -/
theorem iterate_next? (base : Nat) (digits : List Nat) (n : Nat) :
    (fun o : Option (List Nat) => o.bind (next? base))^[n] (some digits) =
      (onwards base digits)[n]? := by
  induction n generalizing digits with
  | zero =>
    obtain ⟨rest, h⟩ := exists_onwards_eq_cons base digits
    rw [h]
    rfl
  | succ n ih =>
    rw [Function.iterate_succ_apply, Option.bind_some]
    cases h : next? base digits with
    | some digits' => rw [onwards_of_some h, List.getElem?_cons_succ, ih]
    | none =>
      rw [onwards_of_none h, Function.iterate_fixed rfl]
      rfl

theorem length_onwards (base : Nat) (digits : List Nat) :
    (onwards base digits).length = remaining base digits + 1 := by
  induction digits with
  | nil => rfl
  | cons d ds ih =>
    simp only [onwards, remaining, List.length_append, List.length_map, List.length_flatMap, ih,
      length_tuples, List.length_range, List.map_const', List.sum_replicate_nat, List.length_range']
    omega

/-- **Counting ends**, after as many tuples as remain. -/
theorem iterate_next?_eq_none_iff (base : Nat) (digits : List Nat) (n : Nat) :
    (fun o : Option (List Nat) => o.bind (next? base))^[n] (some digits) = none ↔
      remaining base digits < n := by
  rw [iterate_next?, List.getElem?_eq_none_iff, length_onwards, Nat.succ_le_iff]

/-! ## Searching -/

/-- The search looks at the tuples from given digits on. -/
theorem search_eq_find? (symbols : List Symbol) (covered : List (List Symbol)) (digits : List Nat) :
    search symbols covered digits =
      ((onwards symbols.length digits).map (spell symbols)).find? fun t => !covered.contains t := by
  induction digits using search.induct symbols covered with
  | case1 digits hcovered digits' hnext ih =>
    rw [search, if_pos hcovered, onwards_of_some hnext, List.map_cons,
      List.find?_cons_of_neg (by simpa using hcovered), ← ih]
    split
    · next es hes => rw [Option.some.inj (hes.symm.trans hnext)]
    · next hes => rw [hes] at hnext; cases hnext
  | case2 digits hcovered hnext =>
    rw [search, if_pos hcovered, onwards_of_none hnext, List.map_singleton,
      List.find?_cons_of_neg (by simpa using hcovered)]
    split
    · next es hes => rw [hes] at hnext; cases hnext
    · rfl
  | case3 digits hcovered =>
    obtain ⟨rest, hrest⟩ := exists_onwards_eq_cons symbols.length digits
    rw [search, if_neg hcovered, hrest, List.map_cons,
      List.find?_cons_of_pos (by simpa using hcovered)]

theorem map_spell_tuples (symbols : List Symbol) (k : Nat) :
    (tuples (List.range symbols.length) k).map (spell symbols) = tuples symbols k := by
  have hsymbols : (List.range symbols.length).map (fun d => symbols[d]?.getD Symbol.blank) =
      symbols := by
    refine List.ext_getElem (by simp) fun i h _ => ?_
    have hi : i < symbols.length := by simpa using h
    simp [hi]
  have hmap := map_tuples (fun d => symbols[d]?.getD Symbol.blank) (List.range symbols.length) k
  rwa [hsymbols] at hmap

/-- **The search gives the first tuple that is not covered.** -/
theorem firstUncovered_eq_find? {symbols : List Symbol} (hsymbols : symbols ≠ []) (k : Nat)
    (covered : List (List Symbol)) :
    firstUncovered symbols k covered = (tuples symbols k).find? fun t => !covered.contains t := by
  rw [firstUncovered, search_eq_find?, onwards_zeros (List.length_pos_iff.mpr hsymbols),
    map_spell_tuples]

end OneTape.Coverage
