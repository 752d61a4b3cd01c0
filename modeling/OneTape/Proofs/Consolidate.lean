import Mathlib.Data.List.Induction
import Mathlib.Data.List.Nodup
import Mathlib.Tactic.Common
import OneTape.Consolidate

/-!
# What consolidation keeps

`consolidate` succeeds exactly on lists in which a key belongs to one item at most, and then keeps
the first occurrence of each item of the list, one for each key.

Results:
* `consolidate_eq_ok_iff`: a list with one item for each key is consolidated, to its first
  occurrences.
* `mem_of_consolidate`, `nodup_of_consolidate`, `functional_of_consolidate`: what is known of a list
  that was consolidated and of the items kept.
* `cut_of_consolidate_eq_error`: the item refused is the first to differ from an earlier one with
  its key.
-/

namespace OneTape

variable {α κ : Type}

/-- No two different items of a list have the same key. -/
def Functional (key : α → κ) (items : List α) : Prop :=
  ∀ x ∈ items, ∀ y ∈ items, key x = key y → x = y

theorem Functional.mono {key : α → κ} {xs ys : List α} (h : Functional key ys)
    (hs : ∀ x ∈ xs, x ∈ ys) :
    Functional key xs :=
  fun x hx y hy => h x (hs x hx) y (hs y hy)

/-! ## First occurrences -/

section FirstOccurrences

variable [BEq α] [LawfulBEq α] {xs : List α} {x : α}

theorem eraseDups_concat_of_mem (h : x ∈ xs) : (xs ++ [x]).eraseDups = xs.eraseDups := by
  simp [List.eraseDups_append, List.removeAll, h]

theorem eraseDups_concat_of_notMem (h : x ∉ xs) : (xs ++ [x]).eraseDups = xs.eraseDups ++ [x] := by
  simp [List.eraseDups_append, List.removeAll, List.eraseDups_cons, h]

theorem eraseDups_sublist (xs : List α) : xs.eraseDups.Sublist xs := by
  induction xs using List.reverseRecOn with
  | nil => exact List.Sublist.refl _
  | append_singleton xs x ih =>
    by_cases h : x ∈ xs
    · rw [eraseDups_concat_of_mem h]
      exact ih.trans (List.sublist_append_left xs [x])
    · rw [eraseDups_concat_of_notMem h]
      exact ih.append (List.Sublist.refl [x])

/-- Erasing repetitions leaves a list without any. -/
theorem nodup_eraseDups (xs : List α) : xs.eraseDups.Nodup := by
  induction xs using List.reverseRecOn with
  | nil => exact List.nodup_nil
  | append_singleton xs x ih =>
    by_cases h : x ∈ xs
    · rwa [eraseDups_concat_of_mem h]
    · rw [eraseDups_concat_of_notMem h]
      refine List.nodup_append.mpr ⟨ih, by simp, fun y hy z hz hyz => h ?_⟩
      rw [← List.mem_singleton.mp hz, ← hyz]
      exact List.mem_eraseDups.mp hy

theorem eraseDups_eq_self (h : xs.Nodup) : xs.eraseDups = xs := by
  induction xs using List.reverseRecOn with
  | nil => rfl
  | append_singleton xs x ih =>
    obtain ⟨hxs, -, hx⟩ := List.nodup_append.mp h
    have hnew : x ∉ xs := fun hmem => hx x hmem x (List.mem_singleton_self x) rfl
    rw [eraseDups_concat_of_notMem hnew, ih hxs]

end FirstOccurrences

variable [BEq κ] [Hashable κ] [DecidableEq α] {key : α → κ}

namespace Consolidation

/-- The state of a consolidation after the items of `done`: the items kept are the first occurrences
in `done`, and the positions recorded are those of the items kept, each under the key of its
item. -/
structure Covers (key : α → κ) (c : Consolidation α κ) (done : List α) : Prop where
  items : c.items.toList = done.eraseDups
  positions : ∀ k i, c.positions[k]? = some i ↔ ∃ x, c.items[i]? = some x ∧ key x = k

variable {c c' : Consolidation α κ} {done : List α} {item : α}

theorem Covers.mem_items (h : Covers key c done) (x : α) : x ∈ c.items.toList ↔ x ∈ done := by
  rw [h.items, List.mem_eraseDups]

theorem Covers.mem_of_getElem? (h : Covers key c done) {i : Nat} {x : α}
    (hx : c.items[i]? = some x) : x ∈ done :=
  (h.mem_items x).mp (Array.mem_toList_iff.mpr (Array.mem_of_getElem? hx))

/-- Every item is kept, at the position recorded for its key. -/
theorem Covers.exists_position (h : Covers key c done) {x : α} (hx : x ∈ done) :
    ∃ i, c.items[i]? = some x ∧ c.positions[key x]? = some i := by
  obtain ⟨i, hi⟩ := List.mem_iff_getElem?.mp ((h.mem_items x).mpr hx)
  rw [Array.getElem?_toList] at hi
  exact ⟨i, hi, (h.positions (key x) i).mpr ⟨x, hi, rfl⟩⟩

theorem Covers.functional (h : Covers key c done) : Functional key done := by
  intro x hx y hy hxy
  obtain ⟨i, hi, hpos⟩ := h.exists_position hx
  obtain ⟨j, hj, hpos'⟩ := h.exists_position hy
  rw [hxy] at hpos
  -- both stand at the one position of their key
  obtain rfl : i = j := Option.some.inj (hpos.symm.trans hpos')
  exact Option.some.inj (hi.symm.trans hj)

/-- No key is kept twice. -/
theorem Covers.nodup (h : Covers key c done) : (c.items.toList.map key).Nodup := by
  refine List.Nodup.map_on (fun x hx y hy => ?_) (h.items ▸ nodup_eraseDups done)
  exact h.functional x ((h.mem_items x).mp hx) y ((h.mem_items y).mp hy)

/-- An item is refused only if an earlier one has its key and differs from it. -/
theorem Covers.add_eq_ok (h : Covers key c done)
    (hf : Functional key (done ++ [item])) : ∃ c', c.add key item = .ok c' := by
  unfold Consolidation.add
  split
  · next i hi =>
    obtain ⟨kept, hkept, hkey⟩ := (h.positions _ _).mp hi
    have hin := h.mem_of_getElem? hkept
    have : kept = item := hf kept (by simp [hin]) item (by simp) hkey
    exact ⟨c, by rw [if_pos (this ▸ hkept)]⟩
  · exact ⟨_, rfl⟩

theorem Covers.add_eq_error (h : Covers key c done) {refused : α}
    (ha : c.add key item = .error refused) :
    refused = item ∧ ∃ kept ∈ done, kept ≠ item ∧ key kept = key item := by
  unfold Consolidation.add at ha
  split at ha
  · next i hi =>
    split_ifs at ha with hitem
    cases ha
    obtain ⟨kept, hkept, hkey⟩ := (h.positions _ _).mp hi
    exact ⟨rfl, kept, h.mem_of_getElem? hkept, fun heq => hitem (heq ▸ hkept), hkey⟩
  · cases ha

variable [LawfulBEq κ]

theorem covers_empty (key : α → κ) : Covers key (empty : Consolidation α κ) [] where
  items := by simp [empty]
  positions k i := by simp [empty]

/-- A new key is recorded with the position of its item, the end of the items kept. -/
theorem Covers.push (h : Covers key c done) (hnew : ∀ x ∈ done, key x ≠ key item) :
    Covers key ⟨c.items.push item, c.positions.insert (key item) c.items.size⟩
      (done ++ [item]) where
  items := by
    rw [Array.toList_push, h.items, eraseDups_concat_of_notMem fun hin => hnew item hin rfl]
  positions k i := by
    rw [Std.HashMap.getElem?_insert, Array.getElem?_push]
    by_cases hk : key item = k
    · rw [if_pos (by simpa using hk)]
      by_cases hi : i = c.items.size
      · simp [hi, hk]
      · rw [if_neg hi]
        refine ⟨fun heq => absurd (Option.some.inj heq).symm hi, fun ⟨x, hx, hxk⟩ => ?_⟩
        exact absurd (hxk.trans hk.symm) (hnew x (h.mem_of_getElem? hx))
    · rw [if_neg (by simpa using hk), h.positions]
      by_cases hi : i = c.items.size
      · simp [hi, hk]
      · rw [if_neg hi]

/-- One more item keeps the relation between state and items. -/
theorem Covers.add (h : Covers key c done) (ha : c.add key item = .ok c') :
    Covers key c' (done ++ [item]) := by
  unfold Consolidation.add at ha
  split at ha
  · next i hi =>
    split_ifs at ha with hitem
    cases ha
    refine ⟨?_, h.positions⟩
    rw [h.items, eraseDups_concat_of_mem (h.mem_of_getElem? hitem)]
  · next hk =>
    cases ha
    refine h.push fun x hx hkey => ?_
    obtain ⟨i, -, hi⟩ := h.exists_position hx
    rw [hkey, hk] at hi
    cases hi

theorem Covers.foldlM (h : Covers key c done) (items : List α)
    (hf : items.foldlM (Consolidation.add key) c = .ok c') : Covers key c' (done ++ items) := by
  induction items generalizing c done with
  | nil =>
    cases hf
    simpa using h
  | cons item items ih =>
    rw [List.foldlM_cons] at hf
    cases ha : c.add key item with
    | error e => rw [ha] at hf; cases hf
    | ok d =>
      rw [ha] at hf
      simpa using ih (h.add ha) hf

theorem Covers.foldlM_eq_ok (h : Covers key c done) (items : List α)
    (hf : Functional key (done ++ items)) :
    ∃ c', items.foldlM (Consolidation.add key) c = .ok c' := by
  induction items generalizing c done with
  | nil => exact ⟨c, rfl⟩
  | cons item items ih =>
    have hone : Functional key (done ++ [item]) := hf.mono (by simp; tauto)
    obtain ⟨d, ha⟩ := h.add_eq_ok hone
    obtain ⟨c', hc'⟩ := ih (h.add ha) (by simpa using hf)
    refine ⟨c', ?_⟩
    rw [List.foldlM_cons, ha]
    exact hc'

/-- The item refused is the first that differs from an earlier one with its key. -/
theorem Covers.foldlM_eq_error (h : Covers key c done) (items : List α) {refused : α}
    (hf : items.foldlM (Consolidation.add key) c = .error refused) :
    ∃ before after, items = before ++ refused :: after ∧ Functional key (done ++ before) ∧
      ∃ kept ∈ done ++ before, kept ≠ refused ∧ key kept = key refused := by
  induction items generalizing c done with
  | nil => cases hf
  | cons item items ih =>
    rw [List.foldlM_cons] at hf
    cases ha : c.add key item with
    | error e =>
      rw [ha] at hf
      cases hf
      obtain ⟨rfl, kept, hin, hne, hkey⟩ := h.add_eq_error ha
      exact ⟨[], items, rfl, by simpa using h.functional, kept, by simpa using hin, hne, hkey⟩
    | ok d =>
      rw [ha] at hf
      obtain ⟨before, after, rfl, hfun, kept, hin, hne⟩ := ih (h.add ha) hf
      refine ⟨item :: before, after, rfl, ?_, kept, ?_, hne⟩
      · simpa using hfun
      · simpa using hin

end Consolidation

variable [LawfulBEq κ] {items kept : List α}

theorem covers_of_consolidate (h : consolidate key items = .ok kept) :
    ∃ c : Consolidation α κ, c.Covers key items ∧ c.items.toList = kept := by
  unfold consolidate at h
  cases hf : items.foldlM (Consolidation.add key) Consolidation.empty with
  | error e => rw [hf] at h; cases h
  | ok c =>
    rw [hf] at h
    cases h
    exact ⟨c, by simpa using (Consolidation.covers_empty key).foldlM items hf, rfl⟩

theorem functional_of_consolidate (h : consolidate key items = .ok kept) :
    Functional key items := by
  obtain ⟨c, hc, -⟩ := covers_of_consolidate h
  exact hc.functional

/-- The items kept are those of the list. -/
theorem mem_of_consolidate (h : consolidate key items = .ok kept) (x : α) :
    x ∈ kept ↔ x ∈ items := by
  obtain ⟨c, hc, rfl⟩ := covers_of_consolidate h
  exact hc.mem_items x

/-- No key is kept twice. -/
theorem nodup_of_consolidate (h : consolidate key items = .ok kept) : (kept.map key).Nodup := by
  obtain ⟨c, hc, rfl⟩ := covers_of_consolidate h
  exact hc.nodup

theorem consolidate_eq_ok (h : Functional key items) :
    ∃ kept, consolidate key items = .ok kept := by
  obtain ⟨c, hc⟩ := (Consolidation.covers_empty key).foldlM_eq_ok items (by simpa using h)
  exact ⟨c.items.toList, by unfold consolidate; rw [hc]; rfl⟩

/-- **The items kept are the first occurrences**, and there is no other condition than one item for
each key. -/
theorem consolidate_eq_ok_iff :
    consolidate key items = .ok kept ↔ Functional key items ∧ kept = items.eraseDups := by
  have heq : ∀ {kept}, consolidate key items = .ok kept → kept = items.eraseDups := by
    intro kept h
    obtain ⟨c, hc, rfl⟩ := covers_of_consolidate h
    exact hc.items
  constructor
  · intro h
    exact ⟨functional_of_consolidate h, heq h⟩
  · rintro ⟨hf, rfl⟩
    obtain ⟨kept, h⟩ := consolidate_eq_ok hf
    rw [h, heq h]

/-- **The item refused is the first that differs from an earlier one with its key.** -/
theorem cut_of_consolidate_eq_error {refused : α} (h : consolidate key items = .error refused) :
    ∃ before after, items = before ++ refused :: after ∧ Functional key before ∧
      ∃ x ∈ before, x ≠ refused ∧ key x = key refused := by
  unfold consolidate at h
  cases hf : items.foldlM (Consolidation.add key) Consolidation.empty with
  | ok c => rw [hf] at h; cases h
  | error e =>
    rw [hf] at h
    cases h
    simpa using (Consolidation.covers_empty key).foldlM_eq_error items hf

/-- An item is refused because a different item of the list has its key. -/
theorem consolidate_eq_error {refused : α} (h : consolidate key items = .error refused) :
    refused ∈ items ∧ ∃ x ∈ items, x ≠ refused ∧ key x = key refused := by
  obtain ⟨before, after, rfl, -, x, hx, hne⟩ := cut_of_consolidate_eq_error h
  exact ⟨by simp, x, by simp [hx], hne⟩

end OneTape
