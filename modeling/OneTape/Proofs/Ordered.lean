import Mathlib.Data.List.Sort
import Mathlib.Tactic.Common
import OneTape.Ordered
import OneTape.State

/-!
# Members of sorted lists

`sortedSet` keeps the members of its argument. This needs that two values which compare as equal are
equal, so the orders of symbols, phases and states are shown to have this property first. They are
also transitive, and so the result depends on the members only.

Results:
* instances of `Std.LawfulEqOrd` and `Std.TransOrd` for `Symbol`, `Phase` and `State`;
* `mem_sortedSet`: `sortedSet xs` has the members of `xs`;
* `eq_sortedSet_iff`, `sortedSet_congr`: a sorted list is known by its members.
-/

namespace OneTape

open Std

/-! ## Orders in which equal means equal -/

theorem compare_self {α : Type} [Ord α] [LawfulEqOrd α] (a : α) : compare a a = .eq :=
  ReflCmp.compare_self

theorem eq_of_compare {α : Type} [Ord α] [LawfulEqOrd α] {a b : α}
    (h : compare a b = .eq) : a = b :=
  LawfulEqCmp.eq_of_compare h

instance : LawfulEqOrd Symbol where
  compare_self {a} := compare_self a.text
  eq_of_compare {a b} h := by
    cases a; cases b
    exact congrArg Symbol.mk (eq_of_compare h)

instance : LawfulEqOrd Side where
  compare_self {a} := compare_self a.rank
  eq_of_compare {a b} h := by
    have := eq_of_compare (a := a.rank) (b := b.rank) h
    cases a <;> cases b <;> simp_all [Side.rank]

instance : LawfulEqOrd InjectionStep where
  compare_self {a} := compare_self a.rank
  eq_of_compare {a b} h := by
    have := eq_of_compare (a := a.rank) (b := b.rank) h
    cases a <;> cases b <;> simp_all [InjectionStep.rank]

instance : LawfulEqOrd ExtensionStep where
  compare_self {a} := by
    cases a with
    | shift c => exact compare_self c
    | _ => rfl
  eq_of_compare {a b} h := by
    cases a <;> cases b <;> simp_all [compare, ExtensionStep.order]
    exact eq_of_compare (α := Symbol) h

theorem Phase.order_self (p : Phase) : p.order p = .eq := by
  induction p with
  | discover | complete => rfl
  | actor n | active n => exact compare_self n
  | extend q side step ih =>
    simp only [Phase.order, ih, compare_self, Ordering.then]
  | inject step => exact compare_self step

theorem Phase.eq_of_order {p q : Phase} (h : p.order q = .eq) : p = q := by
  induction p generalizing q with
  | discover =>
    cases q with
    | discover => rfl
    | _ => simp [Phase.order, Phase.rank] at h
  | complete =>
    cases q with
    | complete => rfl
    | _ => simp [Phase.order, Phase.rank] at h
  | actor m =>
    cases q with
    | actor n => exact congrArg Phase.actor (eq_of_compare h)
    | _ => simp [Phase.order, Phase.rank] at h
  | active m =>
    cases q with
    | active n => exact congrArg Phase.active (eq_of_compare h)
    | _ => simp [Phase.order, Phase.rank] at h
  | inject step =>
    cases q with
    | inject step' => exact congrArg Phase.inject (eq_of_compare h)
    | _ => simp [Phase.order, Phase.rank] at h
  | extend p side step ih =>
    cases q with
    | extend q side' step' =>
      simp only [Phase.order, Ordering.then_eq_eq] at h
      rw [ih h.1, eq_of_compare h.2.1, eq_of_compare h.2.2]
    | _ => simp [Phase.order, Phase.rank] at h

instance : LawfulEqOrd Phase where
  compare_self {p} := Phase.order_self p
  eq_of_compare h := Phase.eq_of_order h

instance : LawfulEqOrd State where
  compare_self {s} := by
    change State.order s s = .eq
    simp only [State.order, compare_self, Ordering.then]
  eq_of_compare {s t} h := by
    change State.order s t = .eq at h
    simp only [State.order, Ordering.then_eq_eq] at h
    cases s; cases t
    simp only [State.mk.injEq]
    exact ⟨eq_of_compare h.1, eq_of_compare h.2.1, eq_of_compare h.2.2⟩

/-! ## Orders that are transitive -/

theorem compare_swap {α : Type} [Ord α] [OrientedOrd α] (a b : α) :
    compare a b = (compare b a).swap :=
  OrientedCmp.eq_swap

theorem compare_trans {α : Type} [Ord α] [TransOrd α] {a b c : α} (hab : (compare a b).isLE)
    (hbc : (compare b c).isLE) : (compare a c).isLE :=
  TransCmp.isLE_trans hab hbc

instance : TransOrd Symbol := inferInstanceAs (TransCmp (compareOn Symbol.text))

instance : TransOrd Side := inferInstanceAs (TransCmp (compareOn Side.rank))

instance : TransOrd InjectionStep := inferInstanceAs (TransCmp (compareOn InjectionStep.rank))

instance : TransOrd ExtensionStep where
  eq_swap {a b} := by
    cases a with
    | shift c =>
      cases b with
      | shift d => exact compare_swap c d
      | _ => rfl
    | _ => cases b <;> rfl
  isLE_trans {a b c} hab hbc := by
    cases a <;> cases b <;> cases c <;> simp_all [compare, ExtensionStep.order]
    exact compare_trans (α := Symbol) hab hbc

namespace Phase

variable {p q r : Phase}

theorem order_swap (p q : Phase) : p.order q = (q.order p).swap := by
  induction p generalizing q with
  | discover | complete => cases q <;> rfl
  | actor m =>
    cases q with
    | actor n => exact compare_swap m n
    | _ => rfl
  | active m =>
    cases q with
    | active n => exact compare_swap m n
    | _ => rfl
  | inject step =>
    cases q with
    | inject step' => exact compare_swap step step'
    | _ => rfl
  | extend p side step ih =>
    cases q with
    | extend q side' step' =>
      simp only [order, Ordering.swap_then, ← ih, ← compare_swap]
    | _ => rfl

instance : OrientedCmp order := ⟨order_swap _ _⟩

/-- Phases of different kinds are ordered by kind. -/
theorem order_of_rank_ne (h : p.rank ≠ q.rank) : p.order q = compare p.rank q.rank := by
  cases p <;> cases q <;> first | rfl | exact absurd rfl h

theorem rank_le_of_order (h : (p.order q).isLE) : p.rank ≤ q.rank := by
  by_contra hlt
  rw [order_of_rank_ne (by omega), Nat.isLE_compare] at h
  exact hlt h

theorem order_trans_of_rank_ne (hpq : (p.order q).isLE) (hqr : (q.order r).isLE)
    (h : p.rank ≠ q.rank ∨ q.rank ≠ r.rank) : (p.order r).isLE := by
  have hpq := rank_le_of_order hpq
  have hqr := rank_le_of_order hqr
  rw [order_of_rank_ne (by omega), Nat.isLE_compare]
  omega

/-- If all three are of the same kind, their contents decide. -/
theorem order_trans (hpq : (p.order q).isLE) (hqr : (q.order r).isLE) : (p.order r).isLE := by
  induction p generalizing q r with
  | discover => cases r <;> rfl
  | complete =>
    have hrank := Nat.le_trans (rank_le_of_order hpq) (rank_le_of_order hqr)
    rw [show complete.order r = compare complete.rank r.rank by cases r <;> rfl, Nat.isLE_compare]
    exact hrank
  | actor m =>
    cases q with
    | actor n =>
      cases r with
      | actor l => exact compare_trans (α := Nat) hpq hqr
      | _ => exact order_trans_of_rank_ne hpq hqr (.inr nofun)
    | _ => exact order_trans_of_rank_ne hpq hqr (.inl nofun)
  | active m =>
    cases q with
    | active n =>
      cases r with
      | active l => exact compare_trans (α := Nat) hpq hqr
      | _ => exact order_trans_of_rank_ne hpq hqr (.inr nofun)
    | _ => exact order_trans_of_rank_ne hpq hqr (.inl nofun)
  | inject step =>
    cases q with
    | inject step' =>
      cases r with
      | inject step'' => exact compare_trans (α := InjectionStep) hpq hqr
      | _ => exact order_trans_of_rank_ne hpq hqr (.inr nofun)
    | _ => exact order_trans_of_rank_ne hpq hqr (.inl nofun)
  | extend p side step ih =>
    cases q with
    | extend q side' step' =>
      cases r with
      | extend r side'' step'' =>
        rw [order, Ordering.isLE_then_iff_and] at hpq hqr ⊢
        refine ⟨ih hpq.1 hqr.1, Classical.or_iff_not_imp_left.mpr fun hne => ?_⟩
        -- the owners' phases are equal, so the rest decides
        have hpr : p = r :=
          eq_of_order ((Ordering.isLE_iff_eq_lt_or_eq_eq.mp (ih hpq.1 hqr.1)).resolve_left hne)
        subst hpr
        obtain rfl : p = q := eq_of_order (OrientedCmp.isLE_antisymm hpq.1 hqr.1)
        exact @TransCmp.isLE_trans _ (compareLex (compareOn Prod.fst) (compareOn Prod.snd)) _
          (side, step) (side', step') (side'', step'') (hpq.2.resolve_left hne)
          (hqr.2.resolve_left hne)
      | _ => exact order_trans_of_rank_ne hpq hqr (.inr nofun)
    | _ => exact order_trans_of_rank_ne hpq hqr (.inl nofun)

end Phase

instance : TransOrd Phase where
  eq_swap := Phase.order_swap _ _
  isLE_trans := Phase.order_trans

instance : TransOrd State :=
  inferInstanceAs (TransCmp (compareLex (compareOn State.base)
    (compareLex (compareOn State.heads) (compareOn State.phase))))

/-! ## Members -/

variable {α : Type} [Ord α] [LawfulEqOrd α] {a : α} {xs : List α}

theorem mem_dropRepeats : a ∈ dropRepeats xs ↔ a ∈ xs := by
  induction xs using dropRepeats.induct with
  | case1 => rfl
  | case2 b => rfl
  | case3 b c rest h ih =>
    have hbc : b = c := eq_of_compare (Ordering.isEq_iff_eq_eq.mp h)
    rw [dropRepeats, if_pos h, ih, hbc]
    simp
  | case4 b c rest h ih =>
    rw [dropRepeats, if_neg h, List.mem_cons, ih, List.mem_cons (a := a) (b := b)]

/-- Sorting and dropping repetitions keeps the members. -/
@[simp] theorem mem_sortedSet : a ∈ sortedSet xs ↔ a ∈ xs := by
  rw [sortedSet, mem_dropRepeats, List.mem_mergeSort]

variable [TransOrd α] {ys : List α}

/-- Dropping repetitions from a sorted list leaves a strictly increasing one. -/
theorem pairwise_dropRepeats (h : xs.Pairwise fun a b => (compare a b).isLE) :
    (dropRepeats xs).Pairwise fun a b => compare a b = .lt := by
  induction xs using dropRepeats.induct with
  | case1 => exact .nil
  | case2 b => exact List.pairwise_singleton _ b
  | case3 b c rest heq ih =>
    rw [dropRepeats, if_pos heq]
    exact ih h.tail
  | case4 b c rest hne ih =>
    rw [dropRepeats, if_neg hne]
    obtain ⟨hb, htail⟩ := List.pairwise_cons.mp h
    have hlt : compare b c = .lt := by
      rcases Ordering.isLE_iff_eq_lt_or_eq_eq.mp (hb c List.mem_cons_self) with hlt | heq
      · exact hlt
      · exact absurd (Ordering.isEq_iff_eq_eq.mpr heq) hne
    refine List.pairwise_cons.mpr ⟨fun d hd => ?_, ih htail⟩
    rcases List.mem_cons.mp (mem_dropRepeats.mp hd) with rfl | hd
    · exact hlt
    · exact TransCmp.lt_of_lt_of_isLE hlt ((List.pairwise_cons.mp htail).1 d hd)

theorem pairwise_sortedSet (xs : List α) :
    (sortedSet xs).Pairwise fun a b => compare a b = .lt := by
  refine pairwise_dropRepeats (List.pairwise_mergeSort (fun _ _ _ => TransCmp.isLE_trans)
    (fun a b => ?_) xs)
  rw [compare_swap b a]
  cases compare a b <;> rfl

/-- A strictly increasing list is the sorted list of its members. -/
theorem eq_sortedSet_iff : ys = sortedSet xs ↔
    (ys.Pairwise fun a b => compare a b = .lt) ∧ ∀ a, a ∈ ys ↔ a ∈ xs := by
  have hirrefl : Std.Irrefl fun a b : α => compare a b = .lt := ⟨fun a => by simp⟩
  have hantisymm : Std.Antisymm fun a b : α => compare a b = .lt := by
    constructor
    intro a b hab hba
    rw [compare_swap, hab] at hba
    cases hba
  constructor
  · rintro rfl
    exact ⟨pairwise_sortedSet xs, fun a => mem_sortedSet⟩
  · rintro ⟨hys, hmem⟩
    exact hys.eq_of_mem_iff (pairwise_sortedSet xs) (by simpa using hmem)

/-- **A sorted list depends on the members only.** -/
theorem sortedSet_congr (h : ∀ a, a ∈ xs ↔ a ∈ ys) : sortedSet xs = sortedSet ys :=
  eq_sortedSet_iff.mpr ⟨pairwise_sortedSet xs, fun a => mem_sortedSet.trans (h a)⟩

end OneTape
