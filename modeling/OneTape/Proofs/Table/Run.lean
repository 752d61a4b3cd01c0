import Mathlib.Data.List.Induction
import Mathlib.Data.List.Nodup
import Mathlib.Logic.Relation
import Mathlib.Tactic.Common
import OneTape.Proofs.Consolidate
import OneTape.Proofs.Tapes
import OneTape.Table

/-!
# Runs of tables

A table runs on a single tape over its structured states. `Instant.run` makes steps by looking rows
up. `Walks T` relates instants by rows that `T` allows at the position of the head, so that a path
of `Walks T` may be restricted both in its rows and in what they do at the left end of the tape.

An instant is written around its head: `ahead s u v` has the head on the first cell of `v`,
`behind s u v` on the last cell of `u`.

Results:
* `Walks.right`, `Walks.right_end`, `Walks.left`, `Walks.stay`: one step.
* `walks_map`, `walks_over`, `walks_back`: walks over a word.
* `Walks.step_eq`: a table without conflicting rows takes the step that a walk has.
* `run_of_walks`: a table without conflicting rows runs along a walk.
-/

namespace OneTape

namespace Table

/-- A state of a table with the cells of the single tape and the position on it. -/
structure Instant where
  state : State
  cells : List Symbol
  position : Nat
deriving DecidableEq

/-- The row of a table for a state and a symbol. -/
def rowFor? (rows : List Row) (s : State) (c : Symbol) : Option Row :=
  rows.find? fun r => r.domain == (s, c)

theorem functional_of_nodup {rows : List Row} (hd : (rows.map Row.domain).Nodup) :
    Functional Row.domain rows :=
  fun _ hr _ hr' => List.inj_on_of_nodup_map hd hr hr'

/-- If rows do not conflict, the row for a state and a symbol is the one that applies. -/
theorem rowFor?_of_functional {rows : List Row} (hf : Functional Row.domain rows) {s : State}
    {a : Symbol} {r : Row} : rowFor? rows s a = some r ↔ r ∈ rows ∧ r.state = s ∧ r.read = a := by
  constructor
  · intro h
    have hdom : r.domain = (s, a) := by simpa using List.find?_some h
    exact ⟨List.mem_of_find?_eq_some h, congrArg Prod.fst hdom, congrArg Prod.snd hdom⟩
  · rintro ⟨hr, rfl, rfl⟩
    cases hfind : rowFor? rows r.state r.read with
    | none =>
      have := List.find?_eq_none.mp hfind r hr
      simp [Row.domain] at this
    | some r' =>
      have hdom : r'.domain = r.domain := by simpa [Row.domain] using List.find?_some hfind
      exact congrArg some (hf r' (List.mem_of_find?_eq_some hfind) r hr hdom)

/-- In a deterministic table, the row for a state and a symbol is the one that applies. -/
theorem rowFor?_eq_some {rows : List Row} (hd : (rows.map Row.domain).Nodup) {s : State}
    {a : Symbol} {r : Row} : rowFor? rows s a = some r ↔ r ∈ rows ∧ r.state = s ∧ r.read = a :=
  rowFor?_of_functional (functional_of_nodup hd)

namespace Instant

/-- The symbol under the head. -/
def symbol (x : Instant) : Symbol := x.cells[x.position]?.getD Symbol.blank

/-- What a row makes of an instant. -/
def apply (x : Instant) (r : Row) : Instant :=
  let (cells, position) :=
    Tapes.act r.write r.move (Tapes.padTo (x.position + 1) x.cells) x.position
  ⟨r.next, cells, position⟩

/-- Makes a step, if there is a row for it. -/
def step (rows : List Row) (x : Instant) : Option Instant :=
  (rowFor? rows x.state x.symbol).map x.apply

/-- Makes a number of steps, if there are rows for all of them. -/
def run (rows : List Row) : Nat → Instant → Option Instant
  | 0, x => some x
  | n + 1, x => (x.step rows).bind (run rows n)

/-- The instant with the head on the first cell of `v`. -/
def ahead (s : State) (u v : List Symbol) : Instant := ⟨s, u ++ v, u.length⟩

/-- The instant with the head on the last cell of `u`. -/
def behind (s : State) (u v : List Symbol) : Instant := ⟨s, u ++ v, u.length - 1⟩

theorem behind_concat (s : State) (u v : List Symbol) (c : Symbol) :
    behind s (u ++ [c]) v = ahead s u (c :: v) := by
  simp [behind, ahead]

@[simp] theorem symbol_ahead (s : State) (u v : List Symbol) (c : Symbol) :
    (ahead s u (c :: v)).symbol = c := by
  simp [symbol, ahead]

/-- Padding and writing under the head. -/
theorem set_padTo (u v : List Symbol) (c w : Symbol) :
    (Tapes.padTo (u.length + 1) (u ++ c :: v)).set u.length w = u ++ w :: v := by
  rw [Tapes.padTo_eq_self (by simp)]
  simp

theorem apply_stay (s s' : State) (u v : List Symbol) (c w : Symbol) :
    (ahead s u (c :: v)).apply ⟨s, c, s', w, .stay⟩ = ahead s' u (w :: v) := by
  simp only [apply, ahead, Tapes.act, set_padTo]

theorem apply_left (s s' : State) {u : List Symbol} (v : List Symbol) (c w : Symbol)
    (h : u ≠ []) :
    (ahead s u (c :: v)).apply ⟨s, c, s', w, .left⟩ = behind s' u (w :: v) := by
  have hpos : u.length ≠ 0 := by simpa using h
  simp only [apply, ahead, behind, Tapes.act, set_padTo, if_neg hpos]

theorem apply_right (s s' : State) (u : List Symbol) {v : List Symbol} (c w : Symbol)
    (h : v ≠ []) :
    (ahead s u (c :: v)).apply ⟨s, c, s', w, .right⟩ = ahead s' (u ++ [w]) v := by
  have hlen : u.length + 2 ≤ (u ++ w :: v).length := by
    have := List.length_pos_iff.mpr h
    simp only [List.length_append, List.length_cons]
    omega
  simp [apply, ahead, Tapes.act, set_padTo, Tapes.padTo_eq_self hlen]

/-- A move past the end of the tape appends a blank. -/
theorem apply_right_end (s s' : State) (u : List Symbol) (c w : Symbol) :
    (ahead s u [c]).apply ⟨s, c, s', w, .right⟩ = ahead s' (u ++ [w]) [Symbol.blank] := by
  simp [apply, ahead, Tapes.act, Tapes.padTo]

end Instant

/-! ## Walks -/

open Instant Relation

/-- A step by a row that `T` allows at the position of the head. -/
def Walks (T : Nat → Row → Prop) (x y : Instant) : Prop :=
  ∃ r, T x.position r ∧ r.domain = (x.state, x.symbol) ∧ y = x.apply r

variable {T : Nat → Row → Prop} {s s' : State} {u v : List Symbol} {c w : Symbol}

namespace Walks

theorem stay (h : T u.length ⟨s, c, s', w, .stay⟩) :
    Walks T (ahead s u (c :: v)) (ahead s' u (w :: v)) :=
  ⟨_, h, Prod.ext rfl (symbol_ahead ..).symm, (apply_stay ..).symm⟩

theorem left (hne : u ≠ []) (h : T u.length ⟨s, c, s', w, .left⟩) :
    Walks T (ahead s u (c :: v)) (behind s' u (w :: v)) :=
  ⟨_, h, Prod.ext rfl (symbol_ahead ..).symm, (apply_left _ _ _ _ _ hne).symm⟩

theorem right (hne : v ≠ []) (h : T u.length ⟨s, c, s', w, .right⟩) :
    Walks T (ahead s u (c :: v)) (ahead s' (u ++ [w]) v) :=
  ⟨_, h, Prod.ext rfl (symbol_ahead ..).symm, (apply_right _ _ _ _ _ hne).symm⟩

theorem right_end (h : T u.length ⟨s, c, s', w, .right⟩) :
    Walks T (ahead s u [c]) (ahead s' (u ++ [w]) [Symbol.blank]) :=
  ⟨_, h, Prod.ext rfl (symbol_ahead ..).symm, (apply_right_end ..).symm⟩

/-- In a table without conflicting rows a walk is the step of the table. -/
theorem step_eq {rows : List Row} (hf : Functional Row.domain rows)
    (hT : ∀ n r, T n r → r ∈ rows) {x y : Instant} (h : Walks T x y) : x.step rows = some y := by
  obtain ⟨r, hr, hd, rfl⟩ := h
  have hrow : rowFor? rows x.state x.symbol = some r :=
    (rowFor?_of_functional hf).mpr ⟨hT _ r hr, congrArg Prod.fst hd, congrArg Prod.snd hd⟩
  rw [step, hrow]
  rfl

end Walks

/-- The head walks right over a word, each time by a row that stays in the same state. -/
theorem walks_map {t : List Symbol} {f : Symbol → Symbol} (hne : v ≠ [])
    (h : ∀ n, u.length ≤ n → ∀ c ∈ t, T n ⟨s, c, s, f c, .right⟩) :
    ReflTransGen (Walks T) (ahead s u (t ++ v)) (ahead s (u ++ t.map f) v) := by
  induction t generalizing u with
  | nil => simpa using ReflTransGen.refl
  | cons c t ih =>
    have hstep : Walks T (ahead s u (c :: (t ++ v))) (ahead s (u ++ [f c]) (t ++ v)) :=
      Walks.right (by simp [hne]) (h _ (Nat.le_refl _) c List.mem_cons_self)
    have hrest := ih (u := u ++ [f c]) fun n hn c' hc' =>
      h n (by simp at hn; omega) c' (List.mem_cons_of_mem c hc')
    simpa using ReflTransGen.head hstep hrest

/-- The head walks right over a word, each time by a row that leaves the cell as it is. -/
theorem walks_over {t : List Symbol} (hne : v ≠ [])
    (h : ∀ n, u.length ≤ n → ∀ c ∈ t, T n ⟨s, c, s, c, .right⟩) :
    ReflTransGen (Walks T) (ahead s u (t ++ v)) (ahead s (u ++ t) v) := by
  simpa using walks_map (f := id) hne h

/-- The head walks left over a word to the cell in front of it, each time by a row that leaves the
cell as it is. -/
theorem walks_back {t : List Symbol} (hne : u ≠ [])
    (h : ∀ n, u.length ≤ n → ∀ c ∈ t, T n ⟨s, c, s, c, .left⟩) :
    ReflTransGen (Walks T) (behind s (u ++ t) v) (behind s u (t ++ v)) := by
  induction t using List.reverseRecOn generalizing v with
  | nil => simpa using ReflTransGen.refl
  | append_singleton t c ih =>
    have hstep : Walks T (ahead s (u ++ t) (c :: v))
        (behind s (u ++ t) (c :: v)) :=
      Walks.left (by simp [hne]) (h _ (by simp) c (by simp))
    have hrest := ih (v := c :: v) fun n hn c' hc' => h n hn c' (by simp [hc'])
    rw [← List.append_assoc, behind_concat]
    simpa using ReflTransGen.head hstep hrest

/-- **A table without conflicting rows runs along a walk**, and every instant before its end has a
row of the walk. -/
theorem run_of_walks {rows : List Row} (hf : Functional Row.domain rows)
    (hT : ∀ n r, T n r → r ∈ rows) {x y : Instant} (h : ReflTransGen (Walks T) x y) :
    ∃ n, x.run rows n = some y ∧
      ∀ j < n, ∃ z r, x.run rows j = some z ∧ T z.position r ∧ r.state = z.state := by
  induction h using ReflTransGen.head_induction_on with
  | refl => exact ⟨0, rfl, nofun⟩
  | @head x z hstep _ ih =>
    obtain ⟨n, hrun, hvisit⟩ := ih
    have hnext : ∀ j, x.run rows (j + 1) = z.run rows j := by
      intro j
      rw [run, hstep.step_eq hf hT]
      rfl
    refine ⟨n + 1, (hnext n).trans hrun, fun j hj => ?_⟩
    cases j with
    | zero =>
      obtain ⟨r, hr, hd, -⟩ := hstep
      exact ⟨x, r, rfl, hr, congrArg Prod.fst hd⟩
    | succ j =>
      rw [hnext j]
      exact hvisit j (by omega)

end Table
end OneTape
