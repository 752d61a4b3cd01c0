import Std.Data.HashMap

/-!
# One item for each key

Lists of rules, of rows and of named states must not hold two different items with the same key.
`consolidate` keeps the first of each group of equal items, in order, and fails on the first item
that differs from an earlier item with the same key.
-/

namespace OneTape

variable {α κ : Type} [DecidableEq α] [BEq κ] [Hashable κ]

/-- The items kept so far, and where the item kept for a key stands among them. -/
structure Consolidation (α κ : Type) [BEq κ] [Hashable κ] where
  items : Array α
  positions : Std.HashMap κ Nat

namespace Consolidation

/-- Nothing has been kept. -/
def empty : Consolidation α κ := ⟨#[], ∅⟩

/-- Takes one more item, or gives back an item that differs from the one kept for its key. -/
def add (key : α → κ) (c : Consolidation α κ) (item : α) : Except α (Consolidation α κ) :=
  match c.positions[key item]? with
  | some i => if c.items[i]? = some item then .ok c else .error item
  | none => .ok ⟨c.items.push item, c.positions.insert (key item) c.items.size⟩

end Consolidation

/-- The first of each group of equal items, in order, provided that no two different items have the
same key; otherwise the first item that differs from an earlier one with its key. -/
def consolidate (key : α → κ) (items : List α) : Except α (List α) :=
  (items.foldlM (Consolidation.add key) Consolidation.empty).map (·.items.toList)

end OneTape
