/-!
# Sorted lists without repetition

A finite set is presented as the list of its members in increasing order, each once. The result of
`sortedSet` therefore depends on the members of its argument only, not on their order or number.
-/

namespace OneTape

variable {α : Type} [Ord α]

/-- Keeps the last of each run of neighbours that compare equal. -/
def dropRepeats : List α → List α
  | [] => []
  | [a] => [a]
  | a :: b :: rest =>
    if (compare a b).isEq then dropRepeats (b :: rest) else a :: dropRepeats (b :: rest)

/-- The members of a list in increasing order, each once. -/
def sortedSet (xs : List α) : List α :=
  dropRepeats (xs.mergeSort fun a b => (compare a b).isLE)

end OneTape
