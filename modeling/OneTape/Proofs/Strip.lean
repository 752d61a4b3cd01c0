import OneTape.Proofs.Alphabet
import OneTape.Proofs.Tapes

/-!
# Virtual tapes

A strip is a virtual tape cut at its head. It says which cells the tape has on the single tape, what
a rule does to it, and which tape of a source machine it shows.

Results:
* `Shows.read`, `Shows.act`: a strip that shows a tape reads its symbol, and after the same action
  shows the tape that follows.
-/

namespace OneTape

/-- A virtual tape cut at its head. If nothing is left after the cut, the head is one past the end,
on the boundary that closes the tape. -/
structure Strip where
  before : List Symbol
  after : List Symbol
deriving DecidableEq

namespace Strip

/-- The contents of the tape. -/
def tape (s : Strip) : List Symbol := s.before ++ s.after

/-- The position of the head. -/
def head (s : Strip) : Nat := s.before.length

/-- The symbol that the head reads. -/
def read (s : Strip) : Symbol := s.after.headD Symbol.blank

/-- What stands under the head on the single tape, without its mark. -/
def under (s : Strip) : Symbol := s.after.headD Symbol.boundary

/-- The cells between the head and the next strip. -/
def rest (s : Strip) : List Symbol := (s.after ++ [Symbol.boundary]).tail

/-- The cells of the strip on the single tape, with the boundary that closes it. -/
def cells (a : Alphabet) (s : Strip) : List Symbol := s.before ++ a.marker s.under :: s.rest

/-- The symbols of the strip are those of an alphabet. -/
def Over (a : Alphabet) (s : Strip) : Prop := ∀ c ∈ s.tape, c ∈ a.symbols

/-! ## Actions -/

/-- Writes under the head. A blank past the end is written by writing nothing, unless the head then
goes right. -/
def write (w : Symbol) (d : Direction) (s : Strip) : Strip :=
  match s.after with
  | _ :: rest => ⟨s.before, w :: rest⟩
  | [] => if w = Symbol.blank ∧ d ≠ .right then s else ⟨s.before, [w]⟩

/-- Moves the head. A move off the left end puts a blank in front. -/
def move (d : Direction) (s : Strip) : Strip :=
  match d with
  | .stay => s
  | .right => ⟨s.before ++ s.after.take 1, s.after.drop 1⟩
  | .left => ⟨s.before.dropLast, s.before.getLastD Symbol.blank :: s.after⟩

/-- Writes and moves. -/
def act (w : Symbol) (d : Direction) (s : Strip) : Strip := (s.write w d).move d

/-- The head goes off the left end. -/
def Leaves (d : Direction) (s : Strip) : Prop := d = .left ∧ s.before = []

/-- Writes and moves on each strip for which there is an action. -/
def actAll (actions : List (Symbol × Direction)) (strips : List Strip) : List Strip :=
  List.zipWith (fun p s => s.act p.1 p.2) actions strips

variable {a : Alphabet} {s : Strip} {w : Symbol} {d : Direction}

theorem under_cons_rest (s : Strip) : s.under :: s.rest = s.after ++ [Symbol.boundary] := by
  cases h : s.after <;> simp [under, rest, h]

/-- The last cell of a strip is an edge. -/
theorem cells_eq_concat (a : Alphabet) (s : Strip) : ∃ l e, s.cells a = l ++ [e] ∧ a.IsEdge e := by
  cases h : s.after with
  | nil =>
    exact ⟨s.before, a.boundaryMarker, by simp [cells, under, rest, h, Alphabet.boundaryMarker],
      .inr rfl⟩
  | cons x v =>
    exact ⟨s.before ++ a.marker x :: v, Symbol.boundary, by simp [cells, under, rest, h], .inl rfl⟩

theorem actAll_nil (actions : List (Symbol × Direction)) : actAll actions [] = [] :=
  List.zipWith_nil_right

theorem actAll_concat {actions : List (Symbol × Direction)} {strips : List Strip} {w : Symbol}
    {d : Direction} (h : actions[strips.length]? = some (w, d)) (s : Strip) :
    actAll actions (strips ++ [s]) = actAll actions strips ++ [s.act w d] := by
  induction strips generalizing actions with
  | nil =>
    cases actions with
    | nil => simp at h
    | cons p actions =>
      obtain rfl : p = (w, d) := by simpa using h
      simp [actAll]
  | cons t strips ih =>
    cases actions with
    | nil => simp at h
    | cons p actions =>
      have hrest : actions[strips.length]? = some (w, d) := by simpa using h
      simpa [actAll] using ih hrest

theorem before_write (s : Strip) (w : Symbol) (d : Direction) :
    (s.write w d).before = s.before := by
  unfold write
  split
  · rfl
  · split_ifs <;> rfl

theorem before_move_left (s : Strip) : (s.move .left).before = s.before.dropLast := rfl

theorem under_move_left (s : Strip) : (s.move .left).under = s.before.getLastD Symbol.blank := rfl

theorem rest_move_left (s : Strip) : (s.move .left).rest = s.under :: s.rest := by
  rw [under_cons_rest]
  rfl

/-! ## Symbols -/

namespace Over

theorem before_mem (h : s.Over a) : ∀ c ∈ s.before, c ∈ a.symbols := fun c hc =>
  h c (List.mem_append_left _ hc)

theorem after_mem (h : s.Over a) : ∀ c ∈ s.after, c ∈ a.symbols := fun c hc =>
  h c (List.mem_append_right _ hc)

theorem under_mem (h : s.Over a) : s.under ∈ a.unmarked := by
  cases hs : s.after with
  | nil => simp [under, hs]
  | cons x v => simpa [under, hs] using .inl (h.after_mem x (by simp [hs]))

theorem read_eq_under (ha : a.Proper) (h : s.under ∈ a.symbols) : s.read = s.under := by
  cases hs : s.after with
  | nil => exact absurd (by simpa [under, hs] using h) ha.boundary_notMem
  | cons x v => simp [read, under, hs]

theorem read_eq_blank (ha : a.Proper) (h : s.Over a) (hu : s.under = Symbol.boundary) :
    s.read = Symbol.blank := by
  cases hs : s.after with
  | nil => simp [read, hs]
  | cons x v =>
    have hx : x = Symbol.boundary := by simpa [under, hs] using hu
    exact absurd (hx ▸ h.after_mem x (by simp [hs])) ha.boundary_notMem

theorem rest_mem (h : s.Over a) : ∀ c ∈ s.rest, c ∈ a.unmarked := by
  intro c hc
  have hmem : c ∈ s.after ++ [Symbol.boundary] := List.mem_of_mem_tail hc
  rcases List.mem_append.mp hmem with hc | hc
  · exact Alphabet.mem_unmarked_of_mem_symbols (h.after_mem c hc)
  · exact Alphabet.mem_unmarked.mpr (.inr (List.mem_singleton.mp hc))

theorem cells_mem (h : s.Over a) : ∀ c ∈ s.cells a, c ∈ a.library := by
  intro c hc
  rcases List.mem_append.mp hc with hc | hc
  · exact Alphabet.mem_library_of_mem_unmarked
      (Alphabet.mem_unmarked_of_mem_symbols (h.before_mem c hc))
  · rcases List.mem_cons.mp hc with rfl | hc
    · exact Alphabet.marker_mem_library h.under_mem
    · exact Alphabet.mem_library_of_mem_unmarked (h.rest_mem c hc)

theorem write (h : s.Over a) (hw : w ∈ a.symbols) (d : Direction) : (s.write w d).Over a := by
  have hb := h.before_mem
  have hf := h.after_mem
  unfold Strip.write
  split
  · next x v hs =>
    intro c hc
    simp only [tape, List.mem_append, List.mem_cons] at hc
    rcases hc with hc | rfl | hc
    · exact hb c hc
    · exact hw
    · exact hf c (by simp [hs, hc])
  · split_ifs
    · exact h
    · intro c hc
      simp only [tape, List.mem_append, List.mem_singleton] at hc
      rcases hc with hc | rfl
      · exact hb c hc
      · exact hw

theorem move (ha : a.Proper) (h : s.Over a) (d : Direction) : (s.move d).Over a := by
  have hb := h.before_mem
  have hf := h.after_mem
  intro c hc
  cases d with
  | stay => exact h c hc
  | right =>
    simp only [Strip.move, tape, List.append_assoc, List.take_append_drop] at hc
    exact h c hc
  | left =>
    simp only [Strip.move, tape, List.mem_append, List.mem_cons] at hc
    rcases hc with hc | rfl | hc
    · exact hb c (List.dropLast_subset _ hc)
    · rcases List.eq_nil_or_concat s.before with hs | ⟨b, y, hs⟩
      · simpa [hs] using ha.blank_mem
      · simpa [hs] using hb y (by simp [hs])
    · exact hf c hc

theorem act (ha : a.Proper) (h : s.Over a) (hw : w ∈ a.symbols) (d : Direction) :
    (s.act w d).Over a :=
  (h.write hw d).move ha d

end Over

/-! ## The tape that a strip shows -/

/-- The strip shows a tape of a source machine with its head: it has the same cells, escaped, and
the same head. -/
structure Shows (iteration : Nat) (s : Strip) (tape : List Symbol) (head : Nat) : Prop where
  head : s.head = head
  cellAt : ∀ j, Tapes.cellAt s.tape j = (Tapes.cellAt tape j).escape iteration

variable {iteration : Nat} {tape : List Symbol} {head : Nat}

theorem read_eq_cellAt (s : Strip) : s.read = Tapes.cellAt s.tape s.head := by
  cases h : s.after <;> simp [read, Strip.tape, Strip.head, Tapes.cellAt, h]

/-- Writing changes the cell under the head. -/
theorem cellAt_write (s : Strip) (w : Symbol) (d : Direction) (j : Nat) :
    Tapes.cellAt (s.write w d).tape j = if j = s.head then w else Tapes.cellAt s.tape j := by
  unfold write
  split
  · next x v hs =>
    have hlt : s.head < s.tape.length := by simp [Strip.head, Strip.tape, hs]
    have hset : s.before ++ w :: v = s.tape.set s.head w := by simp [Strip.head, Strip.tape, hs]
    rw [← Tapes.cellAt_set hlt, ← hset]
    rfl
  · next hs =>
    split_ifs with hw hj hj
    · have hread := s.read_eq_cellAt
      rw [hj, ← hread]
      simp [read, hs, hw.1]
    · rfl
    · subst hj
      simp [Strip.tape, Tapes.cellAt, Strip.head]
    · unfold Tapes.cellAt
      simp only [Strip.tape, hs, List.append_nil]
      rcases Nat.lt_or_ge j s.before.length with h | h
      · rw [List.getElem?_append_left h]
      · rw [List.getElem?_append_right h, List.getElem?_eq_none h, List.getElem?_eq_none]
        have : j ≠ s.before.length := hj
        simp only [List.length_singleton]
        omega

@[simp] theorem head_write (s : Strip) (w : Symbol) (d : Direction) :
    (s.write w d).head = s.head := by
  unfold write
  split
  · rfl
  · split_ifs <;> rfl

/-- Where a head goes right, there is a cell under it. -/
theorem after_write_right (s : Strip) (w : Symbol) : ∃ v, (s.write w .right).after = w :: v := by
  unfold write
  split
  · exact ⟨_, rfl⟩
  · exact ⟨[], by simp⟩

namespace Shows

theorem read (h : s.Shows iteration tape head) :
    s.read = (Tapes.cellAt tape head).escape iteration := by
  rw [read_eq_cellAt, h.cellAt, h.head]

/-- A strip that shows a tape shows what becomes of it by an action. -/
theorem act (h : s.Shows iteration tape head) (w : Symbol) (d : Direction) :
    (s.act (w.escape iteration) d).Shows iteration
      (Tapes.act w d (Tapes.padTo (head + 1) tape) head).1
      (Tapes.act w d (Tapes.padTo (head + 1) tape) head).2 := by
  have hlt : head < (Tapes.padTo (head + 1) tape).length := by
    rw [Tapes.length_padTo]
    omega
  have hcell : ∀ j, Tapes.cellAt (s.write (w.escape iteration) d).tape j =
      (Tapes.cellAt ((Tapes.padTo (head + 1) tape).set head w) j).escape iteration := by
    intro j
    rw [cellAt_write, Tapes.cellAt_set hlt, Tapes.cellAt_padTo, h.head, h.cellAt]
    split_ifs <;> rfl
  have hhead : (s.write (w.escape iteration) d).head = head := (head_write ..).trans h.head
  unfold Strip.act
  cases d with
  | stay => exact ⟨hhead, hcell⟩
  | right =>
    obtain ⟨v, hv⟩ := s.after_write_right (w.escape iteration)
    refine ⟨?_, fun j => ?_⟩
    · simpa [Strip.move, Strip.head, hv, Tapes.act] using hhead
    · rw [Tapes.act, Tapes.cellAt_padTo, ← hcell]
      simp [Strip.move, Strip.tape, hv]
  | left =>
    rcases List.eq_nil_or_concat (s.write (w.escape iteration) .left).before with hb | ⟨b, y, hb⟩
    · have hzero : head = 0 := by rw [← hhead, Strip.head, hb]; rfl
      subst hzero
      refine ⟨by simp [Strip.move, Strip.head, hb, Tapes.act], fun j => ?_⟩
      cases j with
      | zero => simp [Strip.move, Strip.tape, hb, Tapes.act]
      | succ j =>
        have := hcell j
        simpa [Strip.move, Strip.tape, hb, Tapes.act] using this
    · have hpos : head = b.length + 1 := by rw [← hhead, Strip.head, hb]; simp
      subst hpos
      refine ⟨by simp [Strip.move, Strip.head, hb, Tapes.act], fun j => ?_⟩
      have := hcell j
      simpa [Strip.move, Strip.tape, hb, Tapes.act] using this

end Shows
end Strip
end OneTape
