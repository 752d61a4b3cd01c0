import OneTape.Alphabet
import OneTape.Machine.Escape
import OneTape.Proofs.Ordered
import OneTape.Proofs.Symbol

/-!
# Proper alphabets

An alphabet is *proper* if it has the blank and all of its symbols are plain. On the single tape of
a proper alphabet the unmarked symbols, their markers, the tape end and the return mark are then
told apart by their texts.

Result: `proper_ofMachine_escape`: the alphabet of a machine with escaped symbols is proper.
-/

namespace OneTape.Alphabet

variable {a : Alphabet} {c s t : Symbol}

/-! ## Members of the parts of an alphabet -/

@[simp] theorem mem_unmarked : c ∈ a.unmarked ↔ c ∈ a.symbols ∨ c = Symbol.boundary := by
  simp [unmarked]

theorem mem_library : c ∈ a.library ↔ c ∈ a.unmarked ∨ ∃ s ∈ a.unmarked, a.marker s = c := by
  simp only [library, List.mem_append, List.mem_map]

theorem boundary_mem_unmarked : Symbol.boundary ∈ a.unmarked := mem_unmarked.mpr (.inr rfl)

theorem mem_unmarked_of_mem_symbols (h : c ∈ a.symbols) : c ∈ a.unmarked :=
  mem_unmarked.mpr (.inl h)

theorem mem_library_of_mem_unmarked (h : c ∈ a.unmarked) : c ∈ a.library := mem_library.mpr (.inl h)

theorem marker_mem_library (h : c ∈ a.unmarked) : a.marker c ∈ a.library :=
  mem_library.mpr (.inr ⟨c, h, rfl⟩)

theorem marker_injective (h : a.marker s = a.marker t) : s = t := Symbol.marker_injective h

@[simp] theorem marker_inj : a.marker s = a.marker t ↔ s = t := Symbol.marker_inj

theorem map_marker_injective {xs ys : List Symbol}
    (h : xs.map a.marker = ys.map a.marker) : xs = ys :=
  List.map_injective_iff.mpr (fun _ _ => marker_injective) h

@[simp] theorem isMarkerLike_marker (s : Symbol) : (a.marker s).isMarkerLike a.iteration = true :=
  Symbol.isMarkerLike_marker s a.iteration

/-- The cell separates virtual tapes: it is the boundary, with or without a head on it. -/
def IsEdge (a : Alphabet) (c : Symbol) : Prop := c = Symbol.boundary ∨ c = a.boundaryMarker

theorem IsEdge.mem_library (h : a.IsEdge c) : c ∈ a.library := by
  rcases h with rfl | rfl
  · exact mem_library_of_mem_unmarked boundary_mem_unmarked
  · exact marker_mem_library boundary_mem_unmarked

/-! ## Proper alphabets -/

/-- The alphabet has the blank, and all of its symbols are plain. -/
structure Proper (a : Alphabet) : Prop where
  blank_mem : Symbol.blank ∈ a.symbols
  plain : ∀ s ∈ a.symbols, s.IsPlain a.iteration

namespace Proper

theorem boundary_notMem (ha : a.Proper) : Symbol.boundary ∉ a.symbols :=
  fun h => (ha.plain _ h).ne_boundary rfl

theorem isMarkerLike_of_mem_unmarked (ha : a.Proper) (h : c ∈ a.unmarked) :
    c.isMarkerLike a.iteration = false := by
  rcases mem_unmarked.mp h with h | rfl
  · exact (ha.plain c h).2
  · exact Symbol.isMarkerLike_boundary

theorem marker_ne_of_mem_unmarked (ha : a.Proper) (h : c ∈ a.unmarked) : a.marker s ≠ c :=
  Symbol.marker_ne_of_isMarkerLike (ha.isMarkerLike_of_mem_unmarked h)

theorem marker_notMem_unmarked (ha : a.Proper) : a.marker s ∉ a.unmarked :=
  fun h => ha.marker_ne_of_mem_unmarked h rfl

theorem marker_ne_boundaryMarker (ha : a.Proper) (h : s ∈ a.symbols) :
    a.marker s ≠ a.boundaryMarker := by
  intro he
  exact (ha.plain s h).ne_boundary (marker_injective he)

theorem tapeEnd_notMem_library (ha : a.Proper) : Symbol.tapeEnd ∉ a.library := by
  intro h
  rcases mem_library.mp h with h | ⟨s, -, h⟩
  · rcases mem_unmarked.mp h with h | h
    · exact (ha.plain _ h).ne_tapeEnd rfl
    · exact absurd h (by decide)
  · exact Symbol.marker_ne_of_isMarkerLike Symbol.isMarkerLike_tapeEnd h

theorem returnMark_notMem_library (ha : a.Proper) : Symbol.returnMark ∉ a.library := by
  intro h
  rcases mem_library.mp h with h | ⟨s, -, h⟩
  · rcases mem_unmarked.mp h with h | h
    · exact (ha.plain _ h).ne_returnMark rfl
    · exact absurd h (by decide)
  · exact Symbol.marker_ne_of_isMarkerLike Symbol.isMarkerLike_returnMark h

theorem ne_tapeEnd (ha : a.Proper) (h : c ∈ a.library) : c ≠ Symbol.tapeEnd :=
  fun he => ha.tapeEnd_notMem_library (he ▸ h)

theorem ne_returnMark (ha : a.Proper) (h : c ∈ a.library) : c ≠ Symbol.returnMark :=
  fun he => ha.returnMark_notMem_library (he ▸ h)

end Proper

/-! ## Alphabets of machines -/

variable {m : Machine} {iteration : Nat}

theorem mem_symbols_ofMachine :
    s ∈ (ofMachine m iteration).symbols ↔ s = Symbol.blank ∨ s ∈ m.symbols := by
  simp [ofMachine]

theorem nodup_symbols_ofMachine (m : Machine) (iteration : Nat) :
    (ofMachine m iteration).symbols.Nodup := by
  refine (pairwise_sortedSet (Symbol.blank :: m.symbols)).imp fun {s t} hlt heq => ?_
  rw [heq, compare_self] at hlt
  cases hlt

theorem mem_symbols_escape :
    s ∈ (m.escape iteration).symbols ↔ ∃ t ∈ m.symbols, t.escape iteration = s := by
  simp only [Machine.symbols, Machine.escape, Rule.symbols, Rule.escape, List.flatMap_map,
    List.mem_flatMap, List.mem_append, List.mem_map]
  constructor
  · rintro ⟨r, hr, ⟨t, ht, rfl⟩ | ⟨t, ht, rfl⟩⟩
    · exact ⟨t, ⟨r, hr, .inl ht⟩, rfl⟩
    · exact ⟨t, ⟨r, hr, .inr ht⟩, rfl⟩
  · rintro ⟨t, ⟨r, hr, ht | ht⟩, rfl⟩
    · exact ⟨r, hr, .inl ⟨t, ht, rfl⟩⟩
    · exact ⟨r, hr, .inr ⟨t, ht, rfl⟩⟩

/-- **The alphabet of a machine with escaped symbols is proper.** -/
theorem proper_ofMachine_escape (m : Machine) (iteration : Nat) :
    (ofMachine (m.escape iteration) iteration).Proper where
  blank_mem := mem_symbols_ofMachine.mpr (.inl rfl)
  plain s hs := by
    rcases mem_symbols_ofMachine.mp hs with rfl | hs
    · exact Symbol.isPlain_blank
    · obtain ⟨t, -, rfl⟩ := mem_symbols_escape.mp hs
      exact Symbol.isPlain_escape t iteration

end OneTape.Alphabet
