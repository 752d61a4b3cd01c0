import OneTape.Proofs.Alphabet
import OneTape.Proofs.NestedName

/-!
# The library of an alphabet

The library of a proper alphabet has two entries for every unmarked symbol: the symbol and its
marker. No entry comes twice, because markers determine their symbols and an unmarked symbol has not
the form of a marker.

Results:
* `Symbol.marker_eq_marker_iff`: a marker determines its symbol and its iteration.
* `Alphabet.Proper.nodup_library`: no entry of a library comes twice.
* `Alphabet.Proper.map_unmark?_library`, `Alphabet.Proper.filter_library`: what the entries stand
  for.
* `Alphabet.symbols_stay_apart`: all of this for the alphabet of every machine with escaped symbols.
-/

namespace OneTape

/-- **A marker determines its symbol and its iteration.** -/
theorem Symbol.marker_eq_marker_iff {s t : Symbol} {i j : Nat} :
    s.marker i = t.marker j ↔ s = t ∧ i = j := by
  constructor
  · intro h
    have hi : markerSuffix i <:+ (s.marker i).text.toList :=
      isMarkerLike_iff.mp (isMarkerLike_marker s i)
    have hj : markerSuffix j <:+ (s.marker i).text.toList := by
      rw [h]
      exact isMarkerLike_iff.mp (isMarkerLike_marker t j)
    obtain rfl := markerSuffix_injective hi hj
    exact ⟨marker_injective h, rfl⟩
  · rintro ⟨rfl, rfl⟩
    rfl

namespace Alphabet

variable {a : Alphabet} {c s : Symbol}

/-- The symbol that an entry of the library stands for. -/
def standsFor (a : Alphabet) (c : Symbol) : Symbol := (c.unmark? a.iteration).getD c

theorem standsFor_marker (a : Alphabet) (s : Symbol) : a.standsFor (a.marker s) = s := by
  simp [standsFor, marker]

theorem mem_unmarked_ofMachine_escape {m : Machine} {i : Nat} :
    s ∈ (ofMachine (m.escape i) i).unmarked ↔
      s = Symbol.blank ∨ s = Symbol.boundary ∨ ∃ t ∈ m.symbols, t.escape i = s := by
  rw [mem_unmarked, mem_symbols_ofMachine, mem_symbols_escape, or_right_comm, or_assoc]

theorem length_library (a : Alphabet) : a.library.length = 2 * a.unmarked.length := by
  simp only [library, List.length_append, List.length_map]
  omega

namespace Proper

theorem unmark?_of_mem_unmarked (ha : a.Proper) (h : c ∈ a.unmarked) :
    c.unmark? a.iteration = none :=
  Symbol.unmark?_eq_none (ha.isMarkerLike_of_mem_unmarked h)

theorem standsFor_of_mem_unmarked (ha : a.Proper) (h : c ∈ a.unmarked) : a.standsFor c = c := by
  rw [standsFor, ha.unmark?_of_mem_unmarked h]
  rfl

theorem nodup_unmarked (ha : a.Proper) (h : a.symbols.Nodup) : a.unmarked.Nodup :=
  h.append (List.nodup_singleton _) (by simpa using ha.boundary_notMem)

/-- **No entry of the library comes twice.** -/
theorem nodup_library (ha : a.Proper) (h : a.symbols.Nodup) : a.library.Nodup := by
  have hunmarked := ha.nodup_unmarked h
  refine hunmarked.append (hunmarked.map fun _ _ => marker_injective) fun c hc hmarked => ?_
  obtain ⟨s, -, rfl⟩ := List.mem_map.mp hmarked
  exact ha.marker_notMem_unmarked hc

/-- The first half of the library is not marked; the second half repeats its symbols with marks. -/
theorem map_unmark?_library (ha : a.Proper) :
    a.library.map (·.unmark? a.iteration) =
      List.replicate a.unmarked.length none ++ a.unmarked.map some := by
  rw [library, List.map_append, List.map_map]
  congr 1
  · refine List.eq_replicate_iff.mpr ⟨by simp, fun o ho => ?_⟩
    obtain ⟨c, hc, rfl⟩ := List.mem_map.mp ho
    exact ha.unmark?_of_mem_unmarked hc
  · exact List.map_congr_left fun s _ => Symbol.unmark?_marker s a.iteration

/-- The library has two entries for every unmarked symbol. -/
theorem filter_library (ha : a.Proper) (h : a.symbols.Nodup) (hs : s ∈ a.unmarked) :
    a.library.filter (a.standsFor · == s) = [s, a.marker s] := by
  have hone : a.unmarked.filter (· == s) = [s] := by
    have hcount : a.unmarked.count s = 1 := List.count_eq_one_of_mem (ha.nodup_unmarked h) hs
    rw [List.filter_beq, hcount]
    rfl
  have hplain : a.unmarked.filter (a.standsFor · == s) = [s] := by
    rw [← hone]
    exact List.filter_congr fun c hc => by rw [ha.standsFor_of_mem_unmarked hc]
  have hmarked : (a.unmarked.map a.marker).filter (a.standsFor · == s) = [a.marker s] := by
    rw [List.filter_map, ← List.map_singleton, ← hone]
    congr 2
    funext c
    simp [standsFor_marker]
  rw [library, List.filter_append, hplain, hmarked]
  rfl

end Proper

/-- **Symbols, markers and reserved symbols never mix.** A marker determines its symbol and its
iteration. Escaping is injective in every iteration, and what it gives is neither reserved nor ends
like a marker of the iteration. So for every machine, its symbols escaped, the unmarked symbols of
its alphabet are the blank, the boundary and the escaped symbols. The library of the alphabet has no
repetitions, holds neither the tape end nor the return mark, and has exactly two entries for each
unmarked symbol, itself and its marker. Taking a mark off fails on the first half of the library,
the unmarked symbols, and gives these symbols on the second half. -/
theorem symbols_stay_apart :
    (∀ (s t : Symbol) (i j : Nat), s.marker i = t.marker j ↔ s = t ∧ i = j) ∧
    (∀ i : Nat, Function.Injective (Symbol.escape · i) ∧ ∀ s : Symbol,
      (s.escape i).isReserved = false ∧ ¬ Symbol.markerSuffix i <:+ (s.escape i).text.toList) ∧
    ∀ (m : Machine) (i : Nat), let a := ofMachine (m.escape i) i
      (∀ s, s ∈ a.unmarked ↔
        s = Symbol.blank ∨ s = Symbol.boundary ∨ ∃ t ∈ m.symbols, t.escape i = s) ∧
      a.library.Nodup ∧ Symbol.tapeEnd ∉ a.library ∧ Symbol.returnMark ∉ a.library ∧
      a.library.length = 2 * a.unmarked.length ∧
      (∀ s ∈ a.unmarked, a.library.filter (a.standsFor · == s) = [s, s.marker i]) ∧
      a.library.map (·.unmark? i) =
        List.replicate a.unmarked.length none ++ a.unmarked.map some := by
  refine ⟨fun s t i j => Symbol.marker_eq_marker_iff,
    fun i => ⟨fun s t => Symbol.escape_injective, fun s => ?_⟩, fun m i => ?_⟩
  · obtain ⟨hreserved, hmarker⟩ := Symbol.isPlain_escape s i
    refine ⟨hreserved, fun hsuffix => ?_⟩
    rw [Symbol.isMarkerLike_iff.mpr hsuffix] at hmarker
    cases hmarker
  · intro a
    have ha : a.Proper := proper_ofMachine_escape m i
    have hsymbols : a.symbols.Nodup := nodup_symbols_ofMachine (m.escape i) i
    exact ⟨fun s => mem_unmarked_ofMachine_escape, ha.nodup_library hsymbols,
      ha.tapeEnd_notMem_library, ha.returnMark_notMem_library, a.length_library,
      fun s hs => ha.filter_library hsymbols hs, ha.map_unmark?_library⟩

end Alphabet
end OneTape
