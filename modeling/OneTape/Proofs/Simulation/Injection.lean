import OneTape.Proofs.Injected
import OneTape.Proofs.Layout

/-!
# The blank-injection pass at work

The pass walks over the laid-out tapes to the tape end and back. It leaves every cell as it is,
except that the placeholder becomes the blank and the marker of the placeholder the marker of the
blank. On the layout of tapes this is a substitution on the tapes, wherever the heads stand.

Results:
* `Table.injection_walk`: the pass over the cells of the single tape.
* `Strip.layout_fillBlanks`: the substitution in the cells is one on the tapes.
* `Injected.run_injection`: the run of the table up to the state that enters discovery.
* `Simulation.injection_fills_blanks`: the same on encoded tapes.
-/

namespace OneTape

/-! ## Alphabets with a placeholder -/

namespace Alphabet

/-- The alphabet with a placeholder. -/
def adding (a : Alphabet) (q : Symbol) : Alphabet := { a with symbols := q :: a.symbols }

variable {a : Alphabet} {q c : Symbol}

theorem mem_library_adding : c ∈ (a.adding q).library ↔ c = q ∨ c = a.marker q ∨ c ∈ a.library := by
  have hunmarked : ∀ {x}, x ∈ (a.adding q).unmarked ↔ x = q ∨ x ∈ a.unmarked := by
    simp [unmarked, adding]
  have hmarker : (a.adding q).marker = a.marker := rfl
  simp only [mem_library, hunmarked, hmarker, or_and_right, exists_or, exists_eq_left]
  grind

theorem Proper.adding (ha : a.Proper) (hq : q.IsPlain a.iteration) : (a.adding q).Proper where
  blank_mem := List.mem_cons_of_mem q ha.blank_mem
  plain x hx := by
    rcases List.mem_cons.mp hx with rfl | hx
    · exact hq
    · exact ha.plain x hx

end Alphabet

/-! ## The pass -/

namespace Table

open Instant Relation

/-- What the pass leaves in a cell. -/
def injectedCell (a : Alphabet) (q c : Symbol) : Symbol :=
  if c = q then Symbol.blank else if c = a.marker q then a.blankMarker else c

variable {a : Alphabet} {start : State} {q c : Symbol} {w : List Symbol}

theorem Injects.scan (h : c ∈ (a.adding q).library) : Injects a start q
    ⟨start.injection .scan, c, start.injection .scan, injectedCell a q c, .right⟩ := by
  have hc := Alphabet.mem_library_adding.mp h
  unfold injectedCell
  split_ifs with hq hm
  · rw [hq]
    exact .replace
  · rw [hm]
    exact .replaceMarker
  · exact .pass ((hc.resolve_left hq).resolve_left hm)

theorem injectedCell_mem_library (ha : a.Proper) (h : c ∈ (a.adding q).library) :
    injectedCell a q c ∈ a.library := by
  have hc := Alphabet.mem_library_adding.mp h
  have hblank := Alphabet.mem_unmarked_of_mem_symbols ha.blank_mem
  unfold injectedCell
  split_ifs with hq hm
  · exact Alphabet.mem_library_of_mem_unmarked hblank
  · exact Alphabet.marker_mem_library hblank
  · exact (hc.resolve_left hq).resolve_left hm

/-- **The pass replaces the placeholder in every cell and comes back to the first one.** -/
theorem injection_walk (start : State) (ha : a.Proper) (hw : ∀ c ∈ w, c ∈ (a.adding q).library) :
    ReflTransGen (Walks fun _ => Injects a start q)
      ⟨start.injection .start, Symbol.boundary :: (w ++ [Symbol.tapeEnd]), 0⟩
      ⟨start, Symbol.boundary :: (w.map (injectedCell a q) ++ [Symbol.tapeEnd]), 0⟩ := by
  have henter : Walks (fun _ => Injects a start q)
      (ahead (start.injection .start) [] (Symbol.boundary :: (w ++ [Symbol.tapeEnd])))
      (ahead (start.injection .scan) [Symbol.returnMark] (w ++ [Symbol.tapeEnd])) :=
    Walks.right (by simp) .enter
  have hscan : ReflTransGen (Walks fun _ => Injects a start q)
      (ahead (start.injection .scan) [Symbol.returnMark] (w ++ [Symbol.tapeEnd]))
      (ahead (start.injection .scan) ([Symbol.returnMark] ++ w.map (injectedCell a q))
        [Symbol.tapeEnd]) :=
    walks_map (by simp) fun _ _ c hc => .scan (hw c hc)
  have hturn : Walks (fun _ => Injects a start q)
      (ahead (start.injection .scan) ([Symbol.returnMark] ++ w.map (injectedCell a q))
        [Symbol.tapeEnd])
      (behind (start.injection .comeBack) ([Symbol.returnMark] ++ w.map (injectedCell a q))
        [Symbol.tapeEnd]) :=
    Walks.left (by simp) .turn
  have hback : ReflTransGen (Walks fun _ => Injects a start q)
      (behind (start.injection .comeBack) ([Symbol.returnMark] ++ w.map (injectedCell a q))
        [Symbol.tapeEnd])
      (behind (start.injection .comeBack) ([] ++ [Symbol.returnMark])
        (w.map (injectedCell a q) ++ [Symbol.tapeEnd])) := by
    refine walks_back (by simp) fun _ _ c hc => .comeBack ?_
    obtain ⟨x, hx, rfl⟩ := List.mem_map.mp hc
    exact injectedCell_mem_library ha (hw x hx)
  have hleave : Walks (fun _ => Injects a start q)
      (ahead (start.injection .comeBack) []
        (Symbol.returnMark :: (w.map (injectedCell a q) ++ [Symbol.tapeEnd])))
      (ahead start [] (Symbol.boundary :: (w.map (injectedCell a q) ++ [Symbol.tapeEnd]))) :=
    Walks.stay .leave
  rw [behind_concat] at hback
  exact .head henter (hscan.trans (.head hturn (hback.tail hleave)))

/-! ## Cells and tapes -/

/-- The placeholder becomes the blank. -/
def fillBlank (q x : Symbol) : Symbol := if x = q then Symbol.blank else x

theorem fillBlank_blank (q : Symbol) : fillBlank q Symbol.blank = Symbol.blank := by
  simp [fillBlank]

theorem injectedCell_of_mem (ha : a.Proper) (hc : c ∈ (a.adding q).symbols) :
    injectedCell a q c = fillBlank q c := by
  have hm : c ≠ q → c ≠ a.marker q := by
    rintro hq rfl
    have hmem := (List.mem_cons.mp hc).resolve_left hq
    exact ha.marker_notMem_unmarked (Alphabet.mem_unmarked_of_mem_symbols hmem)
  unfold injectedCell fillBlank
  split_ifs with hq hmarker
  · rfl
  · exact absurd hmarker (hm hq)
  · rfl

theorem injectedCell_marker (hq : q.IsPlain a.iteration) (x : Symbol) :
    injectedCell a q (a.marker x) = a.marker (fillBlank q x) := by
  have hne : a.marker x ≠ q := Symbol.marker_ne_of_isMarkerLike hq.2
  unfold injectedCell fillBlank
  rw [if_neg hne]
  by_cases hx : x = q
  · rw [if_pos hx, if_pos (by rw [hx])]
    rfl
  · rw [if_neg hx, if_neg fun h => hx (Alphabet.marker_injective h)]

theorem injectedCell_boundary (ha : a.Proper) (hq : q.IsPlain a.iteration) :
    injectedCell a q Symbol.boundary = Symbol.boundary := by
  have hm : a.marker q ≠ Symbol.boundary :=
    ha.marker_ne_of_mem_unmarked Alphabet.boundary_mem_unmarked
  simp [injectedCell, hq.ne_boundary.symm, hm.symm]

end Table

/-- The tapes with the blank in place of a placeholder. -/
def Tapes.fillBlanks (q : Symbol) (t : Tapes) : Tapes := t.map (Table.fillBlank q)

namespace Strip

open Table

variable {a : Alphabet} {q : Symbol} {s : Strip} {strips : List Strip}

/-- The strip with the blank in place of a placeholder. -/
def fillBlanks (q : Symbol) (s : Strip) : Strip :=
  ⟨s.before.map (fillBlank q), s.after.map (fillBlank q)⟩

theorem ofTape_map_fillBlank (q : Symbol) (tape : List Symbol) (head : Nat) :
    ofTape (tape.map (fillBlank q)) head = (ofTape tape head).fillBlanks q := by
  have hpad : Tapes.padTo head (tape.map (fillBlank q)) =
      (Tapes.padTo head tape).map (fillBlank q) := by
    simp [Tapes.padTo, fillBlank_blank]
  simp [ofTape, fillBlanks, hpad, List.map_take, List.map_drop]

/-- The substitution in the cells of a strip, with a head on any of them. -/
theorem cells_fillBlanks (ha : a.Proper) (hq : q.IsPlain a.iteration) (hs : s.Over (a.adding q)) :
    (s.fillBlanks q).cells a = (s.cells a).map (injectedCell a q) := by
  have hmap : ∀ {t : List Symbol}, (∀ x ∈ t, x ∈ (a.adding q).symbols) →
      t.map (fillBlank q) = t.map (injectedCell a q) := fun ht =>
    List.map_congr_left fun x hx => (injectedCell_of_mem ha (ht x hx)).symm
  have hbefore := hmap hs.before_mem
  have hafter := hs.after_mem
  cases h : s.after with
  | nil =>
    -- the head is on the boundary that closes the tape
    have hedge : fillBlank q Symbol.boundary = Symbol.boundary := by
      simp [fillBlank, hq.ne_boundary.symm]
    simp [cells, fillBlanks, under, rest, h, hbefore, injectedCell_marker hq, hedge]
  | cons x xs =>
    rw [h] at hafter
    have hrest := hmap fun y hy => hafter y (List.mem_cons_of_mem x hy)
    simp [cells, fillBlanks, under, rest, h, hbefore, hrest, injectedCell_marker hq,
      injectedCell_boundary ha hq]

/-- **The substitution in the cells is one on the tapes.** -/
theorem layout_fillBlanks (ha : a.Proper) (hq : q.IsPlain a.iteration)
    (hs : ∀ s ∈ strips, s.Over (a.adding q)) :
    layout a (strips.map (fillBlanks q)) =
      Symbol.boundary ::
        ((strips.flatMap (cells a)).map (injectedCell a q) ++ [Symbol.tapeEnd]) := by
  rw [layout, List.flatMap_map, List.map_flatMap]
  rw [List.flatMap_congr fun s hmem => cells_fillBlanks ha hq (hs s hmem)]

theorem zipWith_ofTape_fillBlanks (q : Symbol) (tapes : List (List Symbol)) (heads : List Nat) :
    List.zipWith ofTape (tapes.map (List.map (fillBlank q))) heads =
      (List.zipWith ofTape tapes heads).map (fillBlanks q) := by
  rw [List.zipWith_map_left, List.map_zipWith]
  simp only [ofTape_map_fillBlank]

end Strip

/-! ## The run of a compiled machine -/

namespace Injected

open Table

variable {m : Machine} {iteration k : Nat} {safety : Safety} {q : Symbol} {plain flat : FlatMachine}
  {strips : List Strip}

theorem isPlain (hi : Injected m iteration safety k q plain flat) : q.IsPlain iteration :=
  (not_clashes_iff.mp hi.clash).2.1

theorem proper (hi : Injected m iteration safety k q plain flat) : (m.alphabet iteration).Proper :=
  hi.generated.fits.proper

/-- Escaping leaves the placeholder alone. -/
theorem map_escape_fillBlanks (hi : Injected m iteration safety k q plain flat) (input : Tapes) :
    (input.fillBlanks q).map (·.escape iteration) =
      (input.map (·.escape iteration)).fillBlanks q := by
  have hescape : q.escape iteration = q := by
    have hclash := hi.clash
    simp only [Plan.clashes, Bool.or_eq_false_iff] at hclash
    exact Symbol.escape_eq_self hclash.2
  have hcomm : ∀ x : Symbol, (fillBlank q x).escape iteration =
      fillBlank q (x.escape iteration) := by
    intro x
    unfold fillBlank
    by_cases hx : x = q
    · rw [if_pos hx, if_pos (by rw [hx, hescape]), Symbol.escape_blank]
    · rw [if_neg hx, if_neg fun he => hx (Symbol.escape_injective (he.trans hescape.symm))]
  simp [Tapes.fillBlanks, Tapes.map, hcomm]

/-- **The table runs through the pass** to the state that enters discovery. -/
theorem run_injection (hi : Injected m iteration safety k q plain flat)
    (hs : ∀ s ∈ strips, s.Over ((m.alphabet iteration).adding q)) :
    ∃ n, Instant.run flat.rows n ⟨flat.initial, Strip.layout (m.alphabet iteration) strips, 0⟩ =
        some ⟨State.source m.initial,
          Strip.layout (m.alphabet iteration) (strips.map (Strip.fillBlanks q)), 0⟩ ∧
      ∀ j < n, ∃ x step,
        Instant.run flat.rows j
          ⟨flat.initial, Strip.layout (m.alphabet iteration) strips, 0⟩ = some x ∧
          x.state = (State.source m.initial).injection step := by
  have hcells : ∀ c ∈ strips.flatMap (Strip.cells (m.alphabet iteration)),
      c ∈ ((m.alphabet iteration).adding q).library := Strip.flatMap_cells_mem hs
  have hwalk := injection_walk (State.source m.initial) hi.proper hcells
  rw [← Strip.layout_fillBlanks hi.proper hi.isPlain hs] at hwalk
  obtain ⟨n, hrun, hvisit⟩ := run_of_walks (functional_of_nodup hi.nodup)
    (fun _ r hr => (hi.mem_rows r).mpr (.inl hr)) hwalk
  rw [hi.initial]
  refine ⟨n, hrun, fun j hj => ?_⟩
  obtain ⟨x, r, hx, hr, hstate⟩ := hvisit j hj
  obtain ⟨step, hstep⟩ := hr.phase
  exact ⟨x, step, hx, hstate.symm.trans hstep⟩

end Injected

namespace Simulation

open Table

/-- **Blank injection is a substitution on the tapes.** A machine that is compiled with a
placeholder, started on the first cell of encoded tapes, passes through states of the injection pass
only until it enters discovery for its initial state. It is then back on the first cell, and the
single tape holds the encoding of the tapes with the blank in place of the placeholder. If the tapes
are an input with its symbols escaped, the new ones are the input with the blank in place of the
placeholder, escaped. -/
theorem injection_fills_blanks (m : Machine) (c : Config) (p : Plan) (q : Symbol) (t : Tapes)
    (hp : Plan.prepare m c = .ok p) (hq : c.placeholder = some q)
    (htapes : t.tapes.length = p.tapes) (hheads : t.heads.length = p.tapes)
    (hsymbols : ∀ tape ∈ t.tapes, ∀ x ∈ tape, x ∈ p.alphabet.symbols ∨ x = q) :
    ∃ flat cells filled n, p.flatten = .ok flat ∧ t.encode c.iteration = .ok cells ∧
      (t.fillBlanks q).encode c.iteration = .ok filled ∧
      Instant.run flat.rows n ⟨flat.initial, cells, 0⟩ = some ⟨State.source m.initial, filled, 0⟩ ∧
      (∀ j < n, ∃ x step, Instant.run flat.rows j ⟨flat.initial, cells, 0⟩ = some x ∧
        x.state = (State.source m.initial).injection step) ∧
      ∀ input : Tapes, input.map p.escape = t →
        (input.fillBlanks q).map p.escape = t.fillBlanks q := by
  obtain ⟨flat, hflat⟩ := Machine.flatten_eq_ok_of_prepare hp
  have hrows : p.flatten = .ok flat := by
    obtain ⟨p', hp', hrows⟩ := except_bind_eq_ok_iff.mp hflat
    rwa [Except.ok.inj (hp.symm.trans hp')]
  obtain ⟨k, hm, -, rfl, -⟩ := Plan.prepare_eq_ok hp
  obtain ⟨_, plain, hi⟩ := Injected.of_flatten hflat hq
  have ha := hi.proper.adding hi.isPlain
  have hne : t.tapes ≠ [] := List.ne_nil_of_length_pos (htapes ▸ hm.tapes_pos)
  have hlen : t.tapes.length = t.heads.length := htapes.trans hheads.symm
  have hmem : ∀ tape ∈ t.tapes, ∀ x ∈ tape, x ∈ ((m.alphabet c.iteration).adding q).symbols :=
    fun tape ht x hx => List.mem_cons.mpr (hsymbols tape ht x hx).symm
  have hfilled : ∀ tape ∈ (t.fillBlanks q).tapes, ∀ x ∈ tape,
      x ∈ ((m.alphabet c.iteration).adding q).symbols := by
    intro filled hfilled y hy
    obtain ⟨tape, ht, rfl⟩ := List.mem_map.mp hfilled
    obtain ⟨x, hx, rfl⟩ := List.mem_map.mp hy
    unfold fillBlank
    split_ifs
    · exact ha.blank_mem
    · exact hmem tape ht x hx
  -- the layout depends on the alphabet through its iteration only, so the placeholder can be added
  -- to it
  obtain ⟨n, hrun, hvisit⟩ := hi.run_injection (Strip.over_zipWith_ofTape ha hmem)
  rw [← Strip.zipWith_ofTape_fillBlanks] at hrun
  refine ⟨_, _, _, n, hrows, Strip.encode_of_symbols ha hne hlen hmem,
    Strip.encode_of_symbols ha (by simpa [Tapes.fillBlanks, Tapes.map] using hne)
      (by simpa [Tapes.fillBlanks, Tapes.map] using hlen) hfilled, hrun, hvisit, ?_⟩
  rintro input rfl
  exact hi.map_escape_fillBlanks input

/-- Tapes with a placeholder between their ends and under a head, with a reserved symbol, and with a
head past the end of an empty tape. -/
def placeholderInput : Tapes := ⟨[[⟨"~"⟩, Symbol.boundary, ⟨"~"⟩], []], [2, 3]⟩

/-- The pass on the single tape that holds them. -/
theorem injection_fills_exchange : ∃ p flat n,
    Plan.prepare Machine.exchange { placeholder := some ⟨"~"⟩ } = .ok p ∧ p.flatten = .ok flat ∧
    Instant.run flat.rows n ⟨flat.initial,
      ["#", "~", "\\#\\", "~.1", "#", "_", "_", "_", "#.1", "$"].map Symbol.mk, 0⟩ =
      some ⟨State.source "q",
        ["#", "_", "\\#\\", "_.1", "#", "_", "_", "_", "#.1", "$"].map Symbol.mk, 0⟩ := by
  have hclash : Plan.clashes (Machine.exchange.alphabet 1) ⟨"~"⟩ = false :=
    Machine.not_clashes (by decide) (by decide) (by decide)
  have hp := Plan.prepare_of_normal (c := { placeholder := some ⟨"~"⟩ }) Machine.wellFormed_exchange
    (by decide) rfl (by rintro q ⟨⟩; exact hclash)
  have hinput : ∀ tape ∈ placeholderInput.tapes, ∀ x ∈ tape,
      x ∈ Machine.exchange.symbols ∨ x.escape 1 = ⟨"~"⟩ := by decide
  have hsymbols : ∀ tape ∈ (placeholderInput.map (·.escape 1)).tapes, ∀ x ∈ tape,
      x ∈ (Machine.exchange.alphabet 1).symbols ∨ x = ⟨"~"⟩ := by
    intro escaped hescaped y hy
    obtain ⟨tape, ht, rfl⟩ := List.mem_map.mp hescaped
    obtain ⟨x, hx, rfl⟩ := List.mem_map.mp hy
    refine (hinput tape ht x hx).imp_left fun hmem => ?_
    exact Alphabet.mem_symbols_ofMachine.mpr (.inr (Alphabet.mem_symbols_escape.mpr ⟨x, hmem, rfl⟩))
  have hcode : (placeholderInput.map (·.escape 1)).encode 1 =
      .ok (["#", "~", "\\#\\", "~.1", "#", "_", "_", "_", "#.1", "$"].map Symbol.mk) := by decide
  have hfill : ((placeholderInput.map (·.escape 1)).fillBlanks ⟨"~"⟩).encode 1 =
      .ok (["#", "_", "\\#\\", "_.1", "#", "_", "_", "_", "#.1", "$"].map Symbol.mk) := by decide
  obtain ⟨flat, cells, filled, n, hflat, hcells, hfilled, hrun, -, -⟩ := injection_fills_blanks
    Machine.exchange { placeholder := some ⟨"~"⟩ } _ ⟨"~"⟩ (placeholderInput.map (·.escape 1))
    hp rfl rfl rfl hsymbols
  obtain rfl := Except.ok.inj (hcode.symm.trans hcells)
  obtain rfl := Except.ok.inj (hfill.symm.trans hfilled)
  exact ⟨_, flat, n, hp, hflat, hrun⟩

end Simulation
end OneTape
