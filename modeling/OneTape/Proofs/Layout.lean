import OneTape.Proofs.Analysis
import OneTape.Proofs.Strip
import OneTape.Tapes.Layout

/-!
# Strips on the single tape

Results:
* `decode_layout`: the layout of strips is read back as their tapes and heads.
* `encode_eq_ok_iff`: which tapes are laid out, and as which strips.
* `ShowsAll.normalized`: strips that show tapes have their normal form.
-/

namespace OneTape

namespace Strip

/-- The layout of strips on the single tape. -/
def layout (a : Alphabet) (strips : List Strip) : List Symbol :=
  Symbol.boundary :: (strips.flatMap (cells a) ++ [Symbol.tapeEnd])

variable {a : Alphabet} {s : Strip} {strips : List Strip}

/-! ## Reading a layout -/

section Reading

variable {r : Tapes.Reading} {c : Symbol}

theorem cell_of_mem (ha : a.Proper) (hc : c ∈ a.symbols) (r : Tapes.Reading) :
    r.cell a.iteration c = .ok (r.push c) := by
  have hplain := ha.plain c hc
  have hmark : c ≠ Symbol.boundary.marker a.iteration :=
    (ha.marker_ne_of_mem_unmarked (Alphabet.mem_unmarked_of_mem_symbols hc)).symm
  rw [Tapes.Reading.cell, if_neg hplain.ne_boundary, if_neg hmark, Symbol.unmark?_eq_none hplain.2]

theorem cell_marker (ha : a.Proper) (hc : c ∈ a.symbols) (hr : r.head = none) :
    r.cell a.iteration (a.marker c) =
      .ok ⟨r.closed, r.tape.push c, some r.tape.size⟩ := by
  have hmark : a.marker c ≠ Symbol.boundary :=
    ha.marker_ne_of_mem_unmarked Alphabet.boundary_mem_unmarked
  have hedge : a.marker c ≠ Symbol.boundary.marker a.iteration := ha.marker_ne_boundaryMarker hc
  rw [Tapes.Reading.cell, if_neg hmark, if_neg hedge, Alphabet.marker, Symbol.unmark?_marker]
  simp only [Tapes.Reading.setHead, hr]
  rfl

theorem cell_boundary {n : Nat} (hr : r.head = some n) : r.cell a.iteration Symbol.boundary =
    .ok ⟨⟨r.closed.tapes ++ [r.tape.toList], r.closed.heads ++ [n]⟩, #[], none⟩ := by
  rw [Tapes.Reading.cell, if_pos rfl, Tapes.Reading.close, hr]

theorem cell_boundaryMarker (ha : a.Proper) (hr : r.head = none) :
    r.cell a.iteration a.boundaryMarker =
      .ok ⟨⟨r.closed.tapes ++ [r.tape.toList], r.closed.heads ++ [r.tape.size]⟩, #[], none⟩ := by
  have hb : a.boundaryMarker ≠ Symbol.boundary :=
    ha.marker_ne_of_mem_unmarked Alphabet.boundary_mem_unmarked
  have hm : a.boundaryMarker = Symbol.boundary.marker a.iteration := rfl
  rw [Tapes.Reading.cell, if_neg hb, if_pos hm]
  simp only [Tapes.Reading.setHead, hr]
  rfl

theorem foldlM_cell_of_mem (ha : a.Proper) {t : List Symbol} (ht : ∀ c ∈ t, c ∈ a.symbols)
    (r : Tapes.Reading) :
    t.foldlM (Tapes.Reading.cell a.iteration) r = .ok { r with tape := r.tape ++ t.toArray } := by
  induction t generalizing r with
  | nil => simp [pure, Except.pure]
  | cons c t ih =>
    rw [List.foldlM_cons, cell_of_mem ha (ht c List.mem_cons_self)]
    refine (ih (fun x hx => ht x (List.mem_cons_of_mem c hx)) (r.push c)).trans ?_
    simp [Tapes.Reading.push]

/-- A strip is read as its tape and head. -/
theorem foldlM_cell_cells (ha : a.Proper) (hs : s.Over a) (closed : Tapes) :
    (s.cells a).foldlM (Tapes.Reading.cell a.iteration) ⟨closed, #[], none⟩ =
      .ok ⟨⟨closed.tapes ++ [s.tape], closed.heads ++ [s.head]⟩, #[], none⟩ := by
  rw [cells, List.foldlM_append, foldlM_cell_of_mem ha hs.before_mem, except_ok_bind,
    List.foldlM_cons]
  cases hf : s.after with
  | nil =>
    have hunder : a.marker s.under = a.boundaryMarker := by
      simp [under, hf, Alphabet.boundaryMarker]
    have hrest : s.rest = [] := by simp [rest, hf]
    rw [hunder, hrest, cell_boundaryMarker ha rfl, except_ok_bind, List.foldlM_nil]
    simp [pure, Except.pure, tape, head, hf]
  | cons x v =>
    have hunder : s.under = x := by simp [under, hf]
    have hrest : s.rest = v ++ [Symbol.boundary] := by simp [rest, hf]
    have hx := hs.after_mem x (by simp [hf])
    rw [hunder, hrest, cell_marker ha hx rfl, except_ok_bind, List.foldlM_append,
      foldlM_cell_of_mem ha fun c hc => hs.after_mem c (by simp [hf, hc]), except_ok_bind,
      List.foldlM_cons, cell_boundary rfl, except_ok_bind, List.foldlM_nil]
    simp [pure, Except.pure, tape, head, hf]

theorem foldlM_cell_strips (ha : a.Proper) (hs : ∀ s ∈ strips, s.Over a) (closed : Tapes) :
    (strips.flatMap (cells a)).foldlM (Tapes.Reading.cell a.iteration) ⟨closed, #[], none⟩ =
      .ok ⟨⟨closed.tapes ++ strips.map tape, closed.heads ++ strips.map head⟩, #[], none⟩ := by
  induction strips generalizing closed with
  | nil => simp [pure, Except.pure]
  | cons s strips ih =>
    rw [List.flatMap_cons, List.foldlM_append, foldlM_cell_cells ha (hs s List.mem_cons_self)]
    refine (ih (fun t ht => hs t (List.mem_cons_of_mem s ht)) _).trans ?_
    simp

end Reading

theorem flatMap_cells_mem (hs : ∀ s ∈ strips, s.Over a) :
    ∀ c ∈ strips.flatMap (cells a), c ∈ a.library := by
  intro c hc
  obtain ⟨s, hmem, hc⟩ := List.mem_flatMap.mp hc
  exact (hs s hmem).cells_mem c hc

/-- **The layout of strips is read back as their tapes and heads.** -/
theorem decode_layout (ha : a.Proper) (hs : ∀ s ∈ strips, s.Over a) (junk : List Symbol) :
    Tapes.decode (layout a strips ++ junk) a.iteration =
      .ok ⟨strips.map tape, strips.map head⟩ := by
  have hend : ∀ c ∈ strips.flatMap (cells a), (c ≠ Symbol.tapeEnd) = true := by
    intro c hc
    simpa using ha.ne_tapeEnd (flatMap_cells_mem hs c hc)
  have htake : (strips.flatMap (cells a) ++ Symbol.tapeEnd :: junk).takeWhile (· ≠ Symbol.tapeEnd) =
      strips.flatMap (cells a) := by
    rw [List.takeWhile_append_of_pos (by simpa using hend)]
    simp
  simp only [layout, List.cons_append, List.append_assoc, List.nil_append, Tapes.decode, ne_eq,
    not_true_eq_false, if_false]
  rw [htake, Tapes.Reading.start, foldlM_cell_strips ha hs]
  simp [bind, Except.bind, pure, Except.pure]

/-! ## Writing a layout -/

/-- A tape cut at its head, extended with blanks up to it. -/
def ofTape (tape : List Symbol) (head : Nat) : Strip :=
  ⟨(Tapes.padTo head tape).take head, (Tapes.padTo head tape).drop head⟩

theorem tape_ofTape (tape : List Symbol) (head : Nat) :
    (ofTape tape head).tape = Tapes.padTo head tape :=
  List.take_append_drop ..

theorem head_ofTape (tape : List Symbol) (head : Nat) : (ofTape tape head).head = head := by
  simp only [ofTape, Strip.head, List.length_take, Tapes.length_padTo]
  omega

theorem modify_length_append (u v : List Symbol) (c : Symbol) (f : Symbol → Symbol) :
    (u ++ c :: v).modify u.length f = u ++ f c :: v := by
  induction u with
  | nil => rfl
  | cons x u ih => simpa using ih

/-- The block of a tape is the strip of that tape. -/
theorem block_eq_cells (tape : List Symbol) (head : Nat) :
    Tapes.block a.iteration tape head = (ofTape tape head).cells a := by
  have hsplit : Tapes.padTo head tape ++ [Symbol.boundary] =
      (ofTape tape head).before ++ (ofTape tape head).under :: (ofTape tape head).rest := by
    rw [under_cons_rest, ← List.append_assoc]
    exact congrArg (· ++ [Symbol.boundary]) (tape_ofTape tape head).symm
  have hmod := modify_length_append (ofTape tape head).before (ofTape tape head).rest
    (ofTape tape head).under (·.marker a.iteration)
  have hlen : (ofTape tape head).before.length = head := head_ofTape tape head
  rw [hlen] at hmod
  rw [Tapes.block, hsplit, hmod]
  rfl

theorem mem_padTo {n : Nat} {t : List Symbol} {c : Symbol} (h : c ∈ Tapes.padTo n t) :
    c ∈ t ∨ c = Symbol.blank := by
  rcases List.mem_append.mp h with h | h
  · exact .inl h
  · exact .inr (List.eq_of_mem_replicate h)

theorem over_ofTape (ha : a.Proper) {tape : List Symbol} (h : ∀ c ∈ tape, c ∈ a.symbols)
    (head : Nat) :
    (ofTape tape head).Over a := by
  intro c hc
  rw [tape_ofTape] at hc
  rcases mem_padTo hc with hc | rfl
  · exact h c hc
  · exact ha.blank_mem

/-! ## Showing several tapes -/

theorem cellAt_map_escape (iteration : Nat) (t : List Symbol) (j : Nat) :
    Tapes.cellAt (t.map (·.escape iteration)) j = (Tapes.cellAt t j).escape iteration :=
  Tapes.cellAt_map (·.escape iteration) (Symbol.escape_blank iteration) t j

/-- Strips show tapes with their heads, one by one. -/
inductive ShowsAll (iteration : Nat) : List Strip → List (List Symbol) → List Nat → Prop
  | nil : ShowsAll iteration [] [] []
  | cons {s : Strip} {tape : List Symbol} {head : Nat} {strips : List Strip}
      {tapes : List (List Symbol)} {heads : List Nat} :
      s.Shows iteration tape head → ShowsAll iteration strips tapes heads →
      ShowsAll iteration (s :: strips) (tape :: tapes) (head :: heads)

variable {iteration : Nat} {tapes : List (List Symbol)} {heads : List Nat}

namespace ShowsAll

/-- Strips that show tapes have their normal form. -/
theorem normalized (h : ShowsAll iteration strips tapes heads) :
    (⟨strips.map tape, strips.map head⟩ : Tapes).normalized =
      (Tapes.map (·.escape iteration) ⟨tapes, heads⟩).normalized := by
  simp only [Tapes.normalized, Tapes.map, Tapes.mk.injEq]
  induction h with
  | nil => exact ⟨rfl, rfl⟩
  | cons hs _ ih =>
    simp only [List.map_cons, List.cons.injEq]
    refine ⟨⟨Tapes.dropBlanks_eq_of_cellAt fun j => ?_, ih.1⟩, hs.head, ih.2⟩
    rw [hs.cellAt, cellAt_map_escape]

/-- Strips read what the heads of the tapes read. -/
theorem read (h : ShowsAll iteration strips tapes heads) :
    strips.map Strip.read =
      ((Tapes.mk tapes heads).settle.underHeads).map (·.escape iteration) := by
  simp only [Tapes.settle, Tapes.underHeads]
  induction h with
  | nil => rfl
  | @cons s tape head strips tapes heads hs _ ih =>
    have hread : s.read = (Tapes.cellAt (Tapes.padTo (head + 1) tape) head).escape iteration := by
      rw [Tapes.cellAt_padTo, hs.read]
    simp only [List.map_cons, Tapes.settleCells, List.zipWith_cons_cons, ih]
    exact congrArg (· :: _) hread

/-- Strips show what becomes of the tapes by the actions of a rule. -/
theorem act (h : ShowsAll iteration strips tapes heads) {actions : List (Symbol × Direction)}
    (hlen : actions.length = strips.length) :
    ShowsAll iteration
      (List.zipWith (fun p s => s.act (p.1.escape iteration) p.2) actions strips)
      (Tapes.actAll actions (Tapes.settleCells tapes heads) heads).1
      (Tapes.actAll actions (Tapes.settleCells tapes heads) heads).2 := by
  induction h generalizing actions with
  | nil =>
    obtain rfl : actions = [] := by simpa using hlen
    exact .nil
  | cons hs _ ih =>
    cases actions with
    | nil => simp at hlen
    | cons p actions => exact .cons (hs.act p.1 p.2) (ih (by simpa using hlen))

end ShowsAll

/-- The strip of a tape with escaped symbols shows the tape. -/
theorem shows_ofTape (tape : List Symbol) (head : Nat) :
    (ofTape (tape.map (·.escape iteration)) head).Shows iteration tape head where
  head := head_ofTape ..
  cellAt j := by rw [tape_ofTape, Tapes.cellAt_padTo, cellAt_map_escape]

theorem showsAll_ofTape (h : tapes.length = heads.length) :
    ShowsAll iteration (List.zipWith ofTape (tapes.map (List.map (·.escape iteration))) heads)
      tapes heads := by
  induction tapes generalizing heads with
  | nil =>
    obtain rfl : heads = [] := by simpa using h.symm
    exact .nil
  | cons tape tapes ih =>
    cases heads with
    | nil => simp at h
    | cons head heads => exact .cons (shows_ofTape tape head) (ih (by simpa using h))

theorem flatten_blocks (tapes : List (List Symbol)) (heads : List Nat) :
    (List.zipWith (Tapes.block a.iteration) tapes heads).flatten =
      (List.zipWith ofTape tapes heads).flatMap (cells a) := by
  have hblock : Tapes.block a.iteration = fun tape head => (ofTape tape head).cells a := by
    funext tape head
    exact block_eq_cells tape head
  rw [hblock, List.flatMap_def, List.map_zipWith]

/-- **Tapes are laid out as their strips**, if there are any, each has a head, and no symbol is
reserved. -/
theorem encode_eq_ok_iff {t : Tapes} {cells : List Symbol} : t.encode a.iteration = .ok cells ↔
    t.tapes ≠ [] ∧ t.tapes.length = t.heads.length ∧
      (∀ tape ∈ t.tapes, ∀ c ∈ tape, c.isReserved = false) ∧
      layout a (List.zipWith ofTape t.tapes t.heads) = cells := by
  have hfree : (∀ tape ∈ t.tapes, ∀ c ∈ tape, c.isReserved = false) ↔
      t.tapes.flatten.find? Symbol.isReserved = none := by
    simp only [List.find?_eq_none, List.mem_flatten, Bool.not_eq_true]
    exact ⟨fun h c ⟨tape, ht, hc⟩ => h tape ht c hc, fun h tape ht c hc => h c ⟨tape, ht, hc⟩⟩
  rw [hfree]
  unfold Tapes.encode
  split_ifs with hempty hlength
  · simp_all
  · simp [hlength]
  · have hne : t.tapes ≠ [] := by simpa using hempty
    rw [not_not] at hlength
    cases t.tapes.flatten.find? Symbol.isReserved with
    | some c => simp
    | none => simp [hne, hlength, flatten_blocks, layout]

/-- Tapes with escaped symbols are laid out as their strips. -/
theorem encode_eq_layout (hne : tapes ≠ []) (hlen : tapes.length = heads.length) :
    (Tapes.map (·.escape a.iteration) ⟨tapes, heads⟩).encode a.iteration =
      .ok (layout a
        (List.zipWith ofTape (tapes.map (List.map (·.escape a.iteration))) heads)) := by
  refine encode_eq_ok_iff.mpr ⟨by simpa [Tapes.map] using hne, by simpa [Tapes.map] using hlen,
    ?_, rfl⟩
  intro t ht c hc
  obtain ⟨tape, -, rfl⟩ := List.mem_map.mp ht
  obtain ⟨x, -, rfl⟩ := List.mem_map.mp hc
  exact (Symbol.isPlain_escape x a.iteration).1

theorem encode_of_symbols (ha : a.Proper) {t : Tapes} (hne : t.tapes ≠ [])
    (hlen : t.tapes.length = t.heads.length) (hs : ∀ tape ∈ t.tapes, ∀ x ∈ tape, x ∈ a.symbols) :
    t.encode a.iteration = .ok (layout a (List.zipWith ofTape t.tapes t.heads)) :=
  encode_eq_ok_iff.mpr ⟨hne, hlen, fun tape ht x hx => (ha.plain x (hs tape ht x hx)).1, rfl⟩

theorem over_zipWith_ofTape (ha : a.Proper) {t : Tapes}
    (hs : ∀ tape ∈ t.tapes, ∀ x ∈ tape, x ∈ a.symbols) :
    ∀ s ∈ List.zipWith ofTape t.tapes t.heads, s.Over a := by
  intro s hmem
  obtain ⟨i, hi, rfl⟩ := List.getElem_of_mem hmem
  rw [List.getElem_zipWith]
  exact over_ofTape ha (hs _ (List.getElem_mem _)) _

end Strip
end OneTape
