import Mathlib.Data.List.Forall2
import OneTape.Proofs.Layout

/-!
# Writing and reading layouts

Reading a layout undoes writing it, and writing undoes reading. So a layout determines its tapes up
to the blanks in front of a head, and the cells up to the tape end are determined by the tapes.

Results:
* `decode_of_encode`: tapes with plain symbols are read back, extended with blanks up to their
  heads.
* `decode_encode_escape`: this applies to all tapes once their symbols are escaped, and then the
  cells tell the tapes.
* `Reading.Reads.cell`, `Reading.Reads.foldlM`: what has been read is the layout of strips and of
  the start of one more.
* `encode_of_decode`: the cells that are read as some tapes are the layout of these tapes.
-/

namespace OneTape

namespace Strip

theorem head_le_length (s : Strip) : s.head ≤ s.tape.length := by
  simp [head, tape]

/-- A strip is the tape that it holds, cut at the head that it holds. -/
theorem ofTape_tape_head (s : Strip) : ofTape s.tape s.head = s := by
  have hpad : Tapes.padTo s.head s.tape = s.tape := Tapes.padTo_eq_self s.head_le_length
  rw [ofTape, hpad]
  simp [head, tape]

end Strip

namespace Tapes

variable {iteration : Nat} {t : Tapes} {cells : List Symbol}

/-! ## Reading what was written -/

/-- The tapes extended with blanks up to their heads. -/
def padded (t : Tapes) : Tapes := { t with tapes := List.zipWith padTo t.heads t.tapes }

theorem map_tape_ofTape (tapes : List (List Symbol)) (heads : List Nat) :
    (List.zipWith Strip.ofTape tapes heads).map Strip.tape = List.zipWith padTo heads tapes := by
  rw [List.map_zipWith, List.zipWith_comm]
  simp only [Strip.tape_ofTape]

theorem map_head_ofTape {tapes : List (List Symbol)} {heads : List Nat}
    (h : tapes.length = heads.length) :
    (List.zipWith Strip.ofTape tapes heads).map Strip.head = heads := by
  rw [List.map_zipWith]
  simp only [Strip.head_ofTape]
  induction tapes generalizing heads with
  | nil =>
    obtain rfl : heads = [] := by simpa using h.symm
    rfl
  | cons tape tapes ih =>
    cases heads with
    | nil => simp at h
    | cons head heads => simpa using ih (by simpa using h)

/-- **Tapes with plain symbols are read back**, extended with blanks up to their heads. -/
theorem decode_of_encode (hplain : ∀ tape ∈ t.tapes, ∀ s ∈ tape, s.IsPlain iteration)
    (h : t.encode iteration = .ok cells) : decode cells iteration = .ok t.padded := by
  -- the smallest alphabet that the tapes are over
  let a : Alphabet := ⟨iteration, Symbol.blank :: t.tapes.flatten⟩
  have ha : a.Proper := by
    refine ⟨List.mem_cons_self, fun s hs => ?_⟩
    rcases List.mem_cons.mp hs with rfl | hs
    · exact Symbol.isPlain_blank
    · obtain ⟨tape, ht, hs⟩ := List.mem_flatten.mp hs
      exact hplain tape ht s hs
  obtain ⟨-, hlen, -, rfl⟩ := Strip.encode_eq_ok_iff (a := a).mp h
  have hover : ∀ s ∈ List.zipWith Strip.ofTape t.tapes t.heads, s.Over a := by
    intro s hs
    rw [← List.map_uncurry_zip_eq_zipWith] at hs
    obtain ⟨⟨tape, head⟩, hzip, rfl⟩ := List.mem_map.mp hs
    refine Strip.over_ofTape ha (fun c hc => List.mem_cons_of_mem _ ?_) head
    exact List.mem_flatten.mpr ⟨tape, (List.of_mem_zip hzip).1, hc⟩
  have hread := Strip.decode_layout ha hover []
  rw [List.append_nil, map_tape_ofTape, map_head_ofTape hlen] at hread
  exact hread

theorem isPlain_of_mem_escape {tape : List Symbol} (h : tape ∈ (t.map (·.escape iteration)).tapes) :
    ∀ s ∈ tape, s.IsPlain iteration := by
  intro s hs
  obtain ⟨tape, -, rfl⟩ := List.mem_map.mp h
  obtain ⟨x, -, rfl⟩ := List.mem_map.mp hs
  exact Symbol.isPlain_escape x iteration

theorem padTo_map_escape (n : Nat) (tape : List Symbol) :
    padTo n (tape.map (·.escape iteration)) = (padTo n tape).map (·.escape iteration) := by
  simp [padTo]

theorem padded_map_escape (t : Tapes) :
    (t.map (·.escape iteration)).padded = t.padded.map (·.escape iteration) := by
  simp only [padded, map, List.zipWith_map_right, List.map_zipWith, padTo_map_escape]

theorem map_escape_injective {s t : Tapes}
    (h : s.map (·.escape iteration) = t.map (·.escape iteration)) :
    s = t := by
  obtain ⟨tapes, heads⟩ := s
  obtain ⟨tapes', heads'⟩ := t
  simp only [map, mk.injEq] at h ⊢
  refine ⟨List.map_injective_iff.mpr (fun _ _ => Machine.map_escape_injective) h.1, h.2⟩

/-- **Reading undoes writing.** All tapes with as many heads can be laid out once their symbols are
escaped, wherever the heads are. What is read back are the escaped tapes with the same heads,
extended with blanks up to them, so tapes with the same layout have the same heads and differ in
such blanks only. -/
theorem decode_encode_escape (t : Tapes) (iteration : Nat) (hne : t.tapes ≠ [])
    (hlen : t.tapes.length = t.heads.length) :
    ∃ cells, (t.map (·.escape iteration)).encode iteration = .ok cells ∧
      decode cells iteration = .ok (t.map (·.escape iteration)).padded ∧
      ∀ t' : Tapes, (t'.map (·.escape iteration)).encode iteration = .ok cells →
        t'.padded = t.padded := by
  have hcode := Strip.encode_eq_layout (a := ⟨iteration, []⟩) hne hlen
  have hread := decode_of_encode (fun _ => isPlain_of_mem_escape) hcode
  refine ⟨_, hcode, hread, fun t' hcode' => ?_⟩
  have hread' := decode_of_encode (fun _ => isPlain_of_mem_escape) hcode'
  have hpadded := Except.ok.inj (hread'.symm.trans hread)
  rw [padded_map_escape, padded_map_escape] at hpadded
  exact map_escape_injective hpadded

/-- Reserved symbols, a marker and an escape character are read back escaped, and a head past the
end of an empty tape is met again. -/
theorem decode_encode_reserved :
    let t : Tapes := ⟨[[Symbol.boundary, ⟨"a.1"⟩, ⟨"\\"⟩], []], [0, 2]⟩
    t.tapes ≠ [] ∧ t.tapes.length = t.heads.length ∧
      ∃ cells, (t.map (·.escape 1)).encode 1 = .ok cells ∧ decode cells 1 =
        .ok ⟨[[⟨"\\#\\"⟩, ⟨"\\a.1\\"⟩, ⟨"\\\\\\"⟩], [Symbol.blank, Symbol.blank]], [0, 2]⟩ := by
  refine ⟨by decide, by decide, ?_⟩
  obtain ⟨cells, hcode, hread, -⟩ := decode_encode_escape
    ⟨[[Symbol.boundary, ⟨"a.1"⟩, ⟨"\\"⟩], []], [0, 2]⟩ 1 (by decide) (by decide)
  exact ⟨cells, hcode, hread.trans (by decide +kernel)⟩

/-! ## Writing what was read -/

namespace Reading

variable {a : Alphabet} {r r' : Reading} {c : Symbol} {done : List Symbol}

/-- The cells that have been read of a tape that is not closed yet. Once its head has been met, one
of them is marked. -/
def Opens (a : Alphabet) (tape : List Symbol) : Option Nat → List Symbol → Prop
  | none, current => current = tape
  | some n, current => ∃ before x rest, tape = before ++ x :: rest ∧ n = before.length ∧
      current = before ++ a.marker x :: rest

/-- The cells of `done` have been read: they are the layout of strips for the tapes that are closed,
and the cells of the tape being read. -/
def Reads (a : Alphabet) (done : List Symbol) (r : Reading) : Prop :=
  ∃ (strips : List Strip) (current : List Symbol),
    r.closed = ⟨strips.map Strip.tape, strips.map Strip.head⟩ ∧
    Opens a r.tape.toList r.head current ∧
      done = strips.flatMap (Strip.cells a) ++ current

theorem reads_start (a : Alphabet) : Reads a [] start := ⟨[], [], rfl, rfl, rfl⟩

theorem setHead_eq_ok (h : r.setHead = .ok r') :
    r.head = none ∧ r' = { r with head := some r.tape.size } := by
  unfold setHead at h
  split at h
  · cases h
  · next hr => exact ⟨hr, (Except.ok.inj h).symm⟩

theorem close_eq_ok (h : r.close = .ok r') : ∃ n, r.head = some n ∧
    r' = ⟨⟨r.closed.tapes ++ [r.tape.toList], r.closed.heads ++ [n]⟩, #[], none⟩ := by
  unfold close at h
  split at h
  · cases h
  · next n hr => exact ⟨n, hr, (Except.ok.inj h).symm⟩

namespace Reads

/-- A boundary closes a tape whose head has been met. -/
theorem close (h : Reads a done r) (hc : r.close = .ok r') :
    Reads a (done ++ [Symbol.boundary]) r' := by
  obtain ⟨n, hhead, rfl⟩ := close_eq_ok hc
  obtain ⟨strips, current, hclosed, hopens, rfl⟩ := h
  rw [hhead] at hopens
  obtain ⟨before, x, rest, htape, rfl, rfl⟩ := hopens
  refine ⟨strips ++ [⟨before, x :: rest⟩], [], ?_, rfl, ?_⟩
  · simp [hclosed, htape, Strip.tape, Strip.head]
  · simp [Strip.cells, Strip.under, Strip.rest]

/-- A boundary with a head on it closes a tape whose head has not been met. -/
theorem closeMarked (h : Reads a done r) (hr : r.head = none)
    (hc : ({ r with head := some r.tape.size } : Reading).close = .ok r') :
    Reads a (done ++ [a.boundaryMarker]) r' := by
  obtain ⟨n, hhead, rfl⟩ := close_eq_ok hc
  obtain ⟨strips, current, hclosed, hopens, rfl⟩ := h
  rw [hr] at hopens
  obtain rfl : current = r.tape.toList := hopens
  obtain rfl : r.tape.size = n := Option.some.inj hhead
  refine ⟨strips ++ [⟨r.tape.toList, []⟩], [], ?_, rfl, ?_⟩
  · simp [hclosed, Strip.tape, Strip.head]
  · simp [Strip.cells, Strip.under, Strip.rest, Alphabet.boundaryMarker]

/-- The marker of a symbol sets the head. -/
theorem mark (h : Reads a done r) (hr : r.head = none) (x : Symbol) :
    Reads a (done ++ [a.marker x]) (({ r with head := some r.tape.size } : Reading).push x) := by
  obtain ⟨strips, current, hclosed, hopens, rfl⟩ := h
  rw [hr] at hopens
  obtain rfl : current = r.tape.toList := hopens
  refine ⟨strips, r.tape.toList ++ [a.marker x], hclosed, ?_, by simp⟩
  exact ⟨r.tape.toList, x, [], by simp [Reading.push], by simp, rfl⟩

/-- Any other symbol is one of the tape. -/
theorem push (h : Reads a done r) (c : Symbol) : Reads a (done ++ [c]) (r.push c) := by
  obtain ⟨strips, current, hclosed, hopens, rfl⟩ := h
  refine ⟨strips, current ++ [c], hclosed, ?_, by simp⟩
  change Opens a (r.tape.push c).toList r.head _
  cases hr : r.head with
  | none =>
    rw [hr] at hopens
    obtain rfl : current = r.tape.toList := hopens
    exact (Array.toList_push ..).symm
  | some n =>
    rw [hr] at hopens
    obtain ⟨before, x, rest, htape, rfl, rfl⟩ := hopens
    exact ⟨before, x, rest ++ [c], by simp [htape], rfl, by simp⟩

/-- **One more cell.** -/
theorem cell (h : Reads a done r) (hc : r.cell a.iteration c = .ok r') :
    Reads a (done ++ [c]) r' := by
  unfold Reading.cell at hc
  split_ifs at hc with hboundary hmarker
  · rw [hboundary]
    exact h.close hc
  · obtain ⟨r₁, hset, hclose⟩ := except_bind_eq_ok_iff.mp hc
    obtain ⟨hr, rfl⟩ := setHead_eq_ok hset
    rw [hmarker]
    exact h.closeMarked hr hclose
  · cases hx : c.unmark? a.iteration with
    | some x =>
      rw [hx] at hc
      obtain ⟨r₁, hset, hpush⟩ := except_bind_eq_ok_iff.mp hc
      obtain ⟨hr, rfl⟩ := setHead_eq_ok hset
      cases hpush
      rw [Symbol.eq_marker_of_unmark? hx]
      exact h.mark hr x
    | none =>
      rw [hx] at hc
      cases hc
      exact h.push c

/-- **Any number of cells**, by induction on them. -/
theorem foldlM (h : Reads a done r) {cells : List Symbol}
    (hc : cells.foldlM (Reading.cell a.iteration) r = .ok r') : Reads a (done ++ cells) r' := by
  induction cells generalizing done r with
  | nil =>
    cases hc
    simpa using h
  | cons c cells ih =>
    rw [List.foldlM_cons] at hc
    obtain ⟨r₁, hfirst, hrest⟩ := except_bind_eq_ok_iff.mp hc
    simpa using ih (h.cell hfirst) hrest

end Reads
end Reading

/-- The cells of a tape up to the tape end. -/
def untilEnd (cells : List Symbol) : List Symbol :=
  cells.takeWhile (· ≠ Symbol.tapeEnd) ++ [Symbol.tapeEnd]

/-- Cells that can be read begin with the layout of strips. -/
theorem exists_strips_of_decode {a : Alphabet} (h : decode cells a.iteration = .ok t) :
    ∃ strips : List Strip, t = ⟨strips.map Strip.tape, strips.map Strip.head⟩ ∧
      Strip.layout a strips = untilEnd cells ∧ Symbol.tapeEnd ∈ cells := by
  unfold decode at h
  split at h
  · cases h
  · next first rest =>
    split_ifs at h with hfirst
    rw [ne_eq, not_not] at hfirst
    subst hfirst
    obtain ⟨r, hread, hclosing⟩ := except_bind_eq_ok_iff.mp h
    split_ifs at hclosing with hend
    cases hclosing
    simp only [Bool.and_eq_true, List.contains_iff_mem, Array.isEmpty_iff,
      Option.isNone_iff_eq_none] at hend
    obtain ⟨⟨hmem, htape⟩, hhead⟩ := hend
    obtain ⟨strips, current, hclosed, hopens, hcells⟩ := (Reading.reads_start a).foldlM hread
    rw [htape, hhead] at hopens
    obtain rfl : current = [] := hopens
    refine ⟨strips, hclosed, ?_, List.mem_cons_of_mem _ hmem⟩
    have hne : Symbol.boundary ≠ Symbol.tapeEnd := by decide
    rw [untilEnd, List.takeWhile_cons_of_pos (by simpa using hne)]
    simp only [List.nil_append, List.append_nil] at hcells
    rw [hcells]
    rfl

theorem zipWith_ofTape_strips (strips : List Strip) :
    List.zipWith Strip.ofTape (strips.map Strip.tape) (strips.map Strip.head) = strips := by
  induction strips with
  | nil => rfl
  | cons s strips ih => simp [Strip.ofTape_tape_head, ih]

theorem untilEnd_isPrefix (h : Symbol.tapeEnd ∈ cells) : untilEnd cells <+: cells := by
  induction cells with
  | nil => cases h
  | cons c cells ih =>
    by_cases hc : c = Symbol.tapeEnd
    · subst hc
      exact ⟨cells, by simp [untilEnd]⟩
    · obtain ⟨rest, hrest⟩ := ih (by simpa [Ne.symm hc] using h)
      refine ⟨rest, ?_⟩
      rw [untilEnd, List.takeWhile_cons_of_pos (by simpa using hc)]
      exact congrArg (c :: ·) hrest

/-- **Writing undoes reading.** What is read has as many heads as tapes, each on its tape or on the
boundary that closes it. If there are tapes and no reserved symbol on them, then their layout is the
part of the cells up to the tape end, and other cells that are read as these tapes have the same
cells up to there. -/
theorem encode_of_decode (cells : List Symbol) (iteration : Nat) (t : Tapes)
    (h : decode cells iteration = .ok t) :
    t.heads.length = t.tapes.length ∧
      List.Forall₂ (fun head tape => head ≤ tape.length) t.heads t.tapes ∧
      (t.tapes ≠ [] → (∀ tape ∈ t.tapes, ∀ s ∈ tape, s.isReserved = false) →
        t.encode iteration = .ok (untilEnd cells) ∧ untilEnd cells <+: cells ∧
          ∀ cells', decode cells' iteration = .ok t → untilEnd cells' = untilEnd cells) := by
  have hcode : ∀ {cells}, decode cells iteration = .ok t → t.tapes ≠ [] →
      (∀ tape ∈ t.tapes, ∀ s ∈ tape, s.isReserved = false) →
        t.encode iteration = .ok (untilEnd cells) := by
    intro cells h hne hfree
    obtain ⟨strips, rfl, hlayout, -⟩ := exists_strips_of_decode (a := ⟨iteration, []⟩) h
    refine Strip.encode_eq_ok_iff (a := ⟨iteration, []⟩).mpr ⟨hne, by simp, hfree, ?_⟩
    rw [zipWith_ofTape_strips, hlayout]
  obtain ⟨strips, hstrips, -, hend⟩ := exists_strips_of_decode (a := ⟨iteration, []⟩) h
  refine ⟨by simp [hstrips], ?_, fun hne hfree => ⟨hcode h hne hfree, untilEnd_isPrefix hend, ?_⟩⟩
  · rw [hstrips, List.forall₂_map_left_iff, List.forall₂_map_right_iff, List.forall₂_same]
    exact fun s _ => s.head_le_length
  · intro cells' h'
    exact Except.ok.inj ((hcode h' hne hfree).symm.trans (hcode h hne hfree))

/-- The marker of a marker, the marker of the empty text and a marked boundary are cells of a
layout; what stands behind the tape end is not. -/
theorem encode_of_decode_markers :
    let cells : List Symbol :=
      [Symbol.boundary, ⟨"a.1.1"⟩, Symbol.boundary, ⟨".1"⟩, ⟨"a.2"⟩, Symbol.boundary, ⟨"#.1"⟩,
        Symbol.tapeEnd, Symbol.returnMark]
    let t : Tapes := ⟨[[⟨"a.1"⟩], [⟨""⟩, ⟨"a.2"⟩], []], [0, 0, 0]⟩
    decode cells 1 = .ok t ∧ t.encode 1 = .ok (cells.take 8) := by
  have hread : decode [Symbol.boundary, ⟨"a.1.1"⟩, Symbol.boundary, ⟨".1"⟩, ⟨"a.2"⟩,
      Symbol.boundary, ⟨"#.1"⟩, Symbol.tapeEnd, Symbol.returnMark] 1 =
      .ok ⟨[[⟨"a.1"⟩], [⟨""⟩, ⟨"a.2"⟩], []], [0, 0, 0]⟩ := by
    decide
  obtain ⟨-, -, hcode⟩ := encode_of_decode _ 1 _ hread
  exact ⟨hread, (hcode (by decide) (by decide)).1⟩

end Tapes
end OneTape
