import Mathlib.Data.List.Forall2
import Mathlib.Data.Option.NAry
import OneTape.Proofs.Description.Locality

/-!
# Reading a text line by line

A text is cut at its line ends. Whether it is a description, and what it then says, is decided by
each piece on its own: the reader comes to the end of a piece, crosses the line end, and goes on as
at the start of a text.

Results:
* `cutInduction`: induction over the lines of a text.
* `fromBreak_along`: the reader at the start of a line.
* `said_cut`: a text says what its first line says, and then what the rest says.
* `said_pieces`: a text says what its pieces say.
-/

namespace OneTape.Description

variable {w T rest : List Char} {c d e b : Cursor} {nodes : List Node} {a : Attempts} {x : Char}

/-! ## Pieces -/

/-- The pieces of a text between its line ends. -/
def pieces (T : List Char) : List (List Char) := T.splitOnP isLineEnd

theorem pieces_of_oneLine (h : OneLine w) : pieces w = [w] := List.splitOnP_eq_singleton h

theorem pieces_cut (hw : OneLine w) (hx : isLineEnd x = true) (T : List Char) :
    pieces (w ++ x :: T) = w :: pieces T :=
  List.splitOnP_append_cons_of_forall_mem hw x hx T

/-- Induction over the lines of a text. -/
theorem cutInduction {P : List Char → Prop} (last : ∀ w, OneLine w → P w)
    (cut : ∀ w x T, OneLine w → isLineEnd x = true → P T → P (w ++ x :: T))
    (T : List Char) : P T := by
  induction hn : T.length using Nat.strong_induction_on generalizing T with
  | _ n ih =>
    have hsplit := List.takeWhile_append_dropWhile (p := (!isLineEnd ·)) (l := T)
    have hline : OneLine (T.takeWhile (!isLineEnd ·)) := fun y hy => by
      simpa using List.mem_takeWhile_imp hy
    have hend := atLineEnd_dropWhile T
    cases hrest : T.dropWhile (!isLineEnd ·) with
    | nil =>
      rw [hrest, List.append_nil] at hsplit
      rw [← hsplit]
      exact last _ hline
    | cons x T' =>
      rw [hrest] at hsplit hend
      have hlt : T'.length < n := by
        rw [← hn, ← hsplit]
        simp only [List.length_append, List.length_cons]
        omega
      rw [← hsplit]
      exact cut _ x T' hline (hend x rfl) (ih _ hlt T' rfl)

/-! ## Line ends -/

theorem lineEnd?_of_stops (h : Stops isLineEnd c.rest) : lineEnd? c = none :=
  lineEnd?_eq_none (i := c.pos) h

/-- Behind a line end, the empty lines go on as behind its first character. -/
theorem lineEnd?_cons (hx : isLineEnd x = true) (i : Nat) (T : List Char) :
    ∃ b, lineEnd? ⟨i, x :: T⟩ = some b ∧ emptyLines b = emptyLines ⟨i + 1, T⟩ := by
  simp only [isLineEnd, Bool.or_eq_true, decide_eq_true_eq] at hx
  rcases hx with rfl | rfl
  · exact ⟨_, lineEnd?_newline i T, rfl⟩
  · by_cases hT : ∃ T', T = '\n' :: T'
    · -- a line feed that follows belongs to the line end
      obtain ⟨T', rfl⟩ := hT
      refine ⟨⟨i + 2, T'⟩, rfl, (emptyLines_of_some ?_).symm⟩
      rw [skip_newline]
      exact lineEnd?_newline (i + 1) T'
    · refine ⟨⟨i + 1, T⟩, ?_, rfl⟩
      unfold lineEnd?
      split
      · next heq => exact absurd ⟨_, (List.cons.inj heq).2⟩ hT
      · rfl
      · rfl
      · next hno => exact absurd rfl (hno T)

/-! ## The start of a line -/

/-- Reads lines from the start of a line and adds them to those read before. -/
def fromBreak (c : Cursor) (nodes : List Node) (a : Attempts) : Progress :=
  let t := line (emptyLines c)
  match t.found with
  | none => ⟨nodes.reverse, emptyLines c, t.note a⟩
  | some (n, e) => lines e (n :: nodes) (t.note a)

theorem progress_eq (T : List Char) : progress T = fromBreak ⟨0, T⟩ [] .start := rfl

theorem fromBreak_congr (h : emptyLines c = emptyLines d) :
    fromBreak c nodes a = fromBreak d nodes a := by
  simp only [fromBreak, h]

theorem lines_of_end (h : lineEnd? (skip c) = none) :
    lines c nodes a = ⟨nodes.reverse, skip c, a⟩ := by
  rw [lines]
  split
  · rfl
  · next hsome => cases h.symm.trans hsome

theorem lines_of_break (h : lineEnd? (skip c) = some b) :
    lines c nodes a = fromBreak b nodes a := by
  rw [lines]
  split
  · next hnone => cases h.symm.trans hnone
  · next b' hsome =>
    obtain rfl := Option.some.inj (h.symm.trans hsome)
    unfold fromBreak
    dsimp only
    split
    · next hfound => rw [hfound]
    · next hfound => rw [hfound]

/-- The reader crosses a line end and is at the start of a line. -/
theorem lines_crossing (hx : isLineEnd x = true) (h : (skip c).rest = x :: T) :
    lines c nodes a = fromBreak ⟨(skip c).pos + 1, T⟩ nodes a := by
  obtain ⟨b, hb, hempty⟩ := lineEnd?_cons hx (skip c).pos T
  rw [← h] at hb
  rw [lines_of_break hb, fromBreak_congr hempty]

theorem line_eq_none_of_nil (h : c.rest = []) : (line c).found = none := by
  cases hfound : (line c).found with
  | none => rfl
  | some p =>
    have hlt := line_rest_length_lt (show (line c).found = some (p.1, p.2) from hfound)
    simp [h] at hlt

/-- At an empty line the reader is as far as behind a line. -/
theorem fromBreak_silent (nodes : List Node) (a : Attempts) (h : AtLineEnd (skip c).rest) :
    ∃ a', fromBreak c nodes a = lines c nodes a' := by
  cases hrest : (skip c).rest with
  | nil =>
    have hend : lineEnd? (skip c) = none := lineEnd?_of_stops (by simp [hrest, Stops])
    refine ⟨(line (skip c)).note a, ?_⟩
    rw [lines_of_end hend, fromBreak, emptyLines_of_none hend]
    simp only [line_eq_none_of_nil hrest]
  | cons x T =>
    obtain ⟨b, hb, -⟩ := lineEnd?_cons (h x (by simp [hrest])) (skip c).pos T
    rw [← hrest] at hb
    exact ⟨a, by rw [lines_of_break hb, fromBreak_congr (emptyLines_of_some hb)]⟩

/-! ## What a text says -/

variable {g : String → String}

/-- What the lines say if the reader has come to the end of the text. -/
def Progress.said (g : String → String) (p : Progress) : Option (List Content) :=
  if p.stop.rest = [] then some (p.nodes.map (Node.said g)) else none

/-- What a text says if it is a description, with names seen by `g`. -/
def said (g : String → String) (T : List Char) : Option (List Content) := (progress T).said g

theorem said_eq_some_iff {C : List Content} :
    said g T = some C ↔ ∃ nodes, machine T = .ok nodes ∧ nodes.map (Node.said g) = C := by
  simp only [said, Progress.said, machine, List.isEmpty_iff]
  split_ifs with h
  · simp
  · simp

/-- What the line at a place says if nothing else follows. -/
def lineSaid (g : String → String) (c : Cursor) : Option (List Content) :=
  match (line (skip c)).found with
  | none => if (skip c).rest = [] then some [] else none
  | some (n, e) => if (skip e).rest = [] then some [n.said g] else none

theorem OneLine.stops_append (hw : OneLine w) (hne : w ≠ []) (rest : List Char) :
    Stops isLineEnd (w ++ rest) := by
  obtain ⟨y, w, rfl⟩ := List.exists_cons_of_ne_nil hne
  intro x hx
  obtain rfl : y = x := by simpa using hx
  exact hw y List.mem_cons_self

/-- **The reader at the start of a line** stops in it, if the line on its own says nothing, or comes
to its end with what the line says. -/
theorem fromBreak_along (hrest : AtLineEnd rest) (h : Along (· = rest) c d) (nodes : List Node)
    (a : Attempts) :
    lineSaid g d = none ∧ (fromBreak c nodes a).said g = none ∨
      ∃ (found : List Node) (e : Cursor) (a' : Attempts),
        lineSaid g d = some (found.map (Node.said g)) ∧ (skip e).rest = rest ∧
        fromBreak c nodes a = lines e (found.reverse ++ nodes) a' := by
  have hK := inert_atLineEnd hrest g
  obtain ⟨hline, t, rfl, happend⟩ := skip_along hK h.beyond
  by_cases hnil : (skip d).rest = []
  · right
    rw [hnil, List.nil_append] at happend
    obtain ⟨a', ha'⟩ := fromBreak_silent nodes a (happend ▸ hrest)
    refine ⟨[], c, a', ?_, happend, ha'⟩
    simp [lineSaid, line_eq_none_of_nil hnil, hnil]
  · have hempty : emptyLines c = skip c := by
      refine emptyLines_of_none (lineEnd?_of_stops ?_)
      rw [happend]
      exact hline.stops_append hnil _
    have hread := line_along hK (skip_along hK h.beyond)
    rcases hread.eq_none_or_some with ⟨hc, hd⟩ | ⟨n, e, n', e', hc, hd, hn, he⟩
    · left
      constructor
      · simp only [lineSaid, hd, if_neg hnil]
      · simp [fromBreak, hempty, hc, Progress.said, happend, hnil]
    · have hlines : fromBreak c nodes a = lines e (n :: nodes) ((line (skip c)).note a) := by
        simp only [fromBreak, hempty, hc]
      obtain ⟨hline', t, rfl, happend'⟩ := skip_along hK he
      by_cases hover : (skip e').rest = []
      · right
        refine ⟨[n], e, _, ?_, by rw [happend', hover, List.nil_append], hlines⟩
        simp only [lineSaid, hd, if_pos hover, List.map_cons, List.map_nil, hn]
      · left
        have hend : lineEnd? (skip e) = none := by
          refine lineEnd?_of_stops ?_
          rw [happend']
          exact hline'.stops_append hover _
        constructor
        · simp only [lineSaid, hd, if_neg hover]
        · simp [hlines, lines_of_end hend, Progress.said, happend', hover]

theorem said_lines_of_end (h : (skip c).rest = []) :
    (lines c nodes a).said g = some (nodes.reverse.map (Node.said g)) := by
  have hend : lineEnd? (skip c) = none := lineEnd?_of_stops (by simp [h, Stops])
  simp [lines_of_end hend, Progress.said, h]

/-- The last line of a text. -/
theorem said_fromBreak_last (hw : OneLine w) (i : Nat) (nodes : List Node) (a : Attempts) :
    (fromBreak ⟨i, w⟩ nodes a).said g =
      (lineSaid g ⟨0, w⟩).map (nodes.reverse.map (Node.said g) ++ ·) := by
  have halong : Along (· = []) ⟨i, w⟩ ⟨0, w⟩ := ⟨hw, [], rfl, by simp⟩
  rcases fromBreak_along (g := g) atLineEnd_nil halong nodes a with
    ⟨hnone, hstop⟩ | ⟨found, e, a', hfound, he, hlines⟩
  · rw [hnone, hstop, Option.map_none]
  · rw [hfound, hlines, said_lines_of_end he]
    simp

theorem said_of_oneLine (hw : OneLine w) : said g w = lineSaid g ⟨0, w⟩ := by
  rw [said, progress_eq, said_fromBreak_last hw]
  simp

/-- What several texts say, one after the other. -/
def saidAll (g : String → String) : List (List Char) → Option (List Content)
  | [] => some []
  | w :: ws => Option.map₂ (· ++ ·) (said g w) (saidAll g ws)

theorem saidAll_singleton (w : List Char) : saidAll g [w] = said g w := by
  cases h : said g w <;> simp [saidAll, h]

theorem saidAll_append (v w : List (List Char)) :
    saidAll g (v ++ w) = Option.map₂ (· ++ ·) (saidAll g v) (saidAll g w) := by
  induction v with
  | nil => simp [saidAll]
  | cons u v ih =>
    rw [List.cons_append, saidAll, saidAll, ih, Option.map₂_assoc List.append_assoc]

/-- Several texts say what their lines say. -/
theorem saidAll_eq_some_iff {ws : List (List Char)} {C : List Content} : saidAll g ws = some C ↔
    ∃ parts, List.Forall₂ (fun w part => machine w = .ok part) ws parts ∧
      parts.flatten.map (Node.said g) = C := by
  induction ws generalizing C with
  | nil => simp [saidAll, eq_comm]
  | cons w ws ih =>
    simp only [saidAll, Option.map₂_eq_some_iff, Option.mem_def, said_eq_some_iff, ih]
    constructor
    · rintro ⟨_, _, ⟨nodes, hnodes, rfl⟩, ⟨parts, hparts, rfl⟩, rfl⟩
      exact ⟨nodes :: parts, .cons hnodes hparts, by simp⟩
    · rintro ⟨_, hall, rfl⟩
      obtain ⟨nodes, parts, hnodes, hparts, rfl⟩ := List.forall₂_cons_left_iff.mp hall
      exact ⟨_, _, ⟨nodes, hnodes, rfl⟩, ⟨parts, hparts, rfl⟩, by simp⟩

theorem exists_parts_iff {ws : List (List Char)} :
    (∃ parts, List.Forall₂ (fun w part => machine w = .ok part) ws parts) ↔
      ∀ w ∈ ws, ∃ nodes, machine w = .ok nodes := by
  induction ws with
  | nil => simp
  | cons w ws ih =>
    rw [List.forall_mem_cons, ← ih]
    constructor
    · rintro ⟨_, hall⟩
      obtain ⟨nodes, parts, hnodes, hparts, rfl⟩ := List.forall₂_cons_left_iff.mp hall
      exact ⟨⟨nodes, hnodes⟩, parts, hparts⟩
    · rintro ⟨⟨nodes, hnodes⟩, parts, hparts⟩
      exact ⟨nodes :: parts, .cons hnodes hparts⟩

theorem said_id (n : Node) : n.said id = n.content := by
  unfold Node.said
  cases n.content <;> rfl

/-- The reader at the start of a line goes on with what the pieces from there on say. -/
theorem said_fromBreak (T : List Char) (i : Nat) (nodes : List Node) (a : Attempts) :
    (fromBreak ⟨i, T⟩ nodes a).said g =
      (saidAll g (pieces T)).map (nodes.reverse.map (Node.said g) ++ ·) := by
  induction T using cutInduction generalizing i nodes a with
  | last w hw =>
    rw [said_fromBreak_last hw, pieces_of_oneLine hw, saidAll_singleton, said_of_oneLine hw]
  | cut w x T hw hx ih =>
    have hend : AtLineEnd (x :: T) := by
      intro y hy
      obtain rfl : x = y := by simpa using hy
      exact hx
    have halong : Along (· = x :: T) ⟨i, w ++ x :: T⟩ ⟨0, w⟩ := ⟨hw, _, rfl, rfl⟩
    rw [pieces_cut hw hx, saidAll, said_of_oneLine hw]
    rcases fromBreak_along (g := g) hend halong nodes a with
      ⟨hnone, hstop⟩ | ⟨found, e, a', hfound, he, hlines⟩
    · rw [hnone, hstop, Option.map₂_none_left, Option.map_none]
    · rw [hfound, hlines, lines_crossing hx he, ih]
      cases saidAll g (pieces T) <;> simp

/-- **A text says what its pieces say.** -/
theorem said_pieces (T : List Char) : said g T = saidAll g (pieces T) := by
  rw [said, progress_eq, said_fromBreak]
  simp

/-- **A text says what its first line says, and then what the rest says.** -/
theorem said_cut (hw : OneLine w) (hx : isLineEnd x = true) (T : List Char) :
    said g (w ++ x :: T) = Option.map₂ (· ++ ·) (said g w) (said g T) := by
  rw [said_pieces, pieces_cut hw hx, saidAll, ← said_pieces]

end OneTape.Description
