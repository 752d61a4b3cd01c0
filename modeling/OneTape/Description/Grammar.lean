import OneTape.Description.Report

/-!
# The grammar of descriptions

A description is a sequence of lines, each of which is a header (`name:`, `init:`, `accept:`) or a
row of items separated by commas. Blanks, tabs and `//` comments between the parts of a line are
skipped, and lines without parts are allowed anywhere:

```text
machine = line end* (line (line end+ line)*)? line end* end of text
line    = name | init | accept | row
name    = "name" ":" text?
init    = "init" ":" item
accept  = "accept" ":" (item ("," item)*)?
row     = item ("," item)*
text    = one or more characters other than line ends, up to the first "//"
item    = one or more characters other than commas, line ends, blanks and tabs
```

Alternatives are tried in order and the first that can be read is taken for good. While it reads,
the grammar notes which parts it could not read and where. If a text is not a description, the parts
that could not be read at the furthest place are the reason.
-/

namespace OneTape.Description

/-! ## Failed attempts -/

/-- The parts of the grammar that a reason may name, in the order in which it names them. -/
inductive Part
  | endOfText
  | machine
  | name
  | init
  | accept
  | row
  | text
  | item
deriving DecidableEq, Inhabited

namespace Part

/-- How a reason names a part. -/
def label : Part → String
  | endOfText => "EOI"
  | machine => "machine"
  | name => "name"
  | init => "init"
  | accept => "accept"
  | row => "row"
  | text => "text"
  | item => "item"

/-- All parts in order. -/
def all : List Part := [endOfText, machine, name, init, accept, row, text, item]

end Part

/-- The parts that could not be read at the furthest place so far. -/
structure Attempts where
  pos : Nat
  failed : List Part
deriving DecidableEq, Inhabited

namespace Attempts

/-- Nothing has been tried. -/
def start : Attempts := ⟨0, []⟩

/-- The number of parts noted at a place. -/
def countAt (a : Attempts) (pos : Nat) : Nat := if a.pos = pos then a.failed.length else 0

/-- Notes that a part could not be read at a place. `before` is the number of parts noted there when
it was tried. A part takes the place of the parts tried inside it, unless there was just one. -/
def fail (a : Attempts) (part : Part) (pos before : Nat) : Attempts :=
  if a.countAt pos = before + 1 then a
  else if pos = a.pos then ⟨pos, a.failed.take before ++ [part]⟩
  else if pos > a.pos then ⟨pos, [part]⟩
  else a

/-- The parts expected at the furthest place, in words. -/
def reason (a : Attempts) : String :=
  let labels := (Part.all.filter a.failed.contains).map Part.label
  "expected " ++ match labels with
    | [] => ""
    | [a] => a
    | [a, b] => a ++ " or " ++ b
    | more => ", ".intercalate more.dropLast ++ ", or " ++ more.getLast?.getD ""

end Attempts

/-! ## Places -/

/-- A place in a text: the number of characters before it and the characters behind it. -/
structure Cursor where
  pos : Nat
  rest : List Char
deriving DecidableEq, Inhabited

namespace Cursor

/-- Goes on by a number of characters. -/
def drop (c : Cursor) (n : Nat) : Cursor := ⟨c.pos + n, c.rest.drop n⟩

/-- Goes on over the characters of a class. -/
def dropWhile (p : Char → Bool) (c : Cursor) : Cursor := c.drop (c.rest.takeWhile p).length

/-- Goes on over a literal text, if it stands here. -/
def literal? (c : Cursor) (text : String) : Option Cursor :=
  if text.toList.isPrefixOf c.rest then some (c.drop text.toList.length) else none

end Cursor

/-- Whether a character ends a line. -/
def isLineEnd (c : Char) : Bool := c = '\n' || c = '\r'

/-- Whether a character is skipped between the parts of a line. -/
def isGap (c : Char) : Bool := c = ' ' || c = '\t'

/-- Whether a character can be part of an item. -/
def isItemChar (c : Char) : Bool := c ≠ ',' && !isLineEnd c && !isGap c

/-- Skips blanks, tabs and a comment, which reaches to the end of its line. -/
def skip (c : Cursor) : Cursor :=
  let c := c.dropWhile isGap
  if ['/', '/'].isPrefixOf c.rest then c.dropWhile (!isLineEnd ·) else c

/-- Goes on over one line end, if one stands here. A carriage return and a line feed count as
one. -/
def lineEnd? (c : Cursor) : Option Cursor :=
  match c.rest with
  | '\r' :: '\n' :: _ => some (c.drop 2)
  | '\n' :: _ | '\r' :: _ => some (c.drop 1)
  | _ => none

/-! ## Parts of a line -/

/-- The outcome of trying to read a part: what was read with the place behind it, and what the try
adds to the failed attempts. -/
structure Trial (α : Type) where
  found : Option (α × Cursor)
  note : Attempts → Attempts

namespace Trial

/-- What was read, with the place behind it. -/
def read {α : Type} (value : α) (c : Cursor) : Trial α := ⟨some (value, c), id⟩

/-- Nothing could be read. -/
def nothing {α : Type} : Trial α := ⟨none, id⟩

/-- A trial followed by another one if nothing was found. -/
def orElse {α : Type} (t : Trial α) (other : Trial α) : Trial α :=
  match t.found with
  | some _ => t
  | none => ⟨other.found, fun a => other.note (t.note a)⟩

/-- A trial of a part that reasons may name. -/
def named {α : Type} (part : Part) (pos : Nat) (t : Trial α) : Trial α :=
  ⟨t.found, fun a =>
    match t.found with
    | some _ => t.note a
    | none => (t.note a).fail part pos (a.countAt pos)⟩

end Trial

/-- Reads an item. -/
def item (c : Cursor) : Trial String :=
  let chars := c.rest.takeWhile isItemChar
  Trial.named .item c.pos
    (if chars.isEmpty then .nothing else .read (String.ofList chars) (c.drop chars.length))

/-- The number of characters in front of the first line end or comment, added to `n`. -/
def textLength : List Char → Nat → Nat
  | [], n => n
  | c :: cs, n =>
    if isLineEnd c || (c = '/' && cs.head? = some '/') then n else textLength cs (n + 1)

/-- Reads the text behind `name:`. -/
def text (c : Cursor) : Trial String :=
  let length := textLength c.rest 0
  Trial.named .text c.pos
    (if length = 0 then .nothing else .read (String.ofList (c.rest.take length)) (c.drop length))

/-- Reads a comma and the item behind it. -/
def commaItem (c : Cursor) : Trial String :=
  match c.literal? "," with
  | some c => item (skip c)
  | none => .nothing

/-! ## Progress -/

theorem Cursor.drop_rest_length_le (c : Cursor) (n : Nat) :
    (c.drop n).rest.length ≤ c.rest.length := by
  simp [Cursor.drop]

theorem Cursor.dropWhile_rest_length_le (p : Char → Bool) (c : Cursor) :
    (c.dropWhile p).rest.length ≤ c.rest.length := c.drop_rest_length_le _

theorem skip_rest_length_le (c : Cursor) : (skip c).rest.length ≤ c.rest.length := by
  simp only [skip]
  split
  · exact Nat.le_trans (Cursor.dropWhile_rest_length_le _ _) (Cursor.dropWhile_rest_length_le _ _)
  · exact Cursor.dropWhile_rest_length_le _ _

theorem lineEnd?_rest_length_lt {c e : Cursor} (h : lineEnd? c = some e) :
    e.rest.length < c.rest.length := by
  unfold lineEnd? at h
  split at h
  · rename_i rest hr
    obtain rfl := Option.some.inj h
    simp only [Cursor.drop, List.length_drop, hr, List.length_cons]
    omega
  · rename_i rest hr
    obtain rfl := Option.some.inj h
    simp only [Cursor.drop, List.length_drop, hr, List.length_cons]
    omega
  · rename_i rest _ hr
    obtain rfl := Option.some.inj h
    simp only [Cursor.drop, List.length_drop, hr, List.length_cons]
    omega
  · simp at h

/-- An item has at least one character. -/
theorem item_rest_length_lt {c e : Cursor} {s : String} (h : (item c).found = some (s, e)) :
    e.rest.length < c.rest.length := by
  simp only [item, Trial.named] at h
  split at h
  · simp [Trial.nothing] at h
  · rename_i hne
    simp only [Trial.read, Option.some.injEq, Prod.mk.injEq] at h
    obtain ⟨-, rfl⟩ := h
    have hpos : 0 < (c.rest.takeWhile isItemChar).length := by
      simpa [List.length_pos_iff, List.isEmpty_iff] using hne
    have hle : (c.rest.takeWhile isItemChar).length ≤ c.rest.length :=
      (List.takeWhile_sublist _).length_le
    simp only [Cursor.drop, List.length_drop]
    omega

theorem Cursor.literal?_rest_length_le {c e : Cursor} {t : String} (h : c.literal? t = some e) :
    e.rest.length ≤ c.rest.length := by
  unfold Cursor.literal? at h
  split at h
  · simp only [Option.some.injEq] at h
    exact h ▸ c.drop_rest_length_le _
  · simp at h

theorem commaItem_rest_length_lt {c e : Cursor} {s : String}
    (h : (commaItem c).found = some (s, e)) : e.rest.length < c.rest.length := by
  unfold commaItem at h
  split at h
  · rename_i c' hc
    have h₁ := item_rest_length_lt h
    have h₂ := skip_rest_length_le c'
    have h₃ := Cursor.literal?_rest_length_le hc
    omega
  · simp [Trial.nothing] at h

/-! ## Lines -/

/-- What a line says. -/
inductive Content
  | name (text : String)
  | init (state : String)
  | accept (states : List String)
  | row (items : List String)
deriving DecidableEq, Inhabited

/-- A line with the stretch of text it was read from. -/
structure Node where
  content : Content
  span : Span
deriving DecidableEq, Inhabited

/-- Reads items behind commas, from the end of an item, and adds them to those read before. Blanks
behind the last item are given back. An item that is read leaves no failed attempt, so only the last
try adds to those. -/
def moreItems (c : Cursor) (items : List String) : Trial (List String) :=
  let t := commaItem (skip c)
  match _h : t.found with
  | none => ⟨some (items.reverse, c), t.note⟩
  | some (s, e) => moreItems e (s :: items)
termination_by c.rest.length
decreasing_by
  have h₁ := commaItem_rest_length_lt _h
  have h₂ := skip_rest_length_le c
  omega

/-- Reads items separated by commas. Blanks behind a single item are not given back. -/
def items (c : Cursor) : Trial (List String) :=
  let first := item c
  match first.found with
  | none => ⟨none, first.note⟩
  | some (s, e) =>
    let second := commaItem (skip e)
    match second.found with
    | none => ⟨some ([s], skip e), second.note⟩
    | some (s', e') => moreItems e' [s', s]

/-- Reads the keyword of a header with its colon, and skips what may be skipped behind it. -/
def keyword? (word : String) (c : Cursor) : Option Cursor := do
  let c ← c.literal? word
  let c ← (skip c).literal? ":"
  return skip c

/-- The node of what was read from a place on. -/
def Trial.node {α : Type} (t : Trial α) (start : Nat) (content : α → Content) : Trial Node :=
  ⟨t.found.map fun (value, e) => (⟨content value, ⟨start, e.pos⟩⟩, e), t.note⟩

/-- A trial that may find nothing. -/
def Trial.optional {α : Type} (t : Trial α) (value : α) (c : Cursor) : Trial α :=
  ⟨some (t.found.getD (value, c)), t.note⟩

/-- Reads a `name:` header. -/
def nameLine (c : Cursor) : Trial Node :=
  Trial.named .name c.pos <| match keyword? "name" c with
    | none => .nothing
    | some b => ((text b).optional "" b).node c.pos .name

/-- Reads an `init:` header. -/
def initLine (c : Cursor) : Trial Node :=
  Trial.named .init c.pos <| match keyword? "init" c with
    | none => .nothing
    | some b => (item b).node c.pos .init

/-- Reads an `accept:` header. -/
def acceptLine (c : Cursor) : Trial Node :=
  Trial.named .accept c.pos <| match keyword? "accept" c with
    | none => .nothing
    | some b => ((items b).optional [] b).node c.pos .accept

/-- Reads a row. -/
def rowLine (c : Cursor) : Trial Node :=
  Trial.named .row c.pos ((items c).node c.pos .row)

/-- Reads a line. -/
def line (c : Cursor) : Trial Node :=
  (nameLine c).orElse ((initLine c).orElse ((acceptLine c).orElse (rowLine c)))

/-! ## The whole text -/

/-- Goes on over line ends and what is skipped between them. -/
def emptyLines (c : Cursor) : Cursor :=
  match _h : lineEnd? (skip c) with
  | none => skip c
  | some e => emptyLines e
termination_by c.rest.length
decreasing_by
  have h₁ := lineEnd?_rest_length_lt _h
  have h₂ := skip_rest_length_le c
  omega

theorem Cursor.literal?_rest_length_lt {c e : Cursor} {t : String} (ht : t.toList ≠ [])
    (h : c.literal? t = some e) : e.rest.length < c.rest.length := by
  unfold Cursor.literal? at h
  split at h
  · rename_i hp
    simp only [Option.some.injEq] at h
    have hle := (List.isPrefixOf_iff_prefix.mp hp).length_le
    have hpos := List.length_pos_iff.mpr ht
    rw [← h]
    simp only [Cursor.drop, List.length_drop]
    omega
  · simp at h

theorem keyword?_rest_length_lt {c e : Cursor} {word : String} (hw : word.toList ≠ [])
    (h : keyword? word c = some e) : e.rest.length < c.rest.length := by
  simp only [keyword?, Option.bind_eq_bind, Option.pure_def, Option.bind_eq_some_iff,
    Option.some.injEq] at h
  obtain ⟨c₁, h₁, c₂, h₂, rfl⟩ := h
  have h₃ := Cursor.literal?_rest_length_lt hw h₁
  have h₄ := skip_rest_length_le c₁
  have h₅ := Cursor.literal?_rest_length_le h₂
  have h₆ := skip_rest_length_le c₂
  omega

theorem moreItems_rest_length_le {c e : Cursor} {before after : List String}
    (h : (moreItems c before).found = some (after, e)) : e.rest.length ≤ c.rest.length := by
  fun_induction moreItems c before with
  | case1 c before t ht =>
    simp only [Option.some.injEq, Prod.mk.injEq] at h
    exact h.2 ▸ Nat.le_refl _
  | case2 c before t s e' ht ih =>
    have h₁ := ih h
    have h₂ := commaItem_rest_length_lt ht
    have h₃ := skip_rest_length_le c
    omega

theorem items_rest_length_lt {c e : Cursor} {found : List String}
    (h : (items c).found = some (found, e)) : e.rest.length < c.rest.length := by
  unfold items at h
  simp only at h
  split at h
  · simp at h
  · rename_i s e₁ h₁
    have h₂ := item_rest_length_lt h₁
    have h₃ := skip_rest_length_le e₁
    split at h
    · simp only [Option.some.injEq, Prod.mk.injEq] at h
      rw [← h.2]
      omega
    · rename_i s' e₂ h₄
      have h₅ := commaItem_rest_length_lt h₄
      have h₆ := moreItems_rest_length_le h
      omega

theorem text_rest_length_le {c e : Cursor} {s : String} (h : (text c).found = some (s, e)) :
    e.rest.length ≤ c.rest.length := by
  simp only [text, Trial.named] at h
  split at h
  · simp [Trial.nothing] at h
  · simp only [Trial.read, Option.some.injEq, Prod.mk.injEq] at h
    exact h.2 ▸ c.drop_rest_length_le _

theorem Trial.node_found_eq_some {α : Type} {t : Trial α} {start : Nat} {content : α → Content}
    {n : Node} {e : Cursor} (h : (t.node start content).found = some (n, e)) :
    ∃ value, t.found = some (value, e) := by
  simp only [Trial.node, Option.map_eq_some_iff, Prod.mk.injEq] at h
  obtain ⟨⟨value, e'⟩, hf, -, rfl⟩ := h
  exact ⟨value, hf⟩

theorem nameLine_rest_length_lt {c e : Cursor} {n : Node}
    (h : (nameLine c).found = some (n, e)) : e.rest.length < c.rest.length := by
  simp only [nameLine, Trial.named] at h
  split at h
  · simp [Trial.nothing] at h
  · rename_i b hb
    have h₁ := keyword?_rest_length_lt (by decide) hb
    obtain ⟨value, hv⟩ := Trial.node_found_eq_some h
    simp only [Trial.optional, Option.some.injEq] at hv
    cases ht : (text b).found with
    | none =>
      rw [ht] at hv
      simp only [Option.getD_none, Prod.mk.injEq] at hv
      exact hv.2 ▸ h₁
    | some found =>
      rw [ht] at hv
      simp only [Option.getD_some] at hv
      subst hv
      have h₂ := text_rest_length_le ht
      omega

theorem initLine_rest_length_lt {c e : Cursor} {n : Node}
    (h : (initLine c).found = some (n, e)) : e.rest.length < c.rest.length := by
  simp only [initLine, Trial.named] at h
  split at h
  · simp [Trial.nothing] at h
  · rename_i b hb
    have h₁ := keyword?_rest_length_lt (by decide) hb
    obtain ⟨value, hv⟩ := Trial.node_found_eq_some h
    have h₂ := item_rest_length_lt hv
    omega

theorem acceptLine_rest_length_lt {c e : Cursor} {n : Node}
    (h : (acceptLine c).found = some (n, e)) : e.rest.length < c.rest.length := by
  simp only [acceptLine, Trial.named] at h
  split at h
  · simp [Trial.nothing] at h
  · rename_i b hb
    have h₁ := keyword?_rest_length_lt (by decide) hb
    obtain ⟨value, hv⟩ := Trial.node_found_eq_some h
    simp only [Trial.optional, Option.some.injEq] at hv
    cases ht : (items b).found with
    | none =>
      rw [ht] at hv
      simp only [Option.getD_none, Prod.mk.injEq] at hv
      exact hv.2 ▸ h₁
    | some found =>
      rw [ht] at hv
      simp only [Option.getD_some] at hv
      subst hv
      have h₂ := items_rest_length_lt ht
      omega

theorem rowLine_rest_length_lt {c e : Cursor} {n : Node}
    (h : (rowLine c).found = some (n, e)) : e.rest.length < c.rest.length := by
  obtain ⟨value, hv⟩ := Trial.node_found_eq_some h
  exact items_rest_length_lt hv

theorem Trial.orElse_found_eq_some {α : Type} {t u : Trial α} {p : α × Cursor}
    (h : (t.orElse u).found = some p) : t.found = some p ∨ u.found = some p := by
  unfold Trial.orElse at h
  split at h
  · exact Or.inl h
  · exact Or.inr h

/-- A line has at least one character. -/
theorem line_rest_length_lt {c e : Cursor} {n : Node} (h : (line c).found = some (n, e)) :
    e.rest.length < c.rest.length := by
  rcases Trial.orElse_found_eq_some h with h | h
  · exact nameLine_rest_length_lt h
  rcases Trial.orElse_found_eq_some h with h | h
  · exact initLine_rest_length_lt h
  rcases Trial.orElse_found_eq_some h with h | h
  · exact acceptLine_rest_length_lt h
  · exact rowLine_rest_length_lt h

theorem emptyLines_rest_length_le (c : Cursor) :
    (emptyLines c).rest.length ≤ c.rest.length := by
  fun_induction emptyLines c with
  | case1 c h => exact skip_rest_length_le c
  | case2 c e h ih =>
    have h₁ := lineEnd?_rest_length_lt h
    have h₂ := skip_rest_length_le c
    omega

/-- How far the lines of a text could be read: the lines, the place behind them and the empty lines
that follow, and the failed attempts. -/
structure Progress where
  nodes : List Node
  stop : Cursor
  attempts : Attempts

/-- Reads lines from the end of a line and adds them to those read before, the last first. -/
def lines (c : Cursor) (nodes : List Node) (a : Attempts) : Progress :=
  match _hl : lineEnd? (skip c) with
  | none => ⟨nodes.reverse, skip c, a⟩
  | some b =>
    let t := line (emptyLines b)
    match _ht : t.found with
    | none => ⟨nodes.reverse, emptyLines b, t.note a⟩
    | some (n, e) => lines e (n :: nodes) (t.note a)
termination_by c.rest.length
decreasing_by
  have h₁ := line_rest_length_lt _ht
  have h₂ := emptyLines_rest_length_le b
  have h₃ := lineEnd?_rest_length_lt _hl
  have h₄ := skip_rest_length_le c
  omega

/-- Reads as many lines from the start of a text as there are. -/
def progress (text : List Char) : Progress :=
  let start := emptyLines ⟨0, text⟩
  let first := line start
  match first.found with
  | none => ⟨[], start, first.note .start⟩
  | some (n, e) => lines e [n] (first.note .start)

/-- Reads the lines of a description, or says which attempts failed. -/
def machine (text : List Char) : Except Attempts (List Node) :=
  let p := progress text
  if p.stop.rest.isEmpty then
    .ok p.nodes
  else
    let atEnd := p.attempts.fail .endOfText p.stop.pos (p.attempts.countAt p.stop.pos)
    .error (atEnd.fail .machine 0 0)

end OneTape.Description
