import Mathlib.Data.List.Infix
import Mathlib.Data.List.TakeWhile
import Mathlib.Tactic.Common
import OneTape.Description.Grammar

/-!
# The parts of a line

What the readers of the grammar find at a place, in terms of the characters that follow it. The text
behind a part decides where the part ends, so every statement names what may follow.

Results:
* `skip_of_settled`, `settled_skip`: nothing is skipped exactly where neither a blank nor a comment
  begins, and after skipping this is so.
* `item_found_iff`: an item is a longest word of item characters.
* `text_of_uncommented`, `uncommented_of_text`: a text reaches up to the line end or to a comment.
* `keyword?_append`, `keyword?_eq_some`: the keyword of a header is read where its letters and the
  colon follow each other.
-/

namespace OneTape.Description

variable {i : Nat} {cs w rest : List Char} {s : String} {c e : Cursor}

/-! ## What follows -/

/-- The text does not go on with a character of the class. -/
def Stops (p : Char → Bool) (rest : List Char) : Prop := ∀ x ∈ rest.head?, p x = false

/-- The text is over, or its line is. -/
def AtLineEnd (rest : List Char) : Prop := ∀ x ∈ rest.head?, isLineEnd x = true

/-- The text is over, its line is, or a comma follows. -/
def AfterItem (rest : List Char) : Prop := ∀ x ∈ rest.head?, x = ',' ∨ isLineEnd x = true

theorem takeWhile_append_of_stops {p : Char → Bool} (hw : ∀ x ∈ w, p x = true)
    (hrest : Stops p rest) :
    (w ++ rest).takeWhile p = w := by
  rw [List.takeWhile_append_of_pos hw]
  cases rest with
  | nil => simp
  | cons x rest => simp [hrest x rfl]

theorem drop_length_takeWhile (p : Char → Bool) (cs : List Char) :
    cs.drop (cs.takeWhile p).length = cs.dropWhile p :=
  calc cs.drop (cs.takeWhile p).length
      = (cs.takeWhile p ++ cs.dropWhile p).drop (cs.takeWhile p).length := by
        rw [List.takeWhile_append_dropWhile]
    _ = cs.dropWhile p := List.drop_left

theorem stops_dropWhile (p : Char → Bool) (cs : List Char) : Stops p (cs.dropWhile p) := by
  intro x hx
  cases hd : cs.dropWhile p with
  | nil => simp [hd] at hx
  | cons y rest =>
    have hy := List.head_dropWhile_not (p := p) (l := cs) (by simp [hd])
    simp only [hd, List.head_cons, List.head?_cons, Option.mem_def, Option.some.injEq] at hy hx
    exact hx ▸ hy

theorem isGap_of_isLineEnd {x : Char} (h : isLineEnd x = true) : isGap x = false := by
  simp only [isLineEnd, Bool.or_eq_true, decide_eq_true_eq] at h
  rcases h with rfl | rfl <;> rfl

theorem isItemChar_of_isLineEnd {x : Char} (h : isLineEnd x = true) : isItemChar x = false := by
  simp [isItemChar, h]

theorem isGap_of_isItemChar {x : Char} (h : isItemChar x = true) : isGap x = false := by
  simp only [isItemChar, Bool.and_eq_true, Bool.not_eq_true'] at h
  exact h.2

theorem isLineEnd_of_isItemChar {x : Char} (h : isItemChar x = true) : isLineEnd x = false := by
  simp only [isItemChar, Bool.and_eq_true, Bool.not_eq_true'] at h
  exact h.1.2

theorem AtLineEnd.afterItem (h : AtLineEnd rest) : AfterItem rest := fun x hx => .inr (h x hx)

theorem AfterItem.stops (h : AfterItem rest) : Stops isItemChar rest := by
  intro x hx
  rcases h x hx with rfl | hx
  · rfl
  · exact isItemChar_of_isLineEnd hx

theorem afterItem_comma (rest : List Char) : AfterItem (',' :: rest) := by
  intro x hx
  obtain rfl : ',' = x := by simpa using hx
  exact .inl rfl

theorem atLineEnd_newline (rest : List Char) : AtLineEnd ('\n' :: rest) := by
  intro x hx
  obtain rfl : '\n' = x := by simpa using hx
  rfl

/-- A prefix of characters of a class lies in front of the place where the class stops. -/
theorem prefix_of_stops {p : Char → Bool} {u : List Char} (hu : ∀ x ∈ u, p x = true)
    (hrest : Stops p rest) (h : u <+: w ++ rest) : u <+: w := by
  induction w generalizing u with
  | nil =>
    cases u with
    | nil => exact List.prefix_rfl
    | cons x u =>
      obtain ⟨t, ht⟩ := h
      have hx : p x = false := hrest x (by rw [← List.nil_append rest, ← ht]; rfl)
      rw [hu x List.mem_cons_self] at hx
      cases hx
  | cons y w ih =>
    cases u with
    | nil => exact List.nil_prefix
    | cons x u =>
      obtain ⟨rfl, htail⟩ := List.cons_prefix_cons.mp h
      exact List.cons_prefix_cons.mpr ⟨rfl, ih (fun z hz => hu z (List.mem_cons_of_mem x hz)) htail⟩

/-! ## Skipping -/

/-- What begins a comment. -/
def commentSign : List Char := ['/', '/']

/-- Neither a blank nor a comment begins here. -/
structure Settled (rest : List Char) : Prop where
  gap : Stops isGap rest
  comment : ¬ commentSign <+: rest

theorem settled_cons {x : Char} (hgap : isGap x = false) (hslash : x ≠ '/') :
    Settled (x :: rest) where
  gap y hy := by
    obtain rfl : x = y := by simpa using hy
    exact hgap
  comment h := hslash (List.cons_prefix_cons.mp h).1.symm

theorem dropWhile_eq (p : Char → Bool) (c : Cursor) :
    c.dropWhile p = ⟨c.pos + (c.rest.takeWhile p).length, c.rest.dropWhile p⟩ := by
  rw [Cursor.dropWhile, Cursor.drop, drop_length_takeWhile]

theorem dropWhile_of_stops {p : Char → Bool} (h : Stops p rest) :
    (⟨i, rest⟩ : Cursor).dropWhile p = ⟨i, rest⟩ := by
  cases rest with
  | nil => rfl
  | cons x rest => simp [Cursor.dropWhile, Cursor.drop, h x rfl]

theorem skip_eq (c : Cursor) : skip c =
    if commentSign <+: c.rest.dropWhile isGap then (c.dropWhile isGap).dropWhile (!isLineEnd ·)
    else c.dropWhile isGap := by
  simp only [skip, dropWhile_eq, List.isPrefixOf_iff_prefix, commentSign]

/-- **Where nothing can be skipped, nothing is.** -/
theorem skip_of_settled (h : Settled rest) : skip ⟨i, rest⟩ = ⟨i, rest⟩ := by
  have hgap := dropWhile_of_stops (i := i) h.gap
  have hrest : rest.dropWhile isGap = rest := by
    have := congrArg Cursor.rest hgap
    rwa [dropWhile_eq] at this
  rw [skip_eq, hgap, if_neg]
  exact fun hc => h.comment (hrest ▸ hc)

theorem skip_blank (i : Nat) (rest : List Char) : skip ⟨i, ' ' :: rest⟩ = skip ⟨i + 1, rest⟩ := by
  have hdrop : (⟨i, ' ' :: rest⟩ : Cursor).dropWhile isGap =
      (⟨i + 1, rest⟩ : Cursor).dropWhile isGap := by
    have hblank : isGap ' ' = true := rfl
    rw [dropWhile_eq, dropWhile_eq]
    simp only [List.takeWhile_cons, List.dropWhile_cons, hblank, if_true, List.length_cons]
    congr 1
    omega
  have hrest := congrArg Cursor.rest hdrop
  simp only [dropWhile_eq] at hrest
  rw [skip_eq, skip_eq, hdrop]
  simp only [hrest]

theorem atLineEnd_dropWhile (cs : List Char) : AtLineEnd (cs.dropWhile (!isLineEnd ·)) := by
  intro x hx
  simpa using stops_dropWhile (!isLineEnd ·) cs x hx

theorem settled_of_atLineEnd (h : AtLineEnd rest) : Settled rest where
  gap x hx := isGap_of_isLineEnd (h x hx)
  comment := by
    rintro ⟨t, rfl⟩
    exact absurd (h '/' rfl) (by decide)

/-- A comment is skipped to the end of its line. -/
theorem atLineEnd_skip (h : commentSign <+: rest) : AtLineEnd (skip ⟨i, rest⟩).rest := by
  have hgap : Stops isGap rest := by
    obtain ⟨t, rfl⟩ := h
    intro x hx
    obtain rfl : '/' = x := by simpa [commentSign] using hx
    rfl
  have hdrop := dropWhile_of_stops (i := i) hgap
  have hrest : rest.dropWhile isGap = rest := by
    have := congrArg Cursor.rest hdrop
    rwa [dropWhile_eq] at this
  rw [skip_eq, if_pos (by rwa [hrest]), hdrop, dropWhile_eq]
  exact atLineEnd_dropWhile rest

/-- **After skipping, nothing is left to skip.** -/
theorem settled_skip (c : Cursor) : Settled (skip c).rest := by
  rw [skip_eq]
  split_ifs with h
  · rw [dropWhile_eq]
    exact settled_of_atLineEnd (atLineEnd_dropWhile _)
  · rw [dropWhile_eq]
    exact ⟨stops_dropWhile isGap _, h⟩

/-! ## Items -/

/-- The text can be an item: a word of item characters that is not taken for a comment. -/
structure IsItem (s : String) : Prop where
  ne_nil : s.toList ≠ []
  chars : ∀ x ∈ s.toList, isItemChar x = true
  comment : ¬ commentSign <+: s.toList

instance (s : String) : Decidable (IsItem s) :=
  decidable_of_iff (s.toList ≠ [] ∧ s.toList.all isItemChar = true ∧ ¬ commentSign <+: s.toList)
    ⟨fun h => ⟨h.1, List.all_eq_true.mp h.2.1, h.2.2⟩,
      fun h => ⟨h.ne_nil, List.all_eq_true.mpr h.chars, h.comment⟩⟩

/-- **An item is a longest word of item characters.** -/
theorem item_found_iff : (item c).found = some (s, e) ↔
    s.toList ≠ [] ∧ (∀ x ∈ s.toList, isItemChar x = true) ∧ Stops isItemChar e.rest ∧
      c.rest = s.toList ++ e.rest ∧ e.pos = c.pos + s.toList.length := by
  simp only [item, Trial.named]
  constructor
  · intro h
    split_ifs at h with hempty
    · cases h
    · simp only [Trial.read, Option.some.injEq, Prod.mk.injEq] at h
      obtain ⟨rfl, rfl⟩ := h
      simp only [String.toList_ofList, Cursor.drop, drop_length_takeWhile,
        List.takeWhile_append_dropWhile, and_true]
      exact ⟨by simpa using hempty, fun x hx => List.mem_takeWhile_imp hx, stops_dropWhile _ _⟩
  · rintro ⟨hne, hchars, hstops, hrest, hpos⟩
    have htake : c.rest.takeWhile isItemChar = s.toList := by
      rw [hrest, takeWhile_append_of_stops hchars hstops]
    rw [htake, if_neg (by simpa using hne)]
    simp [Trial.read, Cursor.drop, hrest, ← hpos]

theorem item_found_eq_none (h : Stops isItemChar c.rest) : (item c).found = none := by
  cases hf : (item c).found with
  | none => rfl
  | some p =>
    obtain ⟨hne, hchars, -, hrest, -⟩ :=
      item_found_iff.mp (show (item c).found = some (p.1, p.2) from hf)
    obtain ⟨x, t, hx⟩ := List.exists_cons_of_ne_nil hne
    have hstop : isItemChar x = false := h x (by simp [hrest, hx])
    rw [hchars x (by simp [hx])] at hstop
    cases hstop

theorem item_append (hs : IsItem s) (hrest : Stops isItemChar rest) :
    (item ⟨i, s.toList ++ rest⟩).found = some (s, ⟨i + s.toList.length, rest⟩) :=
  item_found_iff.mpr ⟨hs.ne_nil, hs.chars, hrest, rfl, rfl⟩

theorem slash_chars : ∀ x ∈ commentSign, isItemChar x = true := List.all_eq_true.mp rfl

theorem IsItem.settled (hs : IsItem s) (hrest : Stops isItemChar rest) :
    Settled (s.toList ++ rest) where
  gap := by
    obtain ⟨x, t, hx⟩ := List.exists_cons_of_ne_nil hs.ne_nil
    intro y hy
    obtain rfl : x = y := by simpa [hx] using hy
    exact isGap_of_isItemChar (hs.chars x (by simp [hx]))
  comment := fun h => hs.comment (prefix_of_stops slash_chars hrest h)

/-- What is read as an item where nothing can be skipped is one. -/
theorem isItem_of_found (hc : Settled c.rest) (h : (item c).found = some (s, e)) : IsItem s := by
  obtain ⟨hne, hchars, -, hrest, -⟩ := item_found_iff.mp h
  refine ⟨hne, hchars, fun hp => hc.comment ?_⟩
  rw [hrest]
  exact hp.trans (List.prefix_append _ _)

/-! ## Texts -/

/-- The characters stand on one line and hold no comment. -/
structure Uncommented (cs : List Char) : Prop where
  line : ∀ x ∈ cs, isLineEnd x = false
  comment : ¬ commentSign <:+: cs

theorem Uncommented.mono {ds : List Char} (h : Uncommented cs) (hd : ds <:+: cs) : Uncommented ds :=
  ⟨fun x hx => h.line x (hd.subset hx), fun hc => h.comment (hc.trans hd)⟩

theorem textLength_append (h : Uncommented cs) (hrest : AtLineEnd rest) (n : Nat) :
    textLength (cs ++ rest) n = n + cs.length := by
  induction cs generalizing n with
  | nil =>
    cases rest with
    | nil => rfl
    | cons x rest => simp [textLength, hrest x rfl]
  | cons x cs ih =>
    have hx : isLineEnd x = false := h.line x List.mem_cons_self
    have hslash : ¬ (x = '/' ∧ (cs ++ rest).head? = some '/') := by
      rintro ⟨rfl, hhead⟩
      cases cs with
      | nil => exact absurd (hrest '/' hhead) (by decide)
      | cons y cs =>
        obtain rfl : y = '/' := by simpa using hhead
        exact h.comment ⟨[], cs, rfl⟩
    have hcs : Uncommented cs := h.mono (List.suffix_cons x cs).isInfix
    rw [List.cons_append, textLength, if_neg (by simpa [hx] using hslash), ih hcs, List.length_cons]
    omega

theorem exists_uncommented_take (cs : List Char) (n : Nat) :
    ∃ k, textLength cs n = n + k ∧ Uncommented (cs.take k) := by
  induction cs generalizing n with
  | nil => exact ⟨0, rfl, by simp, by simp [commentSign]⟩
  | cons x cs ih =>
    rw [textLength]
    split_ifs with h
    · exact ⟨0, rfl, by simp, by simp [commentSign]⟩
    · obtain ⟨k, hk, htake⟩ := ih (n + 1)
      simp only [Bool.or_eq_true, Bool.and_eq_true, decide_eq_true_eq, not_or, not_and,
        Bool.not_eq_true] at h
      refine ⟨k + 1, by omega, fun y hy => ?_, fun hc => ?_⟩
      · rcases List.mem_cons.mp hy with rfl | hy
        · exact h.1
        · exact htake.line y hy
      · rcases List.infix_cons_iff.mp hc with hc | hc
        · -- a comment that begins here shows its second sign in the characters behind
          obtain ⟨rfl, hsecond⟩ := List.cons_prefix_cons.mp hc
          obtain ⟨t, ht⟩ := hsecond.trans (List.take_prefix k cs)
          exact h.2 rfl (by rw [← ht]; rfl)
        · exact htake.comment hc

/-- **A text is read up to the line end.** -/
theorem text_of_uncommented (hne : s.toList ≠ []) (h : Uncommented s.toList)
    (hrest : AtLineEnd rest) :
    (text ⟨i, s.toList ++ rest⟩).found = some (s, ⟨i + s.toList.length, rest⟩) := by
  have hlen : s.toList.length ≠ 0 := by simpa using hne
  simp only [text, Trial.named, textLength_append h hrest, Nat.zero_add, if_neg hlen]
  simp [Trial.read, Cursor.drop]

theorem text_eq_none (hrest : AtLineEnd rest) : (text ⟨i, rest⟩).found = none := by
  have hlen : textLength rest 0 = 0 := by
    have hnil : Uncommented ([] : List Char) := ⟨by simp, by simp [commentSign]⟩
    simpa using textLength_append hnil hrest 0
  simp [text, Trial.named, hlen, Trial.nothing]

/-- What is read as a text stands on one line, holds no comment, and begins where it was looked
for. -/
theorem uncommented_of_text (h : (text c).found = some (s, e)) :
    Uncommented s.toList ∧ s.toList <+: c.rest := by
  obtain ⟨k, hk, htake⟩ := exists_uncommented_take c.rest 0
  simp only [text, Trial.named] at h
  split_ifs at h with hzero
  · cases h
  · simp only [Trial.read, Option.some.injEq, Prod.mk.injEq] at h
    obtain ⟨rfl, -⟩ := h
    rw [hk, Nat.zero_add, String.toList_ofList]
    exact ⟨htake, List.take_prefix k c.rest⟩

/-! ## Keywords -/

theorem literal?_append (i : Nat) (word : String) (rest : List Char) :
    (⟨i, word.toList ++ rest⟩ : Cursor).literal? word = some ⟨i + word.toList.length, rest⟩ := by
  simp [Cursor.literal?, Cursor.drop]

theorem literal?_eq_some {word : String} (h : c.literal? word = some e) :
    c.rest = word.toList ++ e.rest ∧ e.pos = c.pos + word.toList.length := by
  unfold Cursor.literal? at h
  split_ifs at h with hp
  obtain ⟨t, ht⟩ := List.isPrefixOf_iff_prefix.mp hp
  cases h
  simp [Cursor.drop, ← ht]

theorem toList_colon : ":".toList = [':'] := rfl

theorem toList_comma : ",".toList = [','] := rfl

/-- A keyword is read where its letters and the colon follow each other. -/
theorem keyword?_append (i : Nat) (word : String) (rest : List Char) :
    keyword? word ⟨i, word.toList ++ ':' :: rest⟩ =
      some (skip ⟨i + word.toList.length + 1, rest⟩) := by
  have hcolon := literal?_append (i + word.toList.length) ":" rest
  simp only [toList_colon, List.singleton_append, List.length_singleton] at hcolon
  simp only [keyword?, literal?_append, Option.bind_eq_bind, Option.bind_some,
    skip_of_settled (settled_cons (x := ':') rfl (by decide)), hcolon, Option.pure_def]

/-- **A word in front of a comma or a line end is taken for a keyword only if it begins with the
keyword and the colon.** -/
theorem keyword?_eq_some {word : String} (hword : ∀ x ∈ word.toList, isItemChar x = true)
    (hw : ∀ x ∈ w, isItemChar x = true) (hrest : AfterItem rest)
    (h : keyword? word ⟨i, w ++ rest⟩ = some e) :
    ∃ tail, w = word.toList ++ ':' :: tail ∧
      e = skip ⟨i + word.toList.length + 1, tail ++ rest⟩ := by
  have hparts := h
  simp only [keyword?, Option.bind_eq_bind, Option.pure_def, Option.bind_eq_some_iff] at hparts
  obtain ⟨c₁, h₁, c₂, h₂, -⟩ := hparts
  obtain ⟨hsplit, hpos⟩ := literal?_eq_some h₁
  obtain ⟨tail, rfl⟩ := prefix_of_stops hword hrest.stops ⟨_, hsplit.symm⟩
  obtain rfl : c₁ = ⟨i + word.toList.length, tail ++ rest⟩ := by
    obtain ⟨p, r⟩ := c₁
    simp only [List.append_assoc, List.append_cancel_left_eq] at hsplit
    simp only at hpos
    rw [hpos, ← hsplit]
  obtain ⟨hcolon, -⟩ := literal?_eq_some h₂
  rw [toList_colon, List.singleton_append] at hcolon
  -- the colon follows at once, since a comment would have taken all that is left of the line
  have hcomment : ¬ commentSign <+: tail ++ rest := by
    intro hc
    have hend := atLineEnd_skip (i := i + word.toList.length) hc
    rw [hcolon] at hend
    exact absurd (hend ':' rfl) (by decide)
  have hgap : Stops isGap (tail ++ rest) := by
    intro x hx
    cases tail with
    | nil =>
      rcases hrest x hx with rfl | hx
      · rfl
      · exact isGap_of_isLineEnd hx
    | cons y tail =>
      obtain rfl : y = x := by simpa using hx
      exact isGap_of_isItemChar (hw y (by simp))
  rw [skip_of_settled ⟨hgap, hcomment⟩] at hcolon
  obtain ⟨tail', rfl⟩ : [':'] <+: tail :=
    prefix_of_stops (List.all_eq_true.mp rfl) hrest.stops ⟨c₂.rest, hcolon.symm⟩
  refine ⟨tail', rfl, ?_⟩
  have hsplit : word.toList ++ ([':'] ++ tail') ++ rest =
      word.toList ++ ':' :: (tail' ++ rest) := by simp
  rw [hsplit, keyword?_append] at h
  exact (Option.some.inj h).symm

end OneTape.Description
