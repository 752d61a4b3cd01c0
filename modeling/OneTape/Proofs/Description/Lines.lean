import OneTape.Description.Writer
import OneTape.Proofs.Description.Lexical

/-!
# The lines of a description

A line is *legible* if it says something that the grammar can have read: its items are items, its
name is a piece of a line, and a row does not begin like a header. Every line that is read is
legible, and a legible line that is written is read back.

Results:
* `items_append`, `isItem_of_items`: lists of items, written and read.
* `headers_of_beginsRow`, `beginsRow_of_headers`: which items are not taken for a header.
* `line_spell`: a legible line that was written is read back.
* `legible_of_line`: a line that is read is legible.
-/

namespace OneTape.Description

variable {i : Nat} {rest : List Char} {s : String} {ss before after : List String} {c e : Cursor}

/-! ## Lists of items -/

/-- Items behind a comma and a blank each. -/
def behindCommas (ss : List String) : List Char := ss.flatMap fun s => ',' :: ' ' :: s.toList

theorem behindCommas_cons (s : String) (ss : List String) :
    behindCommas (s :: ss) = ',' :: ' ' :: (s.toList ++ behindCommas ss) := by
  simp [behindCommas]

theorem toList_commaSeparated (s : String) (ss : List String) :
    (commaSeparated (s :: ss)).toList = s.toList ++ behindCommas ss := by
  induction ss generalizing s with
  | nil => simp [commaSeparated, behindCommas]
  | cons t ss ih =>
    rw [commaSeparated, String.intercalate_cons_cons, String.toList_append, String.toList_append,
      ← commaSeparated, ih, behindCommas_cons]
    simp

theorem afterItem_behindCommas (ss : List String) (hrest : AtLineEnd rest) :
    AfterItem (behindCommas ss ++ rest) := by
  cases ss with
  | nil => simpa [behindCommas] using hrest.afterItem
  | cons s ss =>
    rw [behindCommas_cons]
    exact afterItem_comma _

theorem settled_comma (rest : List Char) : Settled (',' :: rest) := settled_cons rfl (by decide)

theorem commaItem_append (hs : IsItem s) (hrest : Stops isItemChar rest) :
    (commaItem ⟨i, ',' :: ' ' :: (s.toList ++ rest)⟩).found =
      some (s, ⟨i + 2 + s.toList.length, rest⟩) := by
  have hcomma := literal?_append i "," (' ' :: (s.toList ++ rest))
  rw [toList_comma, List.singleton_append] at hcomma
  rw [commaItem, hcomma]
  show (item (skip ⟨i + 1, ' ' :: (s.toList ++ rest)⟩)).found = _
  rw [skip_blank, skip_of_settled (hs.settled hrest)]
  exact item_append hs hrest

theorem commaItem_eq_none (hrest : AtLineEnd rest) : (commaItem ⟨i, rest⟩).found = none := by
  unfold commaItem
  split
  · next c hc =>
    obtain ⟨hcomma, -⟩ := literal?_eq_some hc
    exact absurd (hrest ',' (by simp [show rest = _ from hcomma, toList_comma])) (by decide)
  · rfl

theorem isItem_of_commaItem (h : (commaItem c).found = some (s, e)) : IsItem s := by
  unfold commaItem at h
  split at h
  · exact isItem_of_found (settled_skip _) h
  · cases h

theorem moreItems_of_none (h : (commaItem (skip c)).found = none) :
    (moreItems c before).found = some (before.reverse, c) := by
  rw [moreItems]
  split
  · rfl
  · next hsome => cases h.symm.trans hsome

theorem moreItems_of_some (h : (commaItem (skip c)).found = some (s, e)) :
    moreItems c before = moreItems e (s :: before) := by
  rw [moreItems]
  split
  · next hnone => cases h.symm.trans hnone
  · next s' e' hsome =>
    obtain ⟨rfl, rfl⟩ := Prod.mk.inj (Option.some.inj (h.symm.trans hsome))
    rfl

theorem moreItems_append (hss : ∀ s ∈ ss, IsItem s) (hrest : AtLineEnd rest) :
    (moreItems ⟨i, behindCommas ss ++ rest⟩ before).found =
      some (before.reverse ++ ss, ⟨i + (behindCommas ss).length, rest⟩) := by
  induction ss generalizing i before with
  | nil =>
    have hnone := commaItem_eq_none (i := i) hrest
    rw [← skip_of_settled (settled_of_atLineEnd hrest)] at hnone
    rw [List.append_nil]
    exact moreItems_of_none hnone
  | cons s ss ih =>
    have hstops : Stops isItemChar (behindCommas ss ++ rest) :=
      (afterItem_behindCommas ss hrest).stops
    have hfound := commaItem_append (i := i) (hss s List.mem_cons_self) hstops
    rw [← skip_of_settled (settled_comma _)] at hfound
    have hlength : i + (behindCommas (s :: ss)).length =
        i + 2 + s.toList.length + (behindCommas ss).length := by
      simp only [behindCommas_cons, List.length_cons, List.length_append]
      omega
    rw [hlength, behindCommas_cons, List.cons_append, List.cons_append, List.append_assoc,
      moreItems_of_some hfound, ih fun t ht => hss t (List.mem_cons_of_mem s ht)]
    simp

theorem isItem_of_moreItems (h : (moreItems c before).found = some (after, e)) :
    ∃ more, after = before.reverse ++ more ∧ ∀ s ∈ more, IsItem s := by
  fun_induction moreItems c before with
  | case1 c before t ht =>
    obtain ⟨rfl, -⟩ : before.reverse = after ∧ c = e := by simpa using h
    exact ⟨[], by simp, by simp⟩
  | case2 c before t s e' ht ih =>
    obtain ⟨more, rfl, hmore⟩ := ih h
    refine ⟨s :: more, by simp, fun x hx => ?_⟩
    rcases List.mem_cons.mp hx with rfl | hx
    · exact isItem_of_commaItem ht
    · exact hmore x hx

/-- Items that are written are read. -/
theorem items_append (hs : IsItem s) (hss : ∀ t ∈ ss, IsItem t) (hrest : AtLineEnd rest) :
    (items ⟨i, s.toList ++ (behindCommas ss ++ rest)⟩).found =
      some (s :: ss, ⟨i + (s.toList ++ behindCommas ss).length, rest⟩) := by
  have hstops : Stops isItemChar (behindCommas ss ++ rest) :=
    (afterItem_behindCommas ss hrest).stops
  unfold items
  simp only [item_append hs hstops]
  cases ss with
  | nil =>
    simp only [behindCommas, List.flatMap_nil, List.nil_append, List.append_nil,
      skip_of_settled (settled_of_atLineEnd hrest), commaItem_eq_none hrest]
  | cons t ss =>
    have hstops : Stops isItemChar (behindCommas ss ++ rest) :=
      (afterItem_behindCommas ss hrest).stops
    simp only [behindCommas_cons, List.cons_append, List.append_assoc,
      skip_of_settled (settled_comma _), commaItem_append (hss t List.mem_cons_self) hstops,
      moreItems_append (fun x hx => hss x (List.mem_cons_of_mem t hx)) hrest]
    simp only [List.reverse_cons, List.reverse_nil, List.nil_append, List.cons_append,
      List.length_cons, List.length_append, Option.some.injEq, Prod.mk.injEq, Cursor.mk.injEq,
      and_true, true_and]
    omega

/-- What is read as items are items, and the first of them begins where they were looked for. -/
theorem isItem_of_items (hc : Settled c.rest) (h : (items c).found = some (ss, e)) :
    ∃ first others rest, ss = first :: others ∧ IsItem first ∧ (∀ s ∈ others, IsItem s) ∧
      c.rest = first.toList ++ rest ∧ Stops isItemChar rest := by
  unfold items at h
  simp only at h
  split at h
  · cases h
  · next s e₁ h₁ =>
    have hs := isItem_of_found hc h₁
    obtain ⟨-, -, hstops, hrest, -⟩ := item_found_iff.mp h₁
    split at h
    · obtain ⟨rfl, -⟩ : [s] = ss ∧ _ := by simpa using h
      exact ⟨s, [], e₁.rest, rfl, hs, by simp, hrest, hstops⟩
    · next s' e' h₂ =>
      obtain ⟨more, rfl, hmore⟩ := isItem_of_moreItems h
      refine ⟨s, s' :: more, e₁.rest, by simp, hs, fun x hx => ?_, hrest, hstops⟩
      rcases List.mem_cons.mp hx with rfl | hx
      · exact isItem_of_commaItem h₂
      · exact hmore x hx

/-! ## Legible lines -/

/-- The item can begin a row: it does not begin a header. The keyword `init:` begins one only if an
item follows it. -/
structure BeginsRow (s : String) : Prop where
  name : ¬ "name:".toList <+: s.toList
  accept : ¬ "accept:".toList <+: s.toList
  init : "init:".toList <+: s.toList → s.toList.drop 5 = [] ∨ commentSign <+: s.toList.drop 5

instance (s : String) : Decidable (BeginsRow s) :=
  decidable_of_iff (¬ "name:".toList <+: s.toList ∧ ¬ "accept:".toList <+: s.toList ∧
      ("init:".toList <+: s.toList → s.toList.drop 5 = [] ∨ commentSign <+: s.toList.drop 5))
    ⟨fun h => ⟨h.1, h.2.1, h.2.2⟩, fun h => ⟨h.name, h.accept, h.init⟩⟩

namespace Content

/-- The line says something that the grammar can have read. -/
def Legible : Content → Prop
  | .name text => Uncommented text.toList ∧ Stops isGap text.toList
  | .init state => IsItem state
  | .accept states => ∀ s ∈ states, IsItem s
  | .row [] => False
  | .row (first :: others) => IsItem first ∧ BeginsRow first ∧ ∀ s ∈ others, IsItem s

/-- How a header is written. -/
def spellHeader (word : String) (said : List Char) : List Char := word.toList ++ ':' :: ' ' :: said

/-- How the line is written. -/
def spell : Content → List Char
  | .name text => spellHeader "name" text.toList
  | .init state => spellHeader "init" state.toList
  | .accept states => spellHeader "accept" (commaSeparated states).toList
  | .row items => (commaSeparated items).toList

theorem spell_row (s : String) (ss : List String) :
    (row (s :: ss)).spell = s.toList ++ behindCommas ss := toList_commaSeparated s ss

end Content

theorem orElse_found {α : Type} (t u : Trial α) : (t.orElse u).found = t.found.or u.found := by
  unfold Trial.orElse
  cases h : t.found with
  | none => rfl
  | some p => simp [h]

theorem line_found (c : Cursor) : (line c).found = ((nameLine c).found.or ((initLine c).found.or
    ((acceptLine c).found.or (rowLine c).found))) := by
  simp only [line, orElse_found]

/-- The keyword of a header and the blank behind it are read. -/
theorem keyword?_header (word : String) (hrest : Settled rest) :
    keyword? word ⟨i, word.toList ++ ':' :: ' ' :: rest⟩ =
      some ⟨i + word.toList.length + 2, rest⟩ := by
  rw [keyword?_append, skip_blank, skip_of_settled hrest]

theorem settled_keyword? {word : String} (h : keyword? word c = some e) : Settled e.rest := by
  simp only [keyword?, Option.bind_eq_bind, Option.pure_def, Option.bind_eq_some_iff,
    Option.some.injEq] at h
  obtain ⟨c₁, -, c₂, -, rfl⟩ := h
  exact settled_skip _

theorem keyword?_eq_none {word : String} (h : ¬ word.toList <+: c.rest) :
    keyword? word c = none := by
  simp [keyword?, Cursor.literal?, List.isPrefixOf_iff_prefix, h]

/-! ## Reading a line that was written -/

/-- The trial finds a line that says this, in front of these characters. -/
def Finds (t : Trial Node) (content : Content) (rest : List Char) : Prop :=
  ∃ n e, t.found = some (n, e) ∧ n.content = content ∧ e.rest = rest

theorem nameLine_found (c : Cursor) : (nameLine c).found =
    (keyword? "name" c).bind fun b => (((text b).optional "" b).node c.pos .name).found := by
  unfold nameLine
  cases keyword? "name" c <;> rfl

theorem initLine_found (c : Cursor) : (initLine c).found =
    (keyword? "init" c).bind fun b => ((item b).node c.pos .init).found := by
  unfold initLine
  cases keyword? "init" c <;> rfl

theorem acceptLine_found (c : Cursor) : (acceptLine c).found =
    (keyword? "accept" c).bind fun b => (((items b).optional [] b).node c.pos .accept).found := by
  unfold acceptLine
  cases keyword? "accept" c <;> rfl

theorem rowLine_found (c : Cursor) : (rowLine c).found = ((items c).node c.pos .row).found := rfl

theorem node_found {α : Type} {t : Trial α} {start : Nat} {content : α → Content} {x : α}
    (h : t.found = some (x, e)) :
    (t.node start content).found = some (⟨content x, ⟨start, e.pos⟩⟩, e) := by
  simp [Trial.node, h]

theorem settled_text (hs : Uncommented s.toList) (hgap : Stops isGap s.toList)
    (hrest : AtLineEnd rest) :
    Settled (s.toList ++ rest) where
  gap := by
    cases htext : s.toList with
    | nil => exact (settled_of_atLineEnd hrest).gap
    | cons x t =>
      rw [htext] at hgap
      exact fun y hy => hgap y (by simpa using hy)
  comment hc := by
    have hsign : ∀ x ∈ commentSign, (!isLineEnd x) = true := List.all_eq_true.mp rfl
    have hstops : Stops (!isLineEnd ·) rest := fun x hx => by simp [hrest x hx]
    exact hs.comment (prefix_of_stops hsign hstops hc).isInfix

theorem nameLine_spell (h : (Content.name s).Legible) (hrest : AtLineEnd rest) :
    Finds (nameLine ⟨i, (Content.name s).spell ++ rest⟩) (.name s) rest := by
  obtain ⟨hcomment, hgap⟩ := h
  have hkey := keyword?_header (i := i) "name" (settled_text hcomment hgap hrest)
  have hspell : (Content.name s).spell ++ rest =
      "name".toList ++ ':' :: ' ' :: (s.toList ++ rest) :=
    List.append_assoc ..
  unfold Finds
  rw [hspell, nameLine_found, hkey, Option.bind_some]
  by_cases hne : s.toList = []
  · obtain rfl : s = "" := String.toList_injective hne
    have hnone := text_eq_none (i := i + "name".toList.length + 2) hrest
    exact ⟨_, _, node_found (by rw [Trial.optional, hne, List.nil_append, hnone]; rfl), rfl, rfl⟩
  · have hfound := text_of_uncommented (i := i + "name".toList.length + 2) hne hcomment hrest
    exact ⟨_, _, node_found (by rw [Trial.optional, hfound]; rfl), rfl, rfl⟩

theorem initLine_spell (h : IsItem s) (hrest : AtLineEnd rest) :
    Finds (initLine ⟨i, (Content.init s).spell ++ rest⟩) (.init s) rest := by
  have hstops := hrest.afterItem.stops
  have hspell : (Content.init s).spell ++ rest =
      "init".toList ++ ':' :: ' ' :: (s.toList ++ rest) :=
    List.append_assoc ..
  unfold Finds
  rw [hspell, initLine_found, keyword?_header "init" (h.settled hstops), Option.bind_some]
  exact ⟨_, _, node_found (item_append h hstops), rfl, rfl⟩

theorem items_eq_none (h : Stops isItemChar c.rest) : (items c).found = none := by
  simp [items, item_found_eq_none h]

theorem acceptLine_spell (h : ∀ s ∈ ss, IsItem s) (hrest : AtLineEnd rest) :
    Finds (acceptLine ⟨i, (Content.accept ss).spell ++ rest⟩) (.accept ss) rest := by
  have hspell : (Content.accept ss).spell ++ rest =
      "accept".toList ++ ':' :: ' ' :: ((commaSeparated ss).toList ++ rest) := List.append_assoc ..
  unfold Finds
  rw [hspell, acceptLine_found]
  cases ss with
  | nil =>
    have hempty : (commaSeparated []).toList ++ rest = rest := by simp [commaSeparated]
    have hnone := items_eq_none (c := ⟨i + "accept".toList.length + 2, rest⟩) hrest.afterItem.stops
    rw [hempty, keyword?_header "accept" (settled_of_atLineEnd hrest), Option.bind_some]
    exact ⟨_, _, node_found (by rw [Trial.optional, hnone]; rfl), rfl, rfl⟩
  | cons s ss =>
    have hs := h s List.mem_cons_self
    have hss : ∀ t ∈ ss, IsItem t := fun t ht => h t (List.mem_cons_of_mem s ht)
    have hstops := (afterItem_behindCommas ss hrest).stops
    have hfound := items_append (i := i + "accept".toList.length + 2) hs hss hrest
    rw [toList_commaSeparated, List.append_assoc, keyword?_header "accept" (hs.settled hstops),
      Option.bind_some]
    exact ⟨_, _, node_found (by rw [Trial.optional, hfound]; rfl), rfl, rfl⟩

theorem rowLine_spell (hs : IsItem s) (hss : ∀ t ∈ ss, IsItem t) (hrest : AtLineEnd rest) :
    Finds (rowLine ⟨i, (Content.row (s :: ss)).spell ++ rest⟩) (.row (s :: ss)) rest := by
  unfold Finds
  rw [Content.spell_row, List.append_assoc, rowLine_found]
  exact ⟨_, _, node_found (items_append hs hss hrest), rfl, rfl⟩

/-! ## Rows and headers -/

theorem keyword_chars : ∀ word ∈ ["name", "init", "accept"], ∀ x ∈ word.toList,
    isItemChar x = true := by
  have hall : ∀ word ∈ ["name", "init", "accept"], word.toList.all isItemChar = true := by decide
  exact fun word hword => List.all_eq_true.mp (hall word hword)

/-- An item that can begin a row is not taken for a header. -/
theorem headers_of_beginsRow (hs : IsItem s) (hb : BeginsRow s) (hrest : AfterItem rest) :
    (nameLine ⟨i, s.toList ++ rest⟩).found = none ∧ (initLine ⟨i, s.toList ++ rest⟩).found = none ∧
      (acceptLine ⟨i, s.toList ++ rest⟩).found = none := by
  refine ⟨?_, ?_, ?_⟩
  · rw [nameLine_found]
    cases hk : keyword? "name" ⟨i, s.toList ++ rest⟩ with
    | none => rfl
    | some e =>
      obtain ⟨tail, hsplit, -⟩ := keyword?_eq_some (keyword_chars _ (by simp)) hs.chars hrest hk
      exact absurd ⟨tail, hsplit.symm⟩ hb.name
  · rw [initLine_found]
    cases hk : keyword? "init" ⟨i, s.toList ++ rest⟩ with
    | none => rfl
    | some e =>
      obtain ⟨tail, hsplit, rfl⟩ := keyword?_eq_some (keyword_chars _ (by simp)) hs.chars hrest hk
      have hdrop : s.toList.drop 5 = tail := by rw [hsplit]; rfl
      -- what follows the keyword is no item: a comma, a line end or a comment
      have hstops : Stops isItemChar (skip ⟨i + "init".toList.length + 1, tail ++ rest⟩).rest := by
        rcases hb.init ⟨tail, hsplit.symm⟩ with hnil | hcomment
        · rw [hdrop] at hnil
          have hgap : Stops isGap rest :=
            fun x hx => (hrest x hx).elim (fun h => h ▸ rfl) isGap_of_isLineEnd
          have hslash : ¬ commentSign <+: rest := by
            rintro ⟨t, rfl⟩
            exact absurd (hrest '/' rfl) (by decide)
          rw [hnil, List.nil_append, skip_of_settled ⟨hgap, hslash⟩]
          exact hrest.stops
        · rw [hdrop] at hcomment
          exact (atLineEnd_skip (hcomment.trans (List.prefix_append _ _))).afterItem.stops
      rw [Option.bind_some, Trial.node, item_found_eq_none hstops]
      rfl
  · rw [acceptLine_found]
    cases hk : keyword? "accept" ⟨i, s.toList ++ rest⟩ with
    | none => rfl
    | some e =>
      obtain ⟨tail, hsplit, -⟩ := keyword?_eq_some (keyword_chars _ (by simp)) hs.chars hrest hk
      exact absurd ⟨tail, hsplit.symm⟩ hb.accept

/-- An item that is not taken for a header can begin a row. -/
theorem beginsRow_of_headers (hs : IsItem s) (hrest : Stops isItemChar rest)
    (hname : (nameLine ⟨i, s.toList ++ rest⟩).found = none)
    (hinit : (initLine ⟨i, s.toList ++ rest⟩).found = none)
    (haccept : (acceptLine ⟨i, s.toList ++ rest⟩).found = none) : BeginsRow s where
  name := by
    rintro ⟨tail, hsplit⟩
    have hkey := keyword?_append i "name" (tail ++ rest)
    have htext : s.toList ++ rest = "name".toList ++ ':' :: (tail ++ rest) := by rw [← hsplit]; rfl
    rw [htext, nameLine_found, hkey, Option.bind_some, Trial.node, Trial.optional] at hname
    cases hname
  accept := by
    rintro ⟨tail, hsplit⟩
    have hkey := keyword?_append i "accept" (tail ++ rest)
    have htext : s.toList ++ rest = "accept".toList ++ ':' :: (tail ++ rest) := by
      rw [← hsplit]
      rfl
    rw [htext, acceptLine_found, hkey, Option.bind_some, Trial.node, Trial.optional] at haccept
    cases haccept
  init := by
    rintro ⟨tail, hsplit⟩
    obtain ⟨state, rfl⟩ : ∃ state : String, state.toList = tail :=
      ⟨String.ofList tail, String.toList_ofList⟩
    have hdrop : s.toList.drop 5 = state.toList := by rw [← hsplit]; rfl
    rw [hdrop]
    by_contra hno
    obtain ⟨hne, hcomment⟩ := not_or.mp hno
    -- the rest of the item would have been read as the initial state
    have hitem : IsItem state :=
      ⟨hne, fun x hx => hs.chars x (by rw [← hsplit]; exact List.mem_append_right _ hx), hcomment⟩
    have hkey := keyword?_append i "init" (state.toList ++ rest)
    have htext : s.toList ++ rest = "init".toList ++ ':' :: (state.toList ++ rest) := by
      rw [← hsplit]
      rfl
    rw [htext, initLine_found, hkey, Option.bind_some, skip_of_settled (hitem.settled hrest),
      node_found (item_append hitem hrest)] at hinit
    cases hinit

/-! ## Lines -/

/-- **A legible line that was written is read back.** -/
theorem line_spell {content : Content} (h : content.Legible) (hrest : AtLineEnd rest) :
    Finds (line ⟨i, content.spell ++ rest⟩) content rest := by
  cases content with
  | name text =>
    obtain ⟨n, e, hfound, hn⟩ := nameLine_spell (i := i) h hrest
    exact ⟨n, e, by rw [line_found, hfound, Option.some_or], hn⟩
  | init state =>
    obtain ⟨n, e, hfound, hn⟩ := initLine_spell (i := i) h hrest
    have hname : keyword? "name" ⟨i, (Content.init state).spell ++ rest⟩ = none :=
      keyword?_eq_none (by simp [Content.spell, Content.spellHeader])
    refine ⟨n, e, ?_, hn⟩
    rw [line_found, nameLine_found, hname, Option.bind_none, Option.none_or, hfound, Option.some_or]
  | accept states =>
    obtain ⟨n, e, hfound, hn⟩ := acceptLine_spell (i := i) h hrest
    have hname : keyword? "name" ⟨i, (Content.accept states).spell ++ rest⟩ = none :=
      keyword?_eq_none (by simp [Content.spell, Content.spellHeader])
    have hinit : keyword? "init" ⟨i, (Content.accept states).spell ++ rest⟩ = none :=
      keyword?_eq_none (by simp [Content.spell, Content.spellHeader])
    refine ⟨n, e, ?_, hn⟩
    rw [line_found, nameLine_found, hname, Option.bind_none, Option.none_or, initLine_found, hinit,
      Option.bind_none, Option.none_or, hfound, Option.some_or]
  | row items =>
    cases items with
    | nil => exact absurd h id
    | cons s ss =>
      obtain ⟨hs, hb, hss⟩ := h
      obtain ⟨n, e, hfound, hn⟩ := rowLine_spell (i := i) hs hss hrest
      obtain ⟨hname, hinit, haccept⟩ :=
        headers_of_beginsRow (i := i) hs hb (afterItem_behindCommas ss hrest)
      refine ⟨n, e, ?_, hn⟩
      rw [Content.spell_row, List.append_assoc] at hfound ⊢
      rw [line_found, hname, hinit, haccept, hfound]
      rfl

theorem legible_of_nameLine {n : Node} (h : (nameLine c).found = some (n, e)) :
    n.content.Legible := by
  rw [nameLine_found, Option.bind_eq_some_iff] at h
  obtain ⟨b, hb, h⟩ := h
  have hsettled := settled_keyword? hb
  cases ht : (text b).found with
  | none =>
    rw [node_found (x := "") (e := b) (by rw [Trial.optional, ht]; rfl)] at h
    cases h
    exact ⟨⟨by simp, by simp [commentSign]⟩, by simp [Stops]⟩
  | some found =>
    rw [node_found (x := found.1) (e := found.2) (by rw [Trial.optional, ht]; rfl)] at h
    cases h
    obtain ⟨hcomment, htext⟩ :=
      uncommented_of_text (show (text b).found = some (found.1, found.2) from ht)
    refine ⟨hcomment, fun x hx => hsettled.gap x ?_⟩
    obtain ⟨rest, hrest⟩ := htext
    rw [← hrest, List.head?_append, Option.mem_def.mp hx]
    rfl

theorem legible_of_initLine {n : Node} (h : (initLine c).found = some (n, e)) :
    n.content.Legible := by
  rw [initLine_found, Option.bind_eq_some_iff] at h
  obtain ⟨b, hb, h⟩ := h
  obtain ⟨state, hstate⟩ := Trial.node_found_eq_some h
  rw [node_found hstate] at h
  cases h
  exact isItem_of_found (settled_keyword? hb) hstate

theorem legible_of_acceptLine {n : Node} (h : (acceptLine c).found = some (n, e)) :
    n.content.Legible := by
  rw [acceptLine_found, Option.bind_eq_some_iff] at h
  obtain ⟨b, hb, h⟩ := h
  cases ht : (items b).found with
  | none =>
    rw [node_found (x := []) (e := b) (by rw [Trial.optional, ht]; rfl)] at h
    cases h
    exact fun s hs => absurd hs (List.not_mem_nil)
  | some found =>
    rw [node_found (x := found.1) (e := found.2) (by rw [Trial.optional, ht]; rfl)] at h
    cases h
    obtain ⟨first, others, -, hfound, hfirst, hothers, -⟩ :=
      isItem_of_items (settled_keyword? hb) (show (items b).found = some (found.1, found.2) from ht)
    intro s hs
    rw [hfound] at hs
    rcases List.mem_cons.mp hs with rfl | hs
    · exact hfirst
    · exact hothers s hs

/-- **A line that is read is legible.** -/
theorem legible_of_line {n : Node} (hc : Settled c.rest) (h : (line c).found = some (n, e)) :
    n.content.Legible := by
  rw [line_found] at h
  cases hname : (nameLine c).found with
  | some p =>
    rw [hname, Option.some_or, Option.some.injEq] at h
    exact legible_of_nameLine (h ▸ hname)
  | none =>
    rw [hname, Option.none_or] at h
    cases hinit : (initLine c).found with
    | some p =>
      rw [hinit, Option.some_or, Option.some.injEq] at h
      exact legible_of_initLine (h ▸ hinit)
    | none =>
      rw [hinit, Option.none_or] at h
      cases haccept : (acceptLine c).found with
      | some p =>
        rw [haccept, Option.some_or, Option.some.injEq] at h
        exact legible_of_acceptLine (h ▸ haccept)
      | none =>
        rw [haccept, Option.none_or, rowLine_found] at h
        obtain ⟨ss, hitems⟩ := Trial.node_found_eq_some h
        rw [node_found hitems] at h
        cases h
        obtain ⟨first, others, rest, rfl, hfirst, hothers, hrest, hstops⟩ :=
          isItem_of_items hc hitems
        obtain ⟨i, _⟩ := c
        obtain rfl : _ = first.toList ++ rest := hrest
        exact ⟨hfirst, beginsRow_of_headers hfirst hstops hname hinit haccept, hothers⟩

end OneTape.Description
